import MyLeveldb.SkipList.Invariant
import MyLeveldb.Support.Machines.Lockstep

/-!
# SkipList — Refinement

A client holds one list and any number of iterators over it, and interleaves insertions, lookups
and iterator operations in any way.  The reference holds the set of the keys inserted so far and,
for each iterator, the key it is on; it has no heights, no nodes and no order of insertion.

The `…_lands` lemmas say where each iterator operation ends; `step_follows` is the step of the
simulation.

`skipList_refines_set`: on every sequence of operations that keeps to the code's `assert`s, the
list answers every operation as the set does.
-/

namespace Leveldb.SkipList

open Levels (level Descent)
open ThreeWay Lockstep

variable {Key : Type} {l l' : SkipList Key} {es as bs : List (Entry Key)} {cmp : Key → Key → Int}

/-! ### The client's operations -/

/-- An operation of a client; iterators are numbered. -/
inductive Op (Key : Type) where
  /-- `insert(k)`, with `h` for the height it draws -/
  | insert (k : Key) (h : Nat)
  | contains (k : Key)
  /-- `Iterator(list)` -/
  | iterator (i : Nat)
  /-- `valid()`, and `key()` if it is -/
  | read (i : Nat)
  | seek (i : Nat) (t : Key)
  | seekToFirst (i : Nat)
  | seekToLast (i : Nat)
  | next (i : Nat)
  | prev (i : Nat)

/-- What a client observes: an answer of `contains`, or where an iterator is. -/
inductive Obs (Key : Type) where
  | done
  | found (b : Bool)
  | on (k : Option Key)

/-- A list and the iterators over it. -/
structure Session (Key : Type) where
  list : SkipList Key
  its : Nat → Iterator

namespace Session

/-- `valid() ? key() : none`. -/
def position (l : SkipList Key) (it : Iterator) : Except Fault (Option Key) :=
  if it.valid then do
    let k ← it.key l
    .ok (some k)
  else .ok none

/-- Iterator `i` becomes `it`; the client reads where it is. -/
def place (s : Session Key) (i : Nat) (it : Iterator) : Except Fault (Session Key × Obs Key) := do
  let p ← position s.list it
  .ok ({ s with its := Function.update s.its i it }, .on p)

def step (compare_ : Compare Key) (s : Session Key) : Op Key → Except Fault (Session Key × Obs Key)
  | .insert k h => do
      let l ← insertAt compare_ h k s.list
      .ok ({ s with list := l }, .done)
  | .contains k => do
      let b ← s.list.contains compare_ k
      .ok (s, .found b)
  | .iterator i => s.place i Iterator.new
  | .read i => s.place i (s.its i)
  | .seek i t => do
      let it ← Iterator.seek compare_ s.list t
      s.place i it
  | .seekToFirst i => do
      let it ← Iterator.seekToFirst s.list
      s.place i it
  | .seekToLast i => do
      let it ← Iterator.seekToLast s.list
      s.place i it
  | .next i => do
      let it ← (s.its i).next s.list
      s.place i it
  | .prev i => do
      let it ← (s.its i).prev compare_ s.list
      s.place i it

/-- A fresh list, and iterators that are on no key. -/
def new (Key : Type) : Except Fault (Session Key) := do
  let l ← SkipList.new Key
  .ok { list := l, its := fun _ => Iterator.new }

end Session

/-! ### The reference -/

/-- A set of keys, and the key each iterator is on. -/
structure Ref (Key : Type) where
  keys : Set Key
  at_ : Nat → Option Key

namespace Ref

/-- No key, and iterators that are on none. -/
def empty (Key : Type) : Ref Key := { keys := ∅, at_ := fun _ => none }

def place (r : Ref Key) (i : Nat) (p : Option Key) : Ref Key × Obs Key :=
  ({ r with at_ := Function.update r.at_ i p }, .on p)

open Classical in
noncomputable def step (cmp : Key → Key → Int) (r : Ref Key) : Op Key → Ref Key × Obs Key
  | .insert k _     => ({ r with keys := Set.insert k r.keys }, .done)
  | .contains k     => (r, .found (decide (k ∈ r.keys)))
  | .iterator i     => r.place i none
  | .read i         => r.place i (r.at_ i)
  | .seek i t       => r.place i (least cmp {k ∈ r.keys | cmp t k ≤ 0})
  | .seekToFirst i  => r.place i (least cmp r.keys)
  | .seekToLast i   => r.place i (greatest cmp r.keys)
  | .next i         => r.place i ((r.at_ i).bind fun c => least cmp {k ∈ r.keys | cmp c k < 0})
  | .prev i         => r.place i ((r.at_ i).bind fun c => greatest cmp {k ∈ r.keys | cmp k c < 0})

/-- What the code's `assert`s ask of the client, and what `randomHeight` promises. -/
def Pre (r : Ref Key) : Op Key → Prop
  | .insert k h        => k ∉ r.keys ∧ 1 ≤ h ∧ h ≤ kMaxHeight
  | .next i | .prev i  => (r.at_ i).isSome
  | _                  => True

end Ref

/-! ### The relation between the two -/

/-- The keys of `es`. -/
def keySet (es : List (Entry Key)) : Set Key := {k | k ∈ es.map Entry.key}

/-- Membership after `Ref.step` has inserted: `insert` is the list's own in this namespace. -/
theorem mem_setInsert {a b : Key} {S : Set Key} : b ∈ Set.insert a S ↔ b = a ∨ b ∈ S :=
  Set.mem_insert_iff

theorem keySet_insert {e : Entry Key} :
    keySet (as ++ e :: bs) = Set.insert e.key (keySet (as ++ bs)) := by
  ext x
  rw [mem_setInsert]
  simp only [keySet, Set.mem_ofPred_eq, List.map_append, List.map_cons, List.mem_append,
    List.mem_cons]
  tauto

/-- The iterator is on the entry of key `p`, or on none. -/
def On (es : List (Entry Key)) (it : Iterator) (p : Option Key) : Prop :=
  (it.node_ = none ∧ p = none) ∨ ∃ e ∈ es, it.node_ = some e.ptr ∧ p = some e.key

structure Refines (cmp : Key → Key → Int) (s : Session Key) (r : Ref Key)
    (es : List (Entry Key)) : Prop where
  sorted : Sorted cmp s.list es
  keys : r.keys = keySet es
  on : ∀ i, On es (s.its i) (r.at_ i)

/-- The iterator on the first entry of `bs`, or on none. -/
theorem on_head? (h : ∀ e ∈ bs, e ∈ es) :
    On es { node_ := bs.head?.map Entry.ptr } (bs.map Entry.key).head? := by
  cases bs with
  | nil => exact .inl ⟨rfl, rfl⟩
  | cons b bs => exact .inr ⟨b, h b (by simp), rfl, rfl⟩

/-- `unlessHead` turns the last node of `as` into an iterator on it, or on none. -/
theorem on_unlessHead (hl : Holds l es) (h : ∀ e ∈ as, e ∈ es) :
    On es (Iterator.unlessHead l (l.lastPtr as)) (as.map Entry.key).getLast? := by
  rcases List.eq_nil_or_concat as with rfl | ⟨as, e, rfl⟩
  · exact .inl ⟨by simp [Iterator.unlessHead], rfl⟩
  · rw [List.concat_eq_append] at *
    have he : e ∈ es := h e (by simp)
    refine .inr ⟨e, he, ?_, by simp⟩
    rw [lastPtr_concat, Iterator.unlessHead, if_neg (hl.head_ne he)]

theorem position_of_on (hl : Holds l es) {it : Iterator} {p : Option Key} (h : On es it p) :
    Session.position l it = .ok p := by
  rcases h with ⟨hn, rfl⟩ | ⟨e, he, hn, rfl⟩
  · simp [Session.position, Iterator.valid, hn]
  · simp [Session.position, Iterator.valid, Iterator.key, hn, hl.key_eq e he]

/-- Placing the two iterators alike. -/
theorem place_follows {s : Session Key} {r : Ref Key} (h : Refines cmp s r es) {i : Nat}
    {it : Iterator} {p : Option Key} (ho : On es it p) :
    ∃ s', s.place i it = .ok (s', (r.place i p).2) ∧ Refines cmp s' (r.place i p).1 es := by
  refine ⟨{ s with its := Function.update s.its i it }, ?_, h.sorted, h.keys, fun j => ?_⟩
  · rw [Session.place, position_of_on h.sorted.toHolds ho]
    rfl
  · show On es (Function.update s.its i it j) (Function.update r.at_ i p j)
    by_cases e : j = i
    · subst e
      rw [Function.update_self, Function.update_self]
      exact ho
    · rw [Function.update_of_ne e, Function.update_of_ne e]
      exact h.on j

/-! ### What the searches find in the set -/

theorem Sorted.keys_sorted (h : Sorted cmp l es) : (es.map Entry.key).Pairwise (cmp · · < 0) :=
  List.pairwise_map.mpr h.sorted

theorem least_keySet (hc : IsStrict cmp) (h : Sorted cmp l (as ++ bs)) {S : Set Key}
    (hS : S = {k | k ∈ bs.map Entry.key}) : least cmp S = (bs.map Entry.key).head? := by
  have := h.keys_sorted
  rw [List.map_append] at this
  rw [hS]
  exact least_of_sorted hc (List.pairwise_append.mp this).2.1

theorem greatest_keySet (hc : IsStrict cmp) (h : Sorted cmp l (as ++ bs)) {S : Set Key}
    (hS : S = {k | k ∈ as.map Entry.key}) : greatest cmp S = (as.map Entry.key).getLast? := by
  have := h.keys_sorted
  rw [List.map_append] at this
  rw [hS]
  exact greatest_of_sorted hc (List.pairwise_append.mp this).1

/-- The keys a cut leaves on its right, as a set. -/
theorem keySet_right {P : Key → Prop} (hlow : ∀ e ∈ as, ¬ P e.key) (hhigh : ∀ e ∈ bs, P e.key) :
    {k ∈ keySet (as ++ bs) | P k} = {k | k ∈ bs.map Entry.key} := by
  ext k
  simp only [keySet, Set.mem_ofPred_eq, List.mem_map, List.mem_append]
  constructor
  · rintro ⟨⟨e, he | he, rfl⟩, hP⟩
    · exact absurd hP (hlow e he)
    · exact ⟨e, he, rfl⟩
  · rintro ⟨e, he, rfl⟩
    exact ⟨⟨e, .inr he, rfl⟩, hhigh e he⟩

/-- The keys a cut leaves on its left, as a set. -/
theorem keySet_left {P : Key → Prop} (hlow : ∀ e ∈ as, P e.key) (hhigh : ∀ e ∈ bs, ¬ P e.key) :
    {k ∈ keySet (as ++ bs) | P k} = {k | k ∈ as.map Entry.key} := by
  ext k
  simp only [keySet, Set.mem_ofPred_eq, List.mem_map, List.mem_append]
  constructor
  · rintro ⟨⟨e, he | he, rfl⟩, hP⟩
    · exact ⟨e, he, rfl⟩
    · exact absurd hP (hhigh e he)
  · rintro ⟨e, he, rfl⟩
    exact ⟨⟨e, .inl he, rfl⟩, hlow e he⟩

/-- The entries around one of a sorted list. -/
theorem Sorted.around {e : Entry Key} (h : Sorted cmp l (as ++ e :: bs)) :
    (∀ a ∈ as, cmp a.key e.key < 0) ∧ ∀ b ∈ bs, cmp e.key b.key < 0 := by
  obtain ⟨-, hbs, hcross⟩ := List.pairwise_append.mp h.sorted
  exact ⟨fun a ha => hcross a ha e (by simp), (List.pairwise_cons.mp hbs).1⟩

theorem contains_follows (hc : IsStrict cmp) (h : Sorted cmp l es) (k : Key) :
    ∃ b, l.contains (.ofInt cmp) k = .ok b ∧ (b = true ↔ k ∈ keySet es) := by
  obtain ⟨as, bs, pre, rfl, hcut, hfind⟩ :=
    findEqualOrGreater_cut h.toShape (decides_ofInt cmp k _)
  obtain ⟨hlow, hhigh⟩ := h.split hc.toIsPreorder hcut.descent h.cur_pos
  have hself := hc.self k
  have hnot : k ∉ as.map Entry.key := by
    rintro hk
    obtain ⟨e, he, rfl⟩ := List.mem_map.mp hk
    have := hlow e he
    omega
  cases bs with
  | nil =>
      refine ⟨false, by simp [SkipList.contains, isAt, hfind], ?_⟩
      simpa [keySet] using hnot
  | cons e bs =>
      refine ⟨decide (cmp e.key k = 0), ?_, ?_⟩
      · simp [SkipList.contains, isAt, hfind, h.key_eq e (by simp), Compare.ofInt]
      · have hbs : k ∉ bs.map Entry.key := by
          rintro hk
          obtain ⟨b, hb, rfl⟩ := List.mem_map.mp hk
          have h₁ := h.around.2 b hb
          have h₂ := hhigh e (by simp)
          omega
        rw [decide_eq_true_iff]
        simp only [keySet, Set.mem_ofPred_eq, List.map_append, List.map_cons, List.mem_append,
          List.mem_cons]
        constructor
        · exact fun h0 => .inr (.inl (hc.eq_of_tie _ _ h0).symm)
        · rintro (hk | rfl | hk)
          · exact absurd hk hnot
          · exact hself
          · exact absurd hk hbs

/-! ### Where the iterator operations end -/

theorem seek_lands (hc : IsStrict cmp) (h : Sorted cmp l es) (t : Key) :
    ∃ it, Iterator.seek (.ofInt cmp) l t = .ok it ∧
      On es it (least cmp {k ∈ keySet es | cmp t k ≤ 0}) := by
  obtain ⟨as, bs, pre, rfl, hcut, hfind⟩ :=
    findEqualOrGreater_cut h.toShape (decides_ofInt cmp t _)
  obtain ⟨hlow, hhigh⟩ := h.split hc.toIsPreorder hcut.descent h.cur_pos
  have hset : {k ∈ keySet (as ++ bs) | cmp t k ≤ 0} = {k | k ∈ bs.map Entry.key} := by
    refine keySet_right (fun e he hle => ?_) fun e he => (hc.flip_le t e.key).mpr (hhigh e he)
    have h₁ := hlow e he
    have h₂ := (hc.flip_le t e.key).mp hle
    omega
  refine ⟨_, by rw [Iterator.seek, hfind, ok_bind], ?_⟩
  rw [least_keySet hc h hset]
  exact on_head? fun e he => List.mem_append_right _ he

theorem seekToFirst_lands (hc : IsStrict cmp) (h : Sorted cmp l es) :
    ∃ it, Iterator.seekToFirst l = .ok it ∧ On es it (least cmp (keySet es)) := by
  have hsorted : Sorted cmp l ([] ++ es) := h
  have hload := hsorted.toShape.next_zero
  rw [lastPtr_nil] at hload
  refine ⟨_, by rw [Iterator.seekToFirst, hload, ok_bind], ?_⟩
  have hleast : least cmp (keySet es) = _ := least_keySet hc hsorted rfl
  rw [hleast]
  exact on_head? fun e he => he

theorem seekToLast_lands (hc : IsStrict cmp) (h : Sorted cmp l es) :
    ∃ it, Iterator.seekToLast l = .ok it ∧ On es it (greatest cmp (keySet es)) := by
  have hsorted : Sorted cmp l (es ++ []) := by simpa using h
  refine ⟨_, by rw [Iterator.seekToLast, findLast_eq h.toShape, ok_bind], ?_⟩
  have hgreatest : greatest cmp (keySet es) = _ := greatest_keySet hc hsorted rfl
  rw [hgreatest]
  exact on_unlessHead h.toHolds fun e he => he

theorem next_lands (hc : IsStrict cmp) (h : Sorted cmp l es) {it : Iterator} {e : Entry Key}
    (he : e ∈ es) (hn : it.node_ = some e.ptr) :
    ∃ it', it.next l = .ok it' ∧ On es it' (least cmp {k ∈ keySet es | cmp e.key k < 0}) := by
  obtain ⟨as, bs, rfl⟩ := List.append_of_mem he
  have hsorted : Sorted cmp l ((as ++ [e]) ++ bs) := by simpa using h
  have hload := hsorted.toShape.next_zero
  rw [lastPtr_concat] at hload
  obtain ⟨hlow, hhigh⟩ := h.around
  have hset : {k ∈ keySet (as ++ e :: bs) | cmp e.key k < 0} = {k | k ∈ bs.map Entry.key} := by
    rw [List.append_cons]
    refine keySet_right (fun a ha hlt => ?_) hhigh
    rcases List.mem_append.mp ha with ha | ha
    · have := (hc.flip _ _).mp (hlow a ha)
      omega
    · rw [List.mem_singleton.mp ha, hc.self] at hlt
      exact absurd hlt (lt_irrefl 0)
  have hrun : it.next l = .ok { node_ := bs.head?.map Entry.ptr } := by
    simp only [Iterator.next, hn, hload, ok_bind]
  refine ⟨_, hrun, ?_⟩
  rw [least_keySet hc hsorted hset]
  exact on_head? fun b hb => List.mem_append_right _ (List.mem_cons_of_mem _ hb)

theorem prev_lands (hc : IsStrict cmp) (h : Sorted cmp l es) {it : Iterator} {e : Entry Key}
    (he : e ∈ es) (hn : it.node_ = some e.ptr) :
    ∃ it', it.prev (.ofInt cmp) l = .ok it' ∧
      On es it' (greatest cmp {k ∈ keySet es | cmp k e.key < 0}) := by
  have hkey := h.key_eq e he
  obtain ⟨as, bs, rfl, hd, hfind⟩ := findLessThan_cut h.toShape (decides_ofInt cmp e.key _)
  obtain ⟨hlow, hhigh⟩ := h.split hc.toIsPreorder hd h.cur_pos
  have hset : {k ∈ keySet (as ++ bs) | cmp k e.key < 0} = {k | k ∈ as.map Entry.key} :=
    keySet_left hlow fun b hb hlt => by have := hhigh b hb; omega
  have hrun : it.prev (.ofInt cmp) l = .ok (Iterator.unlessHead l (l.lastPtr as)) := by
    simp only [Iterator.prev, hn, hkey, ok_bind, hfind]
  refine ⟨_, hrun, ?_⟩
  rw [greatest_keySet hc h hset]
  exact on_unlessHead h.toHolds fun a ha => List.mem_append_left _ ha

/-! ### One operation -/

theorem insert_follows (hc : IsStrict cmp) {s : Session Key} {r : Ref Key} {k : Key} {n : Nat}
    (h : Refines cmp s r es) (hpre : r.Pre (.insert k n)) :
    ∃ s', s.step (.ofInt cmp) (.insert k n) = .ok (s', .done) ∧
      ∃ es', Refines cmp s' { r with keys := Set.insert k r.keys } es' := by
  obtain ⟨hk, hpos, hle⟩ := hpre
  rw [h.keys] at hk
  have hab : ∀ e ∈ es, cmp e.key k ≠ 0 := fun e he h0 =>
    hk (hc.eq_of_tie _ _ h0 ▸ List.mem_map_of_mem he)
  obtain ⟨as, bs, l', rfl, hrun, hl', -⟩ :=
    insertAt_sorted hc.toIsPreorder h.sorted hab hpos hle
  refine ⟨{ s with list := l' }, by rw [Session.step, hrun]; rfl, _, hl', ?_, fun i => ?_⟩
  · show Set.insert k r.keys = _
    rw [h.keys, keySet_insert]
  · -- the iterators stay on the nodes they are on
    rcases h.on i with ho | ⟨e, he, hn, hp⟩
    · exact .inl ho
    · exact .inr ⟨e, mem_insert.mpr (.inr he), hn, hp⟩

/-- An iterator that `next` or `prev` may be called on is on an entry. -/
theorem Refines.on_entry {s : Session Key} {r : Ref Key} (h : Refines cmp s r es) {i : Nat}
    (hsome : (r.at_ i).isSome) :
    ∃ e ∈ es, (s.its i).node_ = some e.ptr ∧ r.at_ i = some e.key := by
  refine (h.on i).resolve_left fun ho => ?_
  rw [ho.2] at hsome
  cases hsome

theorem step_follows (hc : IsStrict cmp) (s : Session Key) (r : Ref Key) (op : Op Key)
    (h : ∃ es, Refines cmp s r es) (hpre : r.Pre op) :
    ∃ s', s.step (.ofInt cmp) op = .ok (s', (r.step cmp op).2) ∧
      ∃ es, Refines cmp s' (r.step cmp op).1 es := by
  classical
  obtain ⟨es, h⟩ := h
  have hkeys := h.keys
  -- each iterator operation comes down to where the two iterators end
  have put : ∀ {i : Nat} {it : Iterator} {p : Option Key}, On es it p →
      ∃ s', s.place i it = .ok (s', (r.place i p).2) ∧ ∃ es, Refines cmp s' (r.place i p).1 es :=
    fun ho => by
      obtain ⟨s', hs', h'⟩ := place_follows h ho
      exact ⟨s', hs', es, h'⟩
  cases op with
  | insert k ht => exact insert_follows hc h hpre
  | contains k =>
      obtain ⟨b, hb, hiff⟩ := contains_follows hc h.sorted k
      have hdec : b = decide (k ∈ r.keys) := by
        rw [Bool.eq_iff_iff, hiff, hkeys, decide_eq_true_iff]
      refine ⟨s, ?_, es, h⟩
      rw [Session.step, hb, ok_bind, Ref.step, hdec]
  | iterator i => exact put (.inl ⟨rfl, rfl⟩)
  | read i => exact put (h.on i)
  | seek i t =>
      obtain ⟨it, hrun, ho⟩ := seek_lands hc h.sorted t
      simp only [Session.step, Ref.step, hrun, ok_bind, hkeys]
      exact put ho
  | seekToFirst i =>
      obtain ⟨it, hrun, ho⟩ := seekToFirst_lands hc h.sorted
      simp only [Session.step, Ref.step, hrun, ok_bind, hkeys]
      exact put ho
  | seekToLast i =>
      obtain ⟨it, hrun, ho⟩ := seekToLast_lands hc h.sorted
      simp only [Session.step, Ref.step, hrun, ok_bind, hkeys]
      exact put ho
  | next i =>
      obtain ⟨e, he, hn, hp⟩ := h.on_entry hpre
      obtain ⟨it, hrun, ho⟩ := next_lands hc h.sorted he hn
      simp only [Session.step, Ref.step, hrun, ok_bind, hp, Option.bind_some, hkeys]
      exact put ho
  | prev i =>
      obtain ⟨e, he, hn, hp⟩ := h.on_entry hpre
      obtain ⟨it, hrun, ho⟩ := prev_lands hc h.sorted he hn
      simp only [Session.step, Ref.step, hrun, ok_bind, hp, Option.bind_some, hkeys]
      exact put ho

/-! ### Every run -/

/-- The answers of a fresh list and its iterators to a client's operations. -/
def answers (compare_ : Compare Key) (ops : List (Op Key)) : Except Fault (List (Obs Key)) := do
  let s ← Session.new Key
  let (_, os) ← run (Session.step compare_) s ops
  .ok os

theorem answers_eq (hc : IsStrict cmp) {ops : List (Op Key)}
    (hops : Admissible Ref.Pre (Ref.step cmp) (Ref.empty Key) ops) :
    answers (.ofInt cmp) ops = .ok (runRef (Ref.step cmp) (Ref.empty Key) ops).2 := by
  obtain ⟨l, hnew, hl⟩ := new_sorted cmp
  obtain ⟨s', hrun, -⟩ := run_follows (R := fun s r => ∃ es, Refines cmp s r es)
    (step_follows hc) ops { list := l, its := fun _ => Iterator.new } (Ref.empty Key)
    ⟨[], hl, by simp [Ref.empty, keySet], fun i => .inl ⟨rfl, rfl⟩⟩ hops
  rw [answers, Session.new, hnew, ok_bind, ok_bind, hrun]
  rfl

/-- The operation, with height `h` if it is an insertion. -/
def Op.drawn (h : Nat) : Op Key → Op Key
  | .insert k _ => .insert k h
  | op          => op

theorem Ref.step_drawn (cmp : Key → Key → Int) (h : Nat) (r : Ref Key) (op : Op Key) :
    r.step cmp (op.drawn h) = r.step cmp op := by
  cases op <;> rfl

/-- The insertions of `kvs`. -/
def inserts (kvs : List (Key × Nat)) : List (Op Key) :=
  kvs.map fun kv => .insert kv.1 kv.2

theorem runRef_inserts (kvs : List (Key × Nat)) (r : Ref Key) :
    runRef (Ref.step cmp) r (inserts kvs) =
      ({ r with keys := {k | k ∈ kvs.map Prod.fst ∨ k ∈ r.keys} },
        List.replicate kvs.length .done) := by
  induction kvs generalizing r with
  | nil => simp [inserts, runRef]
  | cons kv kvs ih =>
      have hkeys : {k | k ∈ kvs.map Prod.fst ∨ k ∈ Set.insert kv.1 r.keys} =
          {k | k ∈ (kv :: kvs).map Prod.fst ∨ k ∈ r.keys} := by
        ext k
        simp only [mem_setInsert, Set.mem_ofPred_eq, List.map_cons, List.mem_cons]
        tauto
      have hrun : runRef (Ref.step cmp) r (inserts (kv :: kvs)) =
          ((runRef (Ref.step cmp) { r with keys := Set.insert kv.1 r.keys } (inserts kvs)).1,
            .done :: (runRef (Ref.step cmp) { r with keys := Set.insert kv.1 r.keys }
              (inserts kvs)).2) := rfl
      rw [hrun, ih]
      simp only [hkeys, List.length_cons, List.replicate_succ]

theorem runRef_inserts_perm {kvs kvs' : List (Key × Nat)} (qs : List (Op Key))
    (hp : (kvs'.map Prod.fst).Perm (kvs.map Prod.fst)) :
    runRef (Ref.step cmp) (Ref.empty Key) (inserts kvs' ++ qs) =
      runRef (Ref.step cmp) (Ref.empty Key) (inserts kvs ++ qs) := by
  have hkeys : {k | k ∈ kvs'.map Prod.fst ∨ k ∈ (Ref.empty Key).keys} =
      {k | k ∈ kvs.map Prod.fst ∨ k ∈ (Ref.empty Key).keys} := by
    ext k
    simp only [Set.mem_ofPred_eq, hp.mem_iff]
  have hlen : kvs'.length = kvs.length := by simpa using hp.length_eq
  simp only [runRef_append, runRef_inserts, hkeys, hlen]

/-- **A skip list answers as the sorted set of its keys.**  Hence other heights, or another order
of the first insertions, change no answer. -/
theorem skipList_refines_set (cmp : Key → Key → Int) (hc : IsStrict cmp) (ops : List (Op Key))
    (hops : Admissible Ref.Pre (Ref.step cmp) (Ref.empty Key) ops) :
    answers (.ofInt cmp) ops = .ok (runRef (Ref.step cmp) (Ref.empty Key) ops).2 ∧
      (∀ ops', Admissible Ref.Pre (Ref.step cmp) (Ref.empty Key) ops' →
        ops'.map (Op.drawn 1) = ops.map (Op.drawn 1) →
        answers (.ofInt cmp) ops' = answers (.ofInt cmp) ops) ∧
      ∀ kvs kvs' qs, ops = inserts kvs ++ qs →
        Admissible Ref.Pre (Ref.step cmp) (Ref.empty Key) (inserts kvs' ++ qs) →
        (kvs'.map Prod.fst).Perm (kvs.map Prod.fst) →
        answers (.ofInt cmp) (inserts kvs' ++ qs) = answers (.ofInt cmp) ops := by
  refine ⟨answers_eq hc hops, fun ops' hops' hd => ?_, ?_⟩
  · rw [answers_eq hc hops', answers_eq hc hops,
      ← runRef_map (Ref.step_drawn cmp 1) _ ops',
      ← runRef_map (Ref.step_drawn cmp 1) _ ops, hd]
  · rintro kvs kvs' qs rfl hops' hp
    rw [answers_eq hc hops', answers_eq hc hops, runRef_inserts_perm qs hp]

theorem skipList_refines_set_nat :
    answers (.ofInt ofLT) [.insert 5 2, .insert 3 12, .contains 3, .seek 0 4, .insert 4 1,
        .seekToLast 1] =
      .ok (runRef (Ref.step ofLT) (Ref.empty Nat) [.insert 5 2, .insert 3 12, .contains 3,
        .seek 0 4, .insert 4 1, .seekToLast 1]).2 :=
  (skipList_refines_set ofLT isStrict_ofLT _ (by
    simp [Admissible, Ref.Pre, Ref.step, Ref.empty, Ref.place, mem_setInsert, kMaxHeight])).1

end Leveldb.SkipList
