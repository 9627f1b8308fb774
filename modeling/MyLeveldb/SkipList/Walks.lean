import MyLeveldb.SkipList.Linearization

/-!
# SkipList — Walks

Threads that stay on level 0 of a shared list, beside the one that inserts and those that search: a
scan, `for (it.seekToFirst(); it.valid(); it.next()) it.key();`, and `seekToLast()`, as `findLast`
loads `next(0)` on every level.  A node is linked on level 0 by the last store of its insertion, and
so they load stored slots only, whatever the keys and the heights are.

* `scans_in_order`: a scan meets every key that was inserted before it began, and no others than
  those inserted before its last load, in order.  Which of the keys between it meets is up to the
  schedule, and it may miss a key and meet one that was inserted later.
* `seekToLast_linearizes`: `seekToLast()` takes effect at its last load.
-/

namespace Leveldb.SkipList

open Levels (level)
open ThreeWay

/-! ### The threads -/

/-- A scan. -/
structure Scan (Key : Type) where
  /-- none before `seekToFirst()` -/
  it : Option Iterator
  /-- the keys it has read -/
  keys : List Key
  /-- how many keys had been inserted when it began -/
  since : Nat
  /-- how many had been at its latest load -/
  till : Nat
  deriving DecidableEq, Repr

/-- `findLast`'s program counter. -/
inductive LastPc where
  /-- `int level = getCurMaxHeight() - 1` -/
  | start
  /-- the loop, with `n` levels left, at node `x`; with none left it returns `x` -/
  | loop (n : Nat) (x : NodePtr)
  deriving DecidableEq, Repr

/-- A `seekToLast()`. -/
structure Last where
  pc : LastPc
  since : Nat
  till : Nat
  /-- how many slots it has loaded -/
  loads : Nat
  deriving DecidableEq, Repr

variable {Key R S : Type}

/-- `seekToFirst()`; then `key()`, which nobody stores to, and `next()`.  So far `n` keys have been
inserted. -/
def Scan.step (l : SkipList Key) (n : Nat) (w : Scan Key) : Except Fault (Scan Key) :=
  match w.it with
  | none => do
      let it ← Iterator.seekToFirst l
      .ok { it := some it, keys := [], since := n, till := n }
  | some it =>
      if it.valid then do
        let k ← it.key l
        let it ← it.next l
        .ok { w with it := some it, keys := w.keys ++ [k], till := n }
      else .ok w

/-- It has come to the end. -/
def Scan.Over (w : Scan Key) : Prop := ∃ it ∈ w.it, it.valid = false

def Last.step (l : SkipList Key) (n : Nat) (w : Last) : Except Fault Last :=
  match w.pc with
  | .start => .ok { pc := .loop l.curMaxHeight_ l.head_, since := n, till := n, loads := 0 }
  | .loop 0 _ => .ok w
  | .loop (level + 1) x => do
      match ← l.next x 0 with
      | none   => .ok { w with pc := .loop level x, till := n, loads := w.loads + 1 }
      | some y => .ok { w with pc := .loop (level + 1) y, till := n, loads := w.loads + 1 }

/-- What `seekToLast()` has made of its iterator, once it has returned. -/
def Last.result (l : SkipList Key) (w : Last) : Option Iterator :=
  match w.pc with
  | .loop 0 x => some (Iterator.unlessHead l x)
  | _         => none

/-- A shared list, and the threads `S` that stay on level 0: each a scan and a `seekToLast()`. -/
structure Walked (Key R S : Type) where
  shared : Shared Key R
  scans : S → Scan Key
  lasts : S → Last

/-- Whose step it is. -/
inductive Move (R S : Type) where
  | shared (i : Turn R)
  | scan (q : S)
  | last (q : S)
  deriving DecidableEq, Repr

namespace Walked

variable [DecidableEq R] [DecidableEq S]

def start (kvs : List (Key × Nat)) (targets : R → List Key) : Except Fault (Walked Key R S) := do
  let s ← Shared.start kvs targets
  .ok { shared := s, scans := fun _ => { it := none, keys := [], since := 0, till := 0 }
        lasts := fun _ => { pc := .start, since := 0, till := 0, loads := 0 } }

def step (compare_ : Compare Key) (s : Walked Key R S) : Move R S → Except Fault (Walked Key R S)
  | .shared i => do
      let shared ← s.shared.step compare_ i
      .ok { s with shared := shared }
  | .scan q => do
      let w ← (s.scans q).step s.shared.list s.shared.inserted.length
      .ok { s with scans := Function.update s.scans q w }
  | .last q => do
      let w ← (s.lasts q).step s.shared.list s.shared.inserted.length
      .ok { s with lasts := Function.update s.lasts q w }

/-- A run of the schedule `sched` from a new list. -/
def run (compare_ : Compare Key) (kvs : List (Key × Nat)) (targets : R → List Key)
    (sched : List (Move R S)) : Except Fault (Walked Key R S) := do
  let s ← start kvs targets
  sched.foldlM (step compare_) s

end Walked

/-! ### Level 0 -/

variable {cmp : Key → Key → Int} {l : SkipList Key} {es es' ys ys' : List (Entry Key)}
  {lv : Nat → List (Entry Key)} {hd : NodePtr} {o : Option (Entry Key)} {z : Entry Key}
  {inserted inserted' : List Key}

/-- On level 0 every slot is stored to. -/
theorem View.next_zero (hv : View cmp l es lv) (ho : ∀ y ∈ o, y ∈ lv 0) :
    l.next ((o.map Entry.ptr).getD l.head_) 0 =
      .ok ((following cmp o (lv 0)).head?.map Entry.ptr) := by
  cases o with
  | none =>
      rw [following_none]
      exact next_of_link (hv.head 0 (by decide))
  | some y =>
      have hy := ho y rfl
      obtain ⟨s, hs, hcase⟩ := hv.slot y ((hv.sublist 0).subset hy) 0 (hv.lt_height 0 y hy)
      rcases hcase with ⟨-, hn⟩ | rfl
      · exact absurd hy hn
      · exact next_of_link hs

theorem head_le (hc : IsPreorder cmp) (h : Increasing cmp ys) (hz : z ∈ ys) :
    ∃ y ∈ ys.head?, cmp y.key z.key ≤ 0 := by
  cases ys with
  | nil => cases hz
  | cons y ys =>
      refine ⟨y, rfl, ?_⟩
      rcases List.mem_cons.1 hz with rfl | hz
      · exact (hc.self z.key).le
      · exact ((List.pairwise_cons.1 h).1 z hz).le

theorem mem_head_following {y : Entry Key} (hy : y ∈ (following cmp o ys).head?) :
    y ∈ ys ∧ ∀ x ∈ o, cmp x.key y.key < 0 :=
  mem_following.1 (List.mem_of_mem_head? hy)

/-- An entry after `o` is not before the next one. -/
theorem head_following_le (hc : IsPreorder cmp) (h : Increasing cmp ys) (hz : z ∈ ys)
    (ho : ∀ x ∈ o, cmp x.key z.key < 0) :
    ∃ y ∈ (following cmp o ys).head?, cmp y.key z.key ≤ 0 :=
  head_le hc (List.Pairwise.sublist List.filter_sublist h) (mem_following.2 ⟨hz, ho⟩)

/-- What nothing follows is the last one. -/
theorem getLast_of_following (hc : IsPreorder cmp) (h : Increasing cmp ys) (ho : ∀ y ∈ o, y ∈ ys)
    (hf : following cmp o ys = []) : ys.getLast? = o := by
  cases o with
  | none =>
      obtain rfl : ys = [] := (following_none ys).symm.trans hf
      rfl
  | some y =>
      obtain ⟨qs, ss, rfl⟩ := List.append_of_mem (ho y rfl)
      rw [following_cut hc h] at hf
      rw [hf, List.getLast?_concat]

theorem greatest_of_following (hc : IsStrict cmp) (h : Increasing cmp ys)
    (hperm : (ys.map Entry.key).Perm inserted) (ho : ∀ y ∈ o, y ∈ ys)
    (hf : following cmp o ys = []) : o.map Entry.key = greatest cmp {k | k ∈ inserted} := by
  have hsorted : (ys.map Entry.key).Pairwise (cmp · · < 0) := List.pairwise_map.2 h
  have hgreatest := greatest_of_sorted hc hsorted
  rw [List.getLast?_map, getLast_of_following hc.toIsPreorder h ho hf] at hgreatest
  simpa only [hperm.mem_iff] using hgreatest.symm

theorem mem_take_grown {n : Nat} {k : Key} (hpre : inserted <+: inserted')
    (hn : n ≤ inserted.length) : k ∈ inserted'.take n ↔ k ∈ inserted.take n := by
  obtain ⟨more, rfl⟩ := hpre
  rw [List.take_append_of_le_length hn]

/-! ### Scans -/

/-- What a scan has read that is at `o`, or past the end, in a list whose level 0 is `ys`. -/
structure Reading (cmp : Key → Key → Int) (ys : List (Entry Key)) (inserted : List Key)
    (o : Option (Entry Key)) (w : Scan Key) : Prop where
  it_eq : w.it = some { node_ := o.map Entry.ptr }
  linked : ∀ y ∈ o, y ∈ ys
  sorted : w.keys.Pairwise (cmp · · < 0)
  before : ∀ y ∈ o, ∀ k ∈ w.keys, cmp k y.key < 0
  since_le : w.since ≤ w.till
  till_le : w.till ≤ inserted.length
  keys : w.keys ⊆ inserted.take w.till
  /-- what it has not read of the keys there were when it began, it has yet to come to -/
  rest : ∀ k ∈ inserted.take w.since, k ∈ w.keys ∨ ∃ y ∈ o, cmp y.key k ≤ 0

/-- A scan before it has begun, or after. -/
inductive Scans (cmp : Key → Key → Int) (ys : List (Entry Key)) (inserted : List Key)
    (w : Scan Key) : Prop where
  | start (hit : w.it = none) (hkeys : w.keys = [])
  | on (o : Option (Entry Key)) (h : Reading cmp ys inserted o w)

theorem Reading.mono {w : Scan Key} (h : Reading cmp ys inserted o w) (hsub : ys ⊆ ys')
    (hpre : inserted <+: inserted') : Reading cmp ys' inserted' o w := by
  refine ⟨h.it_eq, fun y hy => hsub (h.linked y hy), h.sorted, h.before, h.since_le,
    h.till_le.trans hpre.length_le, fun k hk => ?_, fun k hk => ?_⟩
  · exact (mem_take_grown hpre h.till_le).2 (h.keys hk)
  · exact h.rest k ((mem_take_grown hpre (h.since_le.trans h.till_le)).1 hk)

theorem Scans.mono {w : Scan Key} (h : Scans cmp ys inserted w) (hsub : ys ⊆ ys')
    (hpre : inserted <+: inserted') : Scans cmp ys' inserted' w := by
  cases h with
  | start hit hkeys => exact .start hit hkeys
  | on o h => exact .on o (h.mono hsub hpre)

/-- A scan begins at the first node. -/
theorem Reading.first (hc : IsPreorder cmp) (hinc : Increasing cmp ys)
    (hperm : (ys.map Entry.key).Perm inserted) :
    Reading cmp ys inserted ys.head?
      { it := some { node_ := ys.head?.map Entry.ptr }, keys := [], since := inserted.length
        till := inserted.length } := by
  refine ⟨rfl, fun y hy => List.mem_of_mem_head? hy, .nil, by simp, Nat.le_refl _, Nat.le_refl _,
    List.nil_subset _, fun k hk => .inr ?_⟩
  obtain ⟨z, hz, rfl⟩ := List.mem_map.1 (hperm.mem_iff.2 (List.mem_of_mem_take hk))
  exact head_le hc hinc hz

/-- It reads the key of the node it is at, and goes on to the next one. -/
theorem Reading.next (hc : IsStrict cmp) (hinc : Increasing cmp ys)
    (hperm : (ys.map Entry.key).Perm inserted) {w : Scan Key} {y : Entry Key}
    (h : Reading cmp ys inserted (some y) w) :
    Reading cmp ys inserted (following cmp (some y) ys).head?
      { w with it := some { node_ := (following cmp (some y) ys).head?.map Entry.ptr }
               keys := w.keys ++ [y.key], till := inserted.length } := by
  have hy : y.key ∈ inserted := hperm.mem_iff.1 (List.mem_map_of_mem (h.linked y rfl))
  have hlt : ∀ k ∈ w.keys, cmp k y.key < 0 := h.before y rfl
  refine ⟨rfl, fun x hx => (mem_head_following hx).1, ?_, fun x hx k hk => ?_,
    h.since_le.trans h.till_le, Nat.le_refl _, fun k hk => ?_, fun k hk => ?_⟩
  · refine List.pairwise_append.2 ⟨h.sorted, List.pairwise_singleton _ _, fun k hk x hx => ?_⟩
    rw [List.mem_singleton.1 hx]
    exact hlt k hk
  · have hyx := (mem_head_following hx).2 y rfl
    rcases List.mem_append.1 hk with hk | hk
    · exact hc.lt_trans (hlt k hk) hyx
    · rwa [List.mem_singleton.1 hk]
  · rw [List.take_length]
    rcases List.mem_append.1 hk with hk | hk
    · exact List.mem_of_mem_take (h.keys hk)
    · rwa [List.mem_singleton.1 hk]
  · obtain ⟨z, hz, rfl⟩ := List.mem_map.1 (hperm.mem_iff.2 (List.mem_of_mem_take hk))
    rcases h.rest z.key hk with hread | ⟨x, hx, hle⟩
    · exact .inl (List.mem_append_left _ hread)
    · obtain rfl := Option.mem_some.1 hx
      rcases hle.lt_or_eq with hyz | htie
      · exact .inr (head_following_le hc.toIsPreorder hinc hz fun x hx =>
          Option.mem_some.1 hx ▸ hyz)
      · rw [← hc.eq_of_tie _ _ htie]
        exact .inl (by simp)

theorem Scans.step (hc : IsStrict cmp) (hv : View cmp l es lv)
    (hperm : ((lv 0).map Entry.key).Perm inserted) {w : Scan Key}
    (h : Scans cmp (lv 0) inserted w) :
    ∃ w', w.step l inserted.length = .ok w' ∧ Scans cmp (lv 0) inserted w' := by
  have hinc : Increasing cmp (lv 0) := List.Pairwise.sublist (hv.sublist 0) hv.increasing
  cases h with
  | start hit hkeys =>
      have hload := hv.next_zero (o := none) (by simp)
      rw [Option.map_none, Option.getD_none, following_none] at hload
      refine ⟨_, ?_, .on _ (.first hc.toIsPreorder hinc hperm)⟩
      simp only [Scan.step, hit, Iterator.seekToFirst, hload, ok_bind]
  | on o h =>
      have hit := h.it_eq
      cases o with
      | none => exact ⟨w, by simp [Scan.step, hit, Iterator.valid], .on none h⟩
      | some y =>
          have hload := hv.next_zero h.linked
          rw [Option.map_some, Option.getD_some] at hload
          have hkey := hv.key_eq y ((hv.sublist 0).subset (h.linked y rfl))
          refine ⟨_, ?_, .on _ (h.next hc hinc hperm)⟩
          simp [Scan.step, hit, Iterator.valid, Iterator.key, Iterator.next, hkey, hload]

/-- What a scan that is over has read. -/
theorem Scans.over {w : Scan Key} (h : Scans cmp ys inserted w) (hover : w.Over) :
    inserted.take w.since ⊆ w.keys := by
  obtain ⟨it, hit, hvalid⟩ := hover
  cases h with
  | start hnone _ =>
      rw [hnone] at hit
      cases hit
  | on o h =>
      rw [h.it_eq] at hit
      cases hit
      cases o with
      | some y => cases hvalid
      | none => exact fun k hk => (h.rest k hk).resolve_right (by simp)

theorem Scans.sorted {w : Scan Key} (h : Scans cmp ys inserted w) :
    w.keys.Pairwise (cmp · · < 0) := by
  cases h with
  | start _ hkeys => exact hkeys ▸ .nil
  | on o h => exact h.sorted

theorem Scans.keys {w : Scan Key} (h : Scans cmp ys inserted w) :
    w.keys ⊆ inserted.take w.till := by
  cases h with
  | start _ hkeys => exact hkeys ▸ List.nil_subset _
  | on o h => exact h.keys

/-- It reads no key twice. -/
theorem Scans.length_le (hc : IsPreorder cmp) {w : Scan Key} (h : Scans cmp ys inserted w) :
    w.keys.length ≤ inserted.length := by
  have hnd : w.keys.Nodup := h.sorted.imp fun {a b} hab heq => by
    rw [heq, hc.self] at hab
    exact lt_irrefl 0 hab
  exact (hnd.subperm fun k hk => List.mem_of_mem_take (h.keys hk)).length_le

/-! ### The last node -/

/-- A `seekToLast()` that is at `o`, or at `head_`, with `n` levels left; where none is left, `o`
was the last one at its latest load. -/
inductive Lasts (cmp : Key → Key → Int) (es ys : List (Entry Key)) (hd : NodePtr)
    (inserted : List Key) (w : Last) : Prop where
  | start (hpc : w.pc = .start) (hm : w.loads = 0)
  | loop {n : Nat} (o : Option (Entry Key)) (hpc : w.pc = .loop n ((o.map Entry.ptr).getD hd))
      (ho : ∀ y ∈ o, y ∈ ys) (hsince : w.since ≤ w.till) (htill : w.till ≤ inserted.length)
      (hlast : n = 0 → o.map Entry.key = greatest cmp {k | k ∈ inserted.take w.till})
      (hm : w.loads + n + above cmp (es.map Entry.key) (o.map Entry.key) ≤ kMaxHeight + es.length)

theorem Lasts.mono {w : Last} (h : Lasts cmp es ys hd inserted w) (hes : es.Sublist es')
    (hsub : ys ⊆ ys') (hpre : inserted <+: inserted') : Lasts cmp es' ys' hd inserted' w := by
  cases h with
  | start hpc hm => exact .start hpc hm
  | loop o hpc ho hsince htill hlast hm =>
      have hrest : above cmp (es'.map Entry.key) (o.map Entry.key) + es.length ≤
          above cmp (es.map Entry.key) (o.map Entry.key) + es'.length := above_le_of_sublist hes _
      refine .loop o hpc (fun y hy => hsub (ho y hy)) hsince (htill.trans hpre.length_le)
        (fun hn => ?_) (by omega)
      simpa only [mem_take_grown hpre htill] using hlast hn

theorem Lasts.loads_le {w : Last} (h : Lasts cmp es ys hd inserted w) :
    w.loads ≤ kMaxHeight + es.length := by
  cases h <;> omega

theorem Lasts.step (hc : IsStrict cmp) (hv : View cmp l es lv)
    (hperm : ((lv 0).map Entry.key).Perm inserted) {w : Last}
    (h : Lasts cmp es (lv 0) l.head_ inserted w) :
    ∃ w', w.step l inserted.length = .ok w' ∧ Lasts cmp es (lv 0) l.head_ inserted w' := by
  have hinc : Increasing cmp (lv 0) := List.Pairwise.sublist (hv.sublist 0) hv.increasing
  cases h with
  | start hpc hm =>
      refine ⟨_, by rw [Last.step, hpc], .loop none rfl (by simp) (Nat.le_refl _) (Nat.le_refl _)
        (fun hn => absurd hn hv.cur_pos.ne') ?_⟩
      have hcur := hv.cur_le
      show 0 + l.curMaxHeight_ + above cmp (es.map Entry.key) none ≤ kMaxHeight + es.length
      rw [above_none, List.length_map]
      omega
  | @loop n o hpc ho hsince htill hlast hm =>
      cases n with
      | zero => exact ⟨w, by rw [Last.step, hpc], .loop o hpc ho hsince htill hlast hm⟩
      | succ n =>
          have hload := hv.next_zero ho
          cases hf : following cmp o (lv 0) with
          | nil =>
              rw [hf] at hload
              refine ⟨{ w with pc := .loop n ((o.map Entry.ptr).getD l.head_)
                               till := inserted.length, loads := w.loads + 1 }, ?_,
                .loop o rfl ho (hsince.trans htill) (Nat.le_refl _) (fun _ => ?_) ?_⟩
              · simp [Last.step, hpc, hload]
              · rw [List.take_length]
                exact greatest_of_following hc hinc hperm ho hf
              · show w.loads + 1 + n + above cmp (es.map Entry.key) (o.map Entry.key) ≤ _
                omega
          | cons y ss =>
              rw [hf] at hload
              obtain ⟨hy, hoy⟩ : y ∈ lv 0 ∧ ∀ x ∈ o, cmp x.key y.key < 0 :=
                mem_head_following (by rw [hf]; rfl)
              have hlt := above_entry_lt hc.toIsPreorder ((hv.sublist 0).subset hy) hoy
              refine ⟨{ w with pc := .loop (n + 1) y.ptr, till := inserted.length
                               loads := w.loads + 1 }, ?_,
                .loop (some y) rfl (fun z hz => Option.mem_some.1 hz ▸ hy) (hsince.trans htill)
                  (Nat.le_refl _) nofun ?_⟩
              · simp [Last.step, hpc, hload]
              · show w.loads + 1 + (n + 1) + above cmp (es.map Entry.key) (some y.key) ≤ _
                omega

/-- The iterator is at the greatest key there was at its last load. -/
theorem Lasts.position (hv : View cmp l es lv) {w : Last} {it : Iterator}
    (h : Lasts cmp es (lv 0) l.head_ inserted w) (hit : w.result l = some it) :
    w.since ≤ w.till ∧ w.till ≤ inserted.length ∧
      Session.position l it = .ok (greatest cmp {k | k ∈ inserted.take w.till}) := by
  cases h with
  | start hpc _ =>
      rw [Last.result, hpc] at hit
      cases hit
  | @loop n o hpc ho hsince htill hlast _ =>
      rw [Last.result, hpc] at hit
      cases n with
      | succ n => cases hit
      | zero =>
          obtain rfl := Option.some.inj hit
          have hes : ∀ y ∈ o, y ∈ es := fun y hy => (hv.sublist 0).subset (ho y hy)
          have hnode : Iterator.unlessHead l ((o.map Entry.ptr).getD l.head_) =
              { node_ := o.map Entry.ptr } := by
            cases o with
            | none => simp [Iterator.unlessHead]
            | some y => simp [Iterator.unlessHead, hv.ne_head y (hes y rfl)]
          rw [hnode, position_option fun y hy => hv.key_eq y (hes y hy), hlast rfl]
          exact ⟨hsince, htill, rfl⟩

/-! ### Runs -/

namespace Walked

variable {kvs done : List (Key × Nat)} {targets : R → List Key} {s : Walked Key R S}

structure Inv (cmp : Key → Key → Int) (kvs : List (Key × Nat)) (targets : R → List Key)
    (es : List (Entry Key)) (lv : Nat → List (Entry Key)) (done : List (Key × Nat))
    (s : Walked Key R S) : Prop where
  shared : s.shared.Inv cmp kvs targets es lv done
  scans : ∀ q, Scans cmp (lv 0) s.shared.inserted (s.scans q)
  lasts : ∀ q, Lasts cmp es (lv 0) s.shared.list.head_ s.shared.inserted (s.lasts q)

variable [DecidableEq R] [DecidableEq S]

theorem Inv.step (hc : IsStrict cmp) (hnd : (kvs.map Prod.fst).Nodup) (hh : HeightsInRange kvs)
    (s : Walked Key R S) (i : Move R S) (h : ∃ es lv done, s.Inv cmp kvs targets es lv done) :
    ∃ s', s.step (.ofInt cmp) i = .ok s' ∧ ∃ es lv done, s'.Inv cmp kvs targets es lv done := by
  obtain ⟨es, lv, done, h⟩ := h
  have hv := h.shared.view hc.toIsPreorder
  have hperm := h.shared.keys
  cases i with
  | shared i =>
      obtain ⟨s', es', lv', done', hstep, h', hext⟩ := h.shared.extends hc hnd hh i
      refine ⟨{ s with shared := s' }, by rw [Walked.step, hstep, ok_bind], es', lv', done', h',
        fun q => (h.scans q).mono (hext.grows.levels 0) hext.inserted, fun q => ?_⟩
      have hlast := (h.lasts q).mono hext.grows.sublist (hext.grows.levels 0) hext.inserted
      rwa [← hext.head] at hlast
  | scan q =>
      obtain ⟨w, hstep, hw⟩ := (h.scans q).step hc hv hperm
      refine ⟨{ s with scans := Function.update s.scans q w }, by rw [Walked.step, hstep, ok_bind],
        es, lv, done, h.shared, ?_, h.lasts⟩
      exact (Function.forall_update_iff _ fun _ w => Scans cmp (lv 0) s.shared.inserted w).2
        ⟨hw, fun p _ => h.scans p⟩
  | last q =>
      obtain ⟨w, hstep, hw⟩ := (h.lasts q).step hc hv hperm
      refine ⟨{ s with lasts := Function.update s.lasts q w }, by rw [Walked.step, hstep, ok_bind],
        es, lv, done, h.shared, h.scans, ?_⟩
      exact (Function.forall_update_iff _ fun _ w =>
        Lasts cmp es (lv 0) s.shared.list.head_ s.shared.inserted w).2 ⟨hw, fun p _ => h.lasts p⟩

theorem run_inv (hc : IsStrict cmp) (hnd : (kvs.map Prod.fst).Nodup) (hh : HeightsInRange kvs)
    (targets : R → List Key) (sched : List (Move R S)) : ∃ s es lv done,
      run (.ofInt cmp) kvs targets sched = .ok s ∧ s.Inv cmp kvs targets es lv done := by
  obtain ⟨s₀, lv₀, hstart, h₀, -⟩ := Shared.start_inv cmp kvs targets
  have hs₀ : Inv cmp kvs targets [] lv₀ []
      { shared := s₀, scans := fun _ : S => { it := none, keys := [], since := 0, till := 0 }
        lasts := fun _ => { pc := .start, since := 0, till := 0, loads := 0 } } :=
    ⟨h₀, fun _ => .start rfl rfl, fun _ => .start rfl rfl⟩
  obtain ⟨s, hrun, es, lv, done, h⟩ :=
    Runs.foldlM_keeps (Inv.step hc hnd hh) sched _ ⟨_, _, _, hs₀⟩
  refine ⟨s, es, lv, done, ?_, h⟩
  rw [run, start, hstart, ok_bind, ok_bind]
  exact hrun

end Walked

variable [DecidableEq R] [DecidableEq S]

/-- **Scans beside an insertion.**  In every run, no step of a scan is a fault, what it has read is
in order, no key twice, and had been inserted by its latest load; and once it is over, it has read
every key that had been inserted when it began.  The searches beside it may be `lost`. -/
theorem scans_in_order (cmp : Key → Key → Int) (hc : IsStrict cmp) (kvs : List (Key × Nat))
    (hnd : (kvs.map Prod.fst).Nodup) (hh : HeightsInRange kvs) (targets : R → List Key)
    (sched : List (Move R S)) :
    ∃ s, Walked.run (.ofInt cmp) kvs targets sched = .ok s ∧ ∀ q,
      (s.scans q).keys.Pairwise (cmp · · < 0) ∧
      (s.scans q).keys ⊆ s.shared.inserted.take (s.scans q).till ∧
      (s.scans q).keys.length ≤ s.shared.inserted.length ∧
      ((s.scans q).Over → s.shared.inserted.take (s.scans q).since ⊆ (s.scans q).keys) := by
  obtain ⟨s, es, lv, done, hrun, h⟩ := Walked.run_inv hc hnd hh targets sched
  exact ⟨s, hrun, fun q => ⟨(h.scans q).sorted, (h.scans q).keys,
    (h.scans q).length_le hc.toIsPreorder, (h.scans q).over⟩⟩

/-- A scan that misses a key and meets one that was inserted after it. -/
theorem scans_in_order_passed :
    ∃ s, Walked.run (.ofInt ofLT) [((15 : Nat), 1), (10, 1), (20, 1)] (fun _ : Unit => [])
        (List.replicate 5 (.shared .writer) ++ [.scan ()] ++
          List.replicate 10 (.shared .writer) ++ List.replicate 3 (.scan ())) = .ok s ∧
      (s.scans ()).keys = [15, 20] ∧ (s.scans ()).Over ∧
        s.shared.inserted.take (s.scans ()).since ⊆ (s.scans ()).keys := by
  obtain ⟨s, hrun, hkeys, hover⟩ :
    ∃ s, Walked.run (.ofInt ofLT) [((15 : Nat), 1), (10, 1), (20, 1)] (fun _ : Unit => [])
        (List.replicate 5 (.shared .writer) ++ [.scan ()] ++
          List.replicate 10 (.shared .writer) ++ List.replicate 3 (.scan ())) = .ok s ∧
      (s.scans ()).keys = [15, 20] ∧ (s.scans ()).Over := ⟨_, rfl, rfl, _, rfl, rfl⟩
  obtain ⟨s', hrun', h⟩ := scans_in_order ofLT isStrict_ofLT [((15 : Nat), 1), (10, 1), (20, 1)]
    (by decide) (by decide) (fun _ : Unit => []) (List.replicate 5 (.shared .writer) ++
      [.scan ()] ++ List.replicate 10 (.shared .writer) ++ List.replicate 3 (.scan ()))
  obtain rfl : s = s' := Except.ok.inj (hrun.symm.trans hrun')
  exact ⟨s, hrun, hkeys, hover, (h ()).2.2.2 hover⟩

/-- **`seekToLast()` is linearizable.**  In every run it goes to the greatest of the keys that had
been inserted at its last load, and returns within a bound. -/
theorem seekToLast_linearizes (cmp : Key → Key → Int) (hc : IsStrict cmp) (kvs : List (Key × Nat))
    (hnd : (kvs.map Prod.fst).Nodup) (hh : HeightsInRange kvs) (targets : R → List Key)
    (sched : List (Move R S)) :
    ∃ s, Walked.run (.ofInt cmp) kvs targets sched = .ok s ∧ ∀ q,
      (s.lasts q).loads ≤ kMaxHeight + s.shared.inserted.length + 1 ∧
      ∀ it, (s.lasts q).result s.shared.list = some it →
        (s.lasts q).since ≤ (s.lasts q).till ∧ (s.lasts q).till ≤ s.shared.inserted.length ∧
        Session.position s.shared.list it =
          .ok (greatest cmp {k | k ∈ s.shared.inserted.take (s.lasts q).till}) := by
  obtain ⟨s, es, lv, done, hrun, h⟩ := Walked.run_inv hc hnd hh targets sched
  refine ⟨s, hrun, fun q => ⟨?_, fun it hit => ?_⟩⟩
  · have hloads := (h.lasts q).loads_le
    have hlen := h.shared.length_le
    omega
  · exact (h.lasts q).position (h.shared.view hc.toIsPreorder) hit

/-- A `seekToLast()` on whose way a key is inserted. -/
theorem seekToLast_linearizes_overtaken :
    ∃ s, Walked.run (.ofInt ofLT) [((10 : Nat), 1), (20, 1)] (fun _ : Unit => [])
        (List.replicate 5 (.shared .writer) ++ [.last (), .last ()] ++
          List.replicate 5 (.shared .writer) ++ List.replicate 2 (.last ())) = .ok s ∧
      (s.lasts ()).since = 1 ∧ (s.lasts ()).till = 2 ∧
        ∀ it, (s.lasts ()).result s.shared.list = some it →
          Session.position s.shared.list it =
            .ok (greatest ofLT {k | k ∈ s.shared.inserted.take (s.lasts ()).till}) := by
  obtain ⟨s, hrun, hsince, htill⟩ :
    ∃ s, Walked.run (.ofInt ofLT) [((10 : Nat), 1), (20, 1)] (fun _ : Unit => [])
        (List.replicate 5 (.shared .writer) ++ [.last (), .last ()] ++
          List.replicate 5 (.shared .writer) ++ List.replicate 2 (.last ())) = .ok s ∧
      (s.lasts ()).since = 1 ∧ (s.lasts ()).till = 2 := ⟨_, rfl, rfl, rfl⟩
  obtain ⟨s', hrun', h⟩ := seekToLast_linearizes ofLT isStrict_ofLT [((10 : Nat), 1), (20, 1)]
    (by decide) (by decide) (fun _ : Unit => []) (List.replicate 5 (.shared .writer) ++
      [.last (), .last ()] ++ List.replicate 5 (.shared .writer) ++ List.replicate 2 (.last ()))
  obtain rfl : s = s' := Except.ok.inj (hrun.symm.trans hrun')
  exact ⟨s, hrun, hsince, htill, fun it hit => ((h ()).2 it hit).2.2⟩

end Leveldb.SkipList
