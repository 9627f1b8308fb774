import MyLeveldb.SkipList.Views
import MyLeveldb.Support.Machines.Runs

/-!
# SkipList — Sharing

One list, one thread that inserts keys and any number of threads that search it, over whole runs.
The steps of an insertion are its stores, and those of a search its loads, as in
`SkipList — Interleaving`; a schedule says whose step is next.

The list does not lock, and its readers may load slots too early (`read_during_insert`).  Here every
search says whether it did.  One that has loaded raw memory is `lost` and takes no further steps: of
the code, these are the runs up to where such a search dereferences what it has loaded.
-/

namespace Leveldb.SkipList

open Levels (level)
open ThreeWay

/-! ### The threads -/

/-- A search for `target` under way. -/
structure Find (Key : Type) where
  target : Key
  reader : Reader
  /-- how many keys had been inserted when it began -/
  since : Nat
  /-- how many loads it has made -/
  loads : Nat
  deriving DecidableEq, Repr

/-- A thread that reads: the targets it has yet to search for, and its search. -/
structure Client (Key : Type) where
  todo : List Key
  find : Option (Find Key)
  deriving DecidableEq, Repr

/-- What a search has returned, and how many keys had been inserted by then. -/
structure Answer (Key : Type) where
  find : Find Key
  node : Option NodePtr
  till : Nat
  deriving DecidableEq, Repr

/-- A list, the thread that writes and the threads `R` that read. -/
structure Shared (Key R : Type) where
  list : SkipList Key
  writer : Option (Writer Key)
  /-- the keys yet to insert, and the heights `randomHeight` will yield -/
  todo : List (Key × Nat)
  /-- the keys inserted, in order -/
  inserted : List Key
  clients : R → Client Key
  answers : List (Answer Key)

/-- Whose step it is. -/
inductive Turn (R : Type) where
  | writer
  | reader (r : R)
  deriving DecidableEq, Repr

namespace Shared

variable {Key R : Type}

def start (kvs : List (Key × Nat)) (targets : R → List Key) : Except Fault (Shared Key R) := do
  let l ← SkipList.new Key
  .ok { list := l, writer := none, todo := kvs, inserted := []
        clients := fun r => { todo := targets r, find := none }, answers := [] }

/-- The writer's step: the search and the `assert` of its next insertion, which store nothing, or a
store. -/
def writerStep (compare_ : Compare Key) (s : Shared Key R) : Except Fault (Shared Key R) :=
  match s.writer with
  | none =>
      match s.todo with
      | [] => .ok s
      | (k, h) :: todo => do
          let c ← Config.start compare_ k h s.list
          .ok { s with writer := some c.writer, todo := todo }
  | some w => do
      let (l, w') ← w.step s.list
      -- the last store is the one on level 0
      if w'.pc = .finished then
        .ok { s with list := l, writer := none, inserted := s.inserted ++ [w.key] }
      else .ok { s with list := l, writer := some w' }

variable [DecidableEq R]

def put (s : Shared Key R) (r : R) (c : Client Key) : Shared Key R :=
  { s with clients := Function.update s.clients r c }

/-- A reader's step: it begins its next search, makes a load, or returns. -/
def readerStep (compare_ : Compare Key) (s : Shared Key R) (r : R) : Except Fault (Shared Key R) :=
  let c := s.clients r
  match c.find with
  | none =>
      match c.todo with
      | [] => .ok s
      | t :: todo =>
          let f : Find Key :=
            { target := t, reader := ⟨.start, false⟩, since := s.inserted.length, loads := 0 }
          .ok (s.put r { todo := todo, find := some f })
  | some f =>
      match f.reader.result with
      | some node =>
          let a : Answer Key := { find := f, node := node, till := s.inserted.length }
          .ok { s.put r { c with find := none } with answers := s.answers ++ [a] }
      | none => do
          let reader ← f.reader.step compare_ s.list f.target
          .ok (s.put r { c with find := some { f with reader := reader, loads := f.loads + 1 } })

def step (compare_ : Compare Key) (s : Shared Key R) : Turn R → Except Fault (Shared Key R)
  | .writer   => s.writerStep compare_
  | .reader r => s.readerStep compare_ r

end Shared

/-! ### The writer's invariant -/

variable {Key R : Type} {cmp : Key → Key → Int} {l l' : SkipList Key} {w w' : Writer Key}
  {es es' as bs : List (Entry Key)} {e : Entry Key} {i : Nat}

/-- What the writer inserts. -/
def Writer.kv (w : Writer Key) : Key × Nat := (w.key, w.h)

/-- The entries there are while `e` is inserted: it gets its node after the height is raised. -/
def entriesAt (as : List (Entry Key)) (e : Entry Key) (bs : List (Entry Key)) :
    WriterPc → List (Entry Key)
  | .raise | .create => as ++ bs
  | _                => as ++ e :: bs

/-- Between insertions, and during one; left to itself, the writer ends it with a sorted list. -/
inductive Writing (cmp : Key → Key → Int) : SkipList Key → Option (Writer Key) → List (Entry Key) →
    (Nat → List (Entry Key)) → Prop where
  | idle {l : SkipList Key} {es : List (Entry Key)} (hl : Sorted cmp l es) :
      Writing cmp l none es (fun j => level Entry.height j es)
  | busy {l l' : SkipList Key} {w w' : Writer Key} {as bs : List (Entry Key)} {e : Entry Key}
      {i n : Nat} (hp : Phase as e bs l w i) (hi : 0 < i) (hrun : Writer.steps n l w = .ok (l', w'))
      (hend : w'.pc = .finished) (hl : Sorted cmp l' (as ++ e :: bs)) :
      Writing cmp l (some w) (entriesAt as e bs w.pc)
        (fun j => level Entry.height j (woven as e bs i j))

/-- Before the first level is linked, no level has the new entry. -/
theorem level_woven_height (j : Nat) : level Entry.height j (woven as e bs e.height j) =
    level Entry.height j (as ++ bs) := by
  rw [woven]
  split_ifs with h
  · rfl
  · rw [Levels.level_append, Levels.level_append, Levels.level_cons_of_le (Nat.not_lt.1 h)]

/-- The nodes of a list no insertion of which is under way, or none that has made its node. -/
theorem view_of_shape (hc : IsPreorder cmp) (hl : Holds l es) (hs : Increasing cmp es)
    (hchain : ∀ j, j < kMaxHeight → Linked.Chain (l.link j) l.head_ (levelPtrs j es)) :
    View cmp l es (fun j => level Entry.height j es) := by
  refine View.of_chain hc hl hs (fun j => Levels.level_sublist) (fun j y hy => ?_) hchain
    fun y hy j hj hyj => ?_
  · exact (Levels.mem_level.1 hy).2
  · exact absurd (Levels.mem_level.2 ⟨hy, hj⟩) hyj

/-- While the new node is linked, its slots below the levels that have it are not stored, but for
the one of the next level, which leads where it will. -/
theorem view_of_linking (hc : IsPreorder cmp) (hl : Linking l as e bs i)
    (hs : Increasing cmp (as ++ e :: bs))
    (hun : ∀ j, j < i → ∃ s, l.slot e.ptr j = some s ∧
      (s.isStored = false ∨ s = .stored ((level Entry.height j bs).head?.map Entry.ptr))) :
    View cmp l (as ++ e :: bs) (fun j => level Entry.height j (woven as e bs i j)) := by
  refine View.of_chain hc hl.toHolds hs (fun j => Levels.level_sublist.trans woven_sublist)
    (fun j y hy => (Levels.mem_level.1 hy).2) hl.chain fun y hy j hj hyj => ?_
  have hji : j < i := by
    by_contra hji
    refine hyj (Levels.mem_level.2 ⟨?_, hj⟩)
    rwa [woven, if_neg hji]
  have hwoven : woven as e bs i j = as ++ bs := if_pos hji
  obtain rfl : y = e := (mem_insert.1 hy).resolve_right fun hold =>
    hyj (Levels.mem_level.2 ⟨hwoven.symm ▸ hold, hj⟩)
  have hfollow : following cmp (some y) (level Entry.height j (as ++ bs)) =
      level Entry.height j bs := by
    obtain ⟨-, hbs, hcross⟩ := List.pairwise_append.1 hs
    rw [Levels.level_append]
    refine following_append hc (fun z hz => ?_) fun z hz => ?_
    · exact (hcross z (Levels.mem_level.1 hz).1 y List.mem_cons_self).le
    · exact (List.pairwise_cons.1 hbs).1 z (Levels.mem_level.1 hz).1
  obtain ⟨s, hslot, hcase⟩ := hun j hji
  refine ⟨s, hslot, ?_⟩
  rwa [hwoven, hfollow]

theorem Writing.view {w : Option (Writer Key)} {lv : Nat → List (Entry Key)} (hc : IsPreorder cmp)
    (h : Writing cmp l w es lv) : View cmp l es lv := by
  cases h with
  | idle hl => exact view_of_shape hc hl.toHolds hl.sorted hl.chain
  | @busy l' w w' as bs e i n hp hi hrun hend hl =>
      have hs : Increasing cmp (as ++ e :: bs) := hl.sorted
      have hold : Increasing cmp (as ++ bs) :=
        List.Pairwise.sublist (List.Sublist.append_left (List.sublist_cons_self e bs) as) hs
      cases hp with
      | raise hl' _ _ =>
          simp only [level_woven_height]
          exact view_of_shape hc hl'.toHolds hold hl'.chain
      | create hl' _ _ =>
          simp only [level_woven_height]
          exact view_of_shape hc hl'.toHolds hold hl'.chain
      | loop _ hl' hu _ =>
          obtain ⟨k, rfl⟩ : ∃ k, i = k + 1 := ⟨i - 1, by omega⟩
          exact view_of_linking hc hl' hs fun j hj => (hu j hj).imp fun s hs => ⟨hs.1, .inl hs.2⟩
      | storePrev _ hl' hu hn _ =>
          refine view_of_linking hc hl' hs fun j hj => ?_
          rcases Nat.lt_succ_iff_lt_or_eq.1 hj with hj | rfl
          · exact (hu j hj).imp fun s hs => ⟨hs.1, .inl hs.2⟩
          · exact ⟨_, hn, .inr rfl⟩

/-- The writer's steps end. -/
theorem writer_ends {k : Key} {h : Nat} {prev : Prev} {node : NodePtr}
    (hrun : Writer.steps (2 * h + 2) l ⟨.raise, k, h, prev, node⟩ = .ok (l', w')) :
    w'.pc = .finished := by
  have hloop := writer_loop
    { pc := .finished, key := k, h := h, prev := l.raisePrev h prev,
      node := ((l.raiseHeight h).newNode (some k) h).1 } h
    ((l.raiseHeight h).newNode (some k) h).2
  simp only [Writer.steps, Writer.step, WriterPc.succ, ok_bind] at hrun
  rw [hloop] at hrun
  cases hlink : linkLoop ((l.raiseHeight h).newNode (some k) h).1 (l.raisePrev h prev) h
      ((l.raiseHeight h).newNode (some k) h).2 with
  | error f =>
      rw [hlink] at hrun
      cases hrun
  | ok l₁ =>
      rw [hlink] at hrun
      cases hrun
      rfl

/-- An insertion begins. -/
theorem Writing.start {lv : Nat → List (Entry Key)} (hc : IsStrict cmp)
    (h : Writing cmp l none es lv) {k : Key} {n : Nat} (hab : ∀ e ∈ es, cmp e.key k ≠ 0)
    (h₁ : 1 ≤ n) (hle : n ≤ kMaxHeight) :
    ∃ c, Config.start (.ofInt cmp) k n l = .ok c ∧ c.writer.kv = (k, n) ∧
      Writing cmp l (some c.writer) es lv := by
  cases h with
  | idle hl =>
      obtain ⟨as, bs, c, rfl, hstart, hlist, -, hpc, hp, hinc⟩ :=
        start_phase hc.toIsPreorder (h := n) hl hab
      obtain ⟨as', bs', l', heq, hinsert, hl', -⟩ :=
        insertAt_sorted hc.toIsPreorder hl hab h₁ hle
      obtain ⟨list, writer, reader⟩ := c
      obtain rfl : list = l := hlist
      obtain ⟨k', n', prev, node, hw, rfl, rfl⟩ : ∃ k' n' prev node,
          writer = ⟨.raise, k', n', prev, node⟩ ∧ k' = k ∧ n' = n := by
        cases hp with
        | raise _ _ _ => exact ⟨_, _, _, _, rfl, rfl, rfl⟩
        | create _ _ _ => cases hpc
        | loop _ _ _ _ =>
            cases n with
            | zero => cases hpc
            | succ n => cases hpc
        | storePrev _ _ _ _ _ => cases hpc
      subst hw
      -- alone, the writer does what `insertAt` does
      rw [writer_alone, hstart, ok_bind] at hinsert
      obtain ⟨⟨l₁, w'⟩, hrun, rfl⟩ := map_eq_ok.1 hinsert
      have hperm : (as' ++ (⟨list.nodes.length, k', n'⟩ : Entry Key) :: bs').Perm
          (as ++ ⟨list.nodes.length, k', n'⟩ :: bs) := by
        refine List.perm_middle.trans (List.Perm.trans ?_ List.perm_middle.symm)
        rw [heq]
      have hsame := hperm.eq_of_pairwise (fun a b _ _ hab hba => by
        have := hc.flip a.key b.key
        omega) hl'.sorted hinc
      refine ⟨_, hstart, rfl, ?_⟩
      have hbusy := Writing.busy hp (by omega) hrun (writer_ends hrun) (hsame ▸ hl')
      rwa [show (fun j => level Entry.height j (woven as ⟨list.nodes.length, k', n'⟩ bs n' j)) = _
        from funext level_woven_height] at hbusy

/-- The nodes and the links there are, before and after a step of the writer. -/
structure Grows (es : List (Entry Key)) (lv : Nat → List (Entry Key)) (es' : List (Entry Key))
    (lv' : Nat → List (Entry Key)) : Prop where
  sublist : es.Sublist es'
  levels : ∀ j, lv j ⊆ lv' j

theorem Phase.pos {w : Writer Key} (hp : Phase as e bs l w i) (hh : 0 < e.height)
    (hw : w.pc ≠ .finished) : 0 < i := by
  cases hp with
  | raise _ _ _ => exact hh
  | create _ _ _ => exact hh
  | loop _ _ _ _ => exact Nat.pos_of_ne_zero fun h => hw (h ▸ rfl)
  | storePrev _ _ _ _ _ => exact Nat.succ_pos _

theorem Phase.kv_eq {w : Writer Key} (hp : Phase as e bs l w i) : w.kv = e.kv := by
  cases hp <;> rfl

theorem Phase.done {w : Writer Key} (hp : Phase as e bs l w i) (hw : w.pc = .finished) :
    i = 0 ∧ entriesAt as e bs w.pc = as ++ e :: bs := by
  cases hp with
  | raise _ _ _ => cases hw
  | create _ _ _ => cases hw
  | loop _ _ _ _ =>
      cases i with
      | zero => exact ⟨rfl, rfl⟩
      | succ i => cases hw
  | storePrev _ _ _ _ _ => cases hw

/-- No node goes. -/
theorem entriesAt_sublist {h : Nat} (hh : 0 < h) (pc : WriterPc) :
    (entriesAt as e bs pc).Sublist (entriesAt as e bs (pc.succ h)) := by
  have hsub : (as ++ bs).Sublist (as ++ e :: bs) :=
    List.Sublist.append_left (List.sublist_cons_self e bs) as
  cases pc with
  | raise => exact List.Sublist.refl _
  | create =>
      cases h with
      | zero => cases hh
      | succ h => exact hsub
  | storeNode i => exact List.Sublist.refl _
  | storePrev i => cases i <;> exact List.Sublist.refl _
  | finished => exact List.Sublist.refl _

theorem steps_finished (hw : w.pc = .finished) : ∀ n, Writer.steps n l w = .ok (l, w)
  | 0     => rfl
  | n + 1 => by
      have hstep : w.step l = .ok (l, w) := by simp only [Writer.step, hw]
      rw [Writer.steps, hstep]
      exact steps_finished hw n

theorem level_woven_mono {i' : Nat} (h : i' ≤ i) (j : Nat) :
    level Entry.height j (woven as e bs i j) ⊆ level Entry.height j (woven as e bs i' j) := by
  intro y hy
  rw [Levels.mem_level] at hy ⊢
  exact ⟨woven_subset h hy.1, hy.2⟩

/-- The keys on level 0 are the old ones to the last. -/
theorem level_woven_pos (hi : 0 < i) : level Entry.height 0 (woven as e bs i 0) =
    level Entry.height 0 (as ++ bs) := by
  rw [woven, if_pos hi]

/-- A store of the writer. -/
theorem Writing.step {lv : Nat → List (Entry Key)} (h : Writing cmp l (some w) es lv) :
    ∃ l' w' es' lv', w.step l = .ok (l', w') ∧ l'.head_ = l.head_ ∧ Grows es lv es' lv' ∧
      w'.kv = w.kv ∧
      if w'.pc = .finished then
        Writing cmp l' none es' lv' ∧ ((lv' 0).map Entry.kv).Perm (w.kv :: (lv 0).map Entry.kv)
      else Writing cmp l' (some w') es' lv' ∧ lv' 0 = lv 0 := by
  cases h with
  | @busy lf _ wf as bs e i n hp hi hrun hend hl =>
      have he : e ∈ as ++ e :: bs := by simp
      have hh := hl.height_pos e he
      obtain ⟨l', w', i', hstep, hpc, hle, hp', hhead⟩ :=
        hp.step hh ((hl.height_le e he).trans hl.cur_le)
      have hes : (entriesAt as e bs w.pc).Sublist (entriesAt as e bs (w.pc.succ e.height)) :=
        entriesAt_sublist hh w.pc
      rw [← hpc] at hes
      have hkv : w'.kv = w.kv := hp'.kv_eq.trans hp.kv_eq.symm
      cases n with
      | zero =>
          cases hrun
          exact absurd (hp.done hend).1 (by omega)
      | succ n =>
          rw [Writer.steps, hstep] at hrun
          by_cases hfin : w'.pc = .finished
          · have hrest := steps_finished (l := l') hfin n
            obtain ⟨rfl, rfl⟩ : l' = lf ∧ w' = wf := by
              have hpair := Except.ok.inj (hrest.symm.trans hrun)
              exact ⟨congrArg Prod.fst hpair, congrArg Prod.snd hpair⟩
            obtain ⟨rfl, hall⟩ := hp'.done hfin
            refine ⟨l', w', as ++ e :: bs, fun j => level Entry.height j (as ++ e :: bs), hstep,
              hhead, ⟨hall ▸ hes, fun j => ?_⟩, hkv, ?_⟩
            · have hlevel : level Entry.height j (woven as e bs i j) ⊆
                  level Entry.height j (woven as e bs 0 j) := level_woven_mono hle j
              rwa [woven_zero] at hlevel
            · rw [if_pos hfin]
              refine ⟨.idle hl, ?_⟩
              show ((level Entry.height 0 (as ++ e :: bs)).map Entry.kv).Perm
                (w.kv :: (level Entry.height 0 (woven as e bs i 0)).map Entry.kv)
              rw [level_woven_pos hi, hp.kv_eq, Levels.level_eq_self hl.height_pos,
                Levels.level_eq_self fun y hy => hl.height_pos y (mem_insert.2 (.inr hy)),
                List.map_append, List.map_cons, List.map_append]
              exact List.perm_middle
          · refine ⟨l', w', _, _, hstep, hhead, ⟨hes, level_woven_mono hle⟩, hkv, ?_⟩
            have hi' := hp'.pos hh hfin
            rw [if_neg hfin]
            exact ⟨.busy hp' hi' hrun hend hl,
              (level_woven_pos hi').trans (level_woven_pos hi).symm⟩

/-- A node that is linked on one level and not on the next is the new one; every node that is as
high is on the level it is linked on. -/
theorem Writing.half_linked {w : Option (Writer Key)} {lv : Nat → List (Entry Key)} {j : Nat}
    {y : Entry Key} (h : Writing cmp l w es lv) (hy : y ∈ lv (j + 1)) (hn : y ∉ lv j) :
    ∃ w', w = some w' ∧ y.kv = w'.kv ∧ ∀ q ∈ lv 0, w'.h ≤ q.height → q ∈ lv (j + 1) := by
  cases h with
  | idle hl =>
      obtain ⟨hes, hj⟩ := Levels.mem_level.1 hy
      exact absurd (Levels.mem_level.2 ⟨hes, Nat.lt_of_succ_lt hj⟩) hn
  | @busy lf w wf as bs e i n hp hi hrun hend hl =>
      obtain ⟨hyw, hj⟩ := Levels.mem_level.1 hy
      have hyn : y ∉ woven as e bs i j := fun hmem =>
        hn (Levels.mem_level.2 ⟨hmem, Nat.lt_of_succ_lt hj⟩)
      have hji : j < i := by
        by_contra hji
        refine hyn ?_
        rw [woven, if_neg hji]
        rwa [woven, if_neg (by omega)] at hyw
      have hij : ¬ j + 1 < i := by
        intro hij
        refine hyn ?_
        rw [woven, if_pos hji]
        rwa [woven, if_pos hij] at hyw
      have hfull : woven as e bs i (j + 1) = as ++ e :: bs := if_neg hij
      have hye : y = e := by
        rw [woven, if_pos hji] at hyn
        exact (mem_insert.1 (hfull ▸ hyw)).resolve_right hyn
      have hkv : y.kv = w.kv := hye ▸ hp.kv_eq.symm
      have hheight : y.height = w.h := congrArg Prod.snd hkv
      refine ⟨w, rfl, hkv, fun q hq hle => Levels.mem_level.2 ⟨?_, by omega⟩⟩
      rw [hfull]
      exact woven_sublist.subset (Levels.mem_level.1 hq).1

end Leveldb.SkipList
