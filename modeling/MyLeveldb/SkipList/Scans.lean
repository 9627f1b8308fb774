import MyLeveldb.SkipList.Invariant

/-!
# SkipList — Scans

The searches, which mix steps to the right with steps down, against plain scans of one level.
`firstFrom` and `lastBefore` go through all nodes of a level; `scanLast` is the loop in the comment
of `findLast`.

`searches_scan`: on every list the constructor and `insert` reach, and for every target, the
searches find what the scans find, on every level that is in use.
-/

namespace Leveldb.SkipList

open Levels (level Descent)
open ThreeWay

variable {Key : Type} {l : SkipList Key} {es as bs : List (Entry Key)} {cmp : Key → Key → Int}
  {t : Key} {i : Nat}

/-! ### The scans -/

/-- The key of `x` is before `t`. -/
def Before (cmp : Key → Key → Int) (l : SkipList Key) (t : Key) (x : NodePtr) : Prop :=
  ∃ k, l.key x = .ok k ∧ cmp k t < 0

/-- The key of `x` is `t` or after it. -/
def NotBefore (cmp : Key → Key → Int) (l : SkipList Key) (t : Key) (x : NodePtr) : Prop :=
  ∃ k, l.key x = .ok k ∧ 0 ≤ cmp k t

/-- The key of a node, as far as it has one. -/
theorem key_eq_ok {x : NodePtr} {k : Key} : l.key x = .ok k ↔ k ∈ (l.key x).toOption := by
  cases l.key x <;> simp [Except.toOption]

instance (cmp : Key → Key → Int) (l : SkipList Key) (t : Key) (x : NodePtr) :
    Decidable (Before cmp l t x) :=
  decidable_of_iff (∃ k ∈ (l.key x).toOption, cmp k t < 0) (by simp only [Before, key_eq_ok])

instance (cmp : Key → Key → Int) (l : SkipList Key) (t : Key) (x : NodePtr) :
    Decidable (NotBefore cmp l t x) :=
  decidable_of_iff (∃ k ∈ (l.key x).toOption, 0 ≤ cmp k t) (by simp only [NotBefore, key_eq_ok])

/-- The first node on level 0 that is not before `t`. -/
def firstFrom (cmp : Key → Key → Int) (l : SkipList Key) (t : Key) :
    Except Fault (Option NodePtr) := do
  let xs ← l.nodesOnLevel 0
  .ok (xs.find? fun x => decide (NotBefore cmp l t x))

/-- The last node on level `i` that is before `t`, or `head_`. -/
def lastBefore (cmp : Key → Key → Int) (l : SkipList Key) (t : Key) (i : Nat) :
    Except Fault NodePtr := do
  let xs ← l.nodesOnLevel i
  .ok ((xs.filter fun x => decide (Before cmp l t x)).getLastD l.head_)

/-- `while (x->next_[0] != NULL) x = x->next_[0]`. -/
def scanLastLoop (l : SkipList Key) : Nat → NodePtr → Except Fault NodePtr
  | 0, _ => .error .fuel
  | fuel + 1, x => do
      match ← l.next x 0 with
      | none   => .ok x
      | some y => scanLastLoop l fuel y

/-- The scan in the comment of `findLast`. -/
def scanLast (l : SkipList Key) : Except Fault NodePtr :=
  scanLastLoop l l.nodes.length l.head_

/-! ### What they find -/

theorem Holds.before_iff (h : Holds l es) {e : Entry Key} (he : e ∈ es) :
    Before cmp l t e.ptr ↔ cmp e.key t < 0 := by
  simp [Before, h.key_eq e he]

theorem Holds.notBefore_iff (h : Holds l es) {e : Entry Key} (he : e ∈ es) :
    NotBefore cmp l t e.ptr ↔ 0 ≤ cmp e.key t := by
  simp [NotBefore, h.key_eq e he]

/-- The entries of `as` are before `t`, and those of `bs` are not. -/
structure Separates (cmp : Key → Key → Int) (t : Key) (as bs : List (Entry Key)) : Prop where
  low : ∀ e ∈ as, cmp e.key t < 0
  high : ∀ e ∈ bs, 0 ≤ cmp e.key t

theorem Shape.firstFrom_eq (h : Shape l (as ++ bs)) (hs : Separates cmp t as bs) :
    l.firstFrom cmp t = .ok (bs.head?.map Entry.ptr) := by
  have hzero : levelPtrs 0 (as ++ bs) = as.map Entry.ptr ++ bs.map Entry.ptr := by
    rw [levelPtrs, Levels.level_eq_self h.height_pos, List.map_append]
  have hlow : (as.map Entry.ptr).find? (fun x => decide (NotBefore cmp l t x)) = none := by
    refine List.find?_eq_none.mpr fun x hx => ?_
    obtain ⟨e, he, rfl⟩ := List.mem_map.mp hx
    rw [decide_eq_true_iff, h.notBefore_iff (List.mem_append_left _ he), Int.not_le]
    exact hs.low e he
  rw [firstFrom, h.nodesOnLevel_eq (by decide), hzero, ok_bind, List.find?_append, hlow,
    Option.none_or]
  cases bs with
  | nil => rfl
  | cons e bs =>
      have he : NotBefore cmp l t e.ptr :=
        (h.notBefore_iff (by simp)).mpr (hs.high e List.mem_cons_self)
      have hfirst : ((e :: bs).map Entry.ptr).find? (fun x => decide (NotBefore cmp l t x)) =
          some e.ptr := List.find?_cons_of_pos (decide_eq_true he)
      rw [hfirst]
      rfl

theorem Shape.lastBefore_eq (h : Shape l (as ++ bs)) (hs : Separates cmp t as bs)
    (hi : i < kMaxHeight) : l.lastBefore cmp t i = .ok (l.prevPtr i as) := by
  have hlow : (levelPtrs i as).filter (fun x => decide (Before cmp l t x)) = levelPtrs i as := by
    refine List.filter_eq_self.mpr fun x hx => ?_
    obtain ⟨e, he, rfl⟩ := List.mem_map.mp hx
    have he := (Levels.mem_level.mp he).1
    rw [decide_eq_true_iff, h.before_iff (List.mem_append_left _ he)]
    exact hs.low e he
  have hhigh : (levelPtrs i bs).filter (fun x => decide (Before cmp l t x)) = [] := by
    refine List.filter_eq_nil_iff.mpr fun x hx => ?_
    obtain ⟨e, he, rfl⟩ := List.mem_map.mp hx
    have he := (Levels.mem_level.mp he).1
    rw [decide_eq_true_iff, h.before_iff (List.mem_append_right _ he), Int.not_lt]
    exact hs.high e he
  rw [lastBefore, h.nodesOnLevel_eq hi, ok_bind, levelPtrs_append, List.filter_append, hlow, hhigh,
    List.append_nil]
  rfl

/-- The node after the last one before `t` is not before `t`. -/
theorem Shape.next_lastBefore (h : Shape l (as ++ bs)) (hs : Separates cmp t as bs)
    (hi : i < kMaxHeight) :
    ∃ next, l.next (l.prevPtr i as) i = .ok next ∧ ∀ y ∈ next, NotBefore cmp l t y := by
  have hlink := h.chain i hi
  rw [levelPtrs_append] at hlink
  refine ⟨_, next_of_link hlink.link_at, fun y hy => ?_⟩
  obtain ⟨e, he, rfl⟩ := List.mem_map.mp (List.mem_of_head? hy)
  have he := (Levels.mem_level.mp he).1
  exact (h.notBefore_iff (List.mem_append_right _ he)).mpr (hs.high e he)

theorem scanLastLoop_eq (h : Shape l es) :
    ∀ (fuel : Nat) (as bs : List (Entry Key)), es = as ++ bs → bs.length < fuel →
      scanLastLoop l fuel (l.lastPtr as) = .ok (l.lastPtr es) := by
  intro fuel
  induction fuel with
  | zero => exact fun as bs _ hf => absurd hf (Nat.not_lt_zero _)
  | succ fuel ih =>
      intro as bs hes hf
      rw [scanLastLoop, (hes ▸ h : Shape l (as ++ bs)).next_zero]
      cases bs with
      | nil => rw [hes, List.append_nil]; rfl
      | cons b bs =>
          have := ih (as ++ [b]) bs (by simp [hes]) (by simpa using hf)
          rwa [lastPtr_concat] at this

theorem scanLast_eq (h : Shape l es) : l.scanLast = .ok (l.lastPtr es) :=
  scanLastLoop_eq h _ [] es rfl h.length_lt

/-! ### The searches -/

/-- The searches for `t`, and for the last node, find what the scans find. -/
structure SearchesScan (cmp : Key → Key → Int) (l : SkipList Key) (t : Key) (node : Option NodePtr)
    (pre : Prev) : Prop where
  findEqualOrGreater : l.findEqualOrGreater (.ofInt cmp) t = .ok (node, pre)
  first : l.firstFrom cmp t = .ok node
  pre_last : ∀ i, i < l.curMaxHeight_ → ∃ p, pre i = some p ∧ l.lastBefore cmp t i = .ok p ∧
    ∃ next, l.next p i = .ok next ∧ ∀ y ∈ next, NotBefore cmp l t y
  findLessThan : ∃ x, l.findLessThan (.ofInt cmp) t = .ok x ∧ l.lastBefore cmp t 0 = .ok x ∧
    pre 0 = some x
  findLast : ∃ x xs, l.findLast = .ok x ∧ l.scanLast = .ok x ∧ l.nodesOnLevel 0 = .ok xs ∧
    x = xs.getLastD l.head_

/-- A search of a sorted list ends where the keys stop being before the target. -/
theorem Sorted.separates (hc : IsPreorder cmp) (h : Sorted cmp l (as ++ bs))
    (hd : Descent Entry.height (fun e => cmp e.key t < 0) l.curMaxHeight_ 0 as bs) :
    Separates cmp t as bs := by
  obtain ⟨hlow, hhigh⟩ := h.split hc hd h.cur_pos
  exact ⟨hlow, hhigh⟩

theorem Sorted.searchesScan (hc : IsPreorder cmp) (h : Sorted cmp l es) (t : Key) :
    ∃ node pre, SearchesScan cmp l t node pre := by
  obtain ⟨as, bs, pre, hes, hcut, hfind⟩ :=
    findEqualOrGreater_cut h.toShape (decides_ofInt cmp t es)
  obtain ⟨as', bs', hes', hdescent, hless⟩ := findLessThan_cut h.toShape (decides_ofInt cmp t es)
  have hcur := h.cur_le
  have hshape : Shape l (as ++ bs) := hes ▸ h.toShape
  have hsep := (hes ▸ h : Sorted cmp l (as ++ bs)).separates hc hcut.descent
  -- the two searches may end at cuts of their own; the scan says that these are one
  have hshape' : Shape l (as' ++ bs') := hes' ▸ h.toShape
  have hsep' := (hes' ▸ h : Sorted cmp l (as' ++ bs')).separates hc hdescent
  have hlast' := hshape'.lastBefore_eq hsep' (i := 0) (by decide)
  have hzero : l.prevPtr 0 as' = l.lastPtr as' := prevPtr_eq_lastPtr fun e he =>
    hshape'.height_pos e (List.mem_append_left _ (List.mem_of_getLast? he))
  have hsame : l.prevPtr 0 as = l.lastPtr as' := by
    have hlast := hshape.lastBefore_eq hsep (i := 0) (by decide)
    rw [hlast', hzero] at hlast
    exact (Except.ok.inj hlast).symm
  refine ⟨bs.head?.map Entry.ptr, pre, hfind, hshape.firstFrom_eq hsep, fun i hi => ?_, ?_, ?_⟩
  · have hik : i < kMaxHeight := by omega
    exact ⟨_, hcut.pre_eq i hi, hshape.lastBefore_eq hsep hik, hshape.next_lastBefore hsep hik⟩
  · exact ⟨_, hless, hzero ▸ hlast', hsame ▸ hcut.pre_eq 0 h.cur_pos⟩
  · refine ⟨_, _, findLast_eq h.toShape, scanLast_eq h.toShape,
      h.nodesOnLevel_eq (by decide), ?_⟩
    rw [levelPtrs, Levels.level_eq_self h.height_pos]
    rfl

/-- **The descending searches agree with plain scans**, on every list that is reached. -/
theorem searches_scan (cmp : Key → Key → Int) (hc : IsStrict cmp) (kvs : List (Key × Nat))
    (hnd : (kvs.map Prod.fst).Nodup) (hh : HeightsInRange kvs) :
    ∃ l, build (.ofInt cmp) kvs = .ok l ∧ ∀ t, ∃ node pre, SearchesScan cmp l t node pre := by
  obtain ⟨l, es, hrun, hl, -⟩ := build_sorted hc hnd hh
  exact ⟨l, hrun, hl.searchesScan hc.toIsPreorder⟩

theorem searches_scan_three :
    ∃ l, build (.ofInt ofLT) [((20 : Nat), 1), (10, 3), (30, 2)] = .ok l ∧
      ∀ t, ∃ node pre, SearchesScan ofLT l t node pre :=
  searches_scan ofLT isStrict_ofLT _ (by decide) (by decide)

end Leveldb.SkipList
