import MyLeveldb.SkipList.Readers

/-!
# SkipList — Views

What a reader may rely on of a list that is being written to.  `View l es lv`: the nodes there are
are those of `es`, in order; `head_` and the nodes of `lv j` are linked on level `j`; and a slot of
a node on a level it is not linked on has not been stored to, or already leads to what follows the
node there.

* `View.step`: whatever node a reader stands on, its next step loads a slot nothing has been stored
  to, or takes it on along the level, or down past the keys before its target.
* `least_notBefore`: where it goes down on level 0, the node it has loaded is that of the least key
  linked there that is not before its target.

Nothing here says who writes, or when.
-/

namespace Leveldb.SkipList

open Levels (level)
open ThreeWay

variable {Key : Type} {l : SkipList Key} {es ys : List (Entry Key)} {lv : Nat → List (Entry Key)}
  {cmp : Key → Key → Int} {t : Key} {hd x : NodePtr} {j : Nat} {o : Option (Entry Key)}
  {y : Entry Key}

/-- What comes after `o` on a level, or after `head_`. -/
def following (cmp : Key → Key → Int) (o : Option (Entry Key)) (ys : List (Entry Key)) :
    List (Entry Key) :=
  ys.filter fun y => o.all fun x => decide (cmp x.key y.key < 0)

/-- What a search for `t` does not pass on a level. -/
def notBefore (cmp : Key → Key → Int) (t : Key) (ys : List (Entry Key)) : List (Entry Key) :=
  ys.filter fun y => decide (0 ≤ cmp y.key t)

theorem following_none (ys : List (Entry Key)) : following cmp none ys = ys :=
  List.filter_eq_self.2 fun _ _ => rfl

@[simp] theorem mem_following {z : Entry Key} :
    z ∈ following cmp o ys ↔ z ∈ ys ∧ ∀ x ∈ o, cmp x.key z.key < 0 := by
  cases o <;> simp [following]

@[simp] theorem mem_notBefore {z : Entry Key} :
    z ∈ notBefore cmp t ys ↔ z ∈ ys ∧ 0 ≤ cmp z.key t := by
  simp [notBefore]

theorem following_append {qs ss : List (Entry Key)} (hc : IsPreorder cmp)
    (hqs : ∀ z ∈ qs, cmp z.key y.key ≤ 0) (hss : ∀ z ∈ ss, cmp y.key z.key < 0) :
    following cmp (some y) (qs ++ ss) = ss := by
  have hqs' : following cmp (some y) qs = [] := by
    refine List.filter_eq_nil_iff.2 fun z hz => ?_
    have hle := (hc.flip_le z.key y.key).1 (hqs z hz)
    simpa using hle
  have hss' : following cmp (some y) ss = ss :=
    List.filter_eq_self.2 fun z hz => by simpa using hss z hz
  rw [following, List.filter_append, ← following, ← following, hqs', hss', List.nil_append]

/-- Where the list is cut after `y`, that is what follows it. -/
theorem following_cut {qs ss : List (Entry Key)} (hc : IsPreorder cmp)
    (h : Increasing cmp (qs ++ y :: ss)) : following cmp (some y) (qs ++ y :: ss) = ss := by
  obtain ⟨-, hss, hcross⟩ := List.pairwise_append.1 h
  rw [List.append_cons]
  refine following_append hc (fun z hz => ?_) (List.pairwise_cons.1 hss).1
  rcases List.mem_append.1 hz with hz | hz
  · exact (hcross z hz y List.mem_cons_self).le
  · rw [List.mem_singleton.1 hz]
    exact (hc.self y.key).le

/-- A search that has passed `o` and stops there passes nothing else. -/
theorem following_eq_notBefore (hc : IsPreorder cmp) (ho : ∀ x ∈ o, cmp x.key t < 0)
    (h : ∀ z ∈ following cmp o ys, 0 ≤ cmp z.key t) : following cmp o ys = notBefore cmp t ys := by
  refine List.filter_congr fun z hz => ?_
  rw [Bool.eq_iff_iff, decide_eq_true_iff, Option.all_eq_true]
  constructor
  · intro hall
    exact h z (mem_following.2 ⟨hz, fun x hx => of_decide_eq_true (hall x hx)⟩)
  · intro hle x hx
    exact decide_eq_true (hc.lt_of_lt_of_le (ho x hx) ((hc.flip_le t z.key).2 hle))

theorem least_notBefore (hc : IsStrict cmp) (h : Increasing cmp ys) :
    (notBefore cmp t ys).head?.map Entry.key = least cmp {k ∈ keySet ys | cmp t k ≤ 0} := by
  have hset : {k ∈ keySet ys | cmp t k ≤ 0} = {k | k ∈ (notBefore cmp t ys).map Entry.key} := by
    ext k
    simp only [keySet, Set.mem_ofPred_eq, List.mem_map, mem_notBefore]
    constructor
    · rintro ⟨⟨z, hz, rfl⟩, hle⟩
      exact ⟨z, ⟨hz, (hc.flip_le t z.key).1 hle⟩, rfl⟩
    · rintro ⟨z, ⟨hz, hle⟩, rfl⟩
      exact ⟨⟨z, hz, rfl⟩, (hc.flip_le t z.key).2 hle⟩
  have hsorted : ((notBefore cmp t ys).map Entry.key).Pairwise (cmp · · < 0) :=
    List.pairwise_map.2 (List.Pairwise.sublist List.filter_sublist h)
  rw [hset, least_of_sorted hc hsorted, List.head?_map]

/-! ### The view -/

structure View (cmp : Key → Key → Int) (l : SkipList Key) (es : List (Entry Key))
    (lv : Nat → List (Entry Key)) : Prop where
  cur_pos : 0 < l.curMaxHeight_
  cur_le : l.curMaxHeight_ ≤ kMaxHeight
  increasing : Increasing cmp es
  key_eq : ∀ y ∈ es, l.key y.ptr = .ok y.key
  ne_head : ∀ y ∈ es, y.ptr ≠ l.head_
  sublist : ∀ j, (lv j).Sublist es
  lt_height : ∀ j, ∀ y ∈ lv j, j < y.height
  head : ∀ j, j < kMaxHeight → l.link j l.head_ ((lv j).head?.map Entry.ptr)
  slot : ∀ y ∈ es, ∀ j, j < y.height → ∃ s, l.slot y.ptr j = some s ∧
    ((s.isStored = false ∧ y ∉ lv j) ∨
      s = .stored ((following cmp (some y) (lv j)).head?.map Entry.ptr))

/-- A view from the chains of the levels. -/
theorem View.of_chain (hc : IsPreorder cmp) (hl : Holds l es) (hs : Increasing cmp es)
    (hsub : ∀ j, (lv j).Sublist es) (hlt : ∀ j, ∀ y ∈ lv j, j < y.height)
    (hchain : ∀ j, j < kMaxHeight → Linked.Chain (l.link j) l.head_ ((lv j).map Entry.ptr))
    (hrest : ∀ y ∈ es, ∀ j, j < y.height → y ∉ lv j → ∃ s, l.slot y.ptr j = some s ∧
      (s.isStored = false ∨ s = .stored ((following cmp (some y) (lv j)).head?.map Entry.ptr))) :
    View cmp l es lv := by
  refine ⟨hl.cur_pos, hl.cur_le, hs, hl.key_eq, fun y hy => hl.head_ne hy, hsub, hlt,
    fun j hj => ?_, fun y hy j hj => ?_⟩
  · rw [← List.head?_map]
    have hch : Linked.Chain (l.link j) l.head_ ([] ++ (lv j).map Entry.ptr) := hchain j hj
    exact hch.link_at
  · by_cases hyj : y ∈ lv j
    · have hjk : j < kMaxHeight := hj.trans_le ((hl.height_le y hy).trans hl.cur_le)
      obtain ⟨qs, ss, hcut⟩ := List.append_of_mem hyj
      have hlink := hchain j hjk
      rw [hcut, List.append_cons, List.map_append] at hlink
      have hlink := hlink.link_at
      rw [List.map_append, List.map_singleton, List.getLastD_concat, List.head?_map] at hlink
      refine ⟨_, hlink, .inr ?_⟩
      rw [hcut, following_cut hc (hcut ▸ List.Pairwise.sublist (hsub j) hs)]
    · obtain ⟨s, hslot, hcase⟩ := hrest y hy j hj hyj
      exact ⟨s, hslot, hcase.imp_left fun h => ⟨h, hyj⟩⟩

/-- A reader of `t` is on level `j` of the node of `o`, or of `head_`: at `x`. -/
structure Standing (cmp : Key → Key → Int) (t : Key) (es : List (Entry Key)) (hd : NodePtr)
    (j : Nat) (o : Option (Entry Key)) (x : NodePtr) : Prop where
  lt : j < kMaxHeight
  x_eq : x = (o.map Entry.ptr).getD hd
  on : ∀ y ∈ o, y ∈ es ∧ j < y.height ∧ cmp y.key t < 0

theorem Standing.down (h : Standing cmp t es hd (j + 1) o x) : Standing cmp t es hd j o x := by
  refine ⟨Nat.lt_of_succ_lt h.lt, h.x_eq, fun y hy => ?_⟩
  obtain ⟨hes, hj, ht⟩ := h.on y hy
  exact ⟨hes, Nat.lt_of_succ_lt hj, ht⟩

theorem Standing.mono {es' : List (Entry Key)} (h : Standing cmp t es hd j o x) (hsub : es ⊆ es') :
    Standing cmp t es' hd j o x :=
  ⟨h.lt, h.x_eq, fun y hy => ⟨hsub (h.on y hy).1, (h.on y hy).2⟩⟩

/-- The slot a reader loads. -/
theorem View.load (hv : View cmp l es lv) (h : Standing cmp t es l.head_ j o x) :
    ∃ s, l.slot x j = some s ∧ ((s.isStored = false ∧ ∃ y ∈ o, y ∉ lv j) ∨
      s = .stored ((following cmp o (lv j)).head?.map Entry.ptr)) := by
  cases ho : o with
  | none =>
      refine ⟨_, ?_, .inr rfl⟩
      rw [h.x_eq, ho, following_none]
      exact hv.head j h.lt
  | some y =>
      obtain ⟨hes, hj, -⟩ := h.on y ho
      obtain ⟨s, hs, hcase⟩ := hv.slot y hes j hj
      refine ⟨s, ?_, hcase.imp_left fun hun => ⟨hun.1, y, rfl, hun.2⟩⟩
      rw [h.x_eq, ho]
      exact hs

/-- What a step makes of a reader that stands at `x` on level `j`, and that has loaded a slot too
early before if `b`. -/
inductive Steps (cmp : Key → Key → Int) (t : Key) (es : List (Entry Key))
    (lv : Nat → List (Entry Key)) (hd : NodePtr) (j : Nat) (o : Option (Entry Key)) (x : NodePtr)
    (b : Bool) : Reader → Prop where
  | lost (hy : ∃ y ∈ o, y ∉ lv j) : Steps cmp t es lv hd j o x b ⟨.lost, true⟩
  | null (hy : ∃ y ∈ o, y ∉ lv j) : Steps cmp t es lv hd j o x b ⟨.loop j x none, true⟩
  | right (y : Entry Key) (hy : y ∈ lv j) (h : Standing cmp t es hd j (some y) y.ptr)
      (hlt : above cmp (es.map Entry.key) (some y.key) <
        above cmp (es.map Entry.key) (o.map Entry.key)) :
      Steps cmp t es lv hd j o x b ⟨.loop (j + 1) y.ptr (some y.ptr), b⟩
  | down (h : following cmp o (lv j) = notBefore cmp t (lv j)) :
      Steps cmp t es lv hd j o x b ⟨.loop j x ((notBefore cmp t (lv j)).head?.map Entry.ptr), b⟩

theorem View.step (hc : IsPreorder cmp) (hv : View cmp l es lv)
    (h : Standing cmp t es l.head_ j o x) (nx : Option NodePtr) (b : Bool) :
    ∃ r, Reader.step (.ofInt cmp) l t ⟨.loop (j + 1) x nx, b⟩ = .ok r ∧
      Steps cmp t es lv l.head_ j o x b r := by
  obtain ⟨s, hs, hcase⟩ := hv.load h
  rcases hcase with ⟨hun, hy⟩ | rfl
  · cases s with
    | garbage => exact ⟨_, by simp [Reader.step, hs, Slot.load, Slot.isStored], .lost hy⟩
    | constructed =>
        exact ⟨_, by simp [Reader.step, hs, Slot.load, Slot.isStored, goesDown], .null hy⟩
    | stored p => exact Bool.noConfusion hun
  · have hfollow : (following cmp o (lv j)).Sublist (lv j) := List.filter_sublist
    have hbefore : ∀ y ∈ o, cmp y.key t < 0 := fun y hy => (h.on y hy).2.2
    cases hf : following cmp o (lv j) with
    | nil =>
        have hall : ∀ z ∈ following cmp o (lv j), 0 ≤ cmp z.key t := by simp [hf]
        have heq := following_eq_notBefore hc hbefore hall
        refine ⟨_, ?_, .down heq⟩
        simp [Reader.step, hs, hf, ← heq, Slot.load, Slot.isStored, goesDown]
    | cons y ss =>
        obtain ⟨hyj, hoy⟩ := mem_following.1 (hf ▸ List.mem_cons_self : y ∈ following cmp o (lv j))
        have hyes := (hv.sublist j).subset hyj
        have hkey := hv.key_eq y hyes
        by_cases hyt : cmp y.key t < 0
        · refine ⟨_, ?_, .right y hyj ⟨h.lt, rfl, fun z hz => ?_⟩ ?_⟩
          · simp [Reader.step, hs, hf, Slot.load, Slot.isStored, goesDown, hkey, Compare.ofInt, hyt]
          · obtain rfl := Option.mem_some.1 hz
            exact ⟨hyes, hv.lt_height j y hyj, hyt⟩
          · exact above_entry_lt hc hyes hoy
        · have hinc := (hv.increasing.sublist (hv.sublist j)).sublist hfollow
          rw [hf, List.pairwise_cons] at hinc
          have hall : ∀ z ∈ following cmp o (lv j), 0 ≤ cmp z.key t := by
            intro z hz
            rcases List.mem_cons.1 (hf ▸ hz) with rfl | hz
            · exact Int.not_lt.1 hyt
            · by_contra hzt
              exact hyt (hc.lt_trans (hinc.1 z hz) (Int.not_le.1 hzt))
          have heq := following_eq_notBefore hc hbefore hall
          refine ⟨_, ?_, .down heq⟩
          simp [Reader.step, hs, hf, ← heq, Slot.load, Slot.isStored, goesDown, hkey, Compare.ofInt,
            hyt]

end Leveldb.SkipList
