import Mathlib.Algebra.Order.Ring.Int
import Mathlib.Data.List.Basic
import Mathlib.Tactic.Common

/-!
# Support — Order — ThreeWay

A *three-way comparator* is a function `cmp : α → α → Int` read by the sign of its result:
negative for "before", zero for "equivalent", positive for "after".  `IsPreorder cmp` says that
the signs describe a total preorder, `IsStrict cmp` that only equal elements are equivalent.

* `IsPreorder.comap`, `IsPreorder.thenBy`: comparators pulled back along a function, and a first
  comparator whose ties a second one breaks.
* `ofLT`: the comparator of a linear order.
* `above`: the number of elements of a list above a given one, which a climb through the list
  runs down.
* `IsLeast`, `IsGreatest` and the choice functions `least`, `greatest`: the extreme elements of a
  set, when it has any.
-/

namespace ThreeWay

universe u v

variable {α : Type u} {β : Type v}

/-- The signs of `cmp` describe a total preorder. -/
structure IsPreorder (cmp : α → α → Int) : Prop where
  flip : ∀ a b, cmp a b < 0 ↔ 0 < cmp b a
  trans : ∀ a b c, cmp a b ≤ 0 → cmp b c ≤ 0 → cmp a c ≤ 0

/-- The signs of `cmp` describe a strict total order: only equal elements tie. -/
structure IsStrict (cmp : α → α → Int) : Prop extends IsPreorder cmp where
  eq_of_tie : ∀ a b, cmp a b = 0 → a = b

namespace IsPreorder

variable {cmp : α → α → Int} (h : IsPreorder cmp)

include h

theorem flip_le (a b : α) : cmp a b ≤ 0 ↔ 0 ≤ cmp b a := by
  have := h.flip b a
  omega

theorem tie_comm (a b : α) : cmp a b = 0 ↔ cmp b a = 0 := by
  have := h.flip a b
  have := h.flip b a
  omega

theorem sign_flip (a b : α) : (cmp a b).sign = -(cmp b a).sign := by
  rcases lt_trichotomy (cmp a b) 0 with hab | hab | hab
  · rw [Int.sign_eq_neg_one_of_neg hab, Int.sign_eq_one_of_pos ((h.flip a b).mp hab)]
  · rw [hab, (h.tie_comm a b).mp hab]
    rfl
  · rw [Int.sign_eq_one_of_pos hab, Int.sign_eq_neg_one_of_neg ((h.flip b a).mpr hab)]
    rfl

theorem self (a : α) : cmp a a = 0 := by
  have := h.flip a a
  omega

theorem lt_of_lt_of_le {a b c : α} (hab : cmp a b < 0) (hbc : cmp b c ≤ 0) : cmp a c < 0 := by
  by_contra hac
  have hca : cmp c a ≤ 0 := (h.flip_le c a).mpr (by omega)
  have hba := h.trans b c a hbc hca
  have := (h.flip a b).mp hab
  omega

theorem lt_of_le_of_lt {a b c : α} (hab : cmp a b ≤ 0) (hbc : cmp b c < 0) : cmp a c < 0 := by
  by_contra hac
  have hca : cmp c a ≤ 0 := (h.flip_le c a).mpr (by omega)
  have hcb := h.trans c a b hca hab
  have := (h.flip b c).mp hbc
  omega

theorem lt_trans {a b c : α} (hab : cmp a b < 0) (hbc : cmp b c < 0) : cmp a c < 0 :=
  h.lt_of_lt_of_le hab hbc.le

theorem tie_trans {a b c : α} (hab : cmp a b = 0) (hbc : cmp b c = 0) : cmp a c = 0 := by
  have hac := h.trans a b c hab.le hbc.le
  have hca := h.trans c b a ((h.tie_comm b c).mp hbc).le ((h.tie_comm a b).mp hab).le
  have := (h.flip_le c a).mp hca
  omega

/-- The comparator of the images under `f`. -/
theorem comap (f : β → α) : IsPreorder fun x y => cmp (f x) (f y) :=
  ⟨fun x y => h.flip (f x) (f y), fun x y z => h.trans (f x) (f y) (f z)⟩

/-- `cmp` with its ties broken by a second comparator. -/
theorem thenBy {cmp₂ : α → α → Int} (h₂ : IsPreorder cmp₂) :
    IsPreorder fun x y => if cmp x y = 0 then cmp₂ x y else cmp x y := by
  refine ⟨fun a b => ?_, fun a b c hab hbc => ?_⟩
  · have := h.flip a b
    have := h.flip b a
    have := h₂.flip a b
    split_ifs <;> omega
  · split_ifs at hab with tab
    · split_ifs at hbc with tbc
      · rw [if_pos (h.tie_trans tab tbc)]
        exact h₂.trans a b c hab hbc
      · have hac := h.lt_of_le_of_lt tab.le (show cmp b c < 0 by omega)
        rw [if_neg (by omega)]
        exact hac.le
    · have hbc' : cmp b c ≤ 0 := by split_ifs at hbc <;> omega
      have hac := h.lt_of_lt_of_le (show cmp a b < 0 by omega) hbc'
      rw [if_neg (by omega)]
      exact hac.le

end IsPreorder

/-- The comparator of a linear order. -/
def ofLT [LinearOrder α] (a b : α) : Int :=
  if a < b then -1 else if b < a then 1 else 0

section ofLT

variable [LinearOrder α] {a b : α}

theorem ofLT_neg : ofLT a b < 0 ↔ a < b := by
  unfold ofLT
  split_ifs with h₁ h₂ <;> simp [h₁]

theorem ofLT_le : ofLT a b ≤ 0 ↔ a ≤ b := by
  unfold ofLT
  split_ifs with h₁ h₂
  · simp [h₁.le]
  · simp [h₂]
  · simp [not_lt.mp h₂]

theorem ofLT_pos : 0 < ofLT a b ↔ b < a := by
  rw [← not_le, ofLT_le, not_le]

theorem ofLT_tie : ofLT a b = 0 ↔ a = b := by
  rw [le_antisymm_iff, ofLT_le, le_antisymm_iff, ← @not_lt Int _ (ofLT a b), ofLT_neg, not_lt]

theorem isStrict_ofLT : IsStrict (ofLT : α → α → Int) where
  flip a b := by rw [ofLT_neg, ofLT_pos]
  trans a b c hab hbc := by
    rw [ofLT_le] at *
    exact hab.trans hbc
  eq_of_tie a b h := ofLT_tie.mp h

end ofLT

/-! ### Climbing -/

/-- The number of elements of `xs` above `o`; all of them are above `none`. -/
def above (cmp : α → α → Int) (xs : List α) (o : Option α) : Nat :=
  xs.countP fun x => o.all fun a => decide (cmp a x < 0)

theorem above_none (cmp : α → α → Int) (xs : List α) : above cmp xs none = xs.length := by
  simp [above]

theorem above_lt {cmp : α → α → Int} (h : IsPreorder cmp) {xs : List α} {o : Option α} {z : α}
    (hz : z ∈ xs) (ho : ∀ a ∈ o, cmp a z < 0) : above cmp xs (some z) < above cmp xs o := by
  have hle : ∀ ys : List α, above cmp ys (some z) ≤ above cmp ys o := fun ys => by
    refine List.countP_mono_left fun x _ hx => ?_
    have hzx : cmp z x < 0 := by simpa using hx
    cases o with
    | none => rfl
    | some a => simpa using h.lt_trans (ho a rfl) hzx
  obtain ⟨ys, zs, rfl⟩ := List.append_of_mem hz
  have hys := hle ys
  have hzs := hle zs
  have hself : o.all (fun a => decide (cmp a z < 0)) = true := by
    cases o with
    | none => rfl
    | some a => simpa using ho a rfl
  simp only [above, List.countP_append, List.countP_cons, hself, Option.all_some, h.self] at *
  simp only [lt_irrefl, decide_false, Bool.false_eq_true, if_true, if_false]
  omega

/-! ### Extreme elements -/

/-- `a` is a least element of `S`. -/
def IsLeast (cmp : α → α → Int) (S : Set α) (a : α) : Prop :=
  a ∈ S ∧ ∀ b ∈ S, cmp a b ≤ 0

/-- `a` is a greatest element of `S`. -/
def IsGreatest (cmp : α → α → Int) (S : Set α) (a : α) : Prop :=
  a ∈ S ∧ ∀ b ∈ S, cmp b a ≤ 0

/-- A property that some element of a list has, a least one has. -/
theorem IsPreorder.exists_isLeast {cmp : α → α → Int} (h : IsPreorder cmp) {P : α → Prop}
    {xs : List α} (hx : ∃ x ∈ xs, P x) : ∃ a, IsLeast cmp {x | x ∈ xs ∧ P x} a := by
  induction xs with
  | nil => exact absurd hx (by simp)
  | cons y ys ih =>
      by_cases hys : ∃ x ∈ ys, P x
      · obtain ⟨a, ⟨ha, hPa⟩, hmin⟩ := ih hys
        by_cases hy : P y ∧ cmp y a < 0
        · refine ⟨y, ⟨List.mem_cons_self, hy.1⟩, fun b hb => ?_⟩
          rcases List.mem_cons.mp hb.1 with rfl | hby
          · exact (h.self b).le
          · exact h.trans y a b hy.2.le (hmin b ⟨hby, hb.2⟩)
        · refine ⟨a, ⟨List.mem_cons_of_mem y ha, hPa⟩, fun b hb => ?_⟩
          rcases List.mem_cons.mp hb.1 with rfl | hby
          · have hle : ¬ cmp b a < 0 := fun hlt => hy ⟨hb.2, hlt⟩
            exact (h.flip_le a b).mpr (Int.not_lt.mp hle)
          · exact hmin b ⟨hby, hb.2⟩
      · obtain ⟨x, hx, hPx⟩ := hx
        rcases List.mem_cons.mp hx with rfl | hx
        · refine ⟨x, ⟨List.mem_cons_self, hPx⟩, fun b hb => ?_⟩
          rcases List.mem_cons.mp hb.1 with rfl | hby
          · exact (h.self b).le
          · exact absurd ⟨b, hby, hb.2⟩ hys
        · exact absurd ⟨x, hx, hPx⟩ hys

theorem IsStrict.eq_of_le {cmp : α → α → Int} (h : IsStrict cmp) {a b : α} (hab : cmp a b ≤ 0)
    (hba : cmp b a ≤ 0) : a = b := by
  have := (h.flip_le b a).mp hba
  exact h.eq_of_tie a b (by omega)

/-- The comparator of the reverse order. -/
theorem IsStrict.swap {cmp : α → α → Int} (h : IsStrict cmp) : IsStrict fun a b => cmp b a where
  flip a b := h.flip b a
  trans a b c hab hbc := h.trans c b a hbc hab
  eq_of_tie a b hab := (h.eq_of_tie b a hab).symm

theorem IsStrict.isLeast_unique {cmp : α → α → Int} (h : IsStrict cmp) {S : Set α} {a b : α}
    (ha : IsLeast cmp S a) (hb : IsLeast cmp S b) : a = b :=
  h.eq_of_le (ha.2 b hb.1) (hb.2 a ha.1)

theorem IsStrict.isGreatest_unique {cmp : α → α → Int} (h : IsStrict cmp) {S : Set α} {a b : α}
    (ha : IsGreatest cmp S a) (hb : IsGreatest cmp S b) : a = b :=
  h.eq_of_le (hb.2 a ha.1) (ha.2 b hb.1)

open Classical in
/-- The least element of `S`, if it has one. -/
noncomputable def least (cmp : α → α → Int) (S : Set α) : Option α :=
  if h : ∃ a, IsLeast cmp S a then some h.choose else none

open Classical in
/-- The greatest element of `S`, if it has one. -/
noncomputable def greatest (cmp : α → α → Int) (S : Set α) : Option α :=
  if h : ∃ a, IsGreatest cmp S a then some h.choose else none

variable {cmp : α → α → Int} {S : Set α}

theorem least_eq_some (h : IsStrict cmp) {a : α} (ha : IsLeast cmp S a) :
    least cmp S = some a := by
  have hex : ∃ a, IsLeast cmp S a := ⟨a, ha⟩
  rw [least, dif_pos hex, h.isLeast_unique hex.choose_spec ha]

theorem greatest_eq_some (h : IsStrict cmp) {a : α} (ha : IsGreatest cmp S a) :
    greatest cmp S = some a := by
  have hex : ∃ a, IsGreatest cmp S a := ⟨a, ha⟩
  rw [greatest, dif_pos hex, h.isGreatest_unique hex.choose_spec ha]

/-- An element of the set is the least one not before it. -/
theorem least_not_before (h : IsStrict cmp) {a : α} (ha : a ∈ S) :
    least cmp {b ∈ S | cmp a b ≤ 0} = some a :=
  least_eq_some h ⟨⟨ha, (h.self a).le⟩, fun _ hb => hb.2⟩

/-- The least element of a sorted list is its head. -/
theorem least_of_sorted (h : IsStrict cmp) {xs : List α} (hs : xs.Pairwise (cmp · · < 0)) :
    least cmp {x | x ∈ xs} = xs.head? := by
  cases xs with
  | nil => exact dif_neg fun ⟨a, ha⟩ => List.not_mem_nil ha.1
  | cons x xs =>
      refine least_eq_some h ⟨List.mem_cons_self, fun b hb => ?_⟩
      rcases List.mem_cons.mp hb with rfl | hb
      · rw [h.self]
      · exact Int.le_of_lt ((List.pairwise_cons.mp hs).1 b hb)

/-- The greatest element of a sorted list is its last one. -/
theorem greatest_of_sorted (h : IsStrict cmp) {xs : List α} (hs : xs.Pairwise (cmp · · < 0)) :
    greatest cmp {x | x ∈ xs} = xs.getLast? := by
  rcases List.eq_nil_or_concat xs with rfl | ⟨xs, x, rfl⟩
  · exact dif_neg fun ⟨a, ha⟩ => List.not_mem_nil ha.1
  · rw [List.concat_eq_append] at *
    rw [List.getLast?_concat]
    refine greatest_eq_some h ⟨by simp, fun b hb => ?_⟩
    rcases List.mem_append.mp hb with hb | hb
    · exact Int.le_of_lt ((List.pairwise_append.mp hs).2.2 b hb x (by simp))
    · rw [List.mem_singleton.mp hb, h.self]

end ThreeWay
