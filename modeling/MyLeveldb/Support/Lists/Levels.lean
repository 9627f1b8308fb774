import Mathlib.Algebra.Order.Ring.Int
import Mathlib.Data.List.Basic
import Mathlib.Tactic.Common

/-!
# Support — Lists — Levels

A list whose elements have heights carries one sublist per level: `level ht i xs` keeps the
elements higher than `i`.  A search that moves right along a level while the next element of the
level is `below` the target, and goes one level down when it is not, ends at a cut of the list.

`Descent ht below top n as bs` is the search's invariant with `n` of its `top` levels left: it
stands on the last element of `as` (or before the first element of the list), and on every level
it has left the next element after the cut is not below the target.

* `Descent.down`, `Descent.right`: the two steps keep the invariant; `Descent.level_right` says
  that a step to the right passes no element of a level already left.
* `Descent.head_not_below`: with no level left, the element after the cut is not below.
* `Descent.all_below`, `Descent.none_below`: on a list whose elements below the target come
  first, the cut separates the elements below the target from the others.
-/

namespace Levels

universe u

variable {T : Type u} {ht : T → Nat} {below : T → Prop} {i j n top : Nat} {as bs xs ys : List T}
  {y : T}

/-- The elements of `xs` higher than `i`. -/
def level (ht : T → Nat) (i : Nat) (xs : List T) : List T :=
  xs.filter (i < ht ·)

@[simp] theorem level_nil : level ht i [] = [] := rfl

@[simp] theorem level_append : level ht i (xs ++ ys) = level ht i xs ++ level ht i ys :=
  List.filter_append _ _

theorem level_cons_of_lt (h : i < ht y) : level ht i (y :: ys) = y :: level ht i ys :=
  List.filter_cons_of_pos (by simpa using h)

theorem level_cons_of_le (h : ht y ≤ i) : level ht i (y :: ys) = level ht i ys :=
  List.filter_cons_of_neg (by simpa using h)

@[simp] theorem mem_level : y ∈ level ht i xs ↔ y ∈ xs ∧ i < ht y := by
  simp [level]

theorem level_sublist : (level ht i xs).Sublist xs :=
  List.filter_sublist

/-- A level below every height is the whole list. -/
theorem level_eq_self (h : ∀ y ∈ xs, i < ht y) : level ht i xs = xs :=
  List.filter_eq_self.mpr fun y hy => by simpa using h y hy

theorem level_eq_nil (h : ∀ y ∈ xs, ht y ≤ i) : level ht i xs = [] :=
  List.filter_eq_nil_iff.mpr fun y hy => by simpa using h y hy

/-- The list, cut around the first element of a level. -/
theorem exists_cut_of_head? (h : (level ht i bs).head? = some y) :
    ∃ bs₁ bs₂, bs = bs₁ ++ y :: bs₂ ∧ (∀ z ∈ bs₁, ht z ≤ i) ∧ i < ht y := by
  induction bs with
  | nil => simp at h
  | cons b bs ih =>
      by_cases hb : i < ht b
      · rw [level_cons_of_lt hb] at h
        obtain rfl : b = y := by simpa using h
        exact ⟨[], bs, rfl, by simp, hb⟩
      · rw [level_cons_of_le (by omega)] at h
        obtain ⟨bs₁, bs₂, rfl, h₁, hy⟩ := ih h
        refine ⟨b :: bs₁, bs₂, rfl, fun z hz => ?_, hy⟩
        rcases List.mem_cons.mp hz with rfl | hz
        · omega
        · exact h₁ z hz

/-- The invariant of the descending search, with `n` of its `top` levels left. -/
structure Descent (ht : T → Nat) (below : T → Prop) (top n : Nat) (as bs : List T) : Prop where
  last_below : ∀ y ∈ as.getLast?, below y
  last_high : ∀ y ∈ as.getLast?, n ≤ ht y
  stopped : ∀ j, n ≤ j → j < top → ∀ y ∈ (level ht j bs).head?, ¬ below y

namespace Descent

theorem start (ht : T → Nat) (below : T → Prop) (top : Nat) (xs : List T) :
    Descent ht below top top [] xs :=
  ⟨by simp, by simp, fun j h₁ h₂ => absurd h₂ (by omega)⟩

theorem down (h : Descent ht below top (n + 1) as bs)
    (hy : ∀ y ∈ (level ht n bs).head?, ¬ below y) : Descent ht below top n as bs := by
  refine ⟨h.last_below, fun y hy => ?_, fun j hj hjt => ?_⟩
  · have := h.last_high y hy
    omega
  · by_cases hn : j = n
    · exact hn ▸ hy
    · exact h.stopped j (by omega) hjt

/-- An element below the target that a step to the right reaches is on no level already left. -/
theorem height_le (h : Descent ht below top (n + 1) as (ys ++ y :: bs))
    (hys : ∀ z ∈ ys, ht z ≤ n) (hb : below y) (hj : n < j) (hjt : j < top) : ht y ≤ j := by
  by_contra hlt
  refine h.stopped j hj hjt y ?_ hb
  rw [level_append, level_eq_nil fun z hz => (hys z hz).trans (by omega),
    level_cons_of_lt (by omega)]
  simp

theorem right (h : Descent ht below top (n + 1) as (ys ++ y :: bs)) (hys : ∀ z ∈ ys, ht z ≤ n)
    (hy : n < ht y) (hb : below y) : Descent ht below top (n + 1) (as ++ (ys ++ [y])) bs := by
  refine ⟨by simpa using hb, by simpa [Nat.succ_le_iff] using hy, fun j hj hjt z hz => ?_⟩
  refine h.stopped j hj hjt z ?_
  rw [level_append, level_eq_nil fun w hw => (hys w hw).trans (by omega),
    level_cons_of_le (h.height_le hys hb hj hjt)]
  exact hz

/-- A step to the right passes no element of a level already left. -/
theorem level_right (h : Descent ht below top (n + 1) as (ys ++ y :: bs))
    (hys : ∀ z ∈ ys, ht z ≤ n) (hb : below y) (hj : n < j) (hjt : j < top) :
    level ht j (as ++ (ys ++ [y])) = level ht j as := by
  rw [level_append, level_append, level_eq_nil fun w hw => (hys w hw).trans (by omega),
    level_cons_of_le (h.height_le hys hb hj hjt)]
  simp

theorem head_not_below (h : Descent ht below top 0 as bs) (htop : 0 < top)
    (hpos : ∀ y ∈ bs, 0 < ht y) : ∀ y ∈ bs.head?, ¬ below y := by
  have := h.stopped 0 (Nat.le_refl 0) htop
  rwa [level_eq_self hpos] at this

variable {lt : T → T → Prop}

/-- Where elements before one below the target are below it, all of `as` is. -/
theorem all_below (h : Descent ht below top n as bs) (hs : as.Pairwise lt)
    (hd : ∀ x y, lt x y → below y → below x) : ∀ y ∈ as, below y := by
  rcases List.eq_nil_or_concat as with rfl | ⟨as', z, rfl⟩
  · simp
  · rw [List.concat_eq_append] at *
    have hz : below z := h.last_below z (by simp)
    intro y hy
    rcases List.mem_append.mp hy with hy | hy
    · exact hd y z ((List.pairwise_append.mp hs).2.2 y hy z (by simp)) hz
    · rw [List.mem_singleton.mp hy]
      exact hz

/-- …and none of `bs` is, once no level is left. -/
theorem none_below (h : Descent ht below top 0 as bs) (htop : 0 < top)
    (hpos : ∀ y ∈ bs, 0 < ht y) (hs : bs.Pairwise lt) (hd : ∀ x y, lt x y → below y → below x) :
    ∀ y ∈ bs, ¬ below y := by
  have hh := h.head_not_below htop hpos
  cases bs with
  | nil => simp
  | cons b bs =>
      have hb : ¬ below b := hh b (by simp)
      intro y hy
      rcases List.mem_cons.mp hy with rfl | hy
      · exact hb
      · exact fun hyb => hb (hd b y ((List.pairwise_cons.mp hs).1 y hy) hyb)

end Descent

end Levels
