import Mathlib.Algebra.BigOperators.Group.Finset.Piecewise
import Mathlib.Algebra.Order.BigOperators.Group.Finset
import Mathlib.Algebra.Order.Ring.Int
import Mathlib.Tactic.Common

/-!
# Support — Machines — Threads

Threads that step one at a time.  `f t` is what is `t`'s own: its program counter and its variables.

* `total_update`: what a step of one thread does to a sum over all of them.
* `Guards`: the threads at certain places are those that own a mutex.
-/

namespace Threads

variable {T L : Type}

/-! ### Sums over the threads -/

section

variable [Fintype T]

/-- The sum of the threads' weights. -/
def total (w : L → Nat) (f : T → L) : Nat := ∑ t, w (f t)

theorem total_update [DecidableEq T] (w : L → Nat) (f : T → L) (t : T) (x : L) :
    total w (Function.update f t x) + w (f t) = total w f + w x := by
  have hrest : ∑ u ∈ Finset.univ.erase t, w (Function.update f t x u) =
      ∑ u ∈ Finset.univ.erase t, w (f u) :=
    Finset.sum_congr rfl fun u hu => by rw [Function.update_of_ne (Finset.ne_of_mem_erase hu)]
  have hnew := Finset.add_sum_erase Finset.univ (fun u => w (Function.update f t x u))
    (Finset.mem_univ t)
  have hold := Finset.add_sum_erase Finset.univ (fun u => w (f u)) (Finset.mem_univ t)
  simp only [Function.update_self] at hnew
  unfold total
  omega

theorem exists_of_total_pos {w : L → Nat} {f : T → L} (h : 0 < total w f) : ∃ t, 0 < w (f t) := by
  by_contra hno
  simp only [not_exists, Nat.not_lt, Nat.le_zero] at hno
  have hzero : total w f = 0 := Finset.sum_eq_zero fun t _ => hno t
  omega

theorem total_eq_zero {w : L → Nat} {f : T → L} (h : ∀ t, w (f t) = 0) : total w f = 0 :=
  Finset.sum_eq_zero fun t _ => h t

end

/-! ### Mutexes -/

/-- The threads at `inside` places are those that own the mutex. -/
def Guards (inside : L → Prop) (owner : Option T) (f : T → L) : Prop :=
  ∀ t, inside (f t) ↔ owner = some t

namespace Guards

variable {inside : L → Prop} {owner : Option T} {f : T → L} {t u : T} {x : L}

theorem unique (h : Guards inside owner f) (ht : inside (f t)) (hu : inside (f u)) : t = u :=
  Option.some.inj (((h t).1 ht).symm.trans ((h u).1 hu))

theorem enter [DecidableEq T] (h : Guards inside none f) (hx : inside x) :
    Guards inside (some t) (Function.update f t x) := by
  intro u
  by_cases hut : u = t
  · subst hut
    simp [hx]
  · have hu := h u
    simp only [reduceCtorEq, iff_false] at hu
    simpa [Function.update_of_ne hut, hu] using Ne.symm hut

theorem leave [DecidableEq T] (h : Guards inside (some t) f) (hx : ¬ inside x) :
    Guards inside none (Function.update f t x) := by
  intro u
  by_cases hut : u = t
  · subst hut
    simp [hx]
  · have hu := h u
    rw [Option.some_inj] at hu
    simpa [Function.update_of_ne hut, hu] using Ne.symm hut

theorem stay [DecidableEq T] (h : Guards inside owner f) (hx : inside x ↔ inside (f t)) :
    Guards inside owner (Function.update f t x) := by
  intro u
  by_cases hut : u = t
  · subst hut
    rw [Function.update_self, hx]
    exact h u
  · rw [Function.update_of_ne hut]
    exact h u

end Guards

end Threads
