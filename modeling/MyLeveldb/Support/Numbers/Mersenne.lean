import Mathlib.Algebra.Ring.Parity
import Mathlib.Data.Nat.Prime.Basic

/-!
# Support — Numbers — Mersenne

Reduction mod `M = 2 ^ k - 1` without a division: `2 ^ k` is 1 mod `M`, so that the part above the
`k` low bits may be added to them.  For a number below `2 ^ k * M` the sum is below `2 * M`, and one
subtraction is enough (`reduce`).  The result is the remainder, except that it is `M` in place of
0 (`reduce_eq_mod`, `reduce_eq_top`).  A number that has wrapped around at a power of two is a
different one mod `M` (`mod_two_pow_mod_ne`).
-/

namespace Mersenne

variable {k n : Nat}

/-- The part above the `k` low bits, added to them. -/
def fold (k n : Nat) : Nat := n / 2 ^ k + n % 2 ^ k

/-- `fold`, and one subtraction. -/
def reduce (k n : Nat) : Nat :=
  if fold k n > 2 ^ k - 1 then fold k n - (2 ^ k - 1) else fold k n

theorem fold_mod (k n : Nat) : fold k n % (2 ^ k - 1) = n % (2 ^ k - 1) := by
  have hpow := Nat.two_pow_pos k
  have hsplit : n = fold k n + (2 ^ k - 1) * (n / 2 ^ k) := by
    have hdiv := Nat.div_add_mod n (2 ^ k)
    have hone : 2 ^ k * (n / 2 ^ k) = (2 ^ k - 1) * (n / 2 ^ k) + n / 2 ^ k := by
      rw [← Nat.succ_mul]
      congr 1
      omega
    unfold fold
    omega
  conv_rhs => rw [hsplit]
  exact (Nat.add_mul_mod_self_left _ _ _).symm

theorem reduce_mod (k n : Nat) : reduce k n % (2 ^ k - 1) = n % (2 ^ k - 1) := by
  rw [reduce, ← fold_mod k n]
  split_ifs with h
  · exact (Nat.mod_eq_sub_mod h.le).symm
  · rfl

theorem fold_pos (h : 0 < n) : 0 < fold k n := by
  have hdiv := Nat.div_add_mod n (2 ^ k)
  rcases Nat.eq_zero_or_pos (n / 2 ^ k) with h₀ | hpos
  · rw [h₀, Nat.mul_zero, Nat.zero_add] at hdiv
    unfold fold
    omega
  · exact Nat.add_pos_left hpos _

theorem reduce_pos (h : 0 < n) : 0 < reduce k n := by
  have hfold := fold_pos (k := k) h
  rw [reduce]
  split_ifs with hgt
  · exact Nat.sub_pos_of_lt hgt
  · exact hfold

theorem reduce_le (h : n < 2 ^ k * (2 ^ k - 1)) : reduce k n ≤ 2 ^ k - 1 := by
  have hpow := Nat.two_pow_pos k
  have hhigh : n / 2 ^ k < 2 ^ k - 1 := Nat.div_lt_of_lt_mul h
  have hlow := Nat.mod_lt n hpow
  unfold reduce fold
  split_ifs with hgt <;> omega

/-- The result is the modulus only for its multiples. -/
theorem reduce_eq_top (hpos : 0 < n) (h : n < 2 ^ k * (2 ^ k - 1)) :
    reduce k n = 2 ^ k - 1 ↔ (2 ^ k - 1) ∣ n := by
  rw [Nat.dvd_iff_mod_eq_zero, ← reduce_mod k n]
  constructor
  · intro htop
    rw [htop, Nat.mod_self]
  · intro hmod
    exact Nat.le_antisymm (reduce_le h)
      (Nat.le_of_dvd (reduce_pos hpos) (Nat.dvd_of_mod_eq_zero hmod))

/-- …and for all other numbers the remainder. -/
theorem reduce_eq_mod (hpos : 0 < n) (h : n < 2 ^ k * (2 ^ k - 1)) (hnot : ¬ (2 ^ k - 1) ∣ n) :
    reduce k n = n % (2 ^ k - 1) := by
  have hlt := lt_of_le_of_ne (reduce_le h) (mt (reduce_eq_top hpos h).mp hnot)
  rw [← reduce_mod k n, Nat.mod_eq_of_lt hlt]

/-- What wrapping around at `2 ^ j` takes from a number is no multiple of the modulus. -/
theorem mod_two_pow_mod_ne {j : Nat} (hk : 0 < k) (hwraps : 2 ^ j ≤ n)
    (h : n < 2 ^ j * (2 ^ k - 1)) : n % (2 ^ k - 1) ≠ n % 2 ^ j % (2 ^ k - 1) := by
  intro hmod
  have hlost : (2 ^ k - 1) ∣ 2 ^ j * (n / 2 ^ j) := by
    rw [← Nat.sub_eq_of_eq_add (Nat.div_add_mod n (2 ^ j)).symm]
    exact Nat.dvd_of_mod_eq_zero (Nat.sub_mod_eq_zero_of_mod_eq hmod)
  have hcoprime : Nat.Coprime (2 ^ k - 1) (2 ^ j) := by
    refine Nat.Coprime.pow_right j (Nat.coprime_two_right.mpr ?_)
    exact Nat.Even.sub_odd Nat.one_le_two_pow (Nat.even_pow.mpr ⟨even_two, hk.ne'⟩) odd_one
  have hle := Nat.le_of_dvd (Nat.div_pos hwraps (Nat.two_pow_pos j))
    (hcoprime.dvd_of_dvd_mul_left hlost)
  exact absurd (Nat.div_lt_of_lt_mul h) (Nat.not_lt.mpr hle)

end Mersenne
