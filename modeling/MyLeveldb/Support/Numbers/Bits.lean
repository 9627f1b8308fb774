import Mathlib.Algebra.Order.Ring.Int
import Mathlib.Tactic.Common

/-!
# Support — Numbers — Bits

Words built up with shifts and `|`, as numbers: where the lower word is below the shift, `|` is
a sum.  `or_shiftLeft` is the step of a loop that collects digits from the lowest up, in a word of
`w` bits; the bits of the new digit past the word's end are lost.
-/

namespace Bits

variable {a b s w : Nat}

theorem or_shiftLeft (h : b < 2 ^ s) (hs : s ≤ w) :
    b ||| (a <<< s) % 2 ^ w = (b + 2 ^ s * a) % 2 ^ w := by
  have hpow : 2 ^ w = 2 ^ s * 2 ^ (w - s) := by rw [← pow_add, Nat.add_sub_cancel' hs]
  have hcut : (a <<< s) % 2 ^ w = 2 ^ s * (a % 2 ^ (w - s)) := by
    rw [Nat.shiftLeft_eq, Nat.mul_comm, hpow, Nat.mul_mod_mul_left]
  have hlt : 2 ^ s * (a % 2 ^ (w - s)) + b < 2 ^ w := by
    have hmod := Nat.mod_lt a (Nat.two_pow_pos (w - s))
    calc 2 ^ s * (a % 2 ^ (w - s)) + b < 2 ^ s * (a % 2 ^ (w - s)) + 2 ^ s := by omega
      _ = 2 ^ s * (a % 2 ^ (w - s) + 1) := by rw [Nat.mul_add, Nat.mul_one]
      _ ≤ 2 ^ s * 2 ^ (w - s) := Nat.mul_le_mul_left _ hmod
      _ = 2 ^ w := hpow.symm
  rw [hcut, Nat.or_comm, ← Nat.two_pow_add_eq_or_of_lt h, ← Nat.mod_eq_of_lt hlt, ← hcut,
    Nat.mod_add_mod, Nat.shiftLeft_eq, Nat.add_comm, Nat.mul_comm a]

/-- A digit put on top of the `s` low bits of a word. -/
theorem word_or_shiftLeft (r d : BitVec w) (hr : r.toNat < 2 ^ s) (hs : s ≤ w) :
    r ||| (d <<< s) = BitVec.ofNat w (r.toNat + 2 ^ s * d.toNat) := by
  apply BitVec.eq_of_toNat_eq
  rw [BitVec.toNat_or, BitVec.toNat_shiftLeft, BitVec.toNat_ofNat, or_shiftLeft hr hs]

/-- The low seven bits, with the eighth set. -/
theorem or_128_mod (n : Nat) : (n ||| 128) % 256 = n % 128 + 128 := by
  have hbyte : ∀ m < 256, m ||| 128 = m % 128 + 128 := by decide +kernel
  calc (n ||| 128) % 256 = n % 256 ||| 128 := @Nat.or_mod_two_pow n 128 8
    _ = n % 256 % 128 + 128 := hbyte _ (Nat.mod_lt _ (by decide))
    _ = n % 128 + 128 := by rw [Nat.mod_mod_of_dvd n (by decide)]

theorem and_127 (n : Nat) : n &&& 127 = n % 128 :=
  Nat.and_two_pow_sub_one_eq_mod n 7

theorem and_255 (n : Nat) : n &&& 255 = n % 256 :=
  Nat.and_two_pow_sub_one_eq_mod n 8

/-- Whether the eighth bit of a byte is set. -/
theorem and_128_eq_zero (h : b < 256) : b &&& 128 = 0 ↔ b < 128 := by
  have hbyte : ∀ m < 256, m &&& 128 = 0 ↔ m < 128 := by decide +kernel
  exact hbyte b h

end Bits
