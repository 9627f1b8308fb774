import Mathlib.Algebra.Order.Ring.Int
import Mathlib.Data.List.Basic
import Mathlib.Tactic.Common

/-!
# Support — Numbers — LittleEndian

The bytes of a number of a fixed width, the lowest first, as a little-endian machine lays the
number out.  `bytes` and `value` are inverse to each other, up to the width.
-/

namespace LittleEndian

/-- The `n` lowest bytes of `v`. -/
def bytes : Nat → Nat → List UInt8
  | 0, _     => []
  | n + 1, v => UInt8.ofNat v :: bytes n (v / 256)

/-- The number `bs` is laid out as. -/
def value : List UInt8 → Nat
  | []      => 0
  | b :: bs => b.toNat + 256 * value bs

variable {bs cs : List UInt8} {n v : Nat}

@[simp] theorem length_bytes (n v : Nat) : (bytes n v).length = n := by
  induction n generalizing v with
  | zero => rfl
  | succ n ih => rw [bytes, List.length_cons, ih]

theorem value_bytes (n v : Nat) : value (bytes n v) = v % 256 ^ n := by
  induction n generalizing v with
  | zero => rw [bytes, value, pow_zero, Nat.mod_one]
  | succ n ih =>
      rw [bytes, value, ih, pow_succ, Nat.mul_comm (256 ^ n), Nat.mod_mul]
      rfl

theorem value_lt (bs : List UInt8) : value bs < 256 ^ bs.length := by
  induction bs with
  | nil => exact Nat.one_pos
  | cons b bs ih =>
      have hb := b.toNat_lt
      rw [value, List.length_cons, pow_succ]
      omega

theorem bytes_value (bs : List UInt8) : bytes bs.length (value bs) = bs := by
  induction bs with
  | nil => rfl
  | cons b bs ih =>
      have hb : b.toNat < 256 := b.toNat_lt
      have hdiv : (b.toNat + 256 * value bs) / 256 = value bs := by omega
      have hmod : UInt8.ofNat (b.toNat + 256 * value bs) = b := by
        apply UInt8.toNat_inj.mp
        rw [UInt8.toNat_ofNat']
        omega
      rw [List.length_cons, bytes, value, hdiv, hmod, ih]

theorem value_inj (hlen : bs.length = cs.length) (h : value bs = value cs) : bs = cs := by
  rw [← bytes_value bs, ← bytes_value cs, h, hlen]

end LittleEndian
