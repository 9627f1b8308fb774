import Mathlib.Algebra.Order.Ring.Int
import Mathlib.Data.List.Basic
import Mathlib.Tactic.Common

/-!
# Support — Memory — Flat

A flat memory: a byte at every address, whether or not anything has been written there.  `bytesAt`
reads a range and `write` overwrites one; a `Region` is a range that somebody owns.

* `bytesAt_write`, `bytesAt_congr`: what has been written is read back, and stays as long as the
  memory does not change there.
* `Region.Apart.mono`: what lies in disjoint regions is disjoint.
* `Allocator`: a source of regions that are disjoint from the ones it has given out.
-/

namespace Flat

/-- The contents of all addresses. -/
abbrev Memory := Nat → UInt8

variable {mem mem' : Memory} {p q m n : Nat} {bs cs : List UInt8}

/-- The `n` bytes at `p`. -/
def bytesAt (mem : Memory) (p : Nat) : Nat → List UInt8
  | 0     => []
  | n + 1 => mem p :: bytesAt mem (p + 1) n

/-- The memory after `bs` is written at `p`. -/
def write (mem : Memory) (p : Nat) (bs : List UInt8) : Memory :=
  fun a => if p ≤ a then bs.getD (a - p) (mem a) else mem a

@[simp] theorem length_bytesAt (mem : Memory) (p n : Nat) : (bytesAt mem p n).length = n := by
  induction n generalizing p with
  | zero => rfl
  | succ n ih => rw [bytesAt, List.length_cons, ih]

theorem getElem?_bytesAt (mem : Memory) (p n i : Nat) :
    (bytesAt mem p n)[i]? = if i < n then some (mem (p + i)) else none := by
  induction n generalizing p i with
  | zero => rfl
  | succ n ih =>
      cases i with
      | zero => rfl
      | succ i =>
          rw [bytesAt, List.getElem?_cons_succ, ih, Nat.add_assoc, Nat.add_comm 1 i]
          exact if_congr Nat.succ_lt_succ_iff.symm rfl rfl

theorem bytesAt_add (mem : Memory) (p m n : Nat) :
    bytesAt mem p (m + n) = bytesAt mem p m ++ bytesAt mem (p + m) n := by
  induction m generalizing p with
  | zero => rw [Nat.zero_add, bytesAt, List.nil_append, Nat.add_zero]
  | succ m ih =>
      rw [Nat.add_right_comm, bytesAt, ih, bytesAt, List.cons_append, Nat.add_assoc p 1 m,
        Nat.add_comm 1 m]

theorem bytesAt_congr (h : ∀ a, p ≤ a → a < p + n → mem' a = mem a) :
    bytesAt mem' p n = bytesAt mem p n := by
  induction n generalizing p with
  | zero => rfl
  | succ n ih =>
      rw [bytesAt, bytesAt, h p (Nat.le_refl p) (by omega),
        ih fun a h₁ h₂ => h a (by omega) (by omega)]

/-- Ranges that read alike do so at every offset. -/
theorem bytesAt_sub {k : Nat} (h : bytesAt mem p n = bytesAt mem' q n) (hm : m + k ≤ n) :
    bytesAt mem (p + m) k = bytesAt mem' (q + m) k := by
  obtain ⟨j, rfl⟩ : ∃ j, n = m + (k + j) := ⟨n - m - k, by omega⟩
  simp only [bytesAt_add] at h
  obtain ⟨-, htail⟩ := List.append_inj h (by simp)
  exact (List.append_inj htail (by simp)).1

theorem write_of_lt {a : Nat} (h : a < p) : write mem p bs a = mem a :=
  if_neg (Nat.not_le.mpr h)

theorem write_of_ge {a : Nat} (h : p + bs.length ≤ a) : write mem p bs a = mem a := by
  unfold write
  rw [if_pos (by omega), List.getD_eq_getElem?_getD, List.getElem?_eq_none (by omega),
    Option.getD_none]

theorem bytesAt_write (mem : Memory) (p : Nat) (bs : List UInt8) :
    bytesAt (write mem p bs) p bs.length = bs := by
  induction bs generalizing mem p with
  | nil => rfl
  | cons b bs ih =>
      have hb : write mem p (b :: bs) p = b := by simp [write]
      have htail : bytesAt (write mem p (b :: bs)) (p + 1) bs.length =
          bytesAt (write mem (p + 1) bs) (p + 1) bs.length := by
        refine bytesAt_congr fun a h₁ h₂ => ?_
        have hsub : a - p = a - (p + 1) + 1 := by omega
        simp only [write, if_pos h₁, if_pos (show p ≤ a by omega), hsub, List.getD_cons_succ]
      rw [List.length_cons, bytesAt, hb, htail, ih]

theorem bytesAt_write_of_le (h : q + n ≤ p) : bytesAt (write mem p bs) q n = bytesAt mem q n :=
  bytesAt_congr fun _ _ h₂ => write_of_lt (by omega)

/-- A write where what has been read ends. -/
theorem bytesAt_write_append (bs : List UInt8) (h : bytesAt mem p n = cs) :
    bytesAt (write mem (p + n) bs) p (n + bs.length) = cs ++ bs := by
  rw [bytesAt_add, bytesAt_write_of_le (Nat.le_refl _), h, bytesAt_write]

/-! ### Regions -/

structure Region where
  ptr : Nat
  size : Nat
  deriving DecidableEq, Repr

namespace Region

variable {r r' s s' : Region}

/-- The address after the last. -/
def stop (r : Region) : Nat := r.ptr + r.size

def Mem (r : Region) (a : Nat) : Prop := r.ptr ≤ a ∧ a < r.stop

instance (r : Region) (a : Nat) : Decidable (r.Mem a) :=
  inferInstanceAs (Decidable (r.ptr ≤ a ∧ a < r.stop))

def Apart (r s : Region) : Prop := r.stop ≤ s.ptr ∨ s.stop ≤ r.ptr

/-- `r` lies in `s`. -/
def Within (r s : Region) : Prop := s.ptr ≤ r.ptr ∧ r.stop ≤ s.stop

theorem Apart.symm (h : Apart r s) : Apart s r := Or.symm h

theorem Apart.mono (h : Apart r s) (hr : Within r' r) (hs : Within s' s) :
    Apart r' s' := by
  unfold Apart Within at *
  omega

theorem Apart.not_mem (h : Apart r s) {a : Nat} (ha : r.Mem a) : ¬ s.Mem a := by
  unfold Apart Mem at *
  omega

theorem Apart.not_within (h : Apart r s) (hr : 0 < r.size) : ¬ Within r s := by
  unfold Apart Within stop at *
  omega

theorem Within.refl (r : Region) : Within r r := ⟨Nat.le_refl _, Nat.le_refl _⟩

theorem Within.trans (h₁ : Within r s) (h₂ : Within s s') : Within r s' :=
  ⟨h₂.1.trans h₁.1, h₁.2.trans h₂.2⟩

end Region

/-! ### Allocators -/

/-- Given the live regions and a size, an address with that many bytes that are in none of them. -/
structure Allocator (align : Nat) where
  alloc : List Region → Nat → Nat
  nonnull : ∀ live n, 0 < alloc live n
  aligned : ∀ live n, alloc live n % align = 0
  fresh : ∀ live n, ∀ r ∈ live, Region.Apart ⟨alloc live n, n⟩ r

/-- The least address a region list leaves free above it. -/
def top (live : List Region) : Nat := (live.map Region.stop).foldr max 0

theorem stop_le_top {live : List Region} {r : Region} (h : r ∈ live) : r.stop ≤ top live := by
  induction live with
  | nil => cases h
  | cons s live ih =>
      have hcons : top (s :: live) = max s.stop (top live) := rfl
      rw [hcons]
      rcases List.mem_cons.mp h with rfl | h
      · exact le_max_left _ _
      · exact le_max_of_le_right (ih h)

/-- The allocator that gives out ever higher addresses. -/
def bump (align : Nat) (h : 0 < align) : Allocator align where
  alloc live _ := align * (top live + 1)
  nonnull live _ := Nat.mul_pos h (Nat.succ_pos _)
  aligned live _ := Nat.mul_mod_right align _
  fresh live n r hr := by
    have hle := stop_le_top hr
    have := Nat.le_mul_of_pos_left (top live + 1) h
    exact .inr (show r.stop ≤ align * (top live + 1) by omega)

end Flat
