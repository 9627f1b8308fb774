import MyLeveldb.Basics
import MyLeveldb.Support.Order.Lexicographic

/-!
# Comparator — Bytewise

`Slice::compare`, which `BytewiseComparatorImpl::compare` is.  The length it hands to `memcmp` goes
through an `int`: where one of the slices is shorter than `2^31` bytes it is the shorter length, and
the result is the lexicographic order of the bytes (`compare_eq`, `bytewiseOrder`).
-/

namespace Leveldb

/-- `memcmp(a, b, n)`: the sign of the first difference within `n` bytes. -/
def memcmp : Nat → Bytes → Bytes → Except Fault Int
  | 0, _, _ => .ok 0
  | n + 1, a :: as, b :: bs => if a < b then .ok (-1) else if b < a then .ok 1 else memcmp n as bs
  | _ + 1, _, _ => .error .wild

/-- Both arguments have as many bytes as are compared. -/
theorem memcmp_ok {n : Nat} {a b : Bytes} (ha : n ≤ a.length) (hb : n ≤ b.length) :
    ∃ r, memcmp n a b = .ok r := by
  induction n generalizing a b with
  | zero => exact ⟨0, rfl⟩
  | succ n ih =>
      obtain ⟨x, as, rfl⟩ := List.exists_cons_of_length_pos (Nat.lt_of_lt_of_le n.succ_pos ha)
      obtain ⟨y, bs, rfl⟩ := List.exists_cons_of_length_pos (Nat.lt_of_lt_of_le n.succ_pos hb)
      rw [memcmp]
      split_ifs
      · exact ⟨_, rfl⟩
      · exact ⟨_, rfl⟩
      · exact ih (by simpa using ha) (by simpa using hb)

/-- A `size_t` converted to `int`. -/
def intOfSize (n : Nat) : Int := (n : Int).bmod (2 ^ 32)

/-- An `int` converted to `size_t`. -/
def sizeOfInt (i : Int) : Nat := (i % 2 ^ 64).toNat

/-- `a.compare(b)`. -/
def Slice.compare (a b : Bytes) : Except Fault Int := do
  let min_len := intOfSize (if a.length < b.length then a.length else b.length)
  let r ← memcmp (sizeOfInt min_len) a b
  if r = 0 then
    if a.length < b.length then .ok (-1) else if a.length > b.length then .ok 1 else .ok r
  else .ok r

/-- `bytewiseComparator()->compare(a, b)`. -/
def bytewiseComparator : Compare Bytes := Slice.compare

/-! ### The order -/

open ThreeWay

/-- Byte strings in lexicographic order. -/
def bytewiseOrder (a b : Bytes) : Int :=
  ofLT (a.map UInt8.toNat) (b.map UInt8.toNat)

theorem isStrict_bytewiseOrder : IsStrict bytewiseOrder where
  toIsPreorder := isStrict_ofLT.toIsPreorder.comap fun a : Bytes => a.map UInt8.toNat
  eq_of_tie _ _ h := List.map_injective_iff.mpr (fun _ _ => UInt8.toNat_inj.mp) (ofLT_tie.mp h)

theorem sizeOfInt_intOfSize {n : Nat} (h : n < 2 ^ 31) : sizeOfInt (intOfSize n) = n := by
  have hmod : intOfSize n = n := by
    unfold intOfSize
    rw [Int.bmod_eq_of_le] <;> omega
  rw [sizeOfInt, hmod]
  omega

theorem bytewiseOrder_cons (x y : UInt8) (as bs : Bytes) :
    bytewiseOrder (x :: as) (y :: bs) =
      if x < y then -1 else if y < x then 1 else bytewiseOrder as bs := by
  simp only [bytewiseOrder, List.map_cons, ofLT_cons, UInt8.lt_iff_toNat_lt]

theorem bytewiseOrder_append (p as bs : Bytes) :
    bytewiseOrder (p ++ as) (p ++ bs) = bytewiseOrder as bs := by
  rw [bytewiseOrder, List.map_append, List.map_append, ofLT_append, bytewiseOrder]

/-- A proper prefix is before the whole. -/
theorem bytewiseOrder_append_self (p : Bytes) (b : UInt8) (bs : Bytes) :
    bytewiseOrder p (p ++ b :: bs) < 0 := by
  rw [bytewiseOrder, List.map_append]
  exact ofLT_append_self _ _ _

/-- `compare`, with the shorter length for `min_len`. -/
theorem compare_min (a b : Bytes) :
    (do
      let r ← memcmp (min a.length b.length) a b
      if r = 0 then
        if a.length < b.length then .ok (-1) else if a.length > b.length then .ok 1 else .ok r
      else .ok r) = (.ok (bytewiseOrder a b) : Except Fault Int) := by
  induction a generalizing b with
  | nil =>
      cases b with
      | nil => simp [memcmp, bytewiseOrder, ofLT]
      | cons y bs => simp [memcmp, bytewiseOrder, ofLT]
  | cons x as ih =>
      cases b with
      | nil => simp [memcmp, bytewiseOrder, ofLT]
      | cons y bs =>
          rw [bytewiseOrder_cons, List.length_cons, List.length_cons, Nat.add_min_add_right, memcmp]
          by_cases h₁ : x < y
          · simp [h₁]
          · by_cases h₂ : y < x
            · simp [h₁, h₂]
            · rw [if_neg h₁, if_neg h₂, if_neg h₁, if_neg h₂, ← ih bs]
              simp only [Nat.add_lt_add_iff_right, gt_iff_lt]

theorem compare_eq {a b : Bytes} (h : min a.length b.length < 2 ^ 31) :
    bytewiseComparator a b = .ok (bytewiseOrder a b) := by
  have hmin : (if a.length < b.length then a.length else b.length) = min a.length b.length := by
    split_ifs <;> omega
  rw [← compare_min, bytewiseComparator, Slice.compare, hmin, sizeOfInt_intOfSize h]

/-- A string and what it starts with agree for as long as the latter is. -/
theorem memcmp_append_self (a b : Bytes) (n : Nat) :
    memcmp n (a ++ b) a = if n ≤ a.length then .ok 0 else .error .wild := by
  induction a generalizing n with
  | nil =>
      cases n with
      | zero => rfl
      | succ n => cases b <;> rfl
  | cons x a ih =>
      cases n with
      | zero => rfl
      | succ n =>
          rw [List.cons_append, memcmp, if_neg (UInt8.lt_irrefl x), if_neg (UInt8.lt_irrefl x), ih]
          simp only [List.length_cons, Nat.add_le_add_iff_right]

/-- The comparison of a longer string with what it starts with reads past the end where `min_len`,
as a `size_t`, is more than the shorter length. -/
theorem compare_append_self (a : Bytes) (x : UInt8) (b : Bytes) :
    bytewiseComparator (a ++ x :: b) a =
      if sizeOfInt (intOfSize a.length) ≤ a.length then .ok 1 else .error .wild := by
  have hlt : ¬ (a ++ x :: b).length < a.length := by simp
  have hgt : (a ++ x :: b).length > a.length := by simp
  simp only [bytewiseComparator, Slice.compare, if_neg hlt, if_pos hgt, memcmp_append_self]
  by_cases h : sizeOfInt (intOfSize a.length) ≤ a.length
  · rw [if_pos h, if_pos h, ok_bind, if_pos rfl]
  · rw [if_neg h, if_neg h, error_bind]

end Leveldb
