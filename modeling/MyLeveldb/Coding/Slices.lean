import MyLeveldb.Coding.Varints

/-!
# Coding — Slices

What the `Get...` routines leave in `*input` and in their output parameter where they return
`false`.  The two varint routines leave both as they were.  `getLengthPrefixedSlice` returns `false`
in two places, and at the second one `getVarint32` has advanced `*input` past the length:
`failed_gets_atomic`.
-/

namespace Leveldb

/-- Where the routine fails, nothing has changed. -/
def Atomic {α : Type} (got : Got α) (input : Bytes) (value : α) : Prop :=
  got.ok = false → got.input = input ∧ got.value = value

/-- There is a length, and there are fewer bytes after it. -/
def CutShort (input : Bytes) : Prop :=
  ∃ code rest, Base128.takeCode 5 input = some (code, rest) ∧
    rest.length < Base128.value code % 2 ^ 32

/-- A `Get...` routine as its decoder leaves `p` and `*value`. -/
def Got.ofDecoded {w : Nat} (input : Bytes) : Option Bytes × BitVec w → Got (BitVec w)
  | (none, value)   => { ok := false, input := input, value := value }
  | (some q, value) => { ok := true, input := q, value := value }

theorem getVarint32_eq (input : Bytes) (value : U32) :
    getVarint32 input value = .ofDecoded input (getVarint32PtrInto input value) := by
  rw [getVarint32, getVarint32PtrInto_eq]
  cases getVarint32Ptr input <;> rfl

theorem getVarint64_eq (input : Bytes) (value : U64) :
    getVarint64 input value = .ofDecoded input (getVarint64PtrInto input value) := by
  rw [getVarint64, getVarint64PtrInto_eq]
  cases getVarint64Ptr input <;> rfl

/-- A routine over an exact decoder is atomic. -/
theorem atomic_ofDecoded {w N : Nat} {encode : BitVec w → Bytes}
    {decode : Bytes → BitVec w → Option Bytes × BitVec w} (h : Exact N encode decode)
    (input : Bytes) (value : BitVec w) :
    Atomic (.ofDecoded input (decode input value)) input value := by
  have hrejects := h.rejects input value
  generalize decode input value = decoded at hrejects ⊢
  obtain ⟨q, v⟩ := decoded
  intro hok
  cases q with
  | none => exact ⟨rfl, hrejects rfl⟩
  | some q => cases hok

theorem getVarint32_atomic (input : Bytes) (value : U32) :
    Atomic (getVarint32 input value) input value := by
  rw [getVarint32_eq]
  exact atomic_ofDecoded varint32_exact input value

theorem getVarint64_atomic (input : Bytes) (value : U64) :
    Atomic (getVarint64 input value) input value := by
  rw [getVarint64_eq]
  exact atomic_ofDecoded varint64_exact input value

/-- What `getLengthPrefixedSlice` does after the length. -/
theorem getLengthPrefixedSlice_of_code {input code rest : Bytes}
    (h : Base128.takeCode 5 input = some (code, rest)) (result : Bytes) :
    getLengthPrefixedSlice input result =
      if Base128.value code % 2 ^ 32 ≤ rest.length then
        { ok := true, input := rest.drop (Base128.value code % 2 ^ 32)
          value := rest.take (Base128.value code % 2 ^ 32) }
      else { ok := false, input := rest, value := result } := by
  have hptr : getVarint32Ptr input = some (rest, BitVec.ofNat 32 (Base128.value code)) := by
    rw [getVarint32Ptr_eq, h]
    rfl
  rw [getLengthPrefixedSlice, getVarint32, hptr]
  simp only [BitVec.toNat_ofNat, true_and]

theorem getLengthPrefixedSlice_of_none {input : Bytes} (h : Base128.takeCode 5 input = none)
    (result : Bytes) :
    getLengthPrefixedSlice input result = { ok := false, input := input, value := result } := by
  have hptr : getVarint32Ptr input = none := by
    rw [getVarint32Ptr_eq, h]
    rfl
  rw [getLengthPrefixedSlice, getVarint32, hptr]
  rfl

/-- A slice that is cut short is advanced past its length. -/
theorem getLengthPrefixedSlice_atomic (input result : Bytes) :
    Atomic (getLengthPrefixedSlice input result) input result ↔ ¬ CutShort input := by
  cases htake : Base128.takeCode 5 input with
  | none =>
      rw [getLengthPrefixedSlice_of_none htake]
      refine iff_of_true (fun _ => ⟨rfl, rfl⟩) ?_
      rintro ⟨code, rest, h, -⟩
      rw [htake] at h
      cases h
  | some r =>
      obtain ⟨code, rest⟩ := r
      have hcut : CutShort input ↔ rest.length < Base128.value code % 2 ^ 32 := by
        constructor
        · rintro ⟨code', rest', h, hlt⟩
          obtain ⟨rfl, rfl⟩ := Prod.mk.inj (Option.some.inj (htake.symm.trans h))
          exact hlt
        · exact fun hlt => ⟨code, rest, htake, hlt⟩
      rw [getLengthPrefixedSlice_of_code htake, hcut, Nat.not_lt]
      by_cases hfits : Base128.value code % 2 ^ 32 ≤ rest.length
      · rw [if_pos hfits]
        exact iff_of_true nofun hfits
      · rw [if_neg hfits]
        refine iff_of_false (fun h => ?_) hfits
        have hrest : rest = input := (h rfl).1
        have hlen := congrArg List.length (Base128.takeCode_append_eq htake)
        have hpos := Base128.length_takeCode_pos htake
        rw [List.length_append, hrest] at hlen
        omega

/-- **When the failed `Get...` calls are atomic.** -/
theorem failed_gets_atomic (input : Bytes) (v₃₂ : U32) (v₆₄ : U64) (result : Bytes) :
    (Atomic (getVarint32 input v₃₂) input v₃₂ ∧ Atomic (getVarint64 input v₆₄) input v₆₄ ∧
      Atomic (getLengthPrefixedSlice input result) input result) ↔ ¬ CutShort input := by
  rw [getLengthPrefixedSlice_atomic]
  simp only [getVarint32_atomic, getVarint64_atomic, true_and]

/-- A length of 3, and one byte. -/
theorem failed_gets_atomic_not :
    ¬ ∀ input v₃₂ v₆₄ result, Atomic (getVarint32 input v₃₂) input v₃₂ ∧
      Atomic (getVarint64 input v₆₄) input v₆₄ ∧
      Atomic (getLengthPrefixedSlice input result) input result := by
  intro h
  have hcall : getLengthPrefixedSlice [3, 97] [] = { ok := false, input := [97], value := [] } := by
    decide
  have hinput := ((h [3, 97] 0 0 []).2.2 (by rw [hcall])).1
  rw [hcall] at hinput
  cases hinput

end Leveldb
