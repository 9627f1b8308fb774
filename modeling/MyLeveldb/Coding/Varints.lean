import Mathlib.Algebra.BigOperators.Ring.Finset
import Mathlib.Data.List.GetD
import MyLeveldb.Coding.Words

/-!
# Coding — Varints

What the varint routines do on every input, well formed or not.

* `varint_decoders_exact`: a decoder accepts a byte string if one of its first 5 or 10 bytes is
  below 128, takes it up to the first such byte, and reduces the number there to the word.
* `varint_decoders_refuse`: so it takes codes whose numbers do not fit the word: those of 5 or 10
  bytes whose last byte has a bit that is shifted out.
* `varint_encoders_agree`: the two encoders and `varintLength` agree, and no shorter byte string is
  decoded to the same value.
-/

namespace Leveldb

open Base128 (EndsAt)

/-! ### The decoders, with `*value` in view -/

/-- What `p` is when a decoder returns it, and `*value`, which is `value` before. -/
def into {w : Nat} (value : BitVec w) : Option (Bytes × BitVec w) → Option Bytes × BitVec w
  | none        => (none, value)
  | some (p, v) => (some p, v)

/-- The loop of `getVarintLoop`, with `*value`. -/
def getVarintLoopInto (w last : Nat) :
    Bytes → Nat → BitVec w → BitVec w → Option Bytes × BitVec w
  | [], _, _, value => (none, value)
  | b :: p, shift, result, value =>
      if shift ≤ last then
        let byte := ofByte w b
        if byte &&& 128 ≠ 0 then
          getVarintLoopInto w last p (shift + 7) (result ||| ((byte &&& 127) <<< shift)) value
        else
          let result := result ||| (byte <<< shift)
          let value := result
          (some p, value)
      else (none, value)

/-- `getVarint32PtrFallback(p, limit, &value)`. -/
def getVarint32PtrFallbackInto (p : Bytes) (value : U32) : Option Bytes × U32 :=
  getVarintLoopInto 32 28 p 0 0 value

/-- `getVarint32Ptr(p, limit, &value)`. -/
def getVarint32PtrInto (p : Bytes) (value : U32) : Option Bytes × U32 :=
  match p with
  | b :: q =>
      let result := ofByte 32 b
      if result &&& 128 = 0 then
        let value := result
        (some q, value)
      else getVarint32PtrFallbackInto p value
  | [] => getVarint32PtrFallbackInto p value

/-- `getVarint64Ptr(p, limit, &value)`. -/
def getVarint64PtrInto (p : Bytes) (value : U64) : Option Bytes × U64 :=
  getVarintLoopInto 64 63 p 0 0 value

variable {w N : Nat}

theorem getVarintLoopInto_eq (w last : Nat) (value : BitVec w) (p : Bytes) (shift : Nat)
    (result : BitVec w) : getVarintLoopInto w last p shift result value =
      into value (getVarintLoop w last p shift result) := by
  induction p generalizing shift result with
  | nil => rfl
  | cons b p ih =>
      rw [getVarintLoopInto, getVarintLoop]
      by_cases hshift : shift ≤ last
      · rw [if_pos hshift, if_pos hshift]
        by_cases hmore : ofByte w b &&& 128 ≠ 0
        · rw [if_pos hmore, if_pos hmore]
          exact ih _ _
        · rw [if_neg hmore, if_neg hmore]
          rfl
      · rw [if_neg hshift, if_neg hshift]
        rfl

theorem getVarint32PtrFallbackInto_eq (p : Bytes) (value : U32) :
    getVarint32PtrFallbackInto p value = into value (getVarint32PtrFallback p) :=
  getVarintLoopInto_eq 32 28 value p 0 0

theorem getVarint32PtrInto_eq (p : Bytes) (value : U32) :
    getVarint32PtrInto p value = into value (getVarint32Ptr p) := by
  cases p with
  | nil => rfl
  | cons b q =>
      rw [getVarint32PtrInto, getVarint32Ptr]
      split_ifs
      · rfl
      · exact getVarint32PtrFallbackInto_eq _ _

theorem getVarint64PtrInto_eq (p : Bytes) (value : U64) :
    getVarint64PtrInto p value = into value (getVarint64Ptr p) :=
  getVarintLoopInto_eq 64 63 value p 0 0

/-! ### What they accept -/

/-- The number of the first `n` bytes of `b`. -/
def number (b : Bytes) (n : Nat) : Nat :=
  ∑ j ∈ Finset.range n, (b.getD j 0).toNat % 128 * 2 ^ (7 * j)

/-- `decode` reads codes of at most `N` bytes, and `encode` writes them. -/
structure Exact (N : Nat) (encode : BitVec w → Bytes)
    (decode : Bytes → BitVec w → Option Bytes × BitVec w) : Prop where
  accepts : ∀ b value, (decode b value).1 ≠ none ↔ ∃ i, ∃ h : i < b.length, i < N ∧ b[i].toNat < 128
  returns : ∀ b value i, i < N → EndsAt b i →
    decode b value = (some (b.drop (i + 1)), BitVec.ofNat w (number b (i + 1)))
  rejects : ∀ b value, (decode b value).1 = none → (decode b value).2 = value
  prefixes : ∀ v p value, p <+: encode v → p ≠ encode v → decode p value = (none, value)
  appended : ∀ b c value rest v, decode b value = (some rest, v) →
    decode (b ++ c) value = (some (rest ++ c), v)

/-- What the decoders compute is exact, whatever the word. -/
theorem exact_of_takeCode {encode : BitVec w → Bytes}
    {decode : Bytes → BitVec w → Option Bytes × BitVec w}
    (hencode : ∀ v, encode v = Base128.encode v.toNat) (hlen : ∀ v, (encode v).length ≤ N)
    (hdecode : ∀ b value, decode b value = into value
      ((Base128.takeCode N b).map fun r => (r.2, BitVec.ofNat w (Base128.value r.1)))) :
    Exact N encode decode := by
  have hsome : ∀ b value i, i < N → EndsAt b i →
      decode b value = (some (b.drop (i + 1)), BitVec.ofNat w (number b (i + 1))) := by
    intro b value i hi hends
    rw [hdecode, Base128.takeCode_iff.mpr ⟨i, hi, hends, rfl, rfl⟩, number, ← Base128.value_take]
    rfl
  have hnone : ∀ b value, Base128.takeCode N b = none → decode b value = (none, value) := by
    intro b value htake
    rw [hdecode, htake]
    rfl
  refine ⟨fun b value => ⟨fun h => ?_, ?_⟩, hsome, fun b value h => ?_, fun v p value hp hne => ?_,
    fun b c value rest v h => ?_⟩
  · cases htake : Base128.takeCode N b with
    | none =>
        rw [hnone b value htake] at h
        exact absurd rfl h
    | some r =>
        obtain ⟨i, hi, ⟨hlt, hlast, -⟩, -⟩ := Base128.takeCode_iff.mp htake
        exact ⟨i, hlt, hi, hlast⟩
  · rintro ⟨i, hlt, hi, hlast⟩
    obtain ⟨k, hk, hends⟩ := Base128.exists_endsAt hlt hlast
    rw [hsome b value k (hk.trans_lt hi) hends]
    exact Option.some_ne_none _
  · cases htake : Base128.takeCode N b with
    | none => rw [hnone b value htake]
    | some r =>
        rw [hdecode, htake] at h
        cases h
  · rw [hencode] at hp hne
    exact hnone p value (Base128.takeCode_prefix (hencode v ▸ hlen v) hp hne)
  · cases htake : Base128.takeCode N b with
    | none =>
        rw [hnone b value htake] at h
        cases h
    | some r =>
        rw [hdecode, htake] at h
        obtain ⟨hrest, rfl⟩ := Prod.mk.inj h
        obtain rfl := Option.some.inj hrest
        rw [hdecode, Base128.takeCode_append htake c]
        rfl

theorem varint32_exact : Exact 5 encodeVarint32 getVarint32PtrInto :=
  exact_of_takeCode encodeVarint32_eq length_encodeVarint32_le fun b value => by
    rw [getVarint32PtrInto_eq, getVarint32Ptr_eq]

theorem varint64_exact : Exact 10 encodeVarint64 getVarint64PtrInto :=
  exact_of_takeCode encodeVarint64_eq length_encodeVarint64_le fun b value => by
    rw [getVarint64PtrInto_eq, getVarint64Ptr_eq]

/-- **The varint decoders, on every input.** -/
theorem varint_decoders_exact :
    Exact 5 encodeVarint32 getVarint32PtrInto ∧ Exact 10 encodeVarint64 getVarint64PtrInto ∧
      ∀ p value, getVarint32PtrInto p value = getVarint32PtrFallbackInto p value := by
  refine ⟨varint32_exact, varint64_exact, fun p value => ?_⟩
  rw [getVarint32PtrInto_eq, getVarint32PtrFallbackInto_eq, getVarint32Ptr_eq,
    getVarint32PtrFallback_eq]

/-! ### Numbers past the word -/

/-- `decode` takes no code whose number does not fit the word, and returns the number of any other
it takes. -/
def Refuses (decode : Bytes → Option (Bytes × BitVec w)) (b : Bytes) : Prop :=
  ∀ rest v, decode b = some (rest, v) →
    number b (b.length - rest.length) < 2 ^ w ∧ number b (b.length - rest.length) = v.toNat

/-- What is returned is the number itself where the number fits. -/
theorem refuses_iff_fits {decode : Bytes → Option (Bytes × BitVec w)} {b : Bytes} {i : Nat}
    (hdecode : decode b =
      (Base128.takeCode N b).map fun r => (r.2, BitVec.ofNat w (Base128.value r.1)))
    (hi : i < N) (hends : EndsAt b i) :
    Refuses decode b ↔ Base128.value (b.take (i + 1)) < 2 ^ w := by
  have hlen : b.length - (b.drop (i + 1)).length = i + 1 := by
    have hlt := hends.1
    rw [List.length_drop]
    omega
  rw [Base128.takeCode_iff.mpr ⟨i, hi, hends, rfl, rfl⟩] at hdecode
  constructor
  · intro h
    have hlt := (h _ _ hdecode).1
    rwa [hlen, number, ← Base128.value_take] at hlt
  · intro hlt rest v hsome
    rw [hdecode] at hsome
    obtain ⟨rfl, rfl⟩ := Prod.mk.inj (Option.some.inj hsome)
    rw [hlen, number, ← Base128.value_take]
    exact ⟨hlt, (Nat.mod_eq_of_lt hlt).symm⟩

/-- Whether a code of `k + 1` bytes is below `128^k * t` is up to its last byte. -/
theorem value_lt_iff_last {b : Bytes} {k : Nat} (hends : EndsAt b k) (t : Nat) :
    Base128.value (b.take (k + 1)) < 128 ^ k * t ↔ (b.getD k 0).toNat < t := by
  obtain ⟨hin, hlast, -⟩ := hends
  have htake : b.take (k + 1) = b.take k ++ [b[k]] := (List.take_concat_get' b k hin).symm
  have hlen : (b.take k).length = k := by
    rw [List.length_take]
    omega
  have hconcat := Base128.value_concat_lt (b.take k) b[k] t
  rw [hlen] at hconcat
  rw [htake, hconcat, Nat.mod_eq_of_lt hlast, List.getD_eq_getElem _ _ hin]

theorem refuses_iff {decode : Bytes → Option (Bytes × BitVec w)} {k t : Nat} {b : Bytes}
    (hdecode : decode b =
      (Base128.takeCode (k + 1) b).map fun r => (r.2, BitVec.ofNat w (Base128.value r.1)))
    (ht : 0 < t) (hw : 2 ^ w = 128 ^ k * t) :
    Refuses decode b ↔ ¬ (EndsAt b k ∧ t ≤ (b.getD k 0).toNat) := by
  by_cases hfits : ∃ i < k + 1, EndsAt b i
  · obtain ⟨i, hi, hends⟩ := hfits
    rw [refuses_iff_fits hdecode hi hends, hw]
    rcases Nat.lt_or_eq_of_le (Nat.le_of_lt_succ hi) with hlt | rfl
    · have hvalue := Base128.value_lt (b.take (i + 1))
      have hpow : 128 ^ (b.take (i + 1)).length ≤ 128 ^ k :=
        Nat.pow_le_pow_right (by decide) ((List.length_take_le _ _).trans hlt)
      have hmul := Nat.le_mul_of_pos_right (128 ^ k) ht
      exact iff_of_true (hvalue.trans_le (hpow.trans hmul)) fun h => hlt.ne (hends.unique h.1)
    · rw [value_lt_iff_last hends]
      simp only [hends, true_and, Nat.not_le]
  · have hnone : Base128.takeCode (k + 1) b = none :=
      Base128.takeCode_eq_none.mpr fun i hi hends => hfits ⟨i, hi, hends⟩
    refine iff_of_true (fun rest v hsome => ?_) fun h => hfits ⟨k, Nat.lt_succ_self k, h.1⟩
    rw [hdecode, hnone] at hsome
    cases hsome

/-- **When the decoders refuse the numbers that do not fit.** -/
theorem varint_decoders_refuse (b : Bytes) :
    (Refuses getVarint32Ptr b ↔ ¬ (EndsAt b 4 ∧ 16 ≤ (b.getD 4 0).toNat)) ∧
      (Refuses getVarint64Ptr b ↔ ¬ (EndsAt b 9 ∧ 2 ≤ (b.getD 9 0).toNat)) :=
  ⟨refuses_iff (getVarint32Ptr_eq b) (by decide) (by decide),
    refuses_iff (getVarint64Ptr_eq b) (by decide) (by decide)⟩

/-- The code of `2 ^ 32` is read as 0. -/
theorem varint_decoders_refuse_not :
    ¬ ∀ b, Refuses getVarint32Ptr b ∧ Refuses getVarint64Ptr b := by
  intro h
  have hread : getVarint32Ptr [0x80, 0x80, 0x80, 0x80, 0x10] = some ([], 0) := by decide
  have hlt := ((h [0x80, 0x80, 0x80, 0x80, 0x10]).1 [] 0 hread).1
  exact absurd hlt (by decide)

/-! ### The encoders -/

theorem encodeVarint32_eq_64 (v : U32) : encodeVarint32 v = encodeVarint64 (v.setWidth 64) := by
  have hv : v.toNat < 2 ^ 64 := v.isLt.trans (by decide)
  rw [encodeVarint32_eq, encodeVarint64_eq, BitVec.toNat_setWidth, Nat.mod_eq_of_lt hv]

/-- A byte string that is decoded to `v` is no shorter than what `encodeVarint64` writes. -/
theorem length_encodeVarint64_le_of_decoded {b rest : Bytes} {v : U64}
    (h : getVarint64Ptr b = some (rest, v)) : (encodeVarint64 v).length ≤ b.length := by
  rw [getVarint64Ptr_eq, Option.map_eq_some_iff] at h
  obtain ⟨⟨code, rest'⟩, htake, hr⟩ := h
  obtain ⟨rfl, rfl⟩ := Prod.mk.inj hr
  have hle : (BitVec.ofNat 64 (Base128.value code)).toNat ≤ Base128.value code := by
    rw [BitVec.toNat_ofNat]
    exact Nat.mod_le _ _
  have hsplit := congrArg List.length (Base128.takeCode_append_eq htake)
  rw [List.length_append] at hsplit
  rw [encodeVarint64_eq]
  calc (Base128.encode (BitVec.ofNat 64 (Base128.value code)).toNat).length
      ≤ (Base128.encode (Base128.value code)).length := Base128.length_encode_mono hle
    _ ≤ code.length := Base128.length_encode_le_of_takeCode htake
    _ ≤ b.length := by omega

/-- The highest bit is set on all bytes but the last. -/
theorem highBit_encodeVarint64 (v : U64) (i : Nat) (hi : i < (encodeVarint64 v).length) :
    128 ≤ (encodeVarint64 v)[i].toNat ↔ i + 1 < (encodeVarint64 v).length := by
  have hends := Base128.endsAt_encode v.toNat
  rw [← encodeVarint64_eq] at hends
  obtain ⟨hin, hlast, hmore⟩ := hends
  constructor
  · intro hbit
    by_contra hnot
    obtain rfl : i = (encodeVarint64 v).length - 1 := by omega
    omega
  · intro hlt
    exact hmore i (by omega)

/-- **The varint encoders and `varintLength` agree.** -/
theorem varint_encoders_agree :
    (∀ v : U32, encodeVarint32 v = encodeVarint64 (v.setWidth 64) ∧
      (encodeVarint32 v).length ≤ 5) ∧
    ∀ v : U64, (encodeVarint64 v).length = varintLength v ∧ (encodeVarint64 v).length ≤ 10 ∧
      (v.toNat < 2 ^ 32 → (encodeVarint64 v).length ≤ 5) ∧
      (∀ b rest, getVarint64Ptr b = some (rest, v) → (encodeVarint64 v).length ≤ b.length) ∧
      ∀ i (hi : i < (encodeVarint64 v).length),
        128 ≤ (encodeVarint64 v)[i].toNat ↔ i + 1 < (encodeVarint64 v).length := by
  refine ⟨fun v => ⟨encodeVarint32_eq_64 v, length_encodeVarint32_le v⟩,
    fun v => ⟨?_, length_encodeVarint64_le v, fun hlt => ?_,
      fun b rest h => length_encodeVarint64_le_of_decoded h, highBit_encodeVarint64 v⟩⟩
  · rw [encodeVarint64_eq, varintLength_eq]
  · rw [encodeVarint64_eq]
    exact (Base128.length_encode_le 4).mpr (hlt.trans (by decide))

/-- 300 takes two bytes; a code of it with a byte to spare is longer. -/
theorem varint_encoders_agree_300 :
    (encodeVarint64 300).length ≤ 5 ∧
      (encodeVarint64 300).length ≤ ([0xac, 0x82, 0x00] : Bytes).length := by
  obtain ⟨-, -, hshort, hleast, -⟩ := varint_encoders_agree.2 300
  exact ⟨hshort (by decide), hleast [0xac, 0x82, 0x00] [] (by decide)⟩

end Leveldb
