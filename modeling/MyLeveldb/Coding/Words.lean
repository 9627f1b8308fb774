import Mathlib.Tactic.Ring
import MyLeveldb.Coding.Definitions
import MyLeveldb.Support.Numbers.Base128
import MyLeveldb.Support.Numbers.Bits

/-!
# Coding — Words

What the encoders write and the decoders read, as numbers: fixed-length numbers are
`LittleEndian.bytes`, varints are `Base128.encode`.

* `encodeVarint32_eq`, `encodeVarint64_eq`: the five branches of one encoder and the loop of the
  other write the same code.
* `getVarint32Ptr_eq`, `getVarint64Ptr_eq`: on every input, the decoders read the first code of at
  most 5 or 10 bytes, and reduce its number to the word.
-/

namespace Leveldb

variable {w n : Nat}

/-! ### Fixed-length numbers -/

@[simp] theorem length_encodeFixed32 (v : U32) : (encodeFixed32 v).length = 4 :=
  LittleEndian.length_bytes 4 v.toNat

@[simp] theorem length_encodeFixed64 (v : U64) : (encodeFixed64 v).length = 8 :=
  LittleEndian.length_bytes 8 v.toNat

/-- A word is loaded from its own bytes, whatever comes after them; `hw` says that it has `n`. -/
theorem loadWord_bytes (v : BitVec w) (hw : 2 ^ w = 256 ^ n) (rest : Bytes) :
    loadWord w n (LittleEndian.bytes n v.toNat ++ rest) = .ok v := by
  have hlen : n ≤ (LittleEndian.bytes n v.toNat ++ rest).length := by simp
  have htake : (LittleEndian.bytes n v.toNat ++ rest).take n = LittleEndian.bytes n v.toNat :=
    List.take_left' (LittleEndian.length_bytes n v.toNat)
  rw [loadWord, if_pos hlen, htake, LittleEndian.value_bytes, ← hw, Nat.mod_eq_of_lt v.isLt,
    BitVec.ofNat_toNat, BitVec.setWidth_eq]

theorem decodeFixed32_encode (v : U32) (rest : Bytes) :
    decodeFixed32 (encodeFixed32 v ++ rest) = .ok v := by
  have hload : 2 ^ 32 = 256 ^ 4 := by decide
  exact loadWord_bytes v hload rest

theorem decodeFixed64_encode (v : U64) (rest : Bytes) :
    decodeFixed64 (encodeFixed64 v ++ rest) = .ok v := by
  have hload : 2 ^ 64 = 256 ^ 8 := by decide
  exact loadWord_bytes v hload rest

/-- Eight bytes are the code of some word. -/
theorem exists_encodeFixed64 {ptr : Bytes} (h : ptr.length = 8) : ∃ v, ptr = encodeFixed64 v := by
  refine ⟨BitVec.ofNat 64 (LittleEndian.value ptr), ?_⟩
  have hlt := LittleEndian.value_lt ptr
  have hmod : (BitVec.ofNat 64 (LittleEndian.value ptr)).toNat = LittleEndian.value ptr := by
    rw [h] at hlt
    exact Nat.mod_eq_of_lt hlt
  show ptr = LittleEndian.bytes 8 _
  rw [hmod, ← h, LittleEndian.bytes_value]

/-! ### Varint encoders -/

/-- A literal that fits a byte, in a word of at least a byte. -/
theorem toNat_lit {m : Nat} (hw : 8 ≤ w) (hm : m < 256) : (BitVec.ofNat w m).toNat = m := by
  have : 2 ^ 8 ≤ 2 ^ w := Nat.pow_le_pow_right (by decide) hw
  exact Nat.mod_eq_of_lt (by omega)

/-- `*(ptr++) = v | B`: the low seven bits, with the continuation bit set. -/
theorem toByte_or_128 (v : BitVec w) (hw : 8 ≤ w) :
    toByte (v ||| 128) = UInt8.ofNat (v.toNat % 128 + 128) := by
  have h128 : (128 : BitVec w).toNat = 128 := toNat_lit hw (by decide)
  apply UInt8.toNat_inj.mp
  rw [toByte, UInt8.toNat_ofNat', UInt8.toNat_ofNat', BitVec.toNat_or, h128]
  have hor : (v.toNat ||| 128) % 2 ^ 8 = _ := Bits.or_128_mod v.toNat
  rw [hor]
  exact (Nat.mod_eq_of_lt (by omega)).symm

theorem toNat_shiftRight_7 (v : BitVec w) : (v >>> 7).toNat = v.toNat / 128 := by
  rw [BitVec.toNat_ushiftRight, Nat.shiftRight_eq_div_pow]

/-- `while (v >= B)`, by induction on the rounds that are left: a number of `n + 1` digits needs no
more than `n` of them. -/
theorem encodeVarint64Loop_eq :
    ∀ (n : Nat) (v : U64), v.toNat < 128 ^ (n + 1) →
      encodeVarint64Loop n v = Base128.encode v.toNat := by
  intro n
  induction n with
  | zero =>
      intro v hv
      rw [encodeVarint64Loop, Base128.encode_of_lt (by simpa using hv), toByte]
  | succ n ih =>
      intro v hv
      rw [encodeVarint64Loop]
      split_ifs with h
      · have hlow : (v &&& 127).toNat = v.toNat % 128 := by
          rw [BitVec.toNat_and]
          exact Bits.and_127 v.toNat
        rw [Base128.encode_of_le h, toByte_or_128 _ (by decide), hlow, Nat.mod_mod, ih,
          toNat_shiftRight_7]
        rw [toNat_shiftRight_7]
        rw [pow_succ] at hv
        omega
      · rw [Base128.encode_of_lt (by omega), toByte]

theorem encodeVarint64_eq (v : U64) : encodeVarint64 v = Base128.encode v.toNat :=
  encodeVarint64Loop_eq 9 v (v.isLt.trans (by decide))

/-- The five branches of `encodeVarint32` write one, two, … five digits. -/
theorem encodeVarint32_eq (v : U32) : encodeVarint32 v = Base128.encode v.toNat := by
  have hshift : ∀ m : Nat, (v >>> m).toNat = v.toNat / 2 ^ m := fun m => by
    rw [BitVec.toNat_ushiftRight, Nat.shiftRight_eq_div_pow]
  have hv := v.isLt
  have hor : ∀ m, toByte ((v >>> m) ||| 128) = UInt8.ofNat (v.toNat / 2 ^ m % 128 + 128) := by
    intro m
    rw [toByte_or_128 _ (by decide), hshift]
  have hlast : ∀ m, toByte (v >>> m) = UInt8.ofNat (v.toNat / 2 ^ m) := fun m => by
    rw [toByte, hshift]
  -- one digit more, when the number has one
  have hmore : ∀ m, 128 ≤ v.toNat / 2 ^ m → Base128.encode (v.toNat / 2 ^ m) =
      UInt8.ofNat (v.toNat / 2 ^ m % 128 + 128) :: Base128.encode (v.toNat / 2 ^ (m + 7)) := by
    intro m hm
    rw [Base128.encode_of_le hm, Nat.div_div_eq_div_mul, pow_add]
    rfl
  have hfirst : 128 ≤ v.toNat → Base128.encode v.toNat =
      toByte (v ||| 128) :: Base128.encode (v.toNat / 2 ^ 7) := fun h => by
    rw [Base128.encode_of_le h, toByte_or_128 _ (by decide)]
    rfl
  have hdone : ∀ m, v.toNat / 2 ^ m < 128 → Base128.encode (v.toNat / 2 ^ m) =
      [UInt8.ofNat (v.toNat / 2 ^ m)] := fun m hm => Base128.encode_of_lt hm
  -- each branch writes the digits there are, the last one without the continuation bit
  rw [encodeVarint32]
  split_ifs with h₁ h₂ h₃ h₄
  · rw [Base128.encode_of_lt h₁, toByte]
  · rw [hfirst (by omega), hlast, hdone 7 (by omega)]
  · rw [hfirst (by omega), hlast, hor, hmore 7 (by omega), hdone 14 (by omega)]
  · rw [hfirst (by omega), hlast, hor, hor, hmore 7 (by omega), hmore 14 (by omega),
      hdone 21 (by omega)]
  · rw [hfirst (by omega), hlast, hor, hor, hor, hmore 7 (by omega), hmore 14 (by omega),
      hmore 21 (by omega), hdone 28 (by omega)]

/-- `varintLength` counts rounds as the encoder makes them; `len` is what it has counted so far. -/
theorem varintLengthLoop_eq :
    ∀ (n : Nat) (v : U64) (len : Nat), v.toNat < 128 ^ (n + 1) →
      varintLengthLoop n v len + 1 = len + (Base128.encode v.toNat).length := by
  intro n
  induction n with
  | zero =>
      intro v len hv
      rw [varintLengthLoop, Base128.encode_of_lt (by simpa using hv), List.length_singleton]
  | succ n ih =>
      intro v len hv
      rw [varintLengthLoop]
      split_ifs with h
      · have hlt : (v >>> 7).toNat < 128 ^ (n + 1) := by
          rw [toNat_shiftRight_7]
          rw [pow_succ] at hv
          omega
        rw [ih _ _ hlt, toNat_shiftRight_7, Base128.encode_of_le h, List.length_cons]
        omega
      · rw [Base128.encode_of_lt (by omega), List.length_singleton]

theorem varintLength_eq (v : U64) : varintLength v = (Base128.encode v.toNat).length := by
  have := varintLengthLoop_eq 9 v 1 (v.isLt.trans (by decide))
  rw [varintLength]
  omega

theorem length_encodeVarint32_le (v : U32) : (encodeVarint32 v).length ≤ 5 := by
  rw [encodeVarint32_eq]
  exact (Base128.length_encode_le 4).mpr (v.isLt.trans (by decide))

theorem length_encodeVarint64_le (v : U64) : (encodeVarint64 v).length ≤ 10 := by
  rw [encodeVarint64_eq]
  exact (Base128.length_encode_le 9).mpr (v.isLt.trans (by decide))

/-! ### Varint decoders -/

theorem toNat_ofByte (hw : 8 ≤ w) (b : UInt8) : (ofByte w b).toNat = b.toNat :=
  toNat_lit hw b.toNat_lt

/-- `byte & 128` and `byte & 127`. -/
theorem ofByte_and (hw : 8 ≤ w) (b : UInt8) :
    (ofByte w b &&& 128 = 0 ↔ b.toNat < 128) ∧ (ofByte w b &&& 127).toNat = b.toNat % 128 := by
  have h0 : (0 : BitVec w).toNat = 0 := toNat_lit hw (by decide)
  have h127 : (127 : BitVec w).toNat = 127 := toNat_lit hw (by decide)
  have h128 : (128 : BitVec w).toNat = 128 := toNat_lit hw (by decide)
  constructor
  · rw [← BitVec.toNat_inj, BitVec.toNat_and, toNat_ofByte hw, h0, h128]
    exact Bits.and_128_eq_zero b.toNat_lt
  · rw [BitVec.toNat_and, toNat_ofByte hw, h127, Bits.and_127]

/-- The shared loop, with `N` iterations in all and `k` behind it, by induction on the input.  What
has been read so far is below `2 ^ (7 * k)`, so that the next seven bits do not meet it. -/
theorem getVarintLoop_eq (last N : Nat) (hw : 8 ≤ w) (hlast : last ≤ w)
    (hN : ∀ k, 7 * k ≤ last ↔ k < N) :
    ∀ (p : Bytes) (k : Nat) (result : BitVec w), result.toNat < 2 ^ (7 * k) →
      getVarintLoop w last p (7 * k) result = (Base128.takeCode (N - k) p).map fun r =>
        (r.2, BitVec.ofNat w (result.toNat + 2 ^ (7 * k) * Base128.value r.1)) := by
  intro p
  induction p with
  | nil =>
      intro k result _
      rw [getVarintLoop]
      cases N - k <;> rfl
  | cons b p ih =>
      intro k result hr
      obtain ⟨h128, h127⟩ := ofByte_and hw b
      rw [getVarintLoop]
      by_cases hk : k < N
      · have hk' := (hN k).mpr hk
        rw [if_pos hk']
        obtain ⟨m, hm⟩ : ∃ m, N - k = m + 1 := ⟨N - k - 1, by omega⟩
        rw [hm, Base128.takeCode]
        by_cases hb : b.toNat < 128
        · -- the last byte of the code
          rw [if_neg (not_not.mpr (h128.mpr hb)), if_pos hb,
            Bits.word_or_shiftLeft _ _ hr (by omega), toNat_ofByte hw]
          simp [Base128.value, Nat.mod_eq_of_lt hb]
        · rw [if_pos (mt h128.mp hb), if_neg hb, Bits.word_or_shiftLeft _ _ hr (by omega), h127]
          have hpow : 2 ^ (7 * (k + 1)) = 2 ^ (7 * k) * 128 := by rw [Nat.mul_add, pow_add]; rfl
          have hsum : result.toNat + 2 ^ (7 * k) * (b.toNat % 128) < 2 ^ (7 * (k + 1)) := by
            have hd := Nat.mod_lt b.toNat (show 0 < 128 by decide)
            calc result.toNat + 2 ^ (7 * k) * (b.toNat % 128)
                < 2 ^ (7 * k) * (b.toNat % 128 + 1) := by rw [Nat.mul_add]; omega
              _ ≤ 2 ^ (7 * k) * 128 := Nat.mul_le_mul_left _ hd
              _ = 2 ^ (7 * (k + 1)) := hpow.symm
          have hmod : (BitVec.ofNat w (result.toNat + 2 ^ (7 * k) * (b.toNat % 128))).toNat =
              (result.toNat + 2 ^ (7 * k) * (b.toNat % 128)) % 2 ^ w := BitVec.toNat_ofNat _ _
          have hm' : m = N - (k + 1) := by omega
          -- the word may have cut off bits of the last byte; what is read next adds to the rest
          rw [show 7 * k + 7 = 7 * (k + 1) by ring, ih (k + 1) _
            (hmod ▸ (Nat.mod_le _ _).trans_lt hsum), hm', Option.map_map]
          refine congrArg (fun f => (Base128.takeCode (N - (k + 1)) p).map f) ?_
          funext r
          simp only [Function.comp, hmod, Base128.value, hpow]
          refine congrArg (Prod.mk r.2) (BitVec.eq_of_toNat_eq ?_)
          rw [BitVec.toNat_ofNat, BitVec.toNat_ofNat, Nat.mod_add_mod]
          ring_nf
      · -- `shift` is past the last iteration: the code is too long, with bytes still to come
        rw [if_neg (mt (hN k).mp hk), show N - k = 0 by omega]
        rfl

theorem getVarint32PtrFallback_eq (p : Bytes) : getVarint32PtrFallback p =
    (Base128.takeCode 5 p).map fun r => (r.2, BitVec.ofNat 32 (Base128.value r.1)) := by
  have := getVarintLoop_eq (w := 32) 28 5 (by decide) (by decide)
    (fun k => by omega) p 0 0 (by decide)
  rw [getVarint32PtrFallback]
  simpa using this

theorem getVarint64Ptr_eq (p : Bytes) : getVarint64Ptr p =
    (Base128.takeCode 10 p).map fun r => (r.2, BitVec.ofNat 64 (Base128.value r.1)) := by
  have := getVarintLoop_eq (w := 64) 63 10 (by decide) (by decide)
    (fun k => by omega) p 0 0 (by decide)
  rw [getVarint64Ptr]
  simpa using this

/-- The fast path for one byte agrees with the loop. -/
theorem getVarint32Ptr_eq (p : Bytes) : getVarint32Ptr p =
    (Base128.takeCode 5 p).map fun r => (r.2, BitVec.ofNat 32 (Base128.value r.1)) := by
  rw [← getVarint32PtrFallback_eq]
  cases p with
  | nil => rfl
  | cons b p =>
      rw [getVarint32Ptr]
      by_cases hb : ofByte 32 b &&& 128 = 0
      · have hlt := (ofByte_and (by decide) b).1.mp hb
        rw [if_pos hb, getVarint32PtrFallback_eq, Base128.takeCode, if_pos hlt]
        simp [Base128.value, Nat.mod_eq_of_lt hlt, ofByte]
      · rw [if_neg hb]

/-- What the encoder writes is read back, and the rest left; so also for 64 bits. -/
theorem getVarint32Ptr_encode (v : U32) (rest : Bytes) :
    getVarint32Ptr (encodeVarint32 v ++ rest) = some (rest, v) := by
  have hlen := length_encodeVarint32_le v
  rw [encodeVarint32_eq] at *
  rw [getVarint32Ptr_eq, Base128.takeCode_encode hlen, Option.map_some, Base128.value_encode,
    BitVec.ofNat_toNat, BitVec.setWidth_eq]

theorem getVarint64Ptr_encode (v : U64) (rest : Bytes) :
    getVarint64Ptr (encodeVarint64 v ++ rest) = some (rest, v) := by
  have hlen := length_encodeVarint64_le v
  rw [encodeVarint64_eq] at *
  rw [getVarint64Ptr_eq, Base128.takeCode_encode hlen, Option.map_some, Base128.value_encode,
    BitVec.ofNat_toNat, BitVec.setWidth_eq]

end Leveldb
