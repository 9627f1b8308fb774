import MyLeveldb.Coding.Words

/-!
# Coding — Endian

The branches of the fixed-length routines for machines of either byte order.  The encoders write
the same bytes in both, and `decodeFixed32` returns the same number.  `decodeFixed64` takes the high
word from itself where `decodeFixed32(ptr + 4)` is meant, so that away from a little-endian machine
it does not return (`decodeFixed64On_not_ok`).

`fixed_endian_neutral`: all of them are neutral exactly where `port::kLittleEndian` holds.
-/

namespace Leveldb

variable {w : Nat}

/-! ### The encoders -/

/-- `(value >> m) & 0xff` as a byte. -/
theorem toByte_shift (v : BitVec w) (m : Nat) (hw : 8 ≤ w) :
    toByte ((v >>> m) &&& 0xff) = UInt8.ofNat (v.toNat / 2 ^ m) := by
  have h255 : (0xff : BitVec w).toNat = 255 := toNat_lit hw (by decide)
  apply UInt8.toNat_inj.mp
  rw [toByte, BitVec.toNat_and, h255, Bits.and_255, BitVec.toNat_ushiftRight,
    Nat.shiftRight_eq_div_pow, UInt8.toNat_ofNat', UInt8.toNat_ofNat']
  exact Nat.mod_mod _ _

theorem toByte_low (v : BitVec w) (hw : 8 ≤ w) : toByte (v &&& 0xff) = UInt8.ofNat v.toNat := by
  have hshift := toByte_shift v 0 hw
  rwa [BitVec.ushiftRight_zero, pow_zero, Nat.div_one] at hshift

theorem encodeFixed32On_eq (littleEndian : Bool) (v : U32) :
    encodeFixed32On littleEndian v = LittleEndian.bytes 4 v.toNat := by
  cases littleEndian with
  | true => rfl
  | false =>
      show [toByte (v &&& 0xff), _, _, _] = _
      simp only [toByte_low v (by decide), toByte_shift v _ (by decide), LittleEndian.bytes,
        Nat.div_div_eq_div_mul]
      rfl

theorem encodeFixed64On_eq (littleEndian : Bool) (v : U64) :
    encodeFixed64On littleEndian v = LittleEndian.bytes 8 v.toNat := by
  cases littleEndian with
  | true => rfl
  | false =>
      show [toByte (v &&& 0xff), _, _, _, _, _, _, _] = _
      simp only [toByte_low v (by decide), toByte_shift v _ (by decide), LittleEndian.bytes,
        Nat.div_div_eq_div_mul]
      rfl

/-! ### The decoders -/

/-- A byte put on top of the `s` low bits. -/
theorem ofNat_or_byte {r s : Nat} (b : UInt8) (hr : r < 2 ^ s) (hs : s + 8 ≤ w) :
    BitVec.ofNat w r ||| (ofByte w b <<< s) = BitVec.ofNat w (r + 2 ^ s * b.toNat) := by
  have hpow : 2 ^ s ≤ 2 ^ w := Nat.pow_le_pow_right (by decide) (by omega)
  have hnum : (BitVec.ofNat w r).toNat = r := Nat.mod_eq_of_lt (hr.trans_le hpow)
  rw [Bits.word_or_shiftLeft _ _ (by rwa [hnum]) (by omega), hnum, toNat_ofByte (by omega)]

/-- The shift-and-or branch collects the bytes from the lowest up. -/
theorem decodeFixed32On_eq (littleEndian : Bool) {ptr : Bytes} (h : 4 ≤ ptr.length) :
    decodeFixed32On littleEndian ptr = loadWord 32 4 ptr := by
  cases littleEndian with
  | true => rfl
  | false =>
      match ptr, h with
      | b₀ :: b₁ :: b₂ :: b₃ :: rest, h =>
          have hb₀ := b₀.toNat_lt
          have hb₁ := b₁.toNat_lt
          have hb₂ := b₂.toNat_lt
          have hvalue : LittleEndian.value [b₀, b₁, b₂, b₃] =
              b₀.toNat + 2 ^ 8 * b₁.toNat + 2 ^ 16 * b₂.toNat + 2 ^ 24 * b₃.toNat := by
            simp only [LittleEndian.value]
            omega
          have hload : loadWord 32 4 (b₀ :: b₁ :: b₂ :: b₃ :: rest) =
              .ok (BitVec.ofNat 32 (LittleEndian.value [b₀, b₁, b₂, b₃])) := if_pos h
          have hbytes : decodeFixed32On false (b₀ :: b₁ :: b₂ :: b₃ :: rest) =
              .ok (BitVec.ofNat 32 b₀.toNat ||| (ofByte 32 b₁ <<< 8) ||| (ofByte 32 b₂ <<< 16) |||
                (ofByte 32 b₃ <<< 24)) := rfl
          rw [hbytes, ofNat_or_byte b₁ (by omega) (by decide),
            ofNat_or_byte b₂ (by omega) (by decide), ofNat_or_byte b₃ (by omega) (by decide),
            hload, hvalue]

/-- Away from a little-endian machine, `decodeFixed64` does not return. -/
theorem decodeFixed64On_not_ok (fuel : Nat) (ptr : Bytes) (v : U64) :
    decodeFixed64On false fuel ptr ≠ .ok v := by
  induction fuel generalizing ptr v with
  | zero => exact nofun
  | succ fuel ih =>
      intro hrun
      obtain ⟨lo, -, hrest⟩ := bind_eq_ok.mp hrun
      obtain ⟨hi, hhi, -⟩ := bind_eq_ok.mp hrest
      exact ih (ptr.drop 4) hi hhi

/-! ### Neutrality -/

/-- The encoders' branch `enc` and the decoders' branch `dec` do what is done on a little-endian
machine, `decodeFixed64` apart. -/
structure Neutral32 (enc dec : Bool) (v : U32) (x : U64) (ptr₄ : Bytes) : Prop where
  encode32 : encodeFixed32On enc v = LittleEndian.bytes 4 v.toNat
  encode64 : encodeFixed64On enc x = LittleEndian.bytes 8 x.toNat
  decode32 : ∃ y, decodeFixed32On dec ptr₄ = .ok y ∧ loadWord 32 4 ptr₄ = .ok y
  roundtrip32 : decodeFixed32On dec (encodeFixed32On enc v) = .ok v

/-- …and so does `decodeFixed64`, which returns. -/
structure EndianNeutral (enc dec : Bool) (v : U32) (x : U64) (ptr₄ ptr₈ : Bytes) : Prop
    extends Neutral32 enc dec v x ptr₄ where
  decode64 : ∃ fuel y, decodeFixed64On dec fuel ptr₈ = .ok y ∧ loadWord 64 8 ptr₈ = .ok y
  roundtrip64 : ∃ fuel, decodeFixed64On dec fuel (encodeFixed64On enc x) = .ok x

theorem neutral32 (enc dec : Bool) (v : U32) (x : U64) {ptr₄ : Bytes} (h₄ : 4 ≤ ptr₄.length) :
    Neutral32 enc dec v x ptr₄ := by
  have hload : loadWord 32 4 ptr₄ = .ok _ := if_pos h₄
  have hread := loadWord_bytes v (show 2 ^ 32 = 256 ^ 4 by decide) []
  rw [List.append_nil] at hread
  refine ⟨encodeFixed32On_eq enc v, encodeFixed64On_eq enc x, ⟨_, ?_, hload⟩, ?_⟩
  · rw [decodeFixed32On_eq dec h₄, hload]
  · rw [encodeFixed32On_eq, decodeFixed32On_eq dec (LittleEndian.length_bytes 4 v.toNat).ge, hread]

/-- **When the fixed-length routines are endian-neutral.** -/
theorem fixed_endian_neutral (enc dec : Bool) (v : U32) (x : U64) {ptr₄ ptr₈ : Bytes}
    (h₄ : 4 ≤ ptr₄.length) (h₈ : 8 ≤ ptr₈.length) :
    EndianNeutral enc dec v x ptr₄ ptr₈ ↔ dec = true := by
  constructor
  · intro h
    cases dec with
    | true => rfl
    | false =>
        obtain ⟨fuel, y, hrun, -⟩ := h.decode64
        exact absurd hrun (decodeFixed64On_not_ok fuel ptr₈ y)
  · rintro rfl
    have hload : loadWord 64 8 ptr₈ = .ok _ := if_pos h₈
    have hread := loadWord_bytes x (show 2 ^ 64 = 256 ^ 8 by decide) []
    rw [List.append_nil, ← encodeFixed64On_eq enc x] at hread
    exact ⟨neutral32 enc true v x h₄, ⟨0, _, hload, hload⟩, ⟨0, hread⟩⟩

theorem fixed_endian_neutral_little :
    EndianNeutral false true 0x01020304 5 [1, 2, 3, 4] [1, 2, 3, 4, 5, 6, 7, 8] :=
  (fixed_endian_neutral false true 0x01020304 5 (by decide) (by decide)).mpr rfl

/-- The eight bytes of 5, away from a little-endian machine. -/
theorem fixed_endian_neutral_not :
    ¬ EndianNeutral false false 0 5 [0, 0, 0, 0] [5, 0, 0, 0, 0, 0, 0, 0] := by
  intro h
  obtain ⟨fuel, hrun⟩ := h.roundtrip64
  exact decodeFixed64On_not_ok fuel _ 5 hrun

end Leveldb
