import MyLeveldb.Format.Definitions
import MyLeveldb.Coding.Words

/-!
# Format — Keys

Every byte string of at least 8 bytes is a user key with a tag after it (`exists_tag`), and what
the code reads off an internal key is stated of `u ++ encodeFixed64 tag`.  A tag is a sequence
number and a type if and only if its lowest byte is an enumerator: `internalKey_bijection`.
-/

namespace Leveldb

variable {b u : Bytes} {s tag : U64} {t : ValueType}

theorem toNat_kMaxSequenceNumber : kMaxSequenceNumber.toNat = 2 ^ 56 - 1 := by decide

/-- The enumerators of `ValueType`. -/
def ValueType.Valid (t : ValueType) : Prop := t = .kTypeDeletion ∨ t = .kTypeValue

instance (t : ValueType) : Decidable t.Valid :=
  inferInstanceAs (Decidable (t = .kTypeDeletion ∨ t = .kTypeValue))

theorem ValueType.valid_iff : t.Valid ↔ t.toNat ≤ 1 := by
  cases t with
  | kTypeDeletion => simp [Valid, toNat]
  | kTypeValue => simp [Valid, toNat]
  | unknown c h => simp [Valid, toNat, h]

theorem ValueType.toNat_ofByte (c : UInt8) : (ValueType.ofByte c).toNat = c.toNat := by
  unfold ofByte
  split_ifs with h₀ h₁
  · exact h₀.symm
  · rfl
  · show 1 = c.toNat
    omega

theorem ValueType.ofByte_toNat (h : t.Valid) : ValueType.ofByte (UInt8.ofNat t.toNat) = t := by
  rcases h with rfl | rfl <;> rfl

/-! ### Tags -/

/-- A sequence number and a type in one word. -/
def tagOf (s : U64) (t : ValueType) : U64 := (s <<< 8) ||| BitVec.ofNat 64 t.toNat

/-- The byte `num & 0xff`. -/
theorem toByte_and_255 (tag : U64) : toByte (tag &&& 0xff) = UInt8.ofNat (tag.toNat % 256) := by
  have hlow : (tag &&& 0xff).toNat = tag.toNat % 256 := by
    rw [BitVec.toNat_and]
    exact Bits.and_255 tag.toNat
  rw [toByte, hlow]

theorem toNat_shiftRight_8 (tag : U64) : (tag >>> 8).toNat = tag.toNat / 256 := by
  rw [BitVec.toNat_ushiftRight, Nat.shiftRight_eq_div_pow]

theorem toNat_tagOf (hs : s.toNat ≤ kMaxSequenceNumber.toNat) (ht : t.Valid) :
    (tagOf s t).toNat = 256 * s.toNat + t.toNat := by
  have ht' := ValueType.valid_iff.mp ht
  have hlow : (BitVec.ofNat 64 t.toNat).toNat = t.toNat := Nat.mod_eq_of_lt (by omega)
  rw [toNat_kMaxSequenceNumber] at hs
  rw [tagOf, BitVec.or_comm, Bits.word_or_shiftLeft _ _ (by rw [hlow]; omega) (by decide), hlow,
    BitVec.toNat_ofNat]
  omega

theorem packSequenceAndType_eq (hs : s.toNat ≤ kMaxSequenceNumber.toNat) (ht : t.Valid) :
    packSequenceAndType s t = .ok (tagOf s t) := by
  have ht' : t.toNat ≤ kValueTypeForSeek.toNat := ValueType.valid_iff.mp ht
  rw [packSequenceAndType, assertion_of hs, ok_bind, assertion_of ht', ok_bind, tagOf]

/-- A tag is the one of the sequence number and the type read off it. -/
theorem tagOf_parts (ht : (ValueType.ofByte (toByte (tag &&& 0xff))).Valid) :
    tagOf (tag >>> 8) (.ofByte (toByte (tag &&& 0xff))) = tag := by
  have htag := tag.isLt
  have hseq := toNat_shiftRight_8 tag
  have hs : (tag >>> 8).toNat ≤ kMaxSequenceNumber.toNat := by
    rw [hseq, toNat_kMaxSequenceNumber]
    omega
  apply BitVec.eq_of_toNat_eq
  rw [toNat_tagOf hs ht, hseq, ValueType.toNat_ofByte, toByte_and_255, UInt8.toNat_ofNat']
  omega

/-- …and of no others. -/
theorem parts_tagOf (hs : s.toNat ≤ kMaxSequenceNumber.toNat) (ht : t.Valid) :
    tagOf s t >>> 8 = s ∧ ValueType.ofByte (toByte (tagOf s t &&& 0xff)) = t := by
  have htag := toNat_tagOf hs ht
  have ht' := ValueType.valid_iff.mp ht
  constructor
  · apply BitVec.eq_of_toNat_eq
    rw [toNat_shiftRight_8, htag]
    omega
  · have hlow : (tagOf s t).toNat % 256 = t.toNat := by omega
    rw [toByte_and_255, hlow, ValueType.ofByte_toNat ht]

/-! ### Internal keys -/

theorem appendInternalKey_eq (hs : s.toNat ≤ kMaxSequenceNumber.toNat) (ht : t.Valid)
    (r u : Bytes) :
    appendInternalKey r ⟨u, s, t⟩ = .ok (r ++ (u ++ encodeFixed64 (tagOf s t))) := by
  rw [appendInternalKey, packSequenceAndType_eq hs ht, ok_bind, putFixed64, List.append_assoc]

/-- What `appendInternalKey` appends, where its `assert`s hold. -/
theorem appendInternalKey_ok {k : ParsedInternalKey} (h : appendInternalKey [] k = .ok b) :
    k.sequence.toNat ≤ kMaxSequenceNumber.toNat ∧ k.type.Valid ∧
      b = k.user_key ++ encodeFixed64 (tagOf k.sequence k.type) := by
  obtain ⟨tag, htag, hb⟩ := bind_eq_ok.mp h
  obtain ⟨_, hs, htag⟩ := bind_eq_ok.mp htag
  obtain ⟨_, ht, htag⟩ := bind_eq_ok.mp htag
  refine ⟨assertion_eq_ok.mp hs, ValueType.valid_iff.mpr (assertion_eq_ok.mp ht), ?_⟩
  cases htag
  cases hb
  rfl

theorem exists_tag (h : 8 ≤ b.length) : ∃ u tag, b = u ++ encodeFixed64 tag := by
  have hlen : (b.drop (b.length - 8)).length = 8 := by rw [List.length_drop]; omega
  obtain ⟨tag, htag⟩ := exists_encodeFixed64 hlen
  exact ⟨b.take (b.length - 8), tag, by rw [← htag, List.take_append_drop]⟩

theorem length_key (u : Bytes) (tag : U64) :
    (u ++ encodeFixed64 tag).length = u.length + 8 := by
  rw [List.length_append, length_encodeFixed64]

theorem take_key (u : Bytes) (tag : U64) :
    (u ++ encodeFixed64 tag).take ((u ++ encodeFixed64 tag).length - 8) = u := by
  rw [length_key, Nat.add_sub_cancel, List.take_left]

theorem drop_key (u : Bytes) (tag : U64) :
    (u ++ encodeFixed64 tag).drop ((u ++ encodeFixed64 tag).length - 8) = encodeFixed64 tag := by
  rw [length_key, Nat.add_sub_cancel, List.drop_left]

theorem extractUserKey_eq (u : Bytes) (tag : U64) :
    extractUserKey (u ++ encodeFixed64 tag) = .ok u := by
  rw [extractUserKey, assertion_of (by rw [length_key]; omega), ok_bind, take_key]

theorem decodeTag_eq (u : Bytes) (tag : U64) :
    decodeFixed64 ((u ++ encodeFixed64 tag).drop ((u ++ encodeFixed64 tag).length - 8)) =
      .ok tag := by
  have := decodeFixed64_encode tag []
  rwa [List.append_nil, ← drop_key u tag] at this

theorem extractValueType_eq (u : Bytes) (tag : U64) :
    extractValueType (u ++ encodeFixed64 tag) = .ok (.ofByte (toByte (tag &&& 0xff))) := by
  rw [extractValueType, assertion_of (by rw [length_key]; omega), ok_bind, decodeTag_eq, ok_bind]

theorem parseInternalKey_eq (u : Bytes) (tag : U64) (result : ParsedInternalKey) :
    parseInternalKey (u ++ encodeFixed64 tag) result =
      .ok (decide (ValueType.ofByte (toByte (tag &&& 0xff))).Valid,
        ⟨u, tag >>> 8, .ofByte (toByte (tag &&& 0xff))⟩) := by
  have hlen : ¬ (u ++ encodeFixed64 tag).length < 8 := by rw [length_key]; omega
  have hvalid : (ValueType.ofByte (toByte (tag &&& 0xff))).Valid ↔
      (toByte (tag &&& 0xff)).toNat ≤ ValueType.kTypeValue.toNat := by
    rw [ValueType.valid_iff, ValueType.toNat_ofByte]
    rfl
  simp only [parseInternalKey, if_neg hlen, decodeTag_eq, ok_bind, take_key, hvalid]

/-- The three views of `LookupKey(u, s)`. -/
theorem lookupKey_eq (hs : s.toNat ≤ kMaxSequenceNumber.toNat) (u : Bytes) :
    ∃ key, LookupKey.new u s = .ok key ∧
      key.internal_key = u ++ encodeFixed64 (tagOf s kValueTypeForSeek) ∧
      key.memtable_key = encodeVarint32 (BitVec.ofNat 32 (u.length + 8)) ++ key.internal_key ∧
      key.user_key = u := by
  have hpack : packSequenceAndType s kValueTypeForSeek = .ok (tagOf s kValueTypeForSeek) :=
    packSequenceAndType_eq hs (.inr rfl)
  refine ⟨_, by rw [LookupKey.new, hpack, ok_bind], ?_⟩
  simp only [LookupKey.user_key, LookupKey.internal_key, LookupKey.memtable_key,
    List.append_assoc, List.drop_left, take_key, and_self]

/-- The byte 8 before the end. -/
theorem getElem_tag (u : Bytes) (tag : U64) :
    (u ++ encodeFixed64 tag)[(u ++ encodeFixed64 tag).length - 8]? =
      some (toByte (tag &&& 0xff)) := by
  have hlow : UInt8.ofNat tag.toNat = UInt8.ofNat (tag.toNat % 256) := by
    apply UInt8.toNat_inj.mp
    rw [UInt8.toNat_ofNat', UInt8.toNat_ofNat', Nat.mod_mod]
  rw [length_key, Nat.add_sub_cancel, List.getElem?_append_right (Nat.le_refl _), Nat.sub_self,
    toByte_and_255, ← hlow]
  rfl

/-- **The internal-key format is a bijection on its image.** -/
theorem internalKey_bijection :
    (∀ (r u : Bytes) (s : U64) (t : ValueType) (result : ParsedInternalKey),
      s.toNat ≤ kMaxSequenceNumber.toNat → t.Valid →
      ∃ b, appendInternalKey r ⟨u, s, t⟩ = .ok (r ++ b) ∧
        b.length = internalKeyEncodingLength ⟨u, s, t⟩ ∧
        parseInternalKey b result = .ok (true, ⟨u, s, t⟩) ∧
        extractUserKey b = .ok u ∧ extractValueType b = .ok t) ∧
    ∀ (b : Bytes) (result : ParsedInternalKey),
      ∃ accepted p, parseInternalKey b result = .ok (accepted, p) ∧
        (accepted = true ↔
          8 ≤ b.length ∧ ∃ c, b[b.length - 8]? = some c ∧ c.toNat ≤ ValueType.kTypeValue.toNat) ∧
        (accepted = true → p.sequence.toNat ≤ kMaxSequenceNumber.toNat ∧ p.type.Valid ∧
          appendInternalKey [] p = .ok b) := by
  constructor
  · intro r u s t result hs ht
    obtain ⟨hseq, htype⟩ := parts_tagOf hs ht
    refine ⟨u ++ encodeFixed64 (tagOf s t), appendInternalKey_eq hs ht r u, length_key _ _, ?_,
      extractUserKey_eq _ _, ?_⟩
    · rw [parseInternalKey_eq, hseq, htype, decide_eq_true ht]
    · rw [extractValueType_eq, htype]
  · intro b result
    by_cases hlen : b.length < 8
    · refine ⟨false, result, by rw [parseInternalKey]; exact if_pos hlen, ?_, nofun⟩
      simp only [Bool.false_eq_true, false_iff, not_and]
      omega
    · obtain ⟨u, tag, rfl⟩ := exists_tag (Nat.not_lt.mp hlen)
      refine ⟨_, _, parseInternalKey_eq u tag result, ?_, fun h => ?_⟩
      · rw [decide_eq_true_iff, ValueType.valid_iff, ValueType.toNat_ofByte, getElem_tag]
        simp only [Option.some.injEq, exists_eq_left']
        exact ⟨fun h => ⟨Nat.not_lt.mp hlen, h⟩, fun h => h.2⟩
      · have ht := of_decide_eq_true h
        have htag := tag.isLt
        have hs : (tag >>> 8).toNat ≤ kMaxSequenceNumber.toNat := by
          rw [toNat_shiftRight_8, toNat_kMaxSequenceNumber]
          omega
        refine ⟨hs, ht, ?_⟩
        rw [appendInternalKey_eq hs ht, tagOf_parts ht, List.nil_append]

theorem internalKey_bijection_ab :
    (∃ b, appendInternalKey [1] ⟨[97, 98], 5, .kTypeValue⟩ = .ok ([1] ++ b) ∧
      b.length = internalKeyEncodingLength ⟨[97, 98], 5, .kTypeValue⟩ ∧
      parseInternalKey b ⟨[9], 0, .kTypeDeletion⟩ = .ok (true, ⟨[97, 98], 5, .kTypeValue⟩) ∧
      extractUserKey b = .ok [97, 98] ∧ extractValueType b = .ok .kTypeValue) ∧
    ∃ p, parseInternalKey [97, 98, 1, 5, 0, 0, 0, 0, 0, 0] ⟨[9], 0, .kTypeDeletion⟩ =
        .ok (true, p) ∧
      appendInternalKey [] p = .ok [97, 98, 1, 5, 0, 0, 0, 0, 0, 0] := by
  refine ⟨internalKey_bijection.1 [1] [97, 98] 5 .kTypeValue _ (by decide) (by decide), ?_⟩
  obtain ⟨accepted, p, hparse, haccepted, hback⟩ :=
    internalKey_bijection.2 [97, 98, 1, 5, 0, 0, 0, 0, 0, 0] ⟨[9], 0, .kTypeDeletion⟩
  have htrue : accepted = true := haccepted.2 ⟨by decide, 1, rfl, by decide⟩
  rw [htrue] at hparse
  exact ⟨p, hparse, (hback htrue).2.2⟩

end Leveldb
