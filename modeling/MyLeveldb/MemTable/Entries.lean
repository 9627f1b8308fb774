import MyLeveldb.MemTable.Pointers

/-!
# MemTable — Entries

What one `add` writes, and what the readers make of it.  `add` puts the length of the whole entry
where its readers look for the length of the internal key, and reserves the length of the value
for the internal key; the key and the value it does not copy at all.

* `Fits`: the lengths for which the write pointer ends where `add` asserts it does.
* `Written mem buf c`: the bytes of the entry at `buf` that `add` does write and that matter later,
  the length and the tag.
* `Written.slice_eq`: what the readers take for the entry's internal key, `keyBytes`, which reaches
  past the entry's end.  Two entries whose keys are the same bytes have the same sequence number
  (`Written.seq_eq`), and no key reads as a user key the comparator does not put it before
  (`before_of_eq`).
-/

namespace Leveldb.MemTable

open Flat (Memory Region bytesAt write)
open ThreeWay

/-- A call of `add`: its arguments, the height it inserts at and the memory it leaves. -/
structure AddCall where
  seq : U64
  type : ValueType
  key : Bytes
  value : Bytes
  height : Nat
  image : Memory

/-- `encoded_len`, for a value of `n` bytes. -/
def encodedLen (n : Nat) : Nat :=
  varintLength (BitVec.ofNat 64 (n + 8)) + (n + 8) + varintLength (BitVec.ofNat 64 n) + n

/-- The bytes an entry starts with, for a value of `n` bytes. -/
def lengthBytes (n : Nat) : Bytes := encodeVarint32 (BitVec.ofNat 32 (encodedLen n))

namespace AddCall

/-- The `assert` of `add` holds. -/
def Fits (c : AddCall) : Prop :=
  (lengthBytes c.value.length).length + c.key.length =
    varintLength (BitVec.ofNat 64 (c.value.length + 8)) + c.value.length

instance (c : AddCall) : Decidable c.Fits :=
  inferInstanceAs (Decidable (_ = _))

/-- The length of the entry in the format the readers expect. -/
def formatLen (c : AddCall) : Nat :=
  varintLength (BitVec.ofNat 64 (c.key.length + 8)) + (c.key.length + 8) +
    varintLength (BitVec.ofNat 64 c.value.length) + c.value.length

/-- What the callers of `add` keep to. -/
structure WellFormed (c : AddCall) : Prop where
  seq_le : c.seq.toNat ≤ kMaxSequenceNumber.toNat
  type_valid : c.type.Valid
  short : c.formatLen < 2 ^ 31
  height_pos : 1 ≤ c.height
  height_le : c.height ≤ SkipList.kMaxHeight

/-- The offset of the tag. -/
def tagOffset (c : AddCall) : Nat := (lengthBytes c.value.length).length + c.key.length

def tag (c : AddCall) : Bytes := encodeFixed64 (tagOf c.seq c.type)

/-- The memory the entry takes. -/
def region (c : AddCall) (buf : Nat) : Region := ⟨buf, encodedLen c.value.length⟩

end AddCall

variable {mem mem' : Memory} {buf buf' n : Nat} {c c' : AddCall} {u : Bytes}

/-! ### Lengths -/

theorem varintLength_ofNat (h : n < 2 ^ 64) :
    varintLength (BitVec.ofNat 64 n) = (Base128.encode n).length := by
  have hn : (BitVec.ofNat 64 n).toNat = n := Nat.mod_eq_of_lt h
  rw [varintLength_eq, hn]

theorem varintLength_le (v : U64) : varintLength v ≤ 10 := by
  rw [varintLength_eq]
  exact (Base128.length_encode_le 9).mpr (v.isLt.trans (by decide))

theorem length_encodeVarint32_ofNat (h : n < 2 ^ 32) :
    (encodeVarint32 (BitVec.ofNat 32 n)).length = varintLength (BitVec.ofNat 64 n) := by
  have hn : (BitVec.ofNat 32 n).toNat = n := Nat.mod_eq_of_lt h
  rw [encodeVarint32_eq, hn, varintLength_ofNat (h.trans (by decide))]

theorem encodedLen_strictMono {m : Nat} (hmn : m < n) (hn : n < 2 ^ 31) :
    encodedLen m < encodedLen n := by
  have h₁ := Base128.length_encode_mono (show m + 8 ≤ n + 8 by omega)
  have h₂ := Base128.length_encode_mono hmn.le
  unfold encodedLen
  rw [varintLength_ofNat (by omega), varintLength_ofNat (by omega), varintLength_ofNat (by omega),
    varintLength_ofNat (by omega)]
  omega

theorem encodedLen_inj {m : Nat} (hm : m < 2 ^ 31) (hn : n < 2 ^ 31)
    (h : encodedLen m = encodedLen n) : m = n := by
  rcases Nat.lt_trichotomy m n with hlt | heq | hgt
  · exact absurd h (encodedLen_strictMono hlt hn).ne
  · exact heq
  · exact absurd h (encodedLen_strictMono hgt hm).ne'

theorem le_encodedLen (n : Nat) : n + 8 ≤ encodedLen n := by
  unfold encodedLen
  omega

namespace AddCall

theorem value_lt (h : c.formatLen < 2 ^ 31) : c.value.length < 2 ^ 31 := by
  unfold formatLen at h
  omega

theorem WellFormed.value_lt (h : c.WellFormed) : c.value.length < 2 ^ 31 := AddCall.value_lt h.short

/-- The write pointer's way past the tag. -/
theorem Fits.encodedLen_eq (h : c.Fits) : encodedLen c.value.length =
    c.tagOffset + 8 + varintLength (BitVec.ofNat 64 c.value.length) + c.value.length := by
  unfold Fits at h
  unfold encodedLen tagOffset
  omega

/-- An entry the `assert` lets through is no longer than the one the format asks for, or short. -/
theorem Fits.encodedLen_lt (hshort : c.formatLen < 2 ^ 31) (h : c.Fits) :
    encodedLen c.value.length < 2 ^ 31 := by
  have heq := h.encodedLen_eq
  have hlen : (lengthBytes c.value.length).length ≤ 5 := length_encodeVarint32_le _
  have h₁ := varintLength_le (BitVec.ofNat 64 (c.value.length + 8))
  have h₂ := varintLength_le (BitVec.ofNat 64 c.value.length)
  unfold formatLen at hshort
  unfold tagOffset at heq
  -- the length takes 5 bytes, as many as the format's can, or the key is short
  by_cases hk : 2 ^ 28 ≤ c.key.length + 8
  · have h5 : ¬ (Base128.encode (c.key.length + 8)).length ≤ 4 := by
      rw [Base128.length_encode_le 3]
      exact Nat.not_lt.mpr hk
    rw [← varintLength_ofNat (by omega)] at h5
    omega
  · unfold Fits at h
    omega

theorem Fits.key_eq (h : c.Fits) (h' : c'.Fits) (hv : c.value.length = c'.value.length) :
    c.key.length = c'.key.length := by
  unfold Fits at h h'
  rw [hv] at h
  omega

end AddCall

/-! ### What `add` writes -/

/-- The memory after the three stores of `add`. -/
def stored (c : AddCall) (buf : Nat) (mem : Memory) : Memory :=
  let p := buf + (lengthBytes c.value.length).length + c.key.length
  let mem := write mem buf (lengthBytes c.value.length)
  let mem := write mem p c.tag
  write mem (p + c.tag.length) (encodeVarint32 (BitVec.ofNat 32 c.value.length))

/-- The entry's length and its tag are at `buf`. -/
structure Written (mem : Memory) (buf : Nat) (c : AddCall) : Prop where
  length_eq : bytesAt mem buf (lengthBytes c.value.length).length = lengthBytes c.value.length
  tag_eq : bytesAt mem (buf + c.tagOffset) 8 = c.tag

theorem length_tag (c : AddCall) : c.tag.length = 8 := length_encodeFixed64 _

theorem stored_eq (c : AddCall) (buf : Nat) (mem : Memory) : stored c buf mem =
    write (write (write mem buf (lengthBytes c.value.length)) (buf + c.tagOffset) c.tag)
      (buf + c.tagOffset + 8) (encodeVarint32 (BitVec.ofNat 32 c.value.length)) := by
  have hoff : buf + (lengthBytes c.value.length).length + c.key.length = buf + c.tagOffset :=
    Nat.add_assoc _ _ _
  simp only [stored, hoff, length_tag]

theorem written_stored (c : AddCall) (buf : Nat) (mem : Memory) :
    Written (stored c buf mem) buf c := by
  have hle : (lengthBytes c.value.length).length ≤ c.tagOffset := Nat.le_add_right _ _
  have htag := length_tag c
  rw [stored_eq]
  constructor
  · rw [Flat.bytesAt_write_of_le (by omega), Flat.bytesAt_write_of_le (by omega),
      Flat.bytesAt_write]
  · have hread := Flat.bytesAt_write (write mem buf (lengthBytes c.value.length))
      (buf + c.tagOffset) c.tag
    rw [htag] at hread
    rw [Flat.bytesAt_write_of_le (by omega), hread]

/-- `add` stores within its region. -/
theorem stored_outside (hv : c.value.length < 2 ^ 32) (h : c.Fits) {a : Nat}
    (ha : ¬ (c.region buf).Mem a) : stored c buf mem a = mem a := by
  have heq := h.encodedLen_eq
  have hvar := length_encodeVarint32_ofNat hv
  have htag := length_tag c
  have hle : (lengthBytes c.value.length).length ≤ c.tagOffset := Nat.le_add_right _ _
  have hout : a < buf ∨ buf + encodedLen c.value.length ≤ a := by
    unfold AddCall.region Region.Mem Region.stop at ha
    simp only at ha
    omega
  rw [stored_eq]
  rcases hout with hlt | hge
  · rw [Flat.write_of_lt (by omega), Flat.write_of_lt (by omega), Flat.write_of_lt hlt]
  · rw [Flat.write_of_ge (by omega), Flat.write_of_ge (by omega), Flat.write_of_ge (by omega)]

/-- An entry stays as long as its region does. -/
theorem Written.congr (hw : Written mem buf c) (h : c.Fits)
    (hmem : ∀ a, (c.region buf).Mem a → mem' a = mem a) : Written mem' buf c := by
  have heq := h.encodedLen_eq
  have hle : (lengthBytes c.value.length).length ≤ c.tagOffset := Nat.le_add_right _ _
  have hin : ∀ a, buf ≤ a → a < buf + c.tagOffset + 8 → mem' a = mem a := fun a h₁ h₂ => by
    refine hmem a ⟨h₁, ?_⟩
    show a < buf + encodedLen c.value.length
    omega
  constructor
  · exact (Flat.bytesAt_congr fun a h₁ h₂ => hin a h₁ (by omega)).trans hw.length_eq
  · exact (Flat.bytesAt_congr fun a h₁ h₂ => hin a (by omega) (by omega)).trans hw.tag_eq

/-! ### What the readers see -/

/-- The bytes the readers take for the internal key of the entry at `buf`. -/
def keyBytes (mem : Memory) (buf : Nat) (c : AddCall) : Bytes :=
  bytesAt mem (buf + (lengthBytes c.value.length).length) (encodedLen c.value.length)

theorem length_keyBytes : (keyBytes mem buf c).length = encodedLen c.value.length :=
  Flat.length_bytesAt _ _ _

/-- The readers' internal key of an entry. -/
def internalKey (mem : Memory) (buf : Nat) (c : AddCall) : InternalBytes :=
  ⟨keyBytes mem buf c, by
    have := le_encodedLen c.value.length
    rw [length_keyBytes]
    omega⟩

theorem Written.decode_eq (hw : Written mem buf c) (hlt : encodedLen c.value.length < 2 ^ 31) :
    (CharPtr.arena buf).getVarint32Ptr mem =
      .ok (.arena (buf + (lengthBytes c.value.length).length), encodedLen c.value.length) := by
  have hlen : (BitVec.ofNat 32 (encodedLen c.value.length)).toNat = encodedLen c.value.length :=
    Nat.mod_eq_of_lt (by omega)
  have hat : CharPtr.At mem (.arena buf) (lengthBytes c.value.length) :=
    CharPtr.at_arena.mpr hw.length_eq
  rw [hat.decode, hlen]
  rfl

theorem Written.slice_eq (hw : Written mem buf c) (hlt : encodedLen c.value.length < 2 ^ 31) :
    getLengthPrefixedSlice mem (.arena buf) =
      .ok ⟨.arena (buf + (lengthBytes c.value.length).length), encodedLen c.value.length⟩ := by
  rw [getLengthPrefixedSlice, hw.decode_eq hlt, ok_bind]

theorem Written.pointsTo (hw : Written mem buf c) (hlt : encodedLen c.value.length < 2 ^ 31) :
    PointsTo mem (.arena buf) (internalKey mem buf c) :=
  ⟨_, hw.slice_eq hlt, rfl⟩

/-! ### Two entries with one key -/

theorem tag_inj (hc : c.WellFormed) (hc' : c'.WellFormed) (h : c.tag = c'.tag) :
    c.seq = c'.seq := by
  have hdecode := decodeFixed64_encode (tagOf c.seq c.type) []
  have htag : encodeFixed64 (tagOf c.seq c.type) = encodeFixed64 (tagOf c'.seq c'.type) := h
  rw [htag, decodeFixed64_encode] at hdecode
  have heq := Except.ok.inj hdecode
  rw [← (parts_tagOf hc.seq_le hc.type_valid).1, ← (parts_tagOf hc'.seq_le hc'.type_valid).1, heq]

/-- The keys of two entries are the same bytes only if their tags are. -/
theorem Written.seq_eq (hw : Written mem buf c) (hw' : Written mem buf' c') (hc : c.WellFormed)
    (hc' : c'.WellFormed) (h : c.Fits) (h' : c'.Fits)
    (heq : keyBytes mem buf c = keyBytes mem buf' c') : c.seq = c'.seq := by
  have hsize := congrArg List.length heq
  rw [length_keyBytes, length_keyBytes] at hsize
  have hv := encodedLen_inj hc.value_lt hc'.value_lt hsize
  have hk := h.key_eq h' hv
  have hroom := h.encodedLen_eq
  unfold AddCall.tagOffset at hroom
  unfold keyBytes at heq
  rw [← hv] at heq
  have hsub := Flat.bytesAt_sub heq (show c.key.length + 8 ≤ _ by omega)
  have htag := hw.tag_eq
  have htag' := hw'.tag_eq
  unfold AddCall.tagOffset at htag htag'
  rw [← Nat.add_assoc] at htag htag'
  rw [← hv, ← hk, ← hsub, htag] at htag'
  exact tag_inj hc hc' htag'

/-! ### An entry and a user key -/

/-- A key whose bytes are those of `u` is before every internal key of `u`. -/
theorem before_of_eq {a b : InternalBytes} (h : a.1 = b.userKey) :
    internalOrder bytewiseOrder a b < 0 := by
  have hlt : bytewiseOrder a.userKey b.userKey < 0 := h ▸ a.userKey_before
  rw [internalOrder, if_neg hlt.ne]
  exact hlt

end Leveldb.MemTable
