import MyLeveldb.Coding.Words

/-!
# Coding — Stream

A buffer that items of all kinds have been appended to, in any mixture, and a reader that takes
them off it in the same order.  Each item's bytes say where they end (`Item.get_bytes`), so that
the reader stays aligned: `stream_roundtrip`.
-/

namespace Leveldb

/-- What a stream is made of. -/
inductive Kind where
  | fixed32
  | fixed64
  | varint32
  | varint64
  | lengthPrefixed
  deriving DecidableEq, Repr

inductive Item where
  | fixed32 (v : U32)
  | fixed64 (v : U64)
  | varint32 (v : U32)
  | varint64 (v : U64)
  | lengthPrefixed (s : Bytes)
  deriving DecidableEq, Repr

namespace Item

def kind : Item → Kind
  | .fixed32 _        => .fixed32
  | .fixed64 _        => .fixed64
  | .varint32 _       => .varint32
  | .varint64 _       => .varint64
  | .lengthPrefixed _ => .lengthPrefixed

/-- The `put` routine of the item. -/
def put (dst : Bytes) : Item → Bytes
  | .fixed32 v        => putFixed32 dst v
  | .fixed64 v        => putFixed64 dst v
  | .varint32 v       => putVarint32 dst v
  | .varint64 v       => putVarint64 dst v
  | .lengthPrefixed s => putLengthPrefixedSlice dst s

/-- A byte string's length is a `uint32_t`. -/
def Fits : Item → Prop
  | .lengthPrefixed s => s.length < 2 ^ 32
  | _                 => True

end Item

/-- Appends the items in order. -/
def putAll (dst : Bytes) (items : List Item) : Bytes := items.foldl Item.put dst

/-- What a `Get...` routine has read, if it returned `true`. -/
def Got.toOption {α : Type} (got : Got α) : Option (α × Bytes) :=
  if got.ok then some (got.value, got.input) else none

/-- Reads one item with the routine of its kind; the fixed-length ones advance by 4 or 8 bytes. -/
def Kind.get (input : Bytes) : Kind → Option (Item × Bytes)
  | .fixed32        => (decodeFixed32 input).toOption.map fun v => (.fixed32 v, input.drop 4)
  | .fixed64        => (decodeFixed64 input).toOption.map fun v => (.fixed64 v, input.drop 8)
  | .varint32       => (getVarint32 input 0).toOption.map fun r => (.varint32 r.1, r.2)
  | .varint64       => (getVarint64 input 0).toOption.map fun r => (.varint64 r.1, r.2)
  | .lengthPrefixed =>
      (getLengthPrefixedSlice input []).toOption.map fun r => (.lengthPrefixed r.1, r.2)

/-- Reads items of these kinds in order; the items, and the input that is left. -/
def getAll : List Kind → Bytes → Option (List Item × Bytes)
  | [], input => some ([], input)
  | k :: ks, input => do
      let (item, input) ← k.get input
      let (items, input) ← getAll ks input
      some (item :: items, input)

/-- Bytes with their length before them are read back. -/
theorem getLengthPrefixedSlice_prefixed {s : Bytes} (h : s.length < 2 ^ 32) (rest result : Bytes) :
    getLengthPrefixedSlice (putLengthPrefixedSlice [] s ++ rest) result =
      { ok := true, input := rest, value := s } := by
  have hlen : (BitVec.ofNat 32 s.length).toNat = s.length := Nat.mod_eq_of_lt h
  have hbytes : putLengthPrefixedSlice [] s ++ rest =
      encodeVarint32 (BitVec.ofNat 32 s.length) ++ (s ++ rest) :=
    List.append_assoc _ _ _
  rw [hbytes, getLengthPrefixedSlice, getVarint32, getVarint32Ptr_encode]
  simp [hlen]

namespace Item

/-- The bytes an item appends. -/
def bytes (item : Item) : Bytes := item.put []

theorem put_eq (item : Item) (dst : Bytes) : item.put dst = dst ++ item.bytes := by
  cases item with
  | lengthPrefixed s => simp [bytes, put, putLengthPrefixedSlice, putVarint32]
  | _ => rfl

theorem get_bytes (item : Item) (h : item.Fits) (rest : Bytes) :
    item.kind.get (item.bytes ++ rest) = some (item, rest) := by
  cases item with
  | fixed32 v =>
      have hbytes : bytes (fixed32 v) = encodeFixed32 v := rfl
      rw [hbytes, kind, Kind.get, decodeFixed32_encode, List.drop_left' (length_encodeFixed32 v)]
      rfl
  | fixed64 v =>
      have hbytes : bytes (fixed64 v) = encodeFixed64 v := rfl
      rw [hbytes, kind, Kind.get, decodeFixed64_encode, List.drop_left' (length_encodeFixed64 v)]
      rfl
  | varint32 v =>
      show (getVarint32 (encodeVarint32 v ++ rest) 0).toOption.map _ = _
      rw [getVarint32, getVarint32Ptr_encode]
      rfl
  | varint64 v =>
      show (getVarint64 (encodeVarint64 v ++ rest) 0).toOption.map _ = _
      rw [getVarint64, getVarint64Ptr_encode]
      rfl
  | lengthPrefixed s =>
      show (getLengthPrefixedSlice (putLengthPrefixedSlice [] s ++ rest) []).toOption.map _ = _
      rw [getLengthPrefixedSlice_prefixed h]
      rfl

end Item

theorem putAll_eq (items : List Item) (dst : Bytes) :
    putAll dst items = dst ++ items.flatMap Item.bytes := by
  induction items generalizing dst with
  | nil => simp [putAll]
  | cons item items ih =>
      have hstep : putAll dst (item :: items) = putAll (item.put dst) items := rfl
      rw [hstep, ih, Item.put_eq, List.flatMap_cons, List.append_assoc]

theorem getAll_bytes (items : List Item) (h : ∀ item ∈ items, item.Fits) (suffix : Bytes) :
    getAll (items.map Item.kind) (items.flatMap Item.bytes ++ suffix) = some (items, suffix) := by
  induction items with
  | nil => rfl
  | cons item items ih =>
      have hget := item.get_bytes (h item List.mem_cons_self) (items.flatMap Item.bytes ++ suffix)
      have hrest := ih fun i hi => h i (List.mem_cons_of_mem item hi)
      rw [List.map_cons, List.flatMap_cons, List.append_assoc, getAll, hget]
      simp only [Option.bind_eq_bind, Option.bind_some, hrest]

/-- **A stream reads back.** -/
theorem stream_roundtrip (items : List Item) (h : ∀ item ∈ items, item.Fits)
    (dst suffix : Bytes) :
    ∃ appended, putAll dst items = dst ++ appended ∧
      getAll (items.map Item.kind) (appended ++ suffix) = some (items, suffix) :=
  ⟨_, putAll_eq items dst, getAll_bytes items h suffix⟩

theorem stream_roundtrip_mixed :
    ∃ appended, putAll [7] [.varint32 300, .lengthPrefixed [1, 2], .fixed64 5] = [7] ++ appended ∧
      getAll [.varint32, .lengthPrefixed, .fixed64] (appended ++ [9]) =
        some ([.varint32 300, .lengthPrefixed [1, 2], .fixed64 5], [9]) :=
  stream_roundtrip _ (by simp [Item.Fits]) [7] [9]

end Leveldb
