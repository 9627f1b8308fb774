import MyLeveldb.Basics
import MyLeveldb.Support.Numbers.LittleEndian

/-!
# Coding — Definitions

`coding.h` and `coding.cpp`.  A pointer into a buffer is the bytes from there to the end of the
buffer, so that `p < limit` says that some are left; `NULL` is `none`.

The `Get...` routines take the old values of `*input` and of the output parameter and return the
new ones (`Got`), whether they succeed or not.
-/

namespace Leveldb

/-- `__BYTE_ORDER == __LITTLE_ENDIAN`, which holds too where neither is defined. -/
def byteOrderIsLittleEndian : Bool := true

/-- `port::kLittleEndian`. -/
def kLittleEndian : Bool := true

/-- `static_cast<unsigned char>(v)`. -/
def toByte {w : Nat} (v : BitVec w) : UInt8 := UInt8.ofNat v.toNat

/-- An `unsigned char` as a word. -/
def ofByte (w : Nat) (b : UInt8) : BitVec w := BitVec.ofNat w b.toNat

/-! ### Fixed-length numbers -/

/-- The two branches of `encodeFixed32`. -/
def encodeFixed32On (littleEndian : Bool) (value : U32) : Bytes :=
  if littleEndian then LittleEndian.bytes 4 value.toNat
  else [toByte (value &&& 0xff), toByte ((value >>> 8) &&& 0xff),
    toByte ((value >>> 16) &&& 0xff), toByte ((value >>> 24) &&& 0xff)]

/-- The two branches of `encodeFixed64`. -/
def encodeFixed64On (littleEndian : Bool) (value : U64) : Bytes :=
  if littleEndian then LittleEndian.bytes 8 value.toNat
  else [toByte (value &&& 0xff), toByte ((value >>> 8) &&& 0xff),
    toByte ((value >>> 16) &&& 0xff), toByte ((value >>> 24) &&& 0xff),
    toByte ((value >>> 32) &&& 0xff), toByte ((value >>> 40) &&& 0xff),
    toByte ((value >>> 48) &&& 0xff), toByte ((value >>> 56) &&& 0xff)]

/-- The bytes `encodeFixed32(buf, value)` writes. -/
def encodeFixed32 (value : U32) : Bytes := encodeFixed32On byteOrderIsLittleEndian value

/-- The bytes `encodeFixed64(buf, value)` writes. -/
def encodeFixed64 (value : U64) : Bytes := encodeFixed64On byteOrderIsLittleEndian value

/-- `memcpy(&result, ptr, n)` into a word of a little-endian machine. -/
def loadWord (w n : Nat) (ptr : Bytes) : Except Fault (BitVec w) :=
  if n ≤ ptr.length then .ok (BitVec.ofNat w (LittleEndian.value (ptr.take n)))
  else .error .wild

/-- The two branches of `decodeFixed32`. -/
def decodeFixed32On (littleEndian : Bool) (ptr : Bytes) : Except Fault U32 :=
  if littleEndian then loadWord 32 4 ptr
  else match ptr with
    | b₀ :: b₁ :: b₂ :: b₃ :: _ =>
        .ok (ofByte 32 b₀ ||| (ofByte 32 b₁ <<< 8) ||| (ofByte 32 b₂ <<< 16) |||
          (ofByte 32 b₃ <<< 24))
    | _ => .error .wild

/-- The two branches of `decodeFixed64`; past the first, it calls itself for the high word. -/
def decodeFixed64On (littleEndian : Bool) : Nat → Bytes → Except Fault U64
  | 0, ptr =>
      if littleEndian then loadWord 64 8 ptr else .error .fuel
  | fuel + 1, ptr =>
      if littleEndian then loadWord 64 8 ptr
      else do
        let lo ← decodeFixed32On littleEndian ptr
        let hi ← decodeFixed64On littleEndian fuel (ptr.drop 4)
        .ok ((hi <<< 32) ||| lo.setWidth 64)

/-- `decodeFixed32(ptr)`. -/
def decodeFixed32 (ptr : Bytes) : Except Fault U32 := decodeFixed32On kLittleEndian ptr

/-- `decodeFixed64(ptr)`, which does not call itself where `kLittleEndian` holds. -/
def decodeFixed64 (ptr : Bytes) : Except Fault U64 := decodeFixed64On kLittleEndian 0 ptr

def putFixed32 (dst : Bytes) (value : U32) : Bytes := dst ++ encodeFixed32 value

def putFixed64 (dst : Bytes) (value : U64) : Bytes := dst ++ encodeFixed64 value

/-! ### Varints -/

/-- The bytes `encodeVarint32(dst, v)` writes. -/
def encodeVarint32 (v : U32) : Bytes :=
  if v.toNat < 2 ^ 7 then [toByte v]
  else if v.toNat < 2 ^ 14 then [toByte (v ||| 128), toByte (v >>> 7)]
  else if v.toNat < 2 ^ 21 then
    [toByte (v ||| 128), toByte ((v >>> 7) ||| 128), toByte (v >>> 14)]
  else if v.toNat < 2 ^ 28 then
    [toByte (v ||| 128), toByte ((v >>> 7) ||| 128), toByte ((v >>> 14) ||| 128),
      toByte (v >>> 21)]
  else
    [toByte (v ||| 128), toByte ((v >>> 7) ||| 128), toByte ((v >>> 14) ||| 128),
      toByte ((v >>> 21) ||| 128), toByte (v >>> 28)]

/-- `while (v >= B) { ... }` of `encodeVarint64`, with at most `n` iterations. -/
def encodeVarint64Loop : Nat → U64 → Bytes
  | 0, v => [toByte v]
  | n + 1, v =>
      if 128 ≤ v.toNat then toByte ((v &&& 127) ||| 128) :: encodeVarint64Loop n (v >>> 7)
      else [toByte v]

/-- The bytes `encodeVarint64(dst, v)` writes; 9 shifts leave no more than one bit. -/
def encodeVarint64 (v : U64) : Bytes := encodeVarint64Loop 9 v

def putVarint32 (dst : Bytes) (value : U32) : Bytes := dst ++ encodeVarint32 value

def putVarint64 (dst : Bytes) (value : U64) : Bytes := dst ++ encodeVarint64 value

/-- `putLengthPrefixedSlice(dst, value)`: the size is converted to `uint32_t`. -/
def putLengthPrefixedSlice (dst value : Bytes) : Bytes :=
  putVarint32 dst (BitVec.ofNat 32 value.length) ++ value

/-- `while (v >= 128) { ... }` of `varintLength`, with at most `n` iterations. -/
def varintLengthLoop : Nat → U64 → Nat → Nat
  | 0, _, len => len
  | n + 1, v, len => if 128 ≤ v.toNat then varintLengthLoop n (v >>> 7) (len + 1) else len

/-- `varintLength(v)`. -/
def varintLength (v : U64) : Nat := varintLengthLoop 9 v 1

/-- The loop of `getVarint32PtrFallback` (`w = 32`, `last = 28`) and of `getVarint64Ptr` (`w = 64`,
`last = 63`). -/
def getVarintLoop (w last : Nat) : Bytes → Nat → BitVec w → Option (Bytes × BitVec w)
  | [], _, _ => none
  | b :: p, shift, result =>
      if shift ≤ last then
        let byte := ofByte w b
        if byte &&& 128 ≠ 0 then
          getVarintLoop w last p (shift + 7) (result ||| ((byte &&& 127) <<< shift))
        else some (p, result ||| (byte <<< shift))
      else none

def getVarint32PtrFallback (p : Bytes) : Option (Bytes × U32) := getVarintLoop 32 28 p 0 0

def getVarint32Ptr (p : Bytes) : Option (Bytes × U32) :=
  match p with
  | b :: q =>
      let result := ofByte 32 b
      if result &&& 128 = 0 then some (q, result) else getVarint32PtrFallback p
  | [] => getVarint32PtrFallback p

def getVarint64Ptr (p : Bytes) : Option (Bytes × U64) := getVarintLoop 64 63 p 0 0

/-- What a `Get...` routine returns, and leaves in `*input` and in its output parameter. -/
structure Got (α : Type) where
  ok : Bool
  input : Bytes
  value : α
  deriving DecidableEq, Repr

def getVarint32 (input : Bytes) (value : U32) : Got U32 :=
  match getVarint32Ptr input with
  | none        => { ok := false, input := input, value := value }
  | some (q, v) => { ok := true, input := q, value := v }

def getVarint64 (input : Bytes) (value : U64) : Got U64 :=
  match getVarint64Ptr input with
  | none        => { ok := false, input := input, value := value }
  | some (q, v) => { ok := true, input := q, value := v }

/-- `getLengthPrefixedSlice(input, result)`; `len` is read only where `getVarint32` sets it. -/
def getLengthPrefixedSlice (input result : Bytes) : Got Bytes :=
  let got := getVarint32 input 0
  if got.ok ∧ got.value.toNat ≤ got.input.length then
    { ok := true, input := got.input.drop got.value.toNat
      value := got.input.take got.value.toNat }
  else { ok := false, input := got.input, value := result }

end Leveldb
