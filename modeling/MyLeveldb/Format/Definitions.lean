import MyLeveldb.Coding.Definitions

/-!
# Format — Definitions

`dbformat.h` and `dbformat.cpp`: internal keys, their comparator and `LookupKey`.  An internal key
is a user key followed by 8 bytes, the *tag*: the sequence number and the value type, packed into
one word.

`static_cast<ValueType>(c)` of a byte that is no enumerator is `ValueType.unknown c`.
-/

namespace Leveldb

inductive ValueType where
  | kTypeDeletion
  | kTypeValue
  /-- a byte above `kTypeValue` -/
  | unknown (c : UInt8) (h : 1 < c.toNat)
  deriving DecidableEq, Repr

namespace ValueType

/-- `static_cast<ValueType>(c)`. -/
def ofByte (c : UInt8) : ValueType :=
  if c.toNat = 0 then .kTypeDeletion
  else if h : 1 < c.toNat then .unknown c h
  else .kTypeValue

/-- The value of the enumerator. -/
def toNat : ValueType → Nat
  | .kTypeDeletion => 0
  | .kTypeValue    => 1
  | .unknown c _   => c.toNat

end ValueType

def kValueTypeForSeek : ValueType := .kTypeValue

def kMaxSequenceNumber : U64 := ((0x1 : U64) <<< 56) - 1

structure ParsedInternalKey where
  user_key : Bytes
  sequence : U64
  type : ValueType
  deriving DecidableEq, Repr

def internalKeyEncodingLength (key : ParsedInternalKey) : Nat := key.user_key.length + 8

def packSequenceAndType (seq : U64) (t : ValueType) : Except Fault U64 := do
  assertion (seq.toNat ≤ kMaxSequenceNumber.toNat)
  assertion (t.toNat ≤ kValueTypeForSeek.toNat)
  .ok ((seq <<< 8) ||| BitVec.ofNat 64 t.toNat)

/-- `result` after `appendInternalKey(result, key)`. -/
def appendInternalKey (result : Bytes) (key : ParsedInternalKey) : Except Fault Bytes := do
  let tag ← packSequenceAndType key.sequence key.type
  .ok (putFixed64 (result ++ key.user_key) tag)

/-- What `parseInternalKey` returns, and leaves in `*result`. -/
def parseInternalKey (internal_key : Bytes) (result : ParsedInternalKey) :
    Except Fault (Bool × ParsedInternalKey) :=
  let n := internal_key.length
  if n < 8 then .ok (false, result)
  else do
    let num ← decodeFixed64 (internal_key.drop (n - 8))
    let c := toByte (num &&& 0xff)
    .ok (decide (c.toNat ≤ ValueType.kTypeValue.toNat),
      { user_key := internal_key.take (n - 8), sequence := num >>> 8, type := .ofByte c })

def extractUserKey (internal_key : Bytes) : Except Fault Bytes := do
  assertion (8 ≤ internal_key.length)
  .ok (internal_key.take (internal_key.length - 8))

def extractValueType (internal_key : Bytes) : Except Fault ValueType := do
  assertion (8 ≤ internal_key.length)
  let num ← decodeFixed64 (internal_key.drop (internal_key.length - 8))
  .ok (.ofByte (toByte (num &&& 0xff)))

/-- `InternalKeyComparator(user_comparator_).compare(akey, bkey)`. -/
def InternalKeyComparator.compare (user_comparator_ : Compare Bytes) : Compare Bytes :=
  fun akey bkey => do
    let r ← user_comparator_ (← extractUserKey akey) (← extractUserKey bkey)
    if r = 0 then
      let aseq_t ← decodeFixed64 (akey.drop (akey.length - 8))
      let bseq_t ← decodeFixed64 (bkey.drop (bkey.length - 8))
      -- the lower tag, so the older version, is first
      if aseq_t.toNat < bseq_t.toNat then .ok (-1)
      else if aseq_t.toNat > bseq_t.toNat then .ok 1
      else .ok r
    else .ok r

/-- `LookupKey`: the bytes from `start_` to `end_`, and the offset of `kstart_`. -/
structure LookupKey where
  /-- the size of the buffer `start_` points to -/
  capacity : Nat
  bytes : Bytes
  kstart_ : Nat
  deriving DecidableEq, Repr

namespace LookupKey

/-- `LookupKey(user_key, s)`. -/
def new (user_key : Bytes) (s : U64) : Except Fault LookupKey := do
  let usize := user_key.length
  let needed := usize + 13
  let capacity := if needed ≤ 200 then 200 else needed
  let head := encodeVarint32 (BitVec.ofNat 32 (usize + 8))
  let tag ← packSequenceAndType s kValueTypeForSeek
  .ok { capacity := capacity, bytes := head ++ user_key ++ encodeFixed64 tag
        kstart_ := head.length }

def memtable_key (k : LookupKey) : Bytes := k.bytes

def internal_key (k : LookupKey) : Bytes := k.bytes.drop k.kstart_

def user_key (k : LookupKey) : Bytes := k.internal_key.take (k.internal_key.length - 8)

end LookupKey

end Leveldb
