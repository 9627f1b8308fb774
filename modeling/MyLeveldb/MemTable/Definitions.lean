import MyLeveldb.Arena.Definitions
import MyLeveldb.Comparator.Bytewise
import MyLeveldb.Format.Definitions
import MyLeveldb.SkipList.Definitions
import MyLeveldb.Status.Definitions

/-!
# MemTable — Definitions

`memtable.h` and `memtable.cpp`.  The table's keys are pointers, into the arena or into a buffer a
caller owns, and its comparator reads the memory they point to.  The memory is flat; what the
entries do not hold of it is not the memtable's to say, so that `add` takes an `image` of what it
is afterwards: the bytes of the skip list's nodes, of memory nothing has written to, and of the
rest of the program.

`MemTable` has no reference count: `ref` and `unref` touch nothing else.
-/

namespace Leveldb

open Flat (Memory Region Allocator bytesAt write)

/-- `const char*`: an address, or a place in a buffer outside the arena. -/
inductive CharPtr where
  | arena (a : Nat)
  | buffer (bytes : Bytes) (offset : Nat)
  deriving DecidableEq, Repr

namespace CharPtr

/-- `p + n`. -/
def plus : CharPtr → Nat → CharPtr
  | .arena a, n          => .arena (a + n)
  | .buffer b offset, n  => .buffer b (offset + n)

/-- `p - n`. -/
def minus : CharPtr → Nat → Except Fault CharPtr
  | .arena a, n         => if n ≤ a then .ok (.arena (a - n)) else .error .wild
  | .buffer b offset, n => if n ≤ offset then .ok (.buffer b (offset - n)) else .error .wild

/-- The `n` bytes at `p`. -/
def read (mem : Memory) : CharPtr → Nat → Except Fault Bytes
  | .arena a, n         => .ok (bytesAt mem a n)
  | .buffer b offset, n =>
      if offset + n ≤ b.length then .ok ((b.drop offset).take n) else .error .wild

/-- The bytes from `p` to `p + 5`, as far as there are any. -/
def upTo5 (mem : Memory) : CharPtr → Bytes
  | .arena a         => bytesAt mem a 5
  | .buffer b offset => (b.drop offset).take 5

/-- `getVarint32Ptr(p, p + 5, &len)`, where the caller uses the result unchecked. -/
def getVarint32Ptr (mem : Memory) (p : CharPtr) : Except Fault (CharPtr × Nat) :=
  match Leveldb.getVarint32Ptr (p.upTo5 mem) with
  | some (rest, len) => .ok (p.plus ((p.upTo5 mem).length - rest.length), len.toNat)
  | none             => .error .wild

end CharPtr

namespace MemTable

/-- A `Slice` that has not been read yet. -/
structure Slice where
  data : CharPtr
  size : Nat
  deriving DecidableEq, Repr

def Slice.read (mem : Memory) (s : Slice) : Except Fault Bytes := s.data.read mem s.size

/-- `getLengthPrefixedSlice(const char* data)`. -/
def getLengthPrefixedSlice (mem : Memory) (data : CharPtr) : Except Fault Slice := do
  let (p, len) ← data.getVarint32Ptr mem
  .ok ⟨p, len⟩

/-- `KeyComparator(InternalKeyComparator(user))(aptr, bptr)`. -/
def KeyComparator (user : Compare Bytes) (mem : Memory) : Compare CharPtr :=
  fun aptr bptr => do
    let a ← getLengthPrefixedSlice mem aptr
    let b ← getLengthPrefixedSlice mem bptr
    InternalKeyComparator.compare user (← a.read mem) (← b.read mem)

/-- `encodeKey(scratch, target)`. -/
def encodeKey (target : Bytes) : CharPtr :=
  .buffer (putVarint32 [] (BitVec.ofNat 32 target.length) ++ target) 0

/-- `sizeof(Node) + sizeof(port::AtomicPointer) * (height - 1)`. -/
def nodeBytes (height : Nat) : Nat := 16 + 8 * (height - 1)

/-- Copies `bs` to `p`; returns the address after them. -/
def put (mem : Memory) (p : Nat) (bs : Bytes) : Nat × Memory := (p + bs.length, write mem p bs)

/-- `mem` in the entries, as far as no node overlaps them, and `image` everywhere else. -/
def overlay (entries nodes : List Region) (mem image : Memory) : Memory := fun a =>
  if (∃ r ∈ entries, r.Mem a) ∧ ¬ ∃ r ∈ nodes, r.Mem a then mem a else image a

end MemTable

structure MemTable where
  arena_ : Arena
  table_ : SkipList CharPtr
  memory : Memory
  /-- the regions the arena has given out for entries -/
  entries : List Region
  /-- the regions the arena has given out for nodes -/
  nodes : List Region

namespace MemTable

section

variable (new_ : Allocator kPointerSize) (user : Compare Bytes)

/-- `MemTable(cmp)`, in any memory: the skip list's constructor allocates `head_`. -/
def new (mem : Memory) : Except Fault MemTable := do
  let (head, arena_) ← Arena.new.allocateAligned new_ (nodeBytes SkipList.kMaxHeight)
  let table_ ← SkipList.new CharPtr
  .ok { arena_ := arena_, table_ := table_, memory := mem, entries := []
        nodes := [⟨head, nodeBytes SkipList.kMaxHeight⟩] }

/-- `add(s, type, key, value)`, which inserts at `height` and leaves the memory `image` outside the
entries. -/
def add (s : U64) (type : ValueType) (key value : Bytes) (height : Nat) (image : Memory)
    (m : MemTable) : Except Fault MemTable := do
  let key_size := key.length
  let val_size := value.length
  let internal_key_size := val_size + 8
  let encoded_len := varintLength (BitVec.ofNat 64 internal_key_size) + internal_key_size +
    varintLength (BitVec.ofNat 64 val_size) + val_size
  let (buf, arena_) ← m.arena_.allocate new_ encoded_len
  -- the length of the whole entry
  let (p, mem) := put m.memory buf (encodeVarint32 (BitVec.ofNat 32 encoded_len))
  -- the key is compared with what is there, not copied; the result is not used
  let _ ← memcmp key_size (bytesAt mem p key_size) key
  let p := p + key_size
  let (p, mem) := put mem p (encodeFixed64 ((s <<< 8) ||| BitVec.ofNat 64 type.toNat))
  let (p, mem) := put mem p (encodeVarint32 (BitVec.ofNat 32 val_size))
  let _ ← memcmp val_size (bytesAt mem p val_size) value
  let p := p + val_size
  assertion (p - buf = encoded_len)
  let table_ ← m.table_.insertAt (KeyComparator user mem) height (.arena buf)
  let (node, arena_) ← arena_.allocateAligned new_ (nodeBytes height)
  let entries := ⟨buf, encoded_len⟩ :: m.entries
  let nodes := ⟨node, nodeBytes height⟩ :: m.nodes
  .ok { arena_ := arena_, table_ := table_, memory := overlay entries nodes mem image
        entries := entries, nodes := nodes }

/-- The rest of `get(key, value, s)`, once `iter` has been positioned. -/
def getAt (key : LookupKey) (value : Bytes) (s : Status) (m : MemTable)
    (iter : SkipList.Iterator) : Except Fault (Bool × Bytes × Status) := do
  if iter.valid then
    let entry ← iter.key m.table_
    let (key_ptr, key_length) ← entry.getVarint32Ptr m.memory
    -- the slice includes the tag
    let r ← user (← (Slice.mk key_ptr key_length).read m.memory) key.user_key
    if r = 0 then
      let tagPtr ← (key_ptr.plus key_length).minus 8
      let tag ← decodeFixed64 (← tagPtr.read m.memory 8)
      match ValueType.ofByte (toByte (tag &&& 0xff)) with
      | .kTypeValue => do
          let v ← getLengthPrefixedSlice m.memory (key_ptr.plus key_length)
          .ok (true, ← v.read m.memory, s)
      | .kTypeDeletion => do
          let notFound ← Status.notFound [] []
          .ok (true, value, notFound)
      | .unknown _ _ => .ok (false, value, s)
    else .ok (false, value, s)
  else .ok (false, value, s)

/-- What `get(key, value, s)` returns, and leaves in `*value` and `*s`. -/
def get (key : LookupKey) (value : Bytes) (s : Status) (m : MemTable) :
    Except Fault (Bool × Bytes × Status) := do
  let memkey := CharPtr.buffer key.memtable_key 0
  let iter ← SkipList.Iterator.seek (KeyComparator user m.memory) m.table_ memkey
  m.getAt user key value s iter

end

end MemTable

/-! ### Iterators -/

/-- `MemTableIterator`, less the scratch space of `seek`. -/
structure MemTableIterator where
  iter_ : SkipList.Iterator
  deriving DecidableEq, Repr

namespace MemTableIterator

variable (user : Compare Bytes) (m : MemTable) (it : MemTableIterator)

/-- `newIterator()`. -/
def new : MemTableIterator := { iter_ := SkipList.Iterator.new }

def valid : Bool := it.iter_.valid

def seek (k : Bytes) : Except Fault MemTableIterator := do
  let iter ← SkipList.Iterator.seek (MemTable.KeyComparator user m.memory) m.table_
    (MemTable.encodeKey k)
  .ok { iter_ := iter }

def seekToFirst : Except Fault MemTableIterator := do
  let iter ← SkipList.Iterator.seekToFirst m.table_
  .ok { iter_ := iter }

def seekToLast : Except Fault MemTableIterator := do
  let iter ← SkipList.Iterator.seekToLast m.table_
  .ok { iter_ := iter }

def next : Except Fault MemTableIterator := do
  let iter ← it.iter_.next m.table_
  .ok { iter_ := iter }

def prev : Except Fault MemTableIterator := do
  let iter ← it.iter_.prev (MemTable.KeyComparator user m.memory) m.table_
  .ok { iter_ := iter }

/-- `key()`. -/
def key : Except Fault MemTable.Slice := do
  MemTable.getLengthPrefixedSlice m.memory (← it.iter_.key m.table_)

/-- `value()`. -/
def value : Except Fault MemTable.Slice := do
  let key_slice ← it.key m
  MemTable.getLengthPrefixedSlice m.memory (key_slice.data.plus key_slice.size)

end MemTableIterator

end Leveldb
