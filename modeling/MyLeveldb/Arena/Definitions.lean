import MyLeveldb.Basics
import MyLeveldb.Support.Memory.Flat

/-!
# Arena — Definitions

`arena.h` and `arena.cpp`, on a machine with 8-byte pointers.  `new char[n]` is an `Allocator`,
which is asked with the arena's blocks for the live regions.  Sums of `size_t`s are reduced mod
`2^64`; `alloc_ptr_` moves within one block and is not.
-/

namespace Leveldb

open Flat (Region Allocator)

def kMaxBlockSize : Nat := 4096

/-- `sizeof(void*)`. -/
def kPointerSize : Nat := 8

/-- A pointer of `blocks_`, with what the code knows of the block when it makes it. -/
structure Block where
  region : Region
  /-- whether `allocateFallback` made it for small requests -/
  standard : Bool
  deriving DecidableEq, Repr

structure Arena where
  alloc_ptr_ : Nat
  alloc_bytes_remaining_ : Nat
  blocks_ : List Block
  blocks_memory_ : Nat
  deriving DecidableEq, Repr

namespace Arena

/-- `Arena()`. -/
def new : Arena :=
  { alloc_ptr_ := 0, alloc_bytes_remaining_ := 0, blocks_ := [], blocks_memory_ := 0 }

section

variable (new_ : Allocator kPointerSize)

/-- `allocateNewBlock(block_bytes)`. -/
def allocateNewBlock (block_bytes : Nat) (standard : Bool) (a : Arena) : Nat × Arena :=
  let allocateArr := new_.alloc (a.blocks_.map Block.region) block_bytes
  (allocateArr, { a with
    blocks_memory_ := (a.blocks_memory_ + block_bytes) % 2 ^ 64
    blocks_ := a.blocks_ ++ [{ region := ⟨allocateArr, block_bytes⟩, standard := standard }] })

/-- `allocateFallback(bytes)`. -/
def allocateFallback (bytes : Nat) (a : Arena) : Nat × Arena :=
  -- a block of its own; the current block stays current
  if bytes > kMaxBlockSize / 4 then a.allocateNewBlock new_ bytes false
  else
    let (ret, a) := a.allocateNewBlock new_ kMaxBlockSize true
    (ret, { a with alloc_ptr_ := ret + bytes, alloc_bytes_remaining_ := kMaxBlockSize - bytes })

/-- `allocate(bytes)`. -/
def allocate (bytes : Nat) (a : Arena) : Except Fault (Nat × Arena) := do
  assertion (0 < bytes)
  if bytes ≤ a.alloc_bytes_remaining_ then
    .ok (a.alloc_ptr_, { a with
      alloc_bytes_remaining_ := a.alloc_bytes_remaining_ - bytes
      alloc_ptr_ := a.alloc_ptr_ + bytes })
  else .ok (a.allocateFallback new_ bytes)

/-- `allocateAligned(bytes)`. -/
def allocateAligned (bytes : Nat) (a : Arena) : Except Fault (Nat × Arena) := do
  let align := kPointerSize
  assertion (align &&& (align - 1) = 0)
  let current_mod := a.alloc_ptr_ &&& (align - 1)
  let slop := if current_mod = 0 then 0 else align - current_mod
  let needed := (bytes + slop) % 2 ^ 64
  let (result, a) :=
    if needed ≤ a.alloc_bytes_remaining_ then
      (a.alloc_ptr_ + slop, { a with
        alloc_ptr_ := a.alloc_ptr_ + needed
        alloc_bytes_remaining_ := a.alloc_bytes_remaining_ - needed })
    else a.allocateFallback new_ bytes
  assertion (result &&& (align - 1) = 0)
  .ok (result, a)

end

/-- `capacity()` of a `std::vector` that `n` elements have been pushed to. -/
structure Growth where
  capacity : Nat → Nat
  size_le : ∀ n, n ≤ capacity n
  mono : ∀ m n, m ≤ n → capacity m ≤ capacity n

/-- `memoryUsage()`; `sizeof(char*)` is the pointer size too. -/
def memoryUsage (vector : Growth) (a : Arena) : Nat :=
  (a.blocks_memory_ + vector.capacity a.blocks_.length * kPointerSize) % 2 ^ 64

end Arena

end Leveldb
