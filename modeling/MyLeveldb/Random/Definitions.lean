import MyLeveldb.Basics

/-!
# Random — Definitions

`Random` of `random.h`, the generator `SkipList` draws its node heights from.  `seed_ * A` is a
product of two `uint32_t`, so it is reduced mod `2^32` before it is widened to `product`.
-/

namespace Leveldb

structure Random where
  seed_ : UInt32
  deriving DecidableEq, Repr

namespace Random

/-- `Random(uint32_t s)`. -/
def mk' (s : UInt32) : Random := { seed_ := s &&& 0x7fffffff }

/-- `M` of `Random::next`. -/
def M : UInt32 := 2147483647

/-- `A` of `Random::next`. -/
def A : UInt32 := 16807

/-- `Random::next`: the number drawn and the generator after it. -/
def next (r : Random) : UInt32 × Random :=
  let product : UInt64 := (r.seed_ * A).toUInt64
  let seed := ((product >>> 31).toUInt32.toUInt64 + (product &&& M.toUInt64)).toUInt32
  let seed := if seed > M then seed - M else seed
  (seed, { seed_ := seed })

end Random

end Leveldb
