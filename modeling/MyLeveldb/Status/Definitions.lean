import MyLeveldb.Basics
import MyLeveldb.Support.Numbers.LittleEndian

/-!
# Status — Definitions

`status.h` and `status.cpp`: a `Status` is `NULL` or a packed array, the length of a message in 4
bytes, the code in one and the message.
-/

namespace Leveldb

structure Status where
  state_ : Option Bytes
  deriving DecidableEq, Repr

namespace Status

inductive Code where
  | kOk
  | kNotFound
  | kCorruption
  | kNotSupported
  | kInvalidArgument
  | kIOError
  deriving DecidableEq, Repr

/-- The value of the enumerator. -/
def Code.toNat : Code → Nat
  | .kOk              => 0
  | .kNotFound        => 1
  | .kCorruption      => 2
  | .kNotSupported    => 3
  | .kInvalidArgument => 4
  | .kIOError         => 5

/-- `Status::OK()`. -/
def OK : Status := { state_ := none }

/-- `Status(code, msg, msg2)`: the two `memcpy`s must fit the array. -/
def new (code : Code) (msg msg2 : Bytes) : Except Fault Status := do
  assertion (code ≠ .kOk)
  let len1 := BitVec.ofNat 32 msg.length
  let len2 := BitVec.ofNat 32 msg2.length
  let size := len1 + (if len2 ≠ 0 then len2 + 2 else 0)
  let text := msg.take len1.toNat ++ if len2 ≠ 0 then [58, 32] ++ msg2.take len2.toNat else []
  let result := LittleEndian.bytes 4 size.toNat ++ [UInt8.ofNat code.toNat] ++ text
  if result.length ≤ (size + 5).toNat then .ok { state_ := some result } else .error .wild

/-- `Status::notFound(msg, msg2)`. -/
def notFound (msg msg2 : Bytes) : Except Fault Status := new .kNotFound msg msg2

/-- The value of `code()`. -/
def code (s : Status) : Nat :=
  match s.state_ with
  | none       => Code.kOk.toNat
  | some state => (state.getD 4 0).toNat

def isNotFound (s : Status) : Bool := s.code = Code.kNotFound.toNat

end Status

end Leveldb
