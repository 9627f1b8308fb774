import MyLeveldb.Status.Definitions
import MyLeveldb.Support.Memory.Flat
import MyLeveldb.Support.Memory.Objects

/-!
# Status — Variables

The `Status` objects of `status.h` and `status.cpp`, with the arrays they own.  An object is its
`state_`: `NULL`, or the address of an array that everything said about the status is read from.
Arrays are made by `new char[]` and hold anything until they are written to.  An access outside an
array, or to one that has been deleted, is a fault.
-/

namespace Leveldb.Status

open Objects (Heap Allocator)
open Flat (Memory bytesAt)

/-- An array of `char`s. -/
structure CharArray where
  size : Nat
  bytes : Memory

namespace CharArray

/-- The `n` `char`s from `off` on. -/
def load (a : CharArray) (off n : Nat) : Except Fault Bytes :=
  if off + n ≤ a.size then .ok (bytesAt a.bytes off n) else .error .wild

/-- The array after `bs` is stored from `off` on. -/
def store (a : CharArray) (off : Nat) (bs : Bytes) : Except Fault CharArray :=
  if off + bs.length ≤ a.size then .ok { a with bytes := Flat.write a.bytes off bs }
  else .error .wild

end CharArray

/-- The `char`s of a string literal. -/
def ascii (s : String) : Bytes := s.toList.map fun c => UInt8.ofNat c.toNat

namespace Var

/-- `memcpy` of `n` `char`s from `state + off`, and `state[off]`. -/
def load (state off n : Nat) (h : Heap CharArray) : Except Fault Bytes := do
  let a ← pointee (h.read state)
  a.load off n

/-- `memcpy` of `bs` to `result + off`, and an assignment to `result[off]`. -/
def memcpy (result off : Nat) (bs : Bytes) (h : Heap CharArray) :
    Except Fault (Heap CharArray) := do
  let a ← pointee (h.read result)
  let a ← a.store off bs
  pointee (h.write result a)

section

variable (new_ : Allocator) (memory : Nat → Memory)

/-- `new char[size]`; the `n`-th one is made in `memory n`. -/
def newArray (size : U32) (h : Heap CharArray) : Nat × Heap CharArray :=
  h.create new_ { size := size.toNat, bytes := memory h.created }

/-- `copyState(state)`. -/
def copyState (state : Nat) (h : Heap CharArray) : Except Fault (Nat × Heap CharArray) := do
  let word ← load state 0 4 h
  let size : U32 := BitVec.ofNat 32 (LittleEndian.value word)
  let (result, h) := newArray new_ memory (size + 5) h
  let bs ← load state 0 (size + 5).toNat h
  let h ← memcpy result 0 bs h
  .ok (result, h)

/-- `Status(code, msg, msg2)`. -/
def new (code : Code) (msg msg2 : Bytes) (h : Heap CharArray) :
    Except Fault (Nat × Heap CharArray) := do
  assertion (code ≠ .kOk)
  let len1 : U32 := BitVec.ofNat 32 msg.length
  let len2 : U32 := BitVec.ofNat 32 msg2.length
  let size := len1 + (if len2 ≠ 0 then len2 + 2 else 0)
  let (result, h) := newArray new_ memory (size + 5) h
  let h ← memcpy result 0 (LittleEndian.bytes 4 size.toNat) h
  let h ← memcpy result 4 [UInt8.ofNat code.toNat] h
  let h ← memcpy result 5 (msg.take len1.toNat) h
  if len2 ≠ 0 then
    let h ← memcpy result (len1 + 5).toNat (ascii ":") h
    let h ← memcpy result (len1 + 6).toNat (ascii " ") h
    let h ← memcpy result (len1 + 7).toNat (msg2.take len2.toNat) h
    .ok (result, h)
  else .ok (result, h)

def notFound := new new_ memory .kNotFound

def corruption := new new_ memory .kCorruption

def notSupported := new new_ memory .kNotSupported

def invalidArgument := new new_ memory .kInvalidArgument

def IOError := new new_ memory .kIOError

/-- `state_ == NULL ? NULL : copyState(state_)`. -/
def copy (state_ : Option Nat) (h : Heap CharArray) : Except Fault (Option Nat × Heap CharArray) :=
  match state_ with
  | none => .ok (none, h)
  | some state => do
      let (result, h) ← copyState new_ memory state h
      .ok (some result, h)

end

/-- `delete[] state_`. -/
def deleteArray (state_ : Option Nat) (h : Heap CharArray) : Except Fault (Heap CharArray) :=
  match state_ with
  | none       => .ok h
  | some state => pointee (h.delete state)

/-! ### What a client asks -/

section

variable (h : Heap CharArray) (state_ : Option Nat)

def ok : Bool := state_.isNone

/-- The value of `code()`. -/
def code : Except Fault Nat :=
  match state_ with
  | none => .ok Code.kOk.toNat
  | some state => do
      let c ← load state 4 1 h
      .ok (LittleEndian.value c)

/-- `code() == k`. -/
def isCode (k : Code) : Except Fault Bool := do
  let c ← code h state_
  .ok (decide (c = k.toNat))

def isNotFound : Except Fault Bool := isCode h state_ .kNotFound

def isCorruption : Except Fault Bool := isCode h state_ .kCorruption

def isNotSupported : Except Fault Bool := isCode h state_ .kNotSupported

def isInvalidArgument : Except Fault Bool := isCode h state_ .kInvalidArgument

def isIOError : Except Fault Bool := isCode h state_ .kIOError

/-- What the `switch` of `toString` points `type` to. -/
def typeOf (code : Nat) : Bytes :=
  if code = Code.kOk.toNat then ascii "OK"
  else if code = Code.kNotFound.toNat then ascii "NotFound: "
  else if code = Code.kCorruption.toNat then ascii "Corruption: "
  else if code = Code.kNotSupported.toNat then ascii "Not implemented: "
  else if code = Code.kInvalidArgument.toNat then ascii "Invalid argument: "
  else if code = Code.kIOError.toNat then ascii "IO error: "
  else ascii ("Unknown code(" ++ code.repr ++ "): ")

/-- `toString()`. -/
def toString : Except Fault Bytes :=
  match state_ with
  | none => .ok (ascii "OK")
  | some state => do
      let c ← code h (some state)
      let word ← load state 0 4 h
      let len : U32 := BitVec.ofNat 32 (LittleEndian.value word)
      let text ← load state 5 len.toNat h
      .ok (typeOf c ++ text)

end

/-- The answers of all of a status's `const` functions. -/
structure Observation where
  ok : Bool
  isNotFound : Bool
  isCorruption : Bool
  isNotSupported : Bool
  isInvalidArgument : Bool
  isIOError : Bool
  toString : Bytes
  deriving DecidableEq, Repr

def observe (h : Heap CharArray) (state_ : Option Nat) : Except Fault Observation := do
  let notFound ← isNotFound h state_
  let corruption ← isCorruption h state_
  let notSupported ← isNotSupported h state_
  let invalidArgument ← isInvalidArgument h state_
  let ioError ← isIOError h state_
  let text ← toString h state_
  .ok { ok := ok state_, isNotFound := notFound, isCorruption := corruption,
        isNotSupported := notSupported, isInvalidArgument := invalidArgument,
        isIOError := ioError, toString := text }

/-! ### A program with any number of variables -/

/-- A variable is no object, or one with the `state_` it holds. -/
structure State where
  vars : Nat → Option (Option Nat)
  heap : Heap CharArray

inductive Op where
  /-- `Status()`, and `Status::OK()` -/
  | ok (i : Nat)
  /-- `Status(code, msg, msg2)`, as `notFound`, `corruption` and the others call it; the five of
  them are what a client has of it -/
  | error (i : Nat) (code : Code) (msg msg2 : Bytes)
  /-- `Status(const Status&)` of `j`, into `i` -/
  | copy (i j : Nat)
  /-- `operator=`: `i = j` -/
  | assign (i j : Nat)
  /-- `~Status()` -/
  | destroy (i : Nat)
  | observe (i : Nat)

def State.init : State := { vars := fun _ => none, heap := .empty }

def State.set (s : State) (i : Nat) (v : Option (Option Nat)) (h : Heap CharArray) : State :=
  { vars := Function.update s.vars i v, heap := h }

section

variable (new_ : Allocator) (memory : Nat → Memory)

/-- `i = j`, where `i` holds `v` and `j` holds `w`. -/
def assign (i j : Nat) (v w : Option Nat) (s : State) : Except Fault State :=
  -- `this != &s`
  if i ≠ j then do
    let h ← deleteArray v s.heap
    let (v, h) ← copy new_ memory w h
    .ok (s.set i (some v) h)
  else .ok s

def step (s : State) : Op → Except Fault (State × Option Observation)
  | .ok i =>
      match s.vars i with
      | none   => .ok (s.set i (some none) s.heap, none)
      | some _ => .error .wild
  | .error i code msg msg2 =>
      match s.vars i with
      | none => do
          let (p, h) ← new new_ memory code msg msg2 s.heap
          .ok (s.set i (some (some p)) h, none)
      | some _ => .error .wild
  | .copy i j =>
      match s.vars i, s.vars j with
      | none, some w => do
          let (v, h) ← copy new_ memory w s.heap
          .ok (s.set i (some v) h, none)
      | _, _ => .error .wild
  | .assign i j =>
      match s.vars i, s.vars j with
      | some v, some w => do
          let s ← assign new_ memory i j v w s
          .ok (s, none)
      | _, _ => .error .wild
  | .destroy i =>
      match s.vars i with
      | some v => do
          let h ← deleteArray v s.heap
          .ok (s.set i none h, none)
      | none => .error .wild
  | .observe i =>
      match s.vars i with
      | some v => do
          let o ← observe s.heap v
          .ok (s, some o)
      | none => .error .wild

end

end Var

end Leveldb.Status
