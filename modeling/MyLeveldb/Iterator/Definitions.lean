import MyLeveldb.Basics
import MyLeveldb.Support.Memory.Objects

/-!
# Iterator — Definitions

The cleanups of `iterator.h` and `iterator.cpp`.  The first one to be registered is kept in the
iterator, each other one in an object of its own, linked in behind it.

A cleanup function is not the iterator's code.  `~Iterator()` is modelled from its start to its
first call (`destroy`) and from the return of a call to the next one (`resume`): in between, the
function may do anything that is not to this iterator, and so may use and destroy others.

`F` are the functions and `A` the values of a `void*`.  What an object holds before it is assigned
to is a parameter, for a `new Cleanup` as for an iterator.
-/

namespace Leveldb

open Objects (Heap Allocator)

variable {F A : Type}

/-- `Iterator::Cleanup`. -/
structure Cleanup (F A : Type) where
  function : Option F
  arg1 : A
  arg2 : A
  next : Option Nat

/-- `(*function)(arg1, arg2)`. -/
structure Call (F A : Type) where
  function : F
  arg1 : A
  arg2 : A
  deriving DecidableEq, Repr

structure Iterator (F A : Type) where
  cleanup_ : Cleanup F A

/-- The cleanup whose function `~Iterator()` has called. -/
inductive Running where
  /-- `cleanup_` -/
  | head
  /-- `*p` -/
  | node (p : Nat)
  deriving DecidableEq, Repr

/-- `(*c.function)(c.arg1, c.arg2)`. -/
def Cleanup.call (c : Cleanup F A) : Except Fault (Call F A) := do
  let f ← pointee c.function
  .ok { function := f, arg1 := c.arg1, arg2 := c.arg2 }

namespace Iterator

/-- `Iterator()`, in memory that holds `raw`. -/
def new (raw : Cleanup F A) : Iterator F A :=
  { cleanup_ := { raw with function := none, next := none } }

/-- An assignment to fields of `*c`. -/
def assign (c : Nat) (f : Cleanup F A → Cleanup F A) (h : Heap (Cleanup F A)) :
    Except Fault (Heap (Cleanup F A)) := do
  let x ← pointee (h.read c)
  pointee (h.write c (f x))

section

variable (new_ : Allocator) (memory : Nat → Cleanup F A)

/-- `registerCleanup(func, arg1, arg2)`; the `n`-th `new Cleanup` is made in `memory n`. -/
def registerCleanup (func : Option F) (arg1 arg2 : A) (it : Iterator F A)
    (h : Heap (Cleanup F A)) : Except Fault (Iterator F A × Heap (Cleanup F A)) := do
  assertion func.isSome
  if it.cleanup_.function.isNone then
    let c := { it.cleanup_ with function := func, arg1 := arg1, arg2 := arg2 }
    .ok ({ cleanup_ := c }, h)
  else
    let (c, h) := h.create new_ (memory h.created)
    let h ← assign c (fun x => { x with next := it.cleanup_.next }) h
    let it : Iterator F A := { cleanup_ := { it.cleanup_ with next := some c } }
    let h ← assign c (fun x => { x with function := func, arg1 := arg1, arg2 := arg2 }) h
    .ok (it, h)

end

/-! ### The destructor -/

/-- `p != NULL` and the call of the loop's body. -/
def loopCall (h : Heap (Cleanup F A)) : Option Nat → Except Fault (Option (Running × Call F A))
  | none => .ok none
  | some p => do
      let c ← pointee (h.read p)
      let call ← c.call
      .ok (some (.node p, call))

/-- `~Iterator()` up to its first call; `none` is its end. -/
def destroy (it : Iterator F A) : Except Fault (Option (Running × Call F A)) :=
  if it.cleanup_.function.isSome then do
    let call ← it.cleanup_.call
    .ok (some (.head, call))
  else .ok none

/-- `~Iterator()` from the return of a call to the next one. -/
def resume (it : Iterator F A) (h : Heap (Cleanup F A)) :
    Running → Except Fault (Heap (Cleanup F A) × Option (Running × Call F A))
  | .head => do
      let r ← loopCall h it.cleanup_.next
      .ok (h, r)
  | .node p => do
      let c ← pointee (h.read p)
      let h ← pointee (h.delete p)
      let r ← loopCall h c.next
      .ok (h, r)

/-! ### A program with any number of iterators -/

inductive Phase (F A : Type) where
  | alive (it : Iterator F A)
  /-- the destructor has called `r`'s function -/
  | destroying (it : Iterator F A) (r : Running)

structure State (F A : Type) where
  iterators : Nat → Option (Phase F A)
  heap : Heap (Cleanup F A)

inductive Op (F A : Type) where
  | construct (i : Nat) (raw : Cleanup F A)
  | registerCleanup (i : Nat) (func : F) (arg1 arg2 : A)
  | destroy (i : Nat)
  | resume (i : Nat)

/-- The iterator an operation is on. -/
def Op.iterator : Op F A → Nat
  | .construct i _           => i
  | .registerCleanup i _ _ _ => i
  | .destroy i               => i
  | .resume i                => i

def State.init : State F A := { iterators := fun _ => none, heap := .empty }

def State.set (s : State F A) (i : Nat) (ph : Option (Phase F A)) (h : Heap (Cleanup F A)) :
    State F A :=
  { iterators := Function.update s.iterators i ph, heap := h }

/-- The destructor of `i` has made the call `r`, or ended. -/
def State.proceed (s : State F A) (i : Nat) (it : Iterator F A) (h : Heap (Cleanup F A)) :
    Option (Running × Call F A) → State F A × Option (Call F A)
  | none           => (s.set i none h, none)
  | some (r, call) => (s.set i (some (.destroying it r)) h, some call)

/-- One operation, and the cleanup function it calls. -/
def step (new_ : Allocator) (memory : Nat → Cleanup F A) (s : State F A) (op : Op F A) :
    Except Fault (State F A × Option (Call F A)) :=
  match op, s.iterators op.iterator with
  | .construct i raw, none => .ok (s.set i (some (.alive (new raw))) s.heap, none)
  | .registerCleanup i func arg1 arg2, some (.alive it) => do
      let (it, h) ← it.registerCleanup new_ memory (some func) arg1 arg2 s.heap
      .ok (s.set i (some (.alive it)) h, none)
  | .destroy i, some (.alive it) => do
      let r ← it.destroy
      .ok (s.proceed i it s.heap r)
  | .resume i, some (.destroying it r) => do
      let (h, r) ← it.resume s.heap r
      .ok (s.proceed i it h r)
  | _, _ => .error .wild

end Iterator

end Leveldb
