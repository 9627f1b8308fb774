import MyLeveldb.Basics
import MyLeveldb.Random.Definitions

/-!
# SkipList — Definitions

`SkipList` of `skiplist.h`.  A node pointer is the node's place in the order of `newNode`'s calls;
`NULL` is `none`.  A node is its key and its `next_` slots, as many as it was allocated with; the
slots above `next_[0]` are raw arena memory until they are stored to.  `head_`'s key, which the
constructor makes from a literal `0`, is `none`: reading it is a fault.

The comparator `compare_` may fail, since `MemTable`'s reads memory.
The two searches by key share one loop (`descend`).  Its `level` argument counts the levels left,
so that the source's `level` is one less.  `findEqualOrGreater` returns the `pre` array beside its
result; a caller that passes `NULL` for it ignores it.
-/

namespace Leveldb

/-- `Node*`, non-null. -/
abbrev NodePtr := Nat

/-- One `port::AtomicPointer` of `next_`. -/
inductive Slot where
  /-- arena memory no constructor has run on -/
  | garbage
  /-- the `nullptr` of `AtomicPointer`'s constructor -/
  | constructed
  | stored (p : Option NodePtr)
  deriving DecidableEq, Repr

def Slot.load : Slot → Except Fault (Option NodePtr)
  | .garbage     => .error .garbage
  | .constructed => .ok none
  | .stored p    => .ok p

def Slot.isStored : Slot → Bool
  | .stored _ => true
  | _         => false

structure Node (Key : Type) where
  key : Option Key
  next_ : List Slot

/-- `new (allocate) Node(key)`: `next_[0]` is constructed, the slots past it are not. -/
def Node.mk' {Key : Type} (key : Option Key) (height : Nat) : Node Key :=
  { key := key, next_ := .constructed :: List.replicate (height - 1) .garbage }

structure SkipList (Key : Type) where
  nodes : List (Node Key)
  head_ : NodePtr
  rnd_ : Random
  curMaxHeight_ : Nat

/-- `prev` of `insert`: an array of node pointers, unset at first. -/
abbrev Prev := Nat → Option NodePtr

namespace SkipList

variable {Key : Type}

def kMaxHeight : Nat := 12

/-! ### Nodes -/

/-- `x->key`. -/
def key (l : SkipList Key) (x : NodePtr) : Except Fault Key :=
  match l.nodes[x]? with
  | some nd => match nd.key with
      | some k => .ok k
      | none   => .error .wild
  | none => .error .wild

/-- `x->next_[n]`. -/
def slot (l : SkipList Key) (x : NodePtr) (n : Nat) : Option Slot :=
  l.nodes[x]?.bind fun nd => nd.next_[n]?

/-- `x->next(n)`, and `x->noBarrier_Next(n)`. -/
def next (l : SkipList Key) (x : NodePtr) (n : Nat) : Except Fault (Option NodePtr) :=
  match l.slot x n with
  | some s => s.load
  | none   => .error .wild

/-- `x->setNext(n, p)`, and `x->noBarrier_SetNext(n, p)`. -/
def setNext (l : SkipList Key) (x : NodePtr) (n : Nat) (p : Option NodePtr) :
    Except Fault (SkipList Key) :=
  match l.nodes[x]? with
  | some nd =>
      if n < nd.next_.length then
        .ok { l with nodes := l.nodes.set x { nd with next_ := nd.next_.set n (.stored p) } }
      else .error .wild
  | none => .error .wild

/-- `newNode(key, height)`. -/
def newNode (l : SkipList Key) (key : Option Key) (height : Nat) : NodePtr × SkipList Key :=
  (l.nodes.length, { l with nodes := l.nodes ++ [Node.mk' key height] })

/-- `for (int i = 0; i < n; ++i) head_->setNext(i, NULL)`. -/
def clearHead : Nat → SkipList Key → Except Fault (SkipList Key)
  | 0, l => .ok l
  | n + 1, l => do
      let l ← clearHead n l
      l.setNext l.head_ n none

/-- `SkipList(cmp, arena)`. -/
def new (Key : Type) : Except Fault (SkipList Key) :=
  let l : SkipList Key :=
    { nodes := [], head_ := 0, rnd_ := Random.mk' 0xdeadbeef, curMaxHeight_ := 1 }
  let (head, l) := l.newNode none kMaxHeight
  clearHead kMaxHeight { l with head_ := head }

/-! ### Searches -/

/-- Iterations that are enough for every loop over the list. -/
def fuel (l : SkipList Key) : Nat := l.nodes.length + l.curMaxHeight_

/-- The variables of a search by key. -/
structure Cursor where
  x : NodePtr
  next : Option NodePtr
  pre : Prev

section

variable (compare_ : Compare Key) (l : SkipList Key) (key : Key)

/-- `next == NULL || compare_(next->key, key) >= 0`. -/
def goesDown : Option NodePtr → Except Fault Bool
  | none => .ok true
  | some y => do
      let c ← compare_ (← l.key y) key
      .ok (decide (0 ≤ c))

/-- `while (level >= 0) { ... }` of `findEqualOrGreater` and `findLessThan`. -/
def descend : Nat → Nat → Cursor → Except Fault Cursor
  | _, 0, c => .ok c
  | 0, _ + 1, _ => .error .fuel
  | fuel + 1, level + 1, c => do
      let next ← l.next c.x level
      let down ← l.goesDown compare_ key next
      if down then
        descend fuel level { x := c.x, next := next, pre := Function.update c.pre level (some c.x) }
      else
        match next with
        | some y => descend fuel (level + 1) { c with x := y, next := next }
        | none   => .error .wild

/-- `findEqualOrGreater(key, pre)`. -/
def findEqualOrGreater : Except Fault (Option NodePtr × Prev) := do
  let c ← descend compare_ l key l.fuel l.curMaxHeight_
    { x := l.head_, next := none, pre := fun _ => none }
  .ok (c.next, c.pre)

/-- `findLessThan(key)`. -/
def findLessThan : Except Fault NodePtr := do
  let c ← descend compare_ l key l.fuel l.curMaxHeight_
    { x := l.head_, next := none, pre := fun _ => none }
  .ok c.x

end

/-- `while (level >= 0) { ... }` of `findLast`: it loads `next(0)` whatever `level` is. -/
def findLastLoop (l : SkipList Key) : Nat → Nat → NodePtr → Except Fault NodePtr
  | _, 0, x => .ok x
  | 0, _ + 1, _ => .error .fuel
  | fuel + 1, level + 1, x => do
      match ← l.next x 0 with
      | none   => findLastLoop l fuel level x
      | some y => findLastLoop l fuel (level + 1) y

/-- `findLast()`. -/
def findLast (l : SkipList Key) : Except Fault NodePtr :=
  findLastLoop l l.fuel l.curMaxHeight_ l.head_

/-- `node != NULL && equal(node->key, key)`. -/
def isAt (compare_ : Compare Key) (l : SkipList Key) (key : Key) :
    Option NodePtr → Except Fault Bool
  | none   => .ok false
  | some x => do
      let c ← compare_ (← l.key x) key
      .ok (decide (c = 0))

/-- `contains(key)`. -/
def contains (compare_ : Compare Key) (l : SkipList Key) (key : Key) : Except Fault Bool := do
  let (node, _) ← l.findEqualOrGreater compare_ key
  l.isAt compare_ key node

/-! ### Insertion -/

/-- The loop of `randomHeight`, with at most `n` levels to add. -/
def randomHeightLoop : Nat → Nat → Random → Nat × Random
  | 0, height, r => (height, r)
  | n + 1, height, r =>
      let (v, r) := r.next
      if v % 4 = 0 then randomHeightLoop n (height + 1) r else (height, r)

/-- `randomHeight()`. -/
def randomHeight (r : Random) : Nat × Random :=
  randomHeightLoop (kMaxHeight - 1) 1 r

/-- `assert(node == NULL || !equal(node->key, key))`. -/
def assertAbsent (compare_ : Compare Key) (l : SkipList Key) (key : Key) :
    Option NodePtr → Except Fault Unit
  | none => .ok ()
  | some x => do
      let c ← compare_ (← l.key x) key
      assertion (c ≠ 0)

/-- `prev[i]`, which must have been set. -/
def prevAt (prev : Prev) (i : Nat) : Except Fault NodePtr :=
  match prev i with
  | some p => .ok p
  | none   => .error .garbage

/-- `prev` after `for (int i = getCurMaxHeight(); i < h; ++i) prev[i] = head_`. -/
def raisePrev (l : SkipList Key) (h : Nat) (prev : Prev) : Prev :=
  fun i => if l.curMaxHeight_ ≤ i ∧ i < h then some l.head_ else prev i

/-- The list after `if (h > getCurMaxHeight()) curMaxHeight_.NoBarrier_Store(h)`. -/
def raiseHeight (l : SkipList Key) (h : Nat) : SkipList Key :=
  if l.curMaxHeight_ < h then { l with curMaxHeight_ := h } else l

/-- `for (int i = n - 1; i >= 0; --i) { ... }` of `insert`, which links `node` level by level. -/
def linkLoop (node : NodePtr) (prev : Prev) : Nat → SkipList Key → Except Fault (SkipList Key)
  | 0, l => .ok l
  | i + 1, l => do
      let p ← prevAt prev i
      let nx ← l.next p i
      let l ← l.setNext node i nx
      -- from here on `node` is reachable on level `i`
      let l ← l.setNext p i (some node)
      linkLoop node prev i l

/-- `insert(key)` with `h` for what `randomHeight()` yields. -/
def insertAt (compare_ : Compare Key) (h : Nat) (key : Key) (l : SkipList Key) :
    Except Fault (SkipList Key) := do
  let (node, prev) ← l.findEqualOrGreater compare_ key
  l.assertAbsent compare_ key node
  -- the new levels, if there are any, start at `head_`
  let prev := l.raisePrev h prev
  let (node, l) := (l.raiseHeight h).newNode (some key) h
  linkLoop node prev h l

/-- `insert(key)`. -/
def insert (compare_ : Compare Key) (key : Key) (l : SkipList Key) :
    Except Fault (SkipList Key) :=
  let (h, r) := randomHeight l.rnd_
  insertAt compare_ h key { l with rnd_ := r }

/-! ### Iterators -/

/-- `SkipList::Iterator`, less the pointer to its list. -/
structure Iterator where
  node_ : Option NodePtr
  deriving DecidableEq, Repr

namespace Iterator

/-- `Iterator(list)`. -/
def new : Iterator := { node_ := none }

def valid (it : Iterator) : Bool := it.node_.isSome

/-- `key()`. -/
def key (l : SkipList Key) (it : Iterator) : Except Fault Key :=
  match it.node_ with
  | some x => l.key x
  | none   => .error .assertion

/-- `next()`. -/
def next (l : SkipList Key) (it : Iterator) : Except Fault Iterator :=
  match it.node_ with
  | some x => do
      let p ← l.next x 0
      .ok { node_ := p }
  | none => .error .assertion

/-- `if (node_ == list_->head_) node_ = NULL`. -/
def unlessHead (l : SkipList Key) (x : NodePtr) : Iterator :=
  { node_ := if x = l.head_ then none else some x }

/-- `prev()`. -/
def prev (compare_ : Compare Key) (l : SkipList Key) (it : Iterator) : Except Fault Iterator :=
  match it.node_ with
  | some x => do
      let k ← l.key x
      let p ← l.findLessThan compare_ k
      .ok (unlessHead l p)
  | none => .error .assertion

/-- `seek(target)`. -/
def seek (compare_ : Compare Key) (l : SkipList Key) (target : Key) : Except Fault Iterator := do
  let (node, _) ← l.findEqualOrGreater compare_ target
  .ok { node_ := node }

/-- `seekToFirst()`. -/
def seekToFirst (l : SkipList Key) : Except Fault Iterator := do
  let p ← l.next l.head_ 0
  .ok { node_ := p }

/-- `seekToLast()`. -/
def seekToLast (l : SkipList Key) : Except Fault Iterator := do
  let p ← l.findLast
  .ok (unlessHead l p)

end Iterator

end SkipList

end Leveldb
