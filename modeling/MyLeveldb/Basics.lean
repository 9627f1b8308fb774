import Mathlib.Algebra.Order.Ring.Int
import Mathlib.Data.List.Basic
import Mathlib.Tactic.Common

/-!
# Basics

What the modules share: the types of the code's data, and the ways a C++ run of it can go wrong.

A function that can fail an `assert` or touch memory it must not touch returns in `Except Fault`.
A loop whose bound is not in its text takes `fuel`; `Fault.fuel` marks a loop that did not end
within it, and is proved unreachable where the code's loop terminates.
-/

namespace Leveldb

/-- A `std::string`, or the bytes a `Slice` points to. -/
abbrev Bytes := List UInt8

/-- `uint32_t`. -/
abbrev U32 := BitVec 32

/-- `uint64_t`. -/
abbrev U64 := BitVec 64

/-- Why a run does not continue. -/
inductive Fault where
  /-- a failed `assert` -/
  | assertion
  /-- an access through `NULL`, to no node, or outside an array -/
  | wild
  /-- a load of memory nothing has been stored to -/
  | garbage
  /-- a loop that has not ended -/
  | fuel
  deriving DecidableEq, Repr

/-- A comparator of keys: negative for "before", zero for "equal", positive for "after". -/
abbrev Compare (Key : Type) := Key → Key → Except Fault Int

/-- A comparator that never fails. -/
def Compare.ofInt {Key : Type} (cmp : Key → Key → Int) : Compare Key :=
  fun a b => .ok (cmp a b)

/-- `assert(p)`. -/
def assertion (p : Prop) [Decidable p] : Except Fault Unit :=
  if p then .ok () else .error .assertion

theorem assertion_of {p : Prop} [Decidable p] (h : p) : assertion p = .ok () :=
  if_pos h

theorem assertion_not {p : Prop} [Decidable p] (h : ¬ p) : assertion p = .error .assertion :=
  if_neg h

theorem assertion_eq_ok {p : Prop} [Decidable p] {u : Unit} : assertion p = .ok u ↔ p := by
  unfold assertion
  split_ifs with h <;> simp [h]

/-- The object at a pointer, where there must be one. -/
def pointee {α : Type} : Option α → Except Fault α
  | some a => .ok a
  | none   => .error .wild

@[simp] theorem pointee_some {α : Type} (a : α) : pointee (some a) = .ok a := rfl

@[simp] theorem ok_bind {α β : Type} (a : α) (f : α → Except Fault β) :
    (Except.ok a >>= f) = f a := rfl

@[simp] theorem error_bind {α β : Type} (e : Fault) (f : α → Except Fault β) :
    (Except.error e >>= f) = .error e := rfl

/-- A computation that ends well, taken apart at its first step. -/
theorem bind_eq_ok {α β : Type} {x : Except Fault α} {f : α → Except Fault β} {b : β} :
    (x >>= f) = .ok b ↔ ∃ a, x = .ok a ∧ f a = .ok b := by
  cases x with
  | error e => simp
  | ok a => simp

theorem map_eq_ok {α β : Type} {x : Except Fault α} {f : α → β} {b : β} :
    x.map f = .ok b ↔ ∃ a, x = .ok a ∧ f a = b := by
  cases x with
  | error e => simp [Except.map]
  | ok a => simp [Except.map]

end Leveldb
