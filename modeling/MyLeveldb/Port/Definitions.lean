import MyLeveldb.Basics
import MyLeveldb.Support.Machines.Runs

/-!
# Port — Definitions

`Mutex` and `CondVar` of `port_win.h` and `port_win.cc`, and any number of threads that use one of
each.  A mutex is a critical section of Win32, which the thread inside may enter again.  The
condition variable is made of two semaphores: `Signal` lets a waiter through the first one and
waits for its answer on the second.

A step of a thread is a call of the Win32 API or one access to `waiting_`.  It is `none` while the
thread is blocked.
-/

namespace Leveldb.Port

variable {T : Type}

/-- `Mutex`: the thread inside, and how many times it has entered since. -/
abbrev Mutex (T : Type) := Option (T × Nat)

namespace Mutex

def owner (m : Mutex T) : Option T := m.map Prod.fst

variable [DecidableEq T]

/-- `Lock()`, which blocks while another thread is inside. -/
def lock (t : T) : Mutex T → Option (Mutex T)
  | none        => some (some (t, 0))
  | some (u, n) => if u = t then some (some (t, n + 1)) else none

/-- `Unlock()`, of the thread inside. -/
def unlock (t : T) : Mutex T → Option (Mutex T)
  | none            => none
  | some (u, 0)     => if u = t then some none else none
  | some (u, n + 1) => if u = t then some (some (t, n)) else none

end Mutex

/-- `ReleaseSemaphore(s, 1, NULL)`, which does nothing to a semaphore at its maximum. -/
def releaseSemaphore (n : Nat) : Nat := if n < 10000 then n + 1 else n

/-- `WaitForSingleObject(s, INFINITE)`. -/
def waitForSingleObject : Nat → Option Nat
  | 0     => none
  | n + 1 => some n

/-- `CondVar`, with the mutex `mu_` points to and the counts of the semaphores. -/
structure CondVar (T : Type) where
  mu_ : Mutex T
  wait_mtx_ : Mutex T
  waiting_ : Nat
  sem1_ : Nat
  sem2_ : Nat
  deriving DecidableEq, Repr

/-- What a thread does next. -/
inductive Pc where
  /-- code that calls `mu_` and the condition variable -/
  | user
  /-- `Wait()`: `wait_mtx_.Lock()` -/
  | waitLock
  /-- `++waiting_` -/
  | waitCount
  /-- `wait_mtx_.Unlock()` -/
  | waitUnlock
  /-- `mu_->Unlock()` -/
  | waitRelease
  /-- `WaitForSingleObject(sem1_, INFINITE)` -/
  | waitSem1
  /-- `ReleaseSemaphore(sem2_, 1, NULL)` -/
  | waitSem2
  /-- `mu_->Lock()` -/
  | waitRelock
  /-- `Signal()`: `wait_mtx_.Lock()` -/
  | signalLock
  /-- `waiting_ > 0` -/
  | signalTest
  /-- `--waiting_` -/
  | signalCount
  /-- `ReleaseSemaphore(sem1_, 1, NULL)` -/
  | signalRelease
  /-- `WaitForSingleObject(sem2_, INFINITE)` -/
  | signalAwait
  /-- `wait_mtx_.Unlock()` -/
  | signalUnlock
  /-- `SignalAll()`: `wait_mtx_.Lock()` -/
  | allLock
  /-- `i < waiting_` -/
  | allFor (i : Nat)
  /-- `ReleaseSemaphore(sem1_, 1, NULL)` -/
  | allRelease (i : Nat)
  /-- `waiting_ > 0` -/
  | allWhile (i : Nat)
  /-- `--waiting_` -/
  | allCount (i : Nat)
  /-- `WaitForSingleObject(sem2_, INFINITE)` -/
  | allAwait (i : Nat)
  /-- `wait_mtx_.Unlock()` -/
  | allUnlock
  deriving DecidableEq, Repr

/-- What a thread may do: the calls of its own code, and the next step of the call it is in. -/
inductive Act where
  | lock
  | unlock
  | wait
  | signal
  | signalAll
  | go
  deriving DecidableEq, Repr

namespace CondVar

/-- `CondVar(mu)`. -/
def new : CondVar T := { mu_ := none, wait_mtx_ := none, waiting_ := 0, sem1_ := 0, sem2_ := 0 }

variable [DecidableEq T]

/-- The next step of `t` in `Wait()`, `Signal()` or `SignalAll()`. -/
def go (t : T) (c : CondVar T) : Pc → Option (CondVar T × Pc)
  | .user => none
  | .waitLock => do
      let m ← c.wait_mtx_.lock t
      some ({ c with wait_mtx_ := m }, .waitCount)
  | .waitCount => some ({ c with waiting_ := c.waiting_ + 1 }, .waitUnlock)
  | .waitUnlock => do
      let m ← c.wait_mtx_.unlock t
      some ({ c with wait_mtx_ := m }, .waitRelease)
  | .waitRelease => do
      let m ← c.mu_.unlock t
      some ({ c with mu_ := m }, .waitSem1)
  | .waitSem1 => do
      let n ← waitForSingleObject c.sem1_
      some ({ c with sem1_ := n }, .waitSem2)
  | .waitSem2 => some ({ c with sem2_ := releaseSemaphore c.sem2_ }, .waitRelock)
  | .waitRelock => do
      let m ← c.mu_.lock t
      some ({ c with mu_ := m }, .user)
  | .signalLock => do
      let m ← c.wait_mtx_.lock t
      some ({ c with wait_mtx_ := m }, .signalTest)
  | .signalTest => some (c, if 0 < c.waiting_ then .signalCount else .signalUnlock)
  | .signalCount => some ({ c with waiting_ := c.waiting_ - 1 }, .signalRelease)
  | .signalRelease => some ({ c with sem1_ := releaseSemaphore c.sem1_ }, .signalAwait)
  | .signalAwait => do
      let n ← waitForSingleObject c.sem2_
      some ({ c with sem2_ := n }, .signalUnlock)
  | .signalUnlock | .allUnlock => do
      let m ← c.wait_mtx_.unlock t
      some ({ c with wait_mtx_ := m }, .user)
  | .allLock => do
      let m ← c.wait_mtx_.lock t
      some ({ c with wait_mtx_ := m }, .allFor 0)
  | .allFor i => some (c, if i < c.waiting_ then .allRelease i else .allUnlock)
  | .allRelease i => some ({ c with sem1_ := releaseSemaphore c.sem1_ }, .allWhile i)
  | .allWhile i => some (c, if 0 < c.waiting_ then .allCount i else .allFor (i + 1))
  | .allCount i => some ({ c with waiting_ := c.waiting_ - 1 }, .allAwait i)
  | .allAwait i => do
      let n ← waitForSingleObject c.sem2_
      some ({ c with sem2_ := n }, .allWhile i)

/-- A step of `t`.  `Wait()` is called with `*mu_` locked, which `AssertHeld()` does not check. -/
def act (t : T) (c : CondVar T) : Act → Pc → Option (CondVar T × Pc)
  | .go, pc => c.go t pc
  | .lock, .user => do
      let m ← c.mu_.lock t
      some ({ c with mu_ := m }, .user)
  | .unlock, .user => do
      let m ← c.mu_.unlock t
      some ({ c with mu_ := m }, .user)
  | .wait, .user => if c.mu_.owner = some t then some (c, .waitLock) else none
  | .signal, .user => some (c, .signalLock)
  | .signalAll, .user => some (c, .allLock)
  | _, _ => none

end CondVar

/-- The condition variable and the threads. -/
structure State (T : Type) where
  cv : CondVar T
  pc : T → Pc

namespace State

def init : State T := { cv := .new, pc := fun _ => .user }

/-- A step of one thread. -/
def step [DecidableEq T] (s : State T) (i : T × Act) : Option (State T) := do
  let (c, pc) ← s.cv.act i.1 i.2 (s.pc i.1)
  some { cv := c, pc := Function.update s.pc i.1 pc }

end State

end Leveldb.Port
