import MyLeveldb.Basics
import MyLeveldb.Support.Machines.Runs
import Mathlib.Data.List.ModifyLast

/-!
# Env — Background

`Schedule` and `BGThread` of `PosixEnv` in `env_boost.cc`: a queue of calls, behind a mutex and a
condition variable, and a thread that makes them.  Any number of threads may be in `Schedule` at
once, among them the background thread itself, from a function it has called.

A step of a thread is a call on the mutex or the condition variable, an access to `bgthread_`, or
one statement on `queue_`.  It is `none` while the thread is blocked, and where the statement would
have no meaning (`front` or `back` of an empty queue).
-/

namespace Leveldb.PosixEnv

/-- `BGItem`, with `none` for `NULL`. -/
structure BGItem (F A : Type) where
  arg : Option A
  function : Option F
  deriving DecidableEq, Repr

/-- What `Schedule` does next. -/
inductive Stage where
  /-- `unique_lock lock(mu_)` -/
  | lock
  /-- `if (!bgthread_)` -/
  | test
  /-- `bgthread_.reset(new thread(...))` -/
  | spawn
  /-- `queue_.push_back(BGItem())` -/
  | push
  /-- `queue_.back().function = function` -/
  | setFunction
  /-- `queue_.back().arg = arg` -/
  | setArg
  /-- `lock.unlock()` -/
  | unlock
  /-- `bgsignal_.notify_one()` -/
  | notify
  deriving DecidableEq, Repr

/-- `Schedule(function, arg)`, under way. -/
structure Schedule (F A : Type) where
  stage : Stage
  function : F
  arg : Option A

/-- The item it adds to the queue. -/
def Schedule.item {F A : Type} (c : Schedule F A) : BGItem F A :=
  { arg := c.arg, function := some c.function }

/-- What a thread does next. -/
inductive Place (F A : Type) where
  /-- it has not been made yet -/
  | absent
  /-- code of the program -/
  | program
  /-- `BGThread()`: `unique_lock lock(mu_)` -/
  | bgLock
  /-- `queue_.empty()` -/
  | bgTest
  /-- `bgsignal_.wait(lock)`, which unlocks `mu_` -/
  | bgWait
  /-- and locks it again -/
  | bgRelock
  /-- `queue_.front()` and `queue_.pop_front()` -/
  | bgFront
  /-- `lock.unlock()` -/
  | bgUnlock (x : BGItem F A)
  /-- `(*function)(arg)` -/
  | bgCall (x : BGItem F A)
  /-- code of the function -/
  | bgRunning (x : BGItem F A)

/-- A thread, and the `Schedule` its code is in. -/
structure Thread (F A : Type) where
  place : Place F A
  call : Option (Schedule F A)

/-- The place is one of code that may call `Schedule`. -/
def Place.isUser {F A : Type} : Place F A → Bool
  | .program | .bgRunning _ => true
  | _                       => false

def Place.isAbsent {F A : Type} : Place F A → Bool
  | .absent => true
  | _       => false

/-- What can happen to a thread. -/
inductive Act (T F A : Type) where
  /-- its code calls `Schedule(function, arg)` -/
  | schedule (function : F) (arg : Option A)
  /-- its next step; the system chooses the thread that is made, or is woken up -/
  | go (choice : Option T)
  /-- `wait` returns without a notification -/
  | wake
  /-- the function it has called returns -/
  | finish

/-- The members of `PosixEnv`, and the threads.  `scheduled` are the items `Schedule` has put into
the queue, `called` those whose function has been called. -/
structure State (T F A : Type) where
  mu_ : Option T
  /-- the threads that `wait` has put to sleep -/
  bgsignal_ : List T
  bgthread_ : Option T
  queue_ : List (BGItem F A)
  threads : T → Thread F A
  scheduled : List (BGItem F A)
  called : List (BGItem F A)

namespace State

variable {T F A : Type}

/-- `PosixEnv()`; `program` are the threads there are. -/
def init (program : T → Bool) : State T F A where
  mu_ := none
  bgsignal_ := []
  bgthread_ := none
  queue_ := []
  threads t := { place := if program t then .program else .absent, call := none }
  scheduled := []
  called := []

variable [DecidableEq T]

def put (s : State T F A) (t : T) (x : Thread F A) : State T F A :=
  { s with threads := Function.update s.threads t x }

/-- `t` goes to `stage` of its `Schedule`. -/
def toStage (s : State T F A) (t : T) (c : Schedule F A) (stage : Stage) : State T F A :=
  s.put t { (s.threads t) with call := some { c with stage := stage } }

/-- `t` goes to `place` of `BGThread()`. -/
def toPlace (s : State T F A) (t : T) (place : Place F A) : State T F A :=
  s.put t { place := place, call := none }

/-- The next step of `t` in `Schedule`. -/
def goSchedule (s : State T F A) (t : T) (choice : Option T) (c : Schedule F A) :
    Option (State T F A) :=
  match c.stage with
  | .lock => if s.mu_.isNone then some (toStage { s with mu_ := some t } t c .test) else none
  | .test => some (s.toStage t c (if s.bgthread_.isNone then .spawn else .push))
  | .spawn => do
      let u ← choice
      if (s.threads u).place.isAbsent then
        some ((toPlace { s with bgthread_ := some u } u .bgLock).toStage t c .push)
      else none
  | .push =>
      some (toStage { s with queue_ := s.queue_ ++ [{ arg := none, function := none }] } t c
        .setFunction)
  | .setFunction =>
      if s.queue_.isEmpty then none
      else
        let queue := s.queue_.modifyLast fun x => { x with function := some c.function }
        some (toStage { s with queue_ := queue } t c .setArg)
  | .setArg =>
      if s.queue_.isEmpty then none
      else
        let queue := s.queue_.modifyLast fun x => { x with arg := c.arg }
        some (toStage { s with queue_ := queue } t c .unlock)
  | .unlock =>
      some (toStage { s with mu_ := none, scheduled := s.scheduled ++ [c.item] } t c .notify)
  | .notify =>
      match choice with
      | none =>
          if s.bgsignal_.isEmpty then some (s.put t { (s.threads t) with call := none }) else none
      | some u =>
          if u ∈ s.bgsignal_ then
            some (put { s with bgsignal_ := s.bgsignal_.erase u } t
              { (s.threads t) with call := none })
          else none

/-- The next step of `t` in `BGThread()`. -/
def goBackground (s : State T F A) (t : T) : Place F A → Option (State T F A)
  | .absent | .program | .bgRunning _ => none
  | .bgLock => if s.mu_.isNone then some (toPlace { s with mu_ := some t } t .bgTest) else none
  | .bgTest => some (s.toPlace t (if s.queue_.isEmpty then .bgWait else .bgFront))
  | .bgWait =>
      some (toPlace { s with mu_ := none, bgsignal_ := t :: s.bgsignal_ } t .bgRelock)
  | .bgRelock =>
      if t ∉ s.bgsignal_ ∧ s.mu_.isNone then some (toPlace { s with mu_ := some t } t .bgTest)
      else none
  | .bgFront =>
      match s.queue_ with
      | []         => none
      | x :: queue => some (toPlace { s with queue_ := queue } t (.bgUnlock x))
  | .bgUnlock x => some (toPlace { s with mu_ := none } t (.bgCall x))
  | .bgCall x => some (toPlace { s with called := s.called ++ [x] } t (.bgRunning x))

/-- A step of one thread. -/
def step (s : State T F A) (i : T × Act T F A) : Option (State T F A) :=
  let x := s.threads i.1
  match i.2, x.call with
  | .schedule function arg, none =>
      if x.place.isUser then
        some (s.put i.1
          { x with call := some { stage := .lock, function := function, arg := arg } })
      else none
  | .go choice, some c => s.goSchedule i.1 choice c
  | .go _, none => s.goBackground i.1 x.place
  | .wake, _ =>
      if i.1 ∈ s.bgsignal_ then some { s with bgsignal_ := s.bgsignal_.erase i.1 } else none
  | .finish, none =>
      match x.place with
      | .bgRunning _ => some (s.toPlace i.1 .bgLock)
      | _            => none
  | _, _ => none

end State

end Leveldb.PosixEnv
