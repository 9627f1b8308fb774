import MyLeveldb.Env.Background
import MyLeveldb.Support.Machines.Threads

/-!
# Env — Delivery

What the background queue does in every run, whatever the order of the threads' steps.

* `Move` is a step of a thread, taken apart: one constructor for each statement of `Schedule` and
  `BGThread()`, with all that the thread has found and all that it changes.  `step_move` says that
  there are no others; what a step keeps is proved of a `Move`, and never of `State.step` itself.
* `Inv` is what holds in every reachable state.  Each of its fields has a lemma about one `Move`;
  `Inv.step` puts them together, and `Inv.run` carries them along a run.
* `calls_in_order`: the items are called in the order in which `Schedule` has put them into the
  queue, each once.

The ghosts `scheduled` and `called` are compared through the items on their way: the one that a
thread is still writing at the back of the queue (`added`), and the one that the background thread
has taken from the front and not called yet (`taken`).
-/

namespace Leveldb.PosixEnv

open Runs (run run_cons run_keeps Quiet)
open Threads (total total_update Guards)

variable {T F A : Type}

/-! ### What a thread is doing -/

/-- The stage is between the locking and the unlocking of `mu_`.  `notify_one` comes after the
unlocking: `Schedule` notifies without the mutex. -/
def Stage.isInside : Stage → Bool
  | .test | .spawn | .push | .setFunction | .setArg | .unlock => true
  | _                                                         => false

/-- The same, in `BGThread()`: `wait` gives `mu_` up, and a function is called without it. -/
def Place.isInside : Place F A → Bool
  | .bgTest | .bgWait | .bgFront | .bgUnlock _ => true
  | _                                          => false

/-- In `BGThread()`. -/
def Place.isBackground : Place F A → Bool
  | .absent | .program => false
  | _                  => true

/-- The item it has taken from the queue and not called yet. -/
def Place.taken : Place F A → List (BGItem F A)
  | .bgUnlock x | .bgCall x => [x]
  | _                       => []

/-- What it has put into the queue, before `mu_` is unlocked. -/
def Schedule.added (c : Schedule F A) : List (BGItem F A) :=
  match c.stage with
  | .setFunction => [{ arg := none, function := none }]
  | .setArg      => [{ arg := none, function := some c.function }]
  | .unlock      => [c.item]
  | _            => []

namespace Thread

/-- The thread is where only the one that holds `mu_` can be. -/
def Inside (x : Thread F A) : Prop :=
  match x.call with
  | some c => c.stage.isInside
  | none   => x.place.isInside

/-- Only code of the program, or of a function, is in `Schedule`. -/
def User (x : Thread F A) : Prop := x.call ≠ none → x.place.isUser

/-- The last item of the queue, while the thread is still writing it. -/
def added (x : Thread F A) : List (BGItem F A) :=
  match x.call with
  | some c => c.added
  | none   => []

/-- It has added an item, and has not notified anybody yet. -/
def Waking (x : Thread F A) : Prop :=
  ∃ c, x.call = some c ∧
    (c.stage = .setFunction ∨ c.stage = .setArg ∨ c.stage = .unlock ∨ c.stage = .notify)

/-- What the thread that holds `mu_` has found out, and what nobody can have changed since. -/
def Knows (x : Thread F A) (bgthread : Option T) (queue : List (BGItem F A)) : Prop :=
  match x.call with
  | some c =>
      match c.stage with
      | .spawn                                       => bgthread = none
      | .push | .setFunction | .setArg | .unlock     => bgthread ≠ none
      | _                                            => True
  | none =>
      match x.place with
      | .bgWait  => queue = []
      | .bgFront => queue ≠ []
      | _        => True

end Thread

namespace Thread

variable {x : Thread F A} {c : Schedule F A}

theorem inside_call (hc : x.call = some c) : x.Inside ↔ c.stage.isInside := by
  rw [Inside, hc]

theorem inside_place (hc : x.call = none) : x.Inside ↔ x.place.isInside := by
  rw [Inside, hc]

theorem added_call (hc : x.call = some c) : x.added = c.added := by
  rw [added, hc]

theorem added_place (hc : x.call = none) : x.added = [] := by
  rw [added, hc]

end Thread

/-- The inputs that are steps in `Schedule` and `BGThread()`, or the return of a function. -/
def Act.isOwn : Act T F A → Bool
  | .go _ | .finish => true
  | _               => false

namespace State

/-- The item on its way from the queue to its call. -/
def taken (s : State T F A) : List (BGItem F A) :=
  match s.bgthread_ with
  | some t => (s.threads t).place.taken
  | none   => []

/-- The item on its way into the queue. -/
def added (s : State T F A) : List (BGItem F A) :=
  match s.mu_ with
  | some t => (s.threads t).added
  | none   => []

/-- What holds in every reachable state. -/
structure Inv (s : State T F A) : Prop where
  /-- the thread that holds `mu_` is the one that is inside -/
  mutex : Guards Thread.Inside s.mu_ s.threads
  user : ∀ t, (s.threads t).User
  /-- the background thread is the one that is in `BGThread()` -/
  one : ∀ t, (s.threads t).place.isBackground ↔ s.bgthread_ = some t
  nodup : s.bgsignal_.Nodup
  /-- who sleeps is in `wait`, and is to lock `mu_` again -/
  asleep : ∀ t ∈ s.bgsignal_, (s.threads t).place = .bgRelock
  knows : ∀ t, s.mu_ = some t → (s.threads t).Knows s.bgthread_ s.queue_
  /-- nothing is lost, made twice or overtaken -/
  order : ∃ queue, s.queue_ = queue ++ s.added ∧ s.called ++ s.taken ++ queue = s.scheduled
  /-- somebody is there to make the calls -/
  made : s.queue_ ≠ [] → s.bgthread_ ≠ none
  /-- a thread that sleeps though there is an item is about to be woken up -/
  woken : s.bgsignal_ ≠ [] → s.queue_ = [] ∨ ∃ t, (s.threads t).Waking

variable [DecidableEq T] {s s' : State T F A} {t u : T} {x : Thread F A} {c : Schedule F A}
  {own : Bool}

/-- A step, taken apart; with `true`, one that a thread takes in `Schedule` or in `BGThread()`. -/
inductive Move (s : State T F A) (t : T) : Bool → State T F A → Prop where
  | schedule (function : F) (arg : Option A) (hc : (s.threads t).call = none)
      (hu : (s.threads t).place.isUser) : Move s t false
        (s.put t { (s.threads t) with call := some ⟨.lock, function, arg⟩ })
  | lock (c : Schedule F A) (hc : (s.threads t).call = some c) (hs : c.stage = .lock)
      (hm : s.mu_ = none) : Move s t true (toStage { s with mu_ := some t } t c .test)
  | test (c : Schedule F A) (hc : (s.threads t).call = some c) (hs : c.stage = .test) :
      Move s t true (s.toStage t c (if s.bgthread_.isNone then .spawn else .push))
  | spawn (c : Schedule F A) (hc : (s.threads t).call = some c) (hs : c.stage = .spawn) (u : T)
      (hu : (s.threads u).place.isAbsent) :
      Move s t true ((toPlace { s with bgthread_ := some u } u .bgLock).toStage t c .push)
  | push (c : Schedule F A) (hc : (s.threads t).call = some c) (hs : c.stage = .push) :
      Move s t true (toStage { s with queue_ := s.queue_ ++ [⟨none, none⟩] } t c .setFunction)
  | setFunction (c : Schedule F A) (hc : (s.threads t).call = some c)
      (hs : c.stage = .setFunction) (hq : s.queue_ ≠ []) : Move s t true (toStage { s with
        queue_ := s.queue_.modifyLast fun x => { x with function := some c.function } } t c .setArg)
  | setArg (c : Schedule F A) (hc : (s.threads t).call = some c)
      (hs : c.stage = .setArg) (hq : s.queue_ ≠ []) : Move s t true (toStage { s with
        queue_ := s.queue_.modifyLast fun x => { x with arg := c.arg } } t c .unlock)
  | unlock (c : Schedule F A) (hc : (s.threads t).call = some c) (hs : c.stage = .unlock) :
      Move s t true
        (toStage { s with mu_ := none, scheduled := s.scheduled ++ [c.item] } t c .notify)
  | notify (c : Schedule F A) (hc : (s.threads t).call = some c) (hs : c.stage = .notify)
      (signal : List T) (hn : s.bgsignal_ = [] ∧ signal = [] ∨
        ∃ u ∈ s.bgsignal_, signal = s.bgsignal_.erase u) :
      Move s t true (put { s with bgsignal_ := signal } t { (s.threads t) with call := none })
  | bgLock (hc : (s.threads t).call = none) (hp : (s.threads t).place = .bgLock)
      (hm : s.mu_ = none) : Move s t true (toPlace { s with mu_ := some t } t .bgTest)
  | bgTest (hc : (s.threads t).call = none) (hp : (s.threads t).place = .bgTest) :
      Move s t true (s.toPlace t (if s.queue_.isEmpty then .bgWait else .bgFront))
  | bgWait (hc : (s.threads t).call = none) (hp : (s.threads t).place = .bgWait) :
      Move s t true (toPlace { s with mu_ := none, bgsignal_ := t :: s.bgsignal_ } t .bgRelock)
  | bgRelock (hc : (s.threads t).call = none) (hp : (s.threads t).place = .bgRelock)
      (ht : t ∉ s.bgsignal_) (hm : s.mu_ = none) :
      Move s t true (toPlace { s with mu_ := some t } t .bgTest)
  | bgFront (hc : (s.threads t).call = none) (hp : (s.threads t).place = .bgFront)
      (x : BGItem F A) (queue : List (BGItem F A)) (hq : s.queue_ = x :: queue) :
      Move s t true (toPlace { s with queue_ := queue } t (.bgUnlock x))
  | bgUnlock (x : BGItem F A) (hc : (s.threads t).call = none)
      (hp : (s.threads t).place = .bgUnlock x) :
      Move s t true (toPlace { s with mu_ := none } t (.bgCall x))
  | bgCall (x : BGItem F A) (hc : (s.threads t).call = none)
      (hp : (s.threads t).place = .bgCall x) :
      Move s t true (toPlace { s with called := s.called ++ [x] } t (.bgRunning x))
  | wake (ht : t ∈ s.bgsignal_) : Move s t false { s with bgsignal_ := s.bgsignal_.erase t }
  | finish (x : BGItem F A) (hc : (s.threads t).call = none)
      (hp : (s.threads t).place = .bgRunning x) : Move s t true (s.toPlace t .bgLock)

/-- In `Schedule`, the stages are gone through one by one. -/
theorem goSchedule_move {choice : Option T} (hc : (s.threads t).call = some c)
    (h : s.goSchedule t choice c = some s') : Move s t true s' := by
  unfold goSchedule at h
  split at h
  next hs =>
    split_ifs at h with hm
    obtain rfl := Option.some.inj h
    exact .lock c hc hs (Option.isNone_iff_eq_none.1 hm)
  next hs =>
    obtain rfl := Option.some.inj h
    exact .test c hc hs
  next hs =>
    simp only [Option.bind_eq_bind, Option.bind_eq_some_iff] at h
    obtain ⟨u, rfl, h⟩ := h
    split_ifs at h with hu
    obtain rfl := Option.some.inj h
    exact .spawn c hc hs u hu
  next hs =>
    obtain rfl := Option.some.inj h
    exact .push c hc hs
  next hs =>
    split_ifs at h with hq
    obtain rfl := Option.some.inj h
    exact .setFunction c hc hs (by simpa using hq)
  next hs =>
    split_ifs at h with hq
    obtain rfl := Option.some.inj h
    exact .setArg c hc hs (by simpa using hq)
  next hs =>
    obtain rfl := Option.some.inj h
    exact .unlock c hc hs
  next hs =>
    -- `notify_one` wakes somebody up if somebody sleeps, and does nothing otherwise
    cases choice with
    | none =>
        simp only at h
        split_ifs at h with hq
        obtain rfl := Option.some.inj h
        have hempty : s.bgsignal_ = [] := by simpa using hq
        have hmove := Move.notify (s := s) c hc hs [] (.inl ⟨hempty, rfl⟩)
        rwa [← hempty] at hmove
    | some u =>
        simp only at h
        split_ifs at h with hu
        obtain rfl := Option.some.inj h
        exact .notify c hc hs _ (.inr ⟨u, hu, rfl⟩)

/-- `BGThread()` likewise.  A thread that has not been made, one of the program and one in a
function have no step of their own there. -/
theorem goBackground_move (hc : (s.threads t).call = none)
    (h : s.goBackground t (s.threads t).place = some s') : Move s t true s' := by
  unfold goBackground at h
  split at h
  next => cases h
  next => cases h
  next => cases h
  next hp =>
    split_ifs at h with hm
    obtain rfl := Option.some.inj h
    exact .bgLock hc hp (Option.isNone_iff_eq_none.1 hm)
  next hp =>
    obtain rfl := Option.some.inj h
    exact .bgTest hc hp
  next hp =>
    obtain rfl := Option.some.inj h
    exact .bgWait hc hp
  next hp =>
    split_ifs at h with hm
    obtain rfl := Option.some.inj h
    exact .bgRelock hc hp hm.1 (Option.isNone_iff_eq_none.1 hm.2)
  next hp =>
    -- `front` of an empty queue has no meaning, and is no step
    split at h
    next => cases h
    next x queue hq =>
      obtain rfl := Option.some.inj h
      exact .bgFront hc hp x queue hq
  next x hp =>
    obtain rfl := Option.some.inj h
    exact .bgUnlock x hc hp
  next x hp =>
    obtain rfl := Option.some.inj h
    exact .bgCall x hc hp

/-- Every step is a `Move`, of a thread in `Schedule` or in `BGThread()` if the input is one. -/
theorem step_move {a : Act T F A} (h : s.step (t, a) = some s') : Move s t a.isOwn s' := by
  rw [step] at h
  simp only at h
  split at h
  next function arg hc =>
    split_ifs at h with hu
    obtain rfl := Option.some.inj h
    exact .schedule function arg hc hu
  next choice c hc => exact goSchedule_move hc h
  next choice hc => exact goBackground_move hc h
  next =>
    split_ifs at h with ht
    obtain rfl := Option.some.inj h
    exact .wake ht
  next hc =>
    split at h
    next x hp =>
      obtain rfl := Option.some.inj h
      exact .finish x hc hp
    next => cases h
  next => cases h

/-! ### What a step keeps -/

omit [DecidableEq T] in
/-- A thread that is made is not the one that makes it. -/
theorem Inv.ne_absent (hs : s.Inv) (hc : (s.threads t).call = some c)
    (hu : (s.threads u).place.isAbsent) : u ≠ t := by
  rintro rfl
  have huser := hs.user u (by rw [hc]; exact Option.some_ne_none c)
  cases hp : (s.threads u).place <;> simp [hp, Place.isAbsent, Place.isUser] at hu huser

omit [DecidableEq T] in
/-- A thread that has not been made yet calls nothing. -/
theorem Inv.call_absent (hs : s.Inv) (hu : (s.threads u).place.isAbsent) :
    (s.threads u).call = none := by
  by_contra hc
  have huser := hs.user u hc
  cases hp : (s.threads u).place <;> simp [hp, Place.isAbsent, Place.isUser] at hu huser

omit [DecidableEq T] in
theorem not_isInside_of_isUser {p : Place F A} (h : p.isUser) : ¬ p.isInside := by
  cases p <;> simp_all [Place.isUser, Place.isInside]

omit [DecidableEq T] in
theorem not_isInside_of_isAbsent {p : Place F A} (h : p.isAbsent) : ¬ p.isInside := by
  cases p <;> simp_all [Place.isAbsent, Place.isInside]

/-- `mu_` is taken where it is free, and given up by the thread that holds it; no other step goes
across the border. -/
theorem Inv.mutex_step (hs : s.Inv) (h : Move s t own s') :
    Guards Thread.Inside s'.mu_ s'.threads := by
  have hg := hs.mutex
  cases h with
  | schedule function arg hc hu =>
      refine hg.stay (iff_of_false (fun h => Bool.noConfusion h) ?_)
      rw [Thread.inside_place hc]
      exact not_isInside_of_isUser hu
  | lock c hc hst hm =>
      rw [hm] at hg
      exact hg.enter rfl
  | test c hc hst =>
      refine hg.stay ?_
      rw [Thread.inside_call hc, hst]
      split_ifs <;> exact Iff.rfl
  | push c hc hst | setFunction c hc hst | setArg c hc hst =>
      refine hg.stay ?_
      rw [Thread.inside_call hc, hst]
      exact Iff.rfl
  | spawn c hc hst u hu =>
      refine (hg.stay (t := u) (x := ⟨.bgLock, none⟩) (iff_of_false ?_ ?_)).stay ?_
      · exact fun h => Bool.noConfusion h
      · rw [Thread.inside_place (hs.call_absent hu)]
        exact not_isInside_of_isAbsent hu
      · rw [Function.update_of_ne (hs.ne_absent hc hu).symm, Thread.inside_call hc, hst]
        exact Iff.rfl
  | unlock c hc hst =>
      -- it is inside, so it is the one that holds `mu_`
      have hmu := (hg t).1 ((Thread.inside_call hc).2 (by rw [hst]; rfl))
      rw [hmu] at hg
      exact hg.leave (by simp [Thread.Inside, Stage.isInside])
  | notify c hc hst =>
      refine hg.stay (iff_of_false ?_ ?_)
      · exact not_isInside_of_isUser (hs.user t (by rw [hc]; exact Option.some_ne_none c))
      · rw [Thread.inside_call hc, hst]
        exact fun h => Bool.noConfusion h
  | bgLock hc hp hm | bgRelock hc hp _ hm =>
      rw [hm] at hg
      exact hg.enter rfl
  | bgTest hc hp =>
      refine hg.stay ?_
      rw [Thread.inside_place hc, hp]
      split_ifs <;> exact Iff.rfl
  | bgWait hc hp | bgUnlock x hc hp =>
      have hmu := (hg t).1 ((Thread.inside_place hc).2 (by rw [hp]; rfl))
      rw [hmu] at hg
      exact hg.leave (by simp [Thread.Inside, Place.isInside])
  | bgFront hc hp x queue hq | bgCall x hc hp | finish x hc hp =>
      refine hg.stay ?_
      rw [Thread.inside_place hc, hp]
      exact Iff.rfl
  | wake => exact hg

/-- The background thread is another one. -/
theorem spawn_eq (hut : u ≠ t) : (toPlace { s with bgthread_ := some u } u .bgLock).toStage t c
      .push = { s with
    bgthread_ := some u
    threads := Function.update (Function.update s.threads u ⟨.bgLock, none⟩) t
      { (s.threads t) with call := some { c with stage := .push } } } := by
  simp only [toPlace, toStage, put, Function.update_of_ne hut.symm]

/-- What holds of every thread, after a step of one. -/
theorem forall_update {P : T → Thread F A → Prop} {f : T → Thread F A} (h : ∀ v, P v (f v))
    (hx : P t x) : ∀ v, P v (Function.update f t x v) :=
  (Function.forall_update_iff f P).2 ⟨hx, fun v _ => h v⟩

/-- A call begins in code of the program or of a function, and the thread stays there until the call
is over. -/
theorem Inv.user_step (hs : s.Inv) (h : Move s t own s') :
    ∀ v, (s'.threads v).User := by
  have hu := hs.user
  have hcall : ∀ {c}, (s.threads t).call = some c → (s.threads t).place.isUser := fun hc =>
    hu t (by rw [hc]; exact Option.some_ne_none _)
  cases h with
  | schedule function arg hc hp => exact forall_update (P := fun _ => Thread.User) hu (fun _ => hp)
  | lock c hc | test c hc | push c hc | setFunction c hc | setArg c hc | unlock c hc
  | notify c hc =>
      exact forall_update (P := fun _ => Thread.User) hu (fun _ => hcall hc)
  | spawn c hc hst u hp =>
      rw [spawn_eq (hs.ne_absent hc hp)]
      exact forall_update (P := fun _ => Thread.User)
        (forall_update (P := fun _ => Thread.User) hu (fun h => absurd rfl h)) (fun _ => hcall hc)
  | bgLock | bgTest | bgWait | bgRelock | bgFront | bgUnlock | bgCall | finish =>
      exact forall_update (P := fun _ => Thread.User) hu (fun h => absurd rfl h)
  | wake => exact hu

omit [DecidableEq T] in
/-- The mutex is held by who is inside, in `Schedule`. -/
theorem Inv.holder (hs : s.Inv) (hc : (s.threads t).call = some c) (hst : c.stage.isInside) :
    s.mu_ = some t :=
  (hs.mutex t).1 ((Thread.inside_call hc).2 hst)

omit [DecidableEq T] in
/-- And in `BGThread()`. -/
theorem Inv.bgHolder (hs : s.Inv) (hc : (s.threads t).call = none)
    (hp : (s.threads t).place.isInside) : s.mu_ = some t :=
  (hs.mutex t).1 ((Thread.inside_place hc).2 hp)

omit [DecidableEq T] in
/-- The thread that is about to make the background thread has found that there is none. -/
theorem Inv.spawning (hs : s.Inv) (hc : (s.threads t).call = some c) (hst : c.stage = .spawn) :
    s.bgthread_ = none := by
  have hk := hs.knows t (hs.holder hc (by rw [hst]; rfl))
  simpa only [Thread.Knows, hc, hst] using hk

/-- No second background thread is made: the one that makes it has found none, and holds `mu_`. -/
theorem Inv.one_step (hs : s.Inv) (h : Move s t own s') :
    ∀ v, (s'.threads v).place.isBackground ↔ s'.bgthread_ = some v := by
  have ho := hs.one
  cases h with
  | schedule | lock | test | push | setFunction | setArg | unlock | notify =>
      exact forall_update (P := fun v x => x.place.isBackground ↔ s.bgthread_ = some v) ho (ho t)
  | spawn c hc hst u hp =>
      -- two threads change: `u` enters `BGThread()`, and `t` goes on
      have hut := hs.ne_absent hc hp
      -- nobody was in `BGThread()`
      have hno : ∀ v, ¬ (s.threads v).place.isBackground := by
        intro v hv
        rw [ho v, hs.spawning hc hst] at hv
        cases hv
      rw [spawn_eq hut]
      intro v
      simp only
      by_cases hvt : v = t
      · subst hvt
        rw [Function.update_self]
        exact iff_of_false (hno v) (fun h => hut (Option.some.inj h))
      · rw [Function.update_of_ne hvt]
        by_cases hvu : v = u
        · subst hvu
          rw [Function.update_self]
          exact iff_of_true rfl rfl
        · rw [Function.update_of_ne hvu]
          exact iff_of_false (hno v) (fun h => hvu (Option.some.inj h).symm)
  | bgLock hc hp | bgWait hc hp | bgRelock hc hp | bgFront hc hp | bgUnlock x hc hp
  | bgCall x hc hp | finish x hc hp =>
      have hbg := (ho t).1 (by rw [hp]; rfl)
      exact forall_update (P := fun v x => x.place.isBackground ↔ s.bgthread_ = some v) ho
        (iff_of_true rfl hbg)
  | bgTest hc hp =>
      have hbg := (ho t).1 (by rw [hp]; rfl)
      refine forall_update (P := fun v x => x.place.isBackground ↔ s.bgthread_ = some v) ho
        (iff_of_true ?_ hbg)
      split_ifs <;> rfl
  | wake => exact ho

omit [DecidableEq T] in
/-- A thread that sleeps does nothing else. -/
theorem Inv.awake (hs : s.Inv) (hp : (s.threads t).place ≠ .bgRelock) : t ∉ s.bgsignal_ :=
  fun h => hp (hs.asleep t h)

omit [DecidableEq T] in
theorem Inv.awake_of_isUser (hs : s.Inv) (hp : (s.threads t).place.isUser) : t ∉ s.bgsignal_ := by
  refine hs.awake fun h => ?_
  rw [h] at hp
  cases hp

omit [DecidableEq T] in
theorem Inv.awake_of_call (hs : s.Inv) (hc : (s.threads t).call = some c) : t ∉ s.bgsignal_ :=
  hs.awake_of_isUser (hs.user t (by rw [hc]; exact Option.some_ne_none c))

/-- The threads that sleep, at a step of another one. -/
theorem Inv.asleep_update (hs : s.Inv) {signal : List T} (hsub : ∀ v ∈ signal, v ∈ s.bgsignal_)
    (ht : t ∉ signal) :
    ∀ v ∈ signal, (Function.update s.threads t x v).place = .bgRelock := by
  intro v hv
  have hvt : v ≠ t := by
    rintro rfl
    exact ht hv
  rw [Function.update_of_ne hvt]
  exact hs.asleep v (hsub v hv)

/-- Who is put to sleep was awake, and who is not asleep goes on. -/
theorem Inv.asleep_step (hs : s.Inv) (h : Move s t own s') :
    s'.bgsignal_.Nodup ∧ ∀ v ∈ s'.bgsignal_, (s'.threads v).place = .bgRelock := by
  have hn := hs.nodup
  cases h with
  | schedule function arg hc hp =>
      exact ⟨hn, hs.asleep_update (fun _ => id) (hs.awake_of_isUser hp)⟩
  | lock c hc | test c hc | push c hc | setFunction c hc | setArg c hc | unlock c hc =>
      exact ⟨hn, hs.asleep_update (fun _ => id) (hs.awake_of_call hc)⟩
  | spawn c hc hst u hp =>
      rw [spawn_eq (hs.ne_absent hc hp)]
      refine ⟨hn, fun v hv => ?_⟩
      have hvt : v ≠ t := by
        rintro rfl
        exact hs.awake_of_call hc hv
      have hvu : v ≠ u := by
        rintro rfl
        rw [hs.asleep v hv] at hp
        cases hp
      simp only [Function.update_of_ne hvt, Function.update_of_ne hvu]
      exact hs.asleep v hv
  | notify c hc hst signal hsignal =>
      have hsub : signal.Nodup ∧ ∀ v ∈ signal, v ∈ s.bgsignal_ := by
        rcases hsignal with ⟨-, rfl⟩ | ⟨u, -, rfl⟩
        · exact ⟨List.nodup_nil, by simp⟩
        · exact ⟨hn.erase u, fun v => List.mem_of_mem_erase⟩
      exact ⟨hsub.1, hs.asleep_update hsub.2 fun h => hs.awake_of_call hc (hsub.2 t h)⟩
  | bgWait hc hp =>
      have ht := hs.awake (t := t) (by simp [hp])
      refine ⟨hn.cons ht, fun v hv => ?_⟩
      rcases List.mem_cons.1 hv with rfl | hv
      · simp [toPlace, put]
      · exact hs.asleep_update (fun _ => id) ht v hv
  | bgLock hc hp | bgTest hc hp | bgFront hc hp | bgUnlock x hc hp | bgCall x hc hp
  | finish x hc hp =>
      exact ⟨hn, hs.asleep_update (fun _ => id) (hs.awake (by simp [hp]))⟩
  | bgRelock hc hp ht => exact ⟨hn, hs.asleep_update (fun _ => id) ht⟩
  | wake ht => exact ⟨hn.erase t, fun v hv => hs.asleep v (List.mem_of_mem_erase hv)⟩

omit [DecidableEq T] in
/-- One thread holds `mu_`. -/
theorem eq_holder {v : T} (ht : s.mu_ = some t) (hv : s.mu_ = some v) : v = t :=
  Option.some.inj (hv.symm.trans ht)

omit [DecidableEq T] in
/-- A thread that is not inside does not hold `mu_`. -/
theorem Inv.not_holder (hs : s.Inv) (hx : ¬ (s.threads t).Inside) {v : T} (hv : s.mu_ = some v) :
    v ≠ t := by
  rintro rfl
  exact hx ((hs.mutex v).2 hv)

/-- What a thread finds out at a test, it still knows at the steps it takes because of it: `mu_`
keeps the others from `bgthread_` and `queue_`. -/
theorem Inv.knows_step (hs : s.Inv) (h : Move s t own s') :
    ∀ v, s'.mu_ = some v → (s'.threads v).Knows s'.bgthread_ s'.queue_ := by
  have hk := hs.knows
  -- what a thread does that does not hold `mu_` is nothing to the one that does
  have hout : ∀ {x : Thread F A}, ¬ (s.threads t).Inside → ∀ v : T, s.mu_ = some v →
      (Function.update s.threads t x v).Knows s.bgthread_ s.queue_ := by
    intro x hx v hv
    rw [Function.update_of_ne (hs.not_holder hx hv)]
    exact hk v hv
  cases h with
  | schedule function arg hc hp =>
      exact hout fun h => not_isInside_of_isUser hp ((Thread.inside_place hc).1 h)
  | notify c hc hst =>
      refine hout fun h => ?_
      rw [Thread.inside_call hc, hst] at h
      cases h
  | bgCall x hc hp | finish x hc hp =>
      refine hout fun h => ?_
      rw [Thread.inside_place hc, hp] at h
      cases h
  | wake ht => exact hk
  | lock c hc hst hm =>
      intro v hv
      obtain rfl := Option.some.inj hv
      simp [toStage, put, Thread.Knows]
  | bgLock hc hp hm | bgRelock hc hp ht hm =>
      intro v hv
      obtain rfl := Option.some.inj hv
      simp [toPlace, put, Thread.Knows]
  | unlock | bgWait | bgUnlock =>
      intro v hv
      cases hv
  | test c hc hst =>
      -- the test itself is where it finds out
      intro v hv
      obtain rfl := eq_holder (hs.holder hc (by rw [hst]; rfl)) hv
      cases hb : s.bgthread_ <;> simp [toStage, put, Thread.Knows, hb]
  | bgTest hc hp =>
      intro v hv
      obtain rfl := eq_holder (hs.bgHolder hc (by rw [hp]; rfl)) hv
      cases hq : s.queue_ <;> simp [toPlace, put, Thread.Knows, hq]
  | bgFront hc hp x queue hq =>
      intro v hv
      obtain rfl := eq_holder (hs.bgHolder hc (by rw [hp]; rfl)) hv
      simp [toPlace, put, Thread.Knows]
  | spawn c hc hst u hp =>
      rw [spawn_eq (hs.ne_absent hc hp)]
      intro v hv
      obtain rfl := eq_holder (hs.holder hc (by rw [hst]; rfl)) hv
      simp [Thread.Knows]
  | push c hc hst | setFunction c hc hst | setArg c hc hst =>
      intro v hv
      obtain rfl := eq_holder (hs.holder hc (by rw [hst]; rfl)) hv
      have hb := hk v hv
      simp only [Thread.Knows, hc, hst] at hb
      simpa [toStage, put, Thread.Knows] using hb

omit [DecidableEq T] in
theorem added_of_holder (h : s.mu_ = some t) : s.added = (s.threads t).added := by
  rw [added, h]

omit [DecidableEq T] in
theorem added_of_free (h : s.mu_ = none) : s.added = [] := by
  rw [added, h]

omit [DecidableEq T] in
theorem taken_of (h : s.bgthread_ = some t) : s.taken = (s.threads t).place.taken := by
  rw [taken, h]

/-- The item on its way into the queue, at a step that leaves the thread's own as it is. -/
theorem added_put {s₀ : State T F A} (hm : s₀.mu_ = s.mu_) (ht : s₀.threads = s.threads)
    (hx : s.mu_ = some t → x.added = (s.threads t).added) : (s₀.put t x).added = s.added := by
  unfold added
  simp only [put, hm, ht]
  cases hmu : s.mu_ with
  | none => rfl
  | some v =>
      by_cases hv : v = t
      · subst hv
        simpa using hx hmu
      · simp [Function.update_of_ne hv]

/-- The item on its way to its call, likewise. -/
theorem taken_put {s₀ : State T F A} (hb : s₀.bgthread_ = s.bgthread_)
    (ht : s₀.threads = s.threads) (hx : x.place.taken = (s.threads t).place.taken) :
    (s₀.put t x).taken = s.taken := by
  unfold taken
  simp only [put, hb, ht]
  cases s.bgthread_ with
  | none => rfl
  | some v =>
      by_cases hv : v = t
      · subst hv
        simpa using hx
      · simp [Function.update_of_ne hv]

/-- The items, at a step that neither puts one into the queue nor takes or calls one. -/
theorem account_put {s₀ : State T F A} {queue : List (BGItem F A)}
    (h : s.called ++ s.taken ++ queue = s.scheduled) (hb : s₀.bgthread_ = s.bgthread_)
    (ht : s₀.threads = s.threads) (hc : s₀.called = s.called) (hs : s₀.scheduled = s.scheduled)
    (hx : x.place.taken = (s.threads t).place.taken) :
    (s₀.put t x).called ++ (s₀.put t x).taken ++ queue = (s₀.put t x).scheduled := by
  rw [taken_put hb ht hx, show (s₀.put t x).called = s.called from hc, h]
  exact hs.symm

/-- Nothing changes at a step that only moves a thread on. -/
theorem Inv.order_put (hs : s.Inv) {s₀ : State T F A} (hq : s₀.queue_ = s.queue_)
    (hm : s₀.mu_ = s.mu_) (hb : s₀.bgthread_ = s.bgthread_) (ht : s₀.threads = s.threads)
    (hc : s₀.called = s.called) (hsch : s₀.scheduled = s.scheduled)
    (hadded : s.mu_ = some t → x.added = (s.threads t).added)
    (htaken : x.place.taken = (s.threads t).place.taken) :
    ∃ queue, (s₀.put t x).queue_ = queue ++ (s₀.put t x).added ∧
      (s₀.put t x).called ++ (s₀.put t x).taken ++ queue = (s₀.put t x).scheduled := by
  obtain ⟨queue, hqueue, ho⟩ := hs.order
  refine ⟨queue, ?_, account_put ho hb ht hc hsch htaken⟩
  rw [added_put hm ht hadded, ← hqueue]
  exact hq

/-- The queue, at a step of the thread that holds `mu_`. -/
theorem queue_put {s₀ : State T F A} {queue : List (BGItem F A)} (hm : s₀.mu_ = some t)
    (hq : s₀.queue_ = queue ++ x.added) :
    (s₀.put t x).queue_ = queue ++ (s₀.put t x).added := by
  have hadded : (s₀.put t x).added = x.added := by
    rw [added_of_holder (s := s₀.put t x) hm]
    simp only [put, Function.update_self]
  rw [hadded]
  exact hq

theorem taken_put_self {s₀ : State T F A} (hb : s₀.bgthread_ = some t) :
    (s₀.put t x).taken = x.place.taken := by
  rw [taken_of (s := s₀.put t x) hb]
  simp only [put, Function.update_self]

omit [DecidableEq T] in
theorem Inv.added_outside (hs : s.Inv) (hx : ¬ (s.threads t).Inside) {l : List (BGItem F A)} :
    s.mu_ = some t → l = (s.threads t).added :=
  fun h => absurd rfl (hs.not_holder hx h)

omit [DecidableEq T] in
/-- A thread that has not put an item into the queue holds `mu_`. -/
theorem Inv.queue_eq (hs : s.Inv) (hmu : s.mu_ = some t) (ht : (s.threads t).added = []) :
    s.called ++ s.taken ++ s.queue_ = s.scheduled := by
  obtain ⟨queue, hq, ho⟩ := hs.order
  rw [added_of_holder hmu, ht, List.append_nil] at hq
  exact hq ▸ ho

/-- No step loses an item, makes one twice, or lets one overtake another.  An item is written into
the queue by three steps, `push`, `setFunction` and `setArg`, and counts as scheduled with the
unlocking, the first step from which the background thread can see it. -/
theorem Inv.order_step (hs : s.Inv) (h : Move s t own s') :
    ∃ queue, s'.queue_ = queue ++ s'.added ∧ s'.called ++ s'.taken ++ queue = s'.scheduled := by
  obtain ⟨queue, hq, ho⟩ := hs.order
  cases h with
  | schedule function arg hc hp =>
      have hout : ¬ (s.threads t).Inside := fun h =>
        not_isInside_of_isUser hp ((Thread.inside_place hc).1 h)
      exact hs.order_put rfl rfl rfl rfl rfl rfl (hs.added_outside hout) rfl
  | notify c hc hst signal hsignal =>
      have hout : ¬ (s.threads t).Inside := fun h => by
        rw [Thread.inside_call hc, hst] at h
        cases h
      exact hs.order_put rfl rfl rfl rfl rfl rfl (hs.added_outside hout) rfl
  | lock c hc hst hm =>
      rw [added_of_free hm] at hq
      refine ⟨queue, ?_, ?_⟩
      · exact queue_put rfl (by simpa [Thread.added, Schedule.added] using hq)
      · exact account_put ho rfl rfl rfl rfl rfl
  | test c hc hst =>
      have hmu := hs.holder hc (by rw [hst]; rfl)
      have hnone : (s.threads t).added = [] := by rw [Thread.added_call hc, Schedule.added, hst]
      refine ⟨s.queue_, ?_, ?_⟩
      · exact queue_put hmu (by cases s.bgthread_ <;> simp [Thread.added, Schedule.added])
      · exact account_put (hs.queue_eq hmu hnone) rfl rfl rfl rfl rfl
  | spawn c hc hst u hp =>
      -- nobody had taken an item, for there was nobody to take it
      have hmu := hs.holder hc (by rw [hst]; rfl)
      have hnone : (s.threads t).added = [] := by rw [Thread.added_call hc, Schedule.added, hst]
      have heq := hs.queue_eq hmu hnone
      rw [taken, hs.spawning hc hst] at heq
      refine ⟨s.queue_, ?_, ?_⟩
      · exact queue_put hmu (by simp [Thread.added, Schedule.added, toPlace, put])
      · rw [spawn_eq (hs.ne_absent hc hp), taken_of (t := u) rfl]
        simpa [Function.update_of_ne (hs.ne_absent hc hp), Place.taken] using heq
  | push c hc hst =>
      have hmu := hs.holder hc (by rw [hst]; rfl)
      have hnone : (s.threads t).added = [] := by rw [Thread.added_call hc, Schedule.added, hst]
      refine ⟨s.queue_, ?_, ?_⟩
      · exact queue_put hmu (by simp [Thread.added, Schedule.added])
      · exact account_put (hs.queue_eq hmu hnone) rfl rfl rfl rfl rfl
  | setFunction c hc hst _ =>
      have hmu := hs.holder hc (by rw [hst]; rfl)
      rw [added_of_holder hmu, Thread.added_call hc, Schedule.added, hst] at hq
      refine ⟨queue, ?_, ?_⟩
      · exact queue_put hmu (by simp [Thread.added, Schedule.added, hq, List.modifyLast_concat])
      · exact account_put ho rfl rfl rfl rfl rfl
  | setArg c hc hst _ =>
      have hmu := hs.holder hc (by rw [hst]; rfl)
      rw [added_of_holder hmu, Thread.added_call hc, Schedule.added, hst] at hq
      refine ⟨queue, ?_, ?_⟩
      · exact queue_put hmu (by
          simp [Thread.added, Schedule.added, Schedule.item, hq, List.modifyLast_concat])
      · exact account_put ho rfl rfl rfl rfl rfl
  | unlock c hc hst =>
      -- the item that was on its way is one of the queue now
      have hmu := hs.holder hc (by rw [hst]; rfl)
      rw [added_of_holder hmu, Thread.added_call hc, Schedule.added, hst] at hq
      refine ⟨queue ++ [c.item], ?_, ?_⟩
      · rw [added_of_free rfl, List.append_nil]
        exact hq
      · have htaken : (toStage { s with mu_ := none, scheduled := s.scheduled ++ [c.item] } t c
            .notify).taken = s.taken := taken_put rfl rfl rfl
        rw [htaken]
        change s.called ++ s.taken ++ (queue ++ [c.item]) = s.scheduled ++ [c.item]
        rw [← ho, List.append_assoc, List.append_assoc, List.append_assoc]
  | bgLock hc hp hm | bgRelock hc hp _ hm =>
      rw [added_of_free hm] at hq
      refine ⟨queue, ?_, ?_⟩
      · exact queue_put rfl (by simpa [Thread.added] using hq)
      · exact account_put ho rfl rfl rfl rfl (by rw [hp]; rfl)
  | bgTest hc hp =>
      exact hs.order_put rfl rfl rfl rfl rfl rfl (fun _ => (Thread.added_place hc).symm)
        (by rw [hp]; split_ifs <;> rfl)
  | bgWait hc hp | bgUnlock x hc hp =>
      have hmu := hs.bgHolder hc (by rw [hp]; rfl)
      refine ⟨s.queue_, ?_, ?_⟩
      · rw [added_of_free rfl, List.append_nil]
        rfl
      · exact account_put (hs.queue_eq hmu (Thread.added_place hc)) rfl rfl rfl rfl
          (by rw [hp]; rfl)
  | bgFront hc hp x rest hrest =>
      -- from the front of the queue to `taken`: the two stand side by side
      have hmu := hs.bgHolder hc (by rw [hp]; rfl)
      have hbg := (hs.one t).1 (by rw [hp]; rfl)
      have heq := hs.queue_eq hmu (Thread.added_place hc)
      rw [taken_of hbg, hp, hrest] at heq
      refine ⟨rest, ?_, ?_⟩
      · exact queue_put hmu (by simp [Thread.added])
      · have htaken : (toPlace { s with queue_ := rest } t (.bgUnlock x)).taken = [x] :=
          taken_put_self hbg
        rw [htaken, List.append_assoc]
        exact (congrArg (· ++ x :: rest) (List.append_nil s.called)).symm.trans heq
  | bgCall x hc hp =>
      -- and from `taken` to the end of `called`
      have hbg := (hs.one t).1 (by rw [hp]; rfl)
      rw [taken_of hbg, hp] at ho
      refine ⟨queue, ?_, ?_⟩
      · have hadded : (toPlace { s with called := s.called ++ [x] } t (.bgRunning x)).added =
            s.added := added_put rfl rfl fun _ => (Thread.added_place hc).symm
        rw [hadded]
        exact hq
      · have htaken : (toPlace { s with called := s.called ++ [x] } t (.bgRunning x)).taken = [] :=
          taken_put_self hbg
        rw [htaken, List.append_nil]
        exact ho
  | wake => exact ⟨queue, hq, ho⟩
  | finish x hc hp =>
      exact hs.order_put rfl rfl rfl rfl rfl rfl (fun _ => (Thread.added_place hc).symm)
        (by rw [hp]; rfl)

/-- An item is put into the queue by a thread that has seen, or made, the background thread. -/
theorem Inv.made_step (hs : s.Inv) (h : Move s t own s') :
    s'.queue_ ≠ [] → s'.bgthread_ ≠ none := by
  have hm := hs.made
  cases h with
  | spawn => exact fun _ => Option.some_ne_none _
  | push c hc hst | setFunction c hc hst | setArg c hc hst =>
      have hk := hs.knows t (hs.holder hc (by rw [hst]; rfl))
      simp only [Thread.Knows, hc, hst] at hk
      exact fun _ => hk
  | bgFront hc hp x queue hq => exact fun _ => hm (by rw [hq]; exact List.cons_ne_nil x queue)
  | _ => exact hm

omit [DecidableEq T] in
/-- Only the background thread sleeps. -/
theorem Inv.asleep_bg (hs : s.Inv) (ht : t ∈ s.bgsignal_) : s.bgthread_ = some t :=
  (hs.one t).1 (by rw [hs.asleep t ht]; rfl)

omit [DecidableEq T] in
/-- While it runs, nobody sleeps. -/
theorem Inv.bgsignal_eq_nil (hs : s.Inv) (hb : (s.threads t).place.isBackground)
    (ht : t ∉ s.bgsignal_) : s.bgsignal_ = [] := by
  refine List.eq_nil_iff_forall_not_mem.2 fun v hv => ht ?_
  have hvt := (hs.asleep_bg hv).symm.trans ((hs.one t).1 hb)
  exact Option.some.inj hvt ▸ hv

/-- A notification leaves nobody asleep. -/
theorem Inv.erase_bgsignal (hs : s.Inv) (ht : t ∈ s.bgsignal_) : s.bgsignal_.erase t = [] := by
  refine List.eq_nil_iff_forall_not_mem.2 fun v hv => ?_
  have hvt := (hs.asleep_bg (List.mem_of_mem_erase hv)).symm.trans (hs.asleep_bg ht)
  obtain rfl := Option.some.inj hvt
  exact (List.Nodup.not_mem_erase hs.nodup) hv

/-- The next step of a thread that is about to notify. -/
theorem waking_put {s₀ : State T F A} {c : Schedule F A} {p : Place F A}
    (hst : c.stage = .setFunction ∨ c.stage = .setArg ∨ c.stage = .unlock ∨ c.stage = .notify) :
    ∃ v, ((s₀.put t ⟨p, some c⟩).threads v).Waking :=
  ⟨t, c, by simp only [put, Function.update_self], hst⟩

/-- The others are still about to notify. -/
theorem waking_other (hx : ¬ (s.threads t).Waking) (h : ∃ v, (s.threads v).Waking) :
    ∃ v, (Function.update s.threads t x v).Waking := by
  obtain ⟨v, hv⟩ := h
  have hvt : v ≠ t := by
    rintro rfl
    exact hx hv
  exact ⟨v, by rwa [Function.update_of_ne hvt]⟩

omit [DecidableEq T] in
theorem not_waking_place (hc : (s.threads t).call = none) : ¬ (s.threads t).Waking := by
  rintro ⟨c, h, -⟩
  rw [hc] at h
  cases h

omit [DecidableEq T] in
theorem not_waking_stage (hc : (s.threads t).call = some c)
    (hst : c.stage = .lock ∨ c.stage = .test ∨ c.stage = .spawn) : ¬ (s.threads t).Waking := by
  rintro ⟨c', h, hw⟩
  rw [hc] at h
  obtain rfl := Option.some.inj h
  rcases hst with h | h | h <;> simp [h] at hw

/-- No wakeup is lost.  The background thread goes to sleep only where it has found the queue empty
and has held `mu_` since, and who adds an item is about to notify until it has. -/
theorem Inv.woken_step (hs : s.Inv) (h : Move s t own s') :
    s'.bgsignal_ ≠ [] → s'.queue_ = [] ∨ ∃ v, (s'.threads v).Waking := by
  have hw := hs.woken
  cases h with
  | schedule function arg hc hp =>
      exact fun h => (hw h).imp_right (waking_other (not_waking_place hc))
  | lock c hc hst | test c hc hst =>
      exact fun h => (hw h).imp_right (waking_other (not_waking_stage hc (by simp [hst])))
  | spawn c hc hst u hp =>
      refine fun h => absurd (List.eq_nil_iff_forall_not_mem.2 fun v hv => ?_) h
      have hb := hs.asleep_bg (t := v) hv
      rw [hs.spawning hc hst] at hb
      cases hb
  | push | setFunction | setArg | unlock => exact fun _ => .inr (waking_put (by simp))
  | notify c hc hst signal hsignal =>
      -- only the background thread sleeps, so one notification is enough
      refine fun h => absurd ?_ h
      rcases hsignal with ⟨-, rfl⟩ | ⟨u, hu, rfl⟩
      · rfl
      · exact hs.erase_bgsignal hu
  | bgWait hc hp =>
      -- it goes to sleep now, with the queue empty
      have hk := hs.knows t (hs.bgHolder hc (by rw [hp]; rfl))
      simp only [Thread.Knows, hc, hp] at hk
      exact fun _ => .inl hk
  | bgLock hc hp | bgTest hc hp | bgFront hc hp | bgUnlock x hc hp | bgCall x hc hp
  | finish x hc hp =>
      exact fun h => absurd (hs.bgsignal_eq_nil (by rw [hp]; rfl) (hs.awake (by simp [hp]))) h
  | bgRelock hc hp ht => exact fun h => absurd (hs.bgsignal_eq_nil (by rw [hp]; rfl) ht) h
  | wake ht => exact fun h => absurd (hs.erase_bgsignal ht) h

/-- What holds in every reachable state, one step further. -/
theorem Inv.step {a : Act T F A} (hs : s.Inv) (h : s.step (t, a) = some s') : s'.Inv := by
  have hm := step_move h
  obtain ⟨hnodup, hasleep⟩ := hs.asleep_step hm
  exact ⟨hs.mutex_step hm, hs.user_step hm, hs.one_step hm, hnodup, hasleep, hs.knows_step hm,
    hs.order_step hm, hs.made_step hm, hs.woken_step hm⟩

omit [DecidableEq T] in
theorem Inv.init (program : T → Bool) : Inv (State.init program : State T F A) where
  mutex t := by
    simp only [State.init, Thread.Inside]
    split_ifs <;> simp [Place.isInside]
  user t h := absurd rfl h
  one t := by
    simp only [State.init]
    split_ifs <;> simp [Place.isBackground]
  nodup := List.nodup_nil
  asleep t h := absurd h List.not_mem_nil
  knows t h := by cases h
  order := ⟨[], rfl, rfl⟩
  made h := absurd rfl h
  woken h := absurd rfl h

theorem inv_keeps (s : State T F A) (i : T × Act T F A) (s' : State T F A) (hs : s.Inv)
    (h : s.step i = some s') : s'.Inv :=
  Inv.step (t := i.1) (a := i.2) hs h

/-- Every state a run reaches. -/
theorem Inv.run {is : List (T × Act T F A)} (hs : s.Inv) (h : Runs.run State.step s is = some s') :
    s'.Inv :=
  run_keeps inv_keeps is s s' hs h

/-- The functions are called in the order in which their items were put into the queue, each once,
and there is at most one background thread. -/
theorem calls_in_order {program : T → Bool} {is : List (T × Act T F A)}
    (h : Runs.run State.step (State.init program) is = some s) :
    s.called <+: s.scheduled ∧ (s.mu_ = none → s.called ++ s.taken ++ s.queue_ = s.scheduled) ∧
      ∀ t u, (s.threads t).place.isBackground → (s.threads u).place.isBackground → t = u := by
  have hs := (Inv.init program).run h
  obtain ⟨queue, hq, ho⟩ := hs.order
  refine ⟨⟨s.taken ++ queue, by rw [← List.append_assoc, ho]⟩, fun hm => ?_, fun t u ht hu => ?_⟩
  · rw [added_of_free hm, List.append_nil] at hq
    exact hq ▸ ho
  · exact Option.some.inj (((hs.one t).1 ht).symm.trans ((hs.one u).1 hu))

/-- `t` and `u` call `Schedule` at once; `t` makes `v` the background thread. -/
def twoCalls (t u v : T) : List (T × Act T Nat Nat) :=
  [(t, .schedule 7 none), (u, .schedule 8 (some 1)), (t, .go none), (t, .go none),
    (t, .go (some v))] ++ List.replicate 4 (t, .go none) ++ List.replicate 6 (u, .go none)

/-- `v` calls both functions. -/
def twoMade (v : T) : List (T × Act T Nat Nat) :=
  List.replicate 5 (v, .go none) ++ [(v, .finish)] ++ List.replicate 5 (v, .go none)

theorem calls_in_order_two : ∃ s : State (Fin 3) Nat Nat,
    Runs.run State.step (State.init (· < 2)) (twoCalls 0 1 2 ++ twoMade 2) = some s ∧
      s.called = [⟨none, some 7⟩, ⟨some 1, some 8⟩] ∧ s.called <+: s.scheduled := by
  have hrun : (Runs.run State.step (State.init (· < 2)) (twoCalls (0 : Fin 3) 1 2 ++
      twoMade 2)).map State.called = some [⟨none, some 7⟩, ⟨some 1, some 8⟩] := by decide +kernel
  obtain ⟨s, h, hcalled⟩ := Option.map_eq_some_iff.1 hrun
  exact ⟨s, h, hcalled, (calls_in_order h).1⟩

end State

end Leveldb.PosixEnv
