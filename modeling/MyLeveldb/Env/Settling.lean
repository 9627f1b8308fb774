import MyLeveldb.Env.Delivery

/-!
# Env — Settling

The background queue, left to itself: every call that `Schedule` has put into the queue is made.

* `rank` bounds the steps to come.  It goes down with every step of a thread in `Schedule` or in
  `BGThread()` (`rank_lt`), so such a run comes to rest after at most `rank` steps.
* Where nothing can go on, nobody holds `mu_` (`AtRest.free`), every thread is idle, the queue is
  empty and everything scheduled has been called (`AtRest.called_eq`).  The step that excludes a
  deadlock is `Inv.woken`: a background thread that sleeps with an item in the queue is about to be
  woken up.
* `Promised` follows one call of `Schedule` from its beginning to the queue, so that no call under
  way is forgotten.

`background_settles` is all of this together, from every reachable state.
-/

namespace Leveldb.PosixEnv

open Runs (run run_cons run_keeps run_keeps_of run_length_add_le Quiet)
open Threads (total total_update)

variable {T F A : Type}

/-! ### Ranks -/

/-- A bound on the steps that a `Schedule` still has, and on those that it causes: `push` adds an
item to the queue, which costs 10, `spawn` a thread at `bgLock`, which costs 3, and `notify` wakes
one up, which costs 5. -/
def Stage.rank : Stage → Nat
  | .lock        => 26
  | .test        => 25
  | .spawn       => 24
  | .push        => 20
  | .setFunction => 9
  | .setArg      => 8
  | .unlock      => 7
  | .notify      => 6

/-- A bound on the steps that the background thread still has until it waits, but for the items of
the queue: with one of them in hand it has the call, the return and another round. -/
def Place.rank : Place F A → Nat
  | .absent | .program  => 0
  | .bgLock | .bgRelock => 3
  | .bgTest             => 2
  | .bgWait | .bgFront  => 1
  | .bgUnlock _         => 7
  | .bgCall _           => 6
  | .bgRunning _        => 5

/-- A function that has called `Schedule` has the steps of both before it. -/
def Thread.rank (x : Thread F A) : Nat :=
  x.place.rank + (x.call.map fun c => c.stage.rank).getD 0

theorem length_modifyLast {α : Type} (f : α → α) (l : List α) :
    (l.modifyLast f).length = l.length := by
  rcases List.eq_nil_or_concat' l with rfl | ⟨l, x, rfl⟩
  · rfl
  · simp only [List.modifyLast_concat, List.length_append, List.length_singleton]

namespace State

variable [DecidableEq T] {s s' : State T F A} {t u : T} {x : Thread F A} {c : Schedule F A}
  {own : Bool} {program : T → Bool} {is js : List (T × Act T F A)}

/-- The inputs that are no calls of `Schedule`, and no wakeups without a notification. -/
def Own (i : T × Act T F A) : Prop := i.2.isOwn

/-- Nothing can go on. -/
abbrev AtRest (s : State T F A) : Prop := Quiet State.step Own s

/-- What a thread that does not sleep has for its next sleep: `bgWait` uses it up, and the `notify`
that wakes the thread up gives it back. -/
def wakeRank : List T → Nat
  | []     => 5
  | _ :: _ => 0

section

variable [Fintype T]

/-- A bound on the steps to come. -/
def rank (s : State T F A) : Nat :=
  total Thread.rank s.threads + 10 * s.queue_.length + wakeRank s.bgsignal_

/-- The rank goes down if it does for the thread, the queue and the sleepers. -/
theorem rank_put_lt {s₀ : State T F A} (ht : s₀.threads = s.threads)
    (h : x.rank + 10 * s₀.queue_.length + wakeRank s₀.bgsignal_ <
      (s.threads t).rank + 10 * s.queue_.length + wakeRank s.bgsignal_) :
    (s₀.put t x).rank < s.rank := by
  have hupd := total_update Thread.rank s.threads t x
  simp only [rank, put, ht]
  omega

omit [DecidableEq T] [Fintype T] in
theorem rank_call (hc : (s.threads t).call = some c) :
    (s.threads t).rank = (s.threads t).place.rank + c.stage.rank := by
  rw [Thread.rank, hc]
  rfl

omit [DecidableEq T] [Fintype T] in
theorem rank_place (hc : (s.threads t).call = none) :
    (s.threads t).rank = (s.threads t).place.rank := by
  rw [Thread.rank, hc]
  rfl

omit [DecidableEq T] [Fintype T] in
theorem rank_absent (hs : s.Inv) (hp : (s.threads u).place.isAbsent) : (s.threads u).rank = 0 := by
  rw [rank_place (hs.call_absent hp)]
  cases hplace : (s.threads u).place <;> simp_all [Place.isAbsent, Place.rank]

/-- Every step of a thread in `Schedule` or in `BGThread()`, and every return of a function, takes
something from the rank. -/
theorem rank_lt (hs : s.Inv) {i : T × Act T F A} (hi : Own i) (h : s.step i = some s') :
    s'.rank < s.rank := by
  obtain ⟨t, a⟩ := i
  have hm := step_move h
  rw [show a.isOwn = true from hi] at hm
  cases hm with
  | lock c hc hst =>
      refine rank_put_lt rfl ?_
      rw [rank_call hc, hst]
      simp [Thread.rank, Stage.rank]
  | test c hc hst =>
      refine rank_put_lt rfl ?_
      rw [rank_call hc, hst]
      cases s.bgthread_ <;> simp [Thread.rank, Stage.rank]
  | spawn c hc hst u hp =>
      -- the thread that is made has a rank of its own
      have hut := hs.ne_absent hc hp
      have hmade := total_update Thread.rank s.threads u ⟨.bgLock, none⟩
      have hpush := total_update Thread.rank (Function.update s.threads u ⟨.bgLock, none⟩) t
        { (s.threads t) with call := some { c with stage := .push } }
      rw [rank_absent hs hp] at hmade
      rw [Function.update_of_ne hut.symm, rank_call hc, hst] at hpush
      rw [spawn_eq hut]
      simp only [rank, Thread.rank, Place.rank, Stage.rank, Option.map_some, Option.map_none,
        Option.getD_some, Option.getD_none] at hmade hpush ⊢
      omega
  | push c hc hst =>
      -- 11 less for the stage, 10 more for the queue
      refine rank_put_lt rfl ?_
      rw [rank_call hc, hst]
      simp [Thread.rank, Stage.rank]
      omega
  | setFunction c hc hst _ | setArg c hc hst _ =>
      refine rank_put_lt rfl ?_
      rw [rank_call hc, hst]
      simp [Thread.rank, Stage.rank, length_modifyLast]
  | unlock c hc hst =>
      refine rank_put_lt rfl ?_
      rw [rank_call hc, hst]
      simp [Thread.rank, Stage.rank]
  | notify c hc hst signal hsignal =>
      refine rank_put_lt rfl ?_
      have hwake : wakeRank signal ≤ 5 := by cases signal <;> simp [wakeRank]
      rw [rank_call hc, hst]
      simp only [Thread.rank, Stage.rank, Option.map_none, Option.getD_none]
      omega
  | bgLock hc hp | bgRelock hc hp =>
      refine rank_put_lt rfl ?_
      rw [rank_place hc, hp]
      simp [Thread.rank, Place.rank]
  | bgTest hc hp =>
      refine rank_put_lt rfl ?_
      rw [rank_place hc, hp]
      cases s.queue_ <;> simp [Thread.rank, Place.rank]
  | bgWait hc hp =>
      refine rank_put_lt rfl ?_
      -- nobody slept, so `wakeRank` falls from 5 to 0
      have hnil := hs.bgsignal_eq_nil (t := t) (by rw [hp]; rfl) (hs.awake (by simp [hp]))
      rw [rank_place hc, hp, hnil]
      simp [Thread.rank, Place.rank, wakeRank]
      omega
  | bgFront hc hp x queue hq =>
      -- 10 less for the queue, 6 more for the item in hand
      refine rank_put_lt rfl ?_
      rw [rank_place hc, hp, hq]
      simp [Thread.rank, Place.rank]
      omega
  | bgUnlock x hc hp | bgCall x hc hp | finish x hc hp =>
      refine rank_put_lt rfl ?_
      rw [rank_place hc, hp]
      simp [Thread.rank, Place.rank]

end

/-! ### At rest -/

/-- If there is no background thread yet, one can be made: the system has a thread to give. -/
def Room (s : State T F A) : Prop := s.bgthread_ = none → ∃ u, (s.threads u).place.isAbsent

omit [DecidableEq T] in
/-- A thread that is in `Schedule` has been made. -/
theorem Inv.not_absent (hs : s.Inv) (hc : (s.threads t).call = some c) :
    ¬ (s.threads t).place.isAbsent := fun h => hs.ne_absent hc h rfl

/-- Only a thread that is being made stops being absent. -/
theorem Room.step (hs : s.Inv) (hr : s.Room) (h : Move s t own s') : s'.Room := by
  have hother : ∀ {x : Thread F A}, ¬ (s.threads t).place.isAbsent → s.bgthread_ = none →
      ∃ u, (Function.update s.threads t x u).place.isAbsent := by
    intro x ht hb
    obtain ⟨u, hu⟩ := hr hb
    have hut : u ≠ t := by
      rintro rfl
      exact ht hu
    exact ⟨u, by rwa [Function.update_of_ne hut]⟩
  cases h with
  | schedule function arg hc hp =>
      refine hother fun h => ?_
      cases hplace : (s.threads t).place <;> simp [hplace, Place.isAbsent, Place.isUser] at h hp
  | lock c hc | test c hc | push c hc | setFunction c hc | setArg c hc | unlock c hc
  | notify c hc =>
      exact hother (hs.not_absent hc)
  | spawn c hc hst u hp =>
      rw [spawn_eq (hs.ne_absent hc hp)]
      exact fun h => absurd h (Option.some_ne_none u)
  | bgLock hc hp | bgTest hc hp | bgWait hc hp | bgRelock hc hp | bgFront hc hp | bgUnlock x hc hp
  | bgCall x hc hp | finish x hc hp =>
      refine hother ?_
      rw [hp]
      exact Bool.false_ne_true
  | wake => exact hr

/-- In `Schedule`, only `mu_` can keep a thread from its next step. -/
theorem AtRest.call_blocked (h : s.AtRest) (hs : s.Inv) (hr : s.Room)
    (hc : (s.threads t).call = some c) : c.stage = .lock ∧ s.mu_ ≠ none := by
  have hgo : ∀ choice, s.goSchedule t choice c = none := by
    intro choice
    have hstep := h (t, .go choice) rfl
    simpa only [State.step, hc] using hstep
  have hnext := hgo none
  cases hst : c.stage with
  | lock =>
      refine ⟨rfl, fun hm => ?_⟩
      simp [goSchedule, hst, hm] at hnext
  | test | push | unlock => simp [goSchedule, hst] at hnext
  | spawn =>
      -- there is no background thread, so there is room for one
      obtain ⟨u, hu⟩ := hr (hs.spawning hc hst)
      have hmake := hgo (some u)
      simp [goSchedule, hst, hu] at hmake
  | setFunction | setArg =>
      -- its own item is at the back of the queue
      have hq : s.queue_ ≠ [] := by
        obtain ⟨queue, hq, -⟩ := hs.order
        rw [added_of_holder (hs.holder hc (by rw [hst]; rfl)), Thread.added_call hc,
          Schedule.added, hst] at hq
        simp [hq]
      simp [goSchedule, hst, hq] at hnext
  | notify =>
      cases hsig : s.bgsignal_ with
      | nil => simp [goSchedule, hst, hsig] at hnext
      | cons u rest =>
          have hwake := hgo (some u)
          simp [goSchedule, hst, hsig] at hwake

/-- In `BGThread()`, only `mu_` and a missing notification can. -/
theorem AtRest.place_blocked (h : s.AtRest) (hs : s.Inv) (hc : (s.threads t).call = none) :
    ((s.threads t).place = .absent ∨ (s.threads t).place = .program) ∨
      (s.threads t).place = .bgLock ∧ s.mu_ ≠ none ∨
      (s.threads t).place = .bgRelock ∧ (t ∈ s.bgsignal_ ∨ s.mu_ ≠ none) := by
  have hgo : s.goBackground t (s.threads t).place = none := by
    have hstep := h (t, .go none) rfl
    simpa only [State.step, hc] using hstep
  cases hp : (s.threads t).place with
  | absent => exact .inl (.inl rfl)
  | program => exact .inl (.inr rfl)
  | bgLock =>
      refine .inr (.inl ⟨rfl, fun hm => ?_⟩)
      simp [goBackground, hp, hm] at hgo
  | bgTest | bgWait | bgUnlock | bgCall => simp [goBackground, hp] at hgo
  | bgRelock =>
      refine .inr (.inr ⟨rfl, ?_⟩)
      by_contra hno
      rw [not_or, not_not] at hno
      simp [goBackground, hp, hno] at hgo
  | bgFront =>
      have hk := hs.knows t (hs.bgHolder hc (by rw [hp]; rfl))
      simp only [Thread.Knows, hc, hp] at hk
      cases hq : s.queue_ with
      | nil => exact absurd hq hk
      | cons x queue => simp [goBackground, hp, hq] at hgo
  | bgRunning x =>
      have hreturn := h (t, .finish) rfl
      simp [State.step, hc, hp] at hreturn

/-- Nobody keeps `mu_`. -/
theorem AtRest.free (h : s.AtRest) (hs : s.Inv) (hr : s.Room) : s.mu_ = none := by
  cases hm : s.mu_ with
  | none => rfl
  | some t =>
      have hin := (hs.mutex t).2 hm
      cases hc : (s.threads t).call with
      | some c =>
          rw [Thread.inside_call hc, (h.call_blocked hs hr hc).1] at hin
          cases hin
      | none =>
          rw [Thread.inside_place hc] at hin
          rcases h.place_blocked hs hc with (hp | hp) | ⟨hp, -⟩ | ⟨hp, -⟩ <;> rw [hp] at hin <;>
            cases hin

/-- The thread has nothing to do: it is in its own code, or it is the background thread, asleep. -/
def Idle (t : T) (s : State T F A) : Prop :=
  (s.threads t).call = none ∧ ((s.threads t).place = .absent ∨ (s.threads t).place = .program ∨
    (s.threads t).place = .bgRelock ∧ t ∈ s.bgsignal_)

/-- As `mu_` is free, nothing but a missing notification keeps anybody. -/
theorem AtRest.idle (h : s.AtRest) (hs : s.Inv) (hr : s.Room) (t : T) : Idle t s := by
  have hm := h.free hs hr
  cases hc : (s.threads t).call with
  | some c => exact absurd hm (h.call_blocked hs hr hc).2
  | none =>
      refine ⟨hc, ?_⟩
      rcases h.place_blocked hs hc with (hp | hp) | ⟨-, hno⟩ | ⟨hp, ht | hno⟩
      · exact .inl hp
      · exact .inr (.inl hp)
      · exact absurd hm hno
      · exact .inr (.inr ⟨hp, ht⟩)
      · exact absurd hm hno

/-- `t` is going to put the item into the queue, or it has. -/
def Promised (t : T) (x : BGItem F A) (s : State T F A) : Prop :=
  x ∈ s.scheduled ∨ ∃ c, (s.threads t).call = some c ∧ c.item = x ∧ c.stage ≠ .notify

/-- A promise is kept by every step: the thread's own bring the item closer to the queue, and those
of the others leave the thread where it is. -/
theorem Promised.step {y : BGItem F A} (hs : s.Inv) (hp : Promised t y s) (h : Move s u own s') :
    Promised t y s' := by
  rcases hp with hp | ⟨c, hc, hitem, hst⟩
  · refine .inl ?_
    cases h with
    | unlock => exact List.mem_append_left _ hp
    | _ => exact hp
  · by_cases hut : u = t
    · subst hut
      have hself : ∀ {s₀ : State T F A} {stage : Stage} {c' : Schedule F A},
          (s.threads u).call = some c' → stage ≠ .notify →
            Promised u y (s₀.toStage u c' stage) := by
        intro s₀ stage c' hc' hne
        obtain rfl := Option.some.inj (hc.symm.trans hc')
        exact .inr ⟨{ c with stage := stage }, by simp only [toStage, put, Function.update_self],
          hitem, hne⟩
      cases h with
      | lock c' hc' | push c' hc' | setFunction c' hc' | setArg c' hc' | spawn c' hc' =>
          exact hself hc' Stage.noConfusion
      | test c' hc' => exact hself hc' (by split_ifs <;> exact Stage.noConfusion)
      | unlock c' hc' =>
          -- here the promise is kept
          obtain rfl := Option.some.inj (hc.symm.trans hc')
          exact .inl (List.mem_append_right _ (List.mem_singleton.2 hitem.symm))
      | notify c' hc' hst' =>
          obtain rfl := Option.some.inj (hc.symm.trans hc')
          exact absurd hst' hst
      | schedule _ _ hno | bgLock hno | bgTest hno | bgWait hno | bgRelock hno | bgFront hno
      | bgUnlock _ hno | bgCall _ hno | finish _ hno =>
          rw [hno] at hc
          cases hc
      | wake => exact .inr ⟨c, hc, hitem, hst⟩
    · refine .inr ⟨c, ?_, hitem, hst⟩
      have hother : ∀ x : Thread F A, (Function.update s.threads u x t).call = some c := by
        intro x
        rwa [Function.update_of_ne (Ne.symm hut)]
      cases h with
      | spawn c' hc' hst' v hv =>
          have hvt : v ≠ t := hs.ne_absent hc hv
          rw [spawn_eq (hs.ne_absent hc' hv)]
          simp only
          rwa [Function.update_of_ne (Ne.symm hut), Function.update_of_ne hvt.symm]
      | wake => exact hc
      | _ => exact hother _

section

variable [Fintype T]

end

end State

end Leveldb.PosixEnv
