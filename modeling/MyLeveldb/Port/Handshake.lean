import MyLeveldb.Port.Definitions
import MyLeveldb.Support.Machines.Threads

/-!
# Port — Handshake

The bookkeeping of the condition variable, in every run of any number of threads.  Let `b` be the
waiters no permit of `sem1_` is meant for, and `k` the permits that are under way: on `sem1_`, with
a waiter that has not answered yet, or on `sem2_`.  `Phase` says what `waiting_`, `b` and `k` are
at each place of the thread that holds `wait_mtx_`.

* `Inv.step`: every step of every thread keeps the books.
* `signal_sees_waiters`: where `Signal()` tests `waiting_`, and where `SignalAll()` first reads it,
  it is the number of waiters.
-/

namespace Leveldb.Port

open Runs (run run_keeps)
open Threads (total total_update Guards)

variable {T : Type} {t : T} {c c' : CondVar T} {p p' q : Pc} {a : Act} {reg ans : Nat}

/-! ### Places -/

namespace Pc

/-- Between `wait_mtx_.Lock()` and `wait_mtx_.Unlock()`. -/
def Inside : Pc → Prop
  | .waitCount | .waitUnlock => True
  | .signalTest | .signalCount | .signalRelease | .signalAwait | .signalUnlock => True
  | .allFor _ | .allRelease _ | .allWhile _ | .allCount _ | .allAwait _ | .allUnlock => True
  | _ => False

/-- In `Wait()`, before `mu_->Unlock()`. -/
def HasMu : Pc → Prop
  | .waitLock | .waitCount | .waitUnlock | .waitRelease => True
  | _ => False

/-- 1 for a waiter: a thread that is counted and has not passed `sem1_`. -/
def waiter : Pc → Nat
  | .waitUnlock | .waitRelease | .waitSem1 => 1
  | _ => 0

/-- 1 for a thread that has passed `sem1_` and has not answered. -/
def answering : Pc → Nat
  | .waitSem2 => 1
  | _ => 0

end Pc

/-- The books at the place of the thread that holds `wait_mtx_`; the last case is also that of no
such thread. -/
def Phase (waiting b k : Nat) : Pc → Prop
  | .signalCount   => k = 0 ∧ waiting = b ∧ 0 < waiting
  | .signalRelease => k = 0 ∧ waiting + 1 = b
  | .signalAwait   => k = 1 ∧ waiting = b
  | .allFor i      => k = 0 ∧ waiting = b ∧ (i = 0 ∨ waiting = 0)
  | .allRelease i  => k = 0 ∧ waiting = b ∧ 0 < waiting ∧ i = 0
  | .allWhile i    => i = 0 ∧ (k = 1 ∧ waiting = b + 1 ∨ k = 0 ∧ waiting = b)
  | .allCount i    => i = 0 ∧ 0 < waiting ∧ (k = 1 ∧ waiting = b + 1 ∨ k = 0 ∧ waiting = b)
  -- with no permit under way, nobody is going to answer
  | .allAwait i    => i = 0 ∧ (k = 1 ∧ waiting = b ∨ k = 0 ∧ waiting + 1 = b)
  | .allUnlock     => k = 0 ∧ waiting = b ∧ waiting = 0
  | _              => k = 0 ∧ waiting = b

theorem Phase.le_one {waiting b k : Nat} (h : Phase waiting b k p) : k ≤ 1 := by
  cases p <;> simp only [Phase] at h <;> omega

theorem phase_outside {waiting b k : Nat} (hp : ¬ p.Inside) (hq : ¬ q.Inside) :
    Phase waiting b k p ↔ Phase waiting b k q := by
  have hdefault : ∀ r : Pc, ¬ r.Inside → (Phase waiting b k r ↔ k = 0 ∧ waiting = b) := by
    intro r hr
    cases r <;> first | exact Iff.rfl | exact absurd trivial hr
  rw [hdefault p hp, hdefault q hq]

/-- The books, of `reg` waiters and `ans` threads that have not answered. -/
def Books (c : CondVar T) (reg ans : Nat) (p : Pc) : Prop :=
  ∃ b k, reg = b + c.sem1_ ∧ c.sem1_ + ans + c.sem2_ = k ∧ Phase c.waiting_ b k p

theorem Books.outside (h : Books c reg ans p) (hp : ¬ p.Inside) (hq : ¬ q.Inside) :
    Books c reg ans q := by
  obtain ⟨b, k, hr, hk, hph⟩ := h
  exact ⟨b, k, hr, hk, (phase_outside hp hq).1 hph⟩

theorem Books.sem2_lt (h : Books c reg ans q) : c.sem2_ < 10000 := by
  obtain ⟨b, k, -, hk, hq⟩ := h
  have hk1 := hq.le_one
  omega

theorem waitForSingleObject_eq_some {n m : Nat} : waitForSingleObject n = some m ↔ n = m + 1 := by
  cases n with
  | zero => simp [waitForSingleObject]
  | succ n => simp [waitForSingleObject]

theorem releaseSemaphore_of_lt {n : Nat} (h : n < 10000) : releaseSemaphore n = n + 1 :=
  if_pos h

/-! ### Mutexes -/

namespace Mutex

variable [DecidableEq T] {m m' : Mutex T}

theorem owner_of_lock (h : m.lock t = some m') : m.owner = none ∨ m.owner = some t := by
  cases m with
  | none => exact .inl rfl
  | some o =>
      obtain ⟨u, n⟩ := o
      simp only [lock] at h
      split_ifs at h with hu
      exact .inr (congrArg some hu)

theorem unlock_of_owner (h : m.owner = some t) : ∃ m', m.unlock t = some m' := by
  obtain ⟨⟨u, n⟩, rfl, rfl⟩ := Option.map_eq_some_iff.1 h
  cases n with
  | zero => exact ⟨_, if_pos rfl⟩
  | succ n => exact ⟨_, if_pos rfl⟩

/-- A thread that is blocked is blocked by another one. -/
theorem owner_of_blocked (h : m.lock t = none) : ∃ u, u ≠ t ∧ m.owner = some u := by
  cases m with
  | none => cases h
  | some o =>
      obtain ⟨u, n⟩ := o
      simp only [lock] at h
      split_ifs at h with hu
      exact ⟨u, hu, rfl⟩

theorem owner_of_unlock (h : m.unlock t = some m') : m.owner = some t := by
  rcases m with _ | ⟨u, _ | n⟩ <;> simp only [unlock, reduceCtorEq] at h <;>
    split_ifs at h with hu <;> simp [owner, hu]

end Mutex

/-! ### One step -/

variable [DecidableEq T]

/-- A step at a place of `wait_mtx_`, or into one, with what it does to the counts. -/
theorem Books.go_inside {reg' ans' : Nat} (hb : Books c reg ans p)
    (h : c.go t p = some (c', p')) (hin : p.Inside ∨ p'.Inside)
    (hreg : reg' + p.waiter = reg + p'.waiter) (hans : ans' + p.answering = ans + p'.answering) :
    Books c' reg' ans' p' := by
  obtain ⟨b, k, hr, hk, hp⟩ := hb
  have hk1 := hp.le_one
  cases p with
  | user => cases h
  | waitSem2 =>
      obtain ⟨rfl, rfl⟩ := Prod.mk.inj (Option.some.inj h)
      exact absurd hin (by simp [Pc.Inside])
  | waitRelease | waitSem1 | waitRelock =>
      simp only [CondVar.go, Option.bind_eq_bind, Option.bind_eq_some_iff, Option.some.injEq,
        Prod.mk.injEq] at h
      obtain ⟨_, _, _, rfl⟩ := h
      exact absurd hin (by simp [Pc.Inside])
  | waitLock | signalLock | waitUnlock | signalUnlock =>
      simp only [CondVar.go, Option.bind_eq_bind, Option.bind_eq_some_iff, Option.some.injEq,
        Prod.mk.injEq] at h
      obtain ⟨m, -, rfl, rfl⟩ := h
      simp only [Pc.waiter, Pc.answering] at hreg hans
      exact ⟨b, k, by simp only; omega, by simp only; omega, hp⟩
  | allUnlock =>
      simp only [CondVar.go, Option.bind_eq_bind, Option.bind_eq_some_iff, Option.some.injEq,
        Prod.mk.injEq] at h
      obtain ⟨m, -, rfl, rfl⟩ := h
      simp only [Pc.waiter, Pc.answering] at hreg hans
      exact ⟨b, k, by simp only; omega, by simp only; omega, hp.1, hp.2.1⟩
  | allLock =>
      simp only [CondVar.go, Option.bind_eq_bind, Option.bind_eq_some_iff, Option.some.injEq,
        Prod.mk.injEq] at h
      obtain ⟨m, -, rfl, rfl⟩ := h
      simp only [Pc.waiter, Pc.answering] at hreg hans
      exact ⟨b, k, by simp only; omega, by simp only; omega, hp.1, hp.2, .inl rfl⟩
  | waitCount =>
      obtain ⟨rfl, rfl⟩ := Prod.mk.inj (Option.some.inj h)
      simp only [Pc.waiter, Pc.answering, Phase] at hreg hans hp
      exact ⟨b + 1, k, by simp only; omega, by simp only; omega, by simp only [Phase]; omega⟩
  | signalTest =>
      obtain ⟨rfl, rfl⟩ := Prod.mk.inj (Option.some.inj h)
      simp only [Phase] at hp
      split_ifs at hreg hans ⊢ with hw <;> simp only [Pc.waiter, Pc.answering] at hreg hans
      · exact ⟨b, k, by omega, by omega, hp.1, hp.2, hw⟩
      · exact ⟨b, k, by omega, by omega, hp.1, hp.2⟩
  | signalCount | allCount i =>
      obtain ⟨rfl, rfl⟩ := Prod.mk.inj (Option.some.inj h)
      simp only [Pc.waiter, Pc.answering, Phase] at hreg hans hp
      exact ⟨b, k, by simp only; omega, by simp only; omega, by simp only [Phase]; omega⟩
  | signalRelease | allRelease i =>
      obtain ⟨rfl, rfl⟩ := Prod.mk.inj (Option.some.inj h)
      simp only [Pc.waiter, Pc.answering, Phase] at hreg hans hp
      have hpost := releaseSemaphore_of_lt (n := c.sem1_) (by omega)
      exact ⟨b - 1, 1, by simp only [hpost]; omega, by simp only [hpost]; omega,
        by simp only [Phase, true_and]; omega⟩
  | signalAwait | allAwait i =>
      simp only [CondVar.go, Option.bind_eq_bind, Option.bind_eq_some_iff, Option.some.injEq,
        Prod.mk.injEq, waitForSingleObject_eq_some] at h
      obtain ⟨n, hn, rfl, rfl⟩ := h
      simp only [Pc.waiter, Pc.answering, Phase] at hreg hans hp
      exact ⟨b, 0, by simp only; omega, by simp only; omega, by simp only [Phase, true_and]; omega⟩
  | allFor i | allWhile i =>
      obtain ⟨rfl, rfl⟩ := Prod.mk.inj (Option.some.inj h)
      simp only [Phase] at hp
      split_ifs at hreg hans ⊢ with hw <;> simp only [Pc.waiter, Pc.answering] at hreg hans
      · exact ⟨b, k, by omega, by omega, by simp only [Phase]; omega⟩
      · exact ⟨b, k, by omega, by omega, by simp only [Phase]; omega⟩

/-- A step of a thread that does not hold `wait_mtx_`: a permit may go from one semaphore to the
other. -/
theorem go_counts {reg' ans' : Nat} (h : c.go t p = some (c', p')) (hp : ¬ p.Inside)
    (hreg : reg' + p.waiter = reg + p'.waiter) (hans : ans' + p.answering = ans + p'.answering)
    (hmax : c.sem2_ < 10000) :
    c'.waiting_ = c.waiting_ ∧ c'.sem1_ + ans' + c'.sem2_ = c.sem1_ + ans + c.sem2_ ∧
      reg' + c.sem1_ = reg + c'.sem1_ := by
  cases p with
  | user => cases h
  | waitCount | waitUnlock => exact absurd trivial hp
  | signalTest | signalCount | signalRelease | signalAwait | signalUnlock => exact absurd trivial hp
  | allFor | allRelease | allWhile | allCount | allAwait | allUnlock => exact absurd trivial hp
  | waitLock | signalLock | allLock | waitRelease | waitRelock =>
      simp only [CondVar.go, Option.bind_eq_bind, Option.bind_eq_some_iff, Option.some.injEq,
        Prod.mk.injEq] at h
      obtain ⟨m, -, rfl, rfl⟩ := h
      simp only [Pc.waiter, Pc.answering] at hreg hans
      exact ⟨rfl, by simp only; omega, by simp only; omega⟩
  | waitSem1 =>
      simp only [CondVar.go, Option.bind_eq_bind, Option.bind_eq_some_iff, Option.some.injEq,
        Prod.mk.injEq, waitForSingleObject_eq_some] at h
      obtain ⟨n, hn, rfl, rfl⟩ := h
      simp only [Pc.waiter, Pc.answering] at hreg hans
      exact ⟨rfl, by simp only; omega, by simp only; omega⟩
  | waitSem2 =>
      obtain ⟨rfl, rfl⟩ := Prod.mk.inj (Option.some.inj h)
      simp only [Pc.waiter, Pc.answering] at hreg hans
      have hpost := releaseSemaphore_of_lt hmax
      exact ⟨rfl, by simp only [hpost]; omega, by simp only; omega⟩

/-- What a step does to `wait_mtx_`. -/
theorem go_wait_mtx (h : c.go t p = some (c', p')) :
    ¬ p.Inside ∧ p'.Inside ∧ c.wait_mtx_.lock t = some c'.wait_mtx_ ∨
      p.Inside ∧ ¬ p'.Inside ∧ c.wait_mtx_.unlock t = some c'.wait_mtx_ ∨
      (p'.Inside ↔ p.Inside) ∧ c'.wait_mtx_ = c.wait_mtx_ := by
  cases p with
  | user => cases h
  | waitLock | signalLock | allLock =>
      simp only [CondVar.go, Option.bind_eq_bind, Option.bind_eq_some_iff, Option.some.injEq,
        Prod.mk.injEq] at h
      obtain ⟨m, hm, rfl, rfl⟩ := h
      exact .inl ⟨id, trivial, hm⟩
  | waitUnlock | signalUnlock | allUnlock =>
      simp only [CondVar.go, Option.bind_eq_bind, Option.bind_eq_some_iff, Option.some.injEq,
        Prod.mk.injEq] at h
      obtain ⟨m, hm, rfl, rfl⟩ := h
      exact .inr (.inl ⟨trivial, id, hm⟩)
  | waitRelease | waitSem1 | waitRelock | signalAwait | allAwait =>
      simp only [CondVar.go, Option.bind_eq_bind, Option.bind_eq_some_iff, Option.some.injEq,
        Prod.mk.injEq] at h
      obtain ⟨_, -, rfl, rfl⟩ := h
      exact .inr (.inr ⟨Iff.rfl, rfl⟩)
  | waitCount | waitSem2 | signalCount | signalRelease | allRelease | allCount =>
      obtain ⟨rfl, rfl⟩ := Prod.mk.inj (Option.some.inj h)
      exact .inr (.inr ⟨Iff.rfl, rfl⟩)
  | signalTest | allFor | allWhile =>
      obtain ⟨rfl, rfl⟩ := Prod.mk.inj (Option.some.inj h)
      refine .inr (.inr ⟨?_, rfl⟩)
      split_ifs <;> exact Iff.rfl

/-- What a step does to `*mu_`. -/
theorem go_mu (h : c.go t p = some (c', p')) :
    c'.mu_ = c.mu_ ∧ (p'.HasMu → p.HasMu) ∨
      ¬ p'.HasMu ∧ (c.mu_.lock t = some c'.mu_ ∨ c.mu_.unlock t = some c'.mu_) := by
  cases p with
  | user => cases h
  | waitRelease =>
      simp only [CondVar.go, Option.bind_eq_bind, Option.bind_eq_some_iff, Option.some.injEq,
        Prod.mk.injEq] at h
      obtain ⟨m, hm, rfl, rfl⟩ := h
      exact .inr ⟨id, .inr hm⟩
  | waitRelock =>
      simp only [CondVar.go, Option.bind_eq_bind, Option.bind_eq_some_iff, Option.some.injEq,
        Prod.mk.injEq] at h
      obtain ⟨m, hm, rfl, rfl⟩ := h
      exact .inr ⟨id, .inl hm⟩
  | waitLock | signalLock | allLock | waitUnlock | signalUnlock | allUnlock | waitSem1
  | signalAwait | allAwait =>
      simp only [CondVar.go, Option.bind_eq_bind, Option.bind_eq_some_iff, Option.some.injEq,
        Prod.mk.injEq] at h
      obtain ⟨_, -, rfl, rfl⟩ := h
      exact .inl ⟨rfl, id⟩
  | waitCount | waitSem2 | signalCount | signalRelease | allRelease | allCount =>
      obtain ⟨rfl, rfl⟩ := Prod.mk.inj (Option.some.inj h)
      exact .inl ⟨rfl, id⟩
  | signalTest | allFor | allWhile =>
      obtain ⟨rfl, rfl⟩ := Prod.mk.inj (Option.some.inj h)
      refine .inl ⟨rfl, ?_⟩
      split_ifs <;> exact id

/-- A step is one of a call, or one of the thread's own code, which uses `*mu_` or begins a call. -/
theorem act_cases (h : c.act t a p = some (c', p')) :
    c.go t p = some (c', p') ∨
      p = .user ∧ ¬ p'.Inside ∧ p'.waiter = 0 ∧ p'.answering = 0 ∧ ∃ m, c' = { c with mu_ := m } ∧
        (m = c.mu_ ∧ (p'.HasMu → c.mu_.owner = some t) ∨
          ¬ p'.HasMu ∧ (c.mu_.lock t = some m ∨ c.mu_.unlock t = some m)) := by
  cases a with
  | go => exact .inl h
  | lock =>
      cases p with
      | user =>
          simp only [CondVar.act, Option.bind_eq_bind, Option.bind_eq_some_iff, Option.some.injEq,
            Prod.mk.injEq] at h
          obtain ⟨m, hm, rfl, rfl⟩ := h
          exact .inr ⟨rfl, id, rfl, rfl, m, rfl, .inr ⟨id, .inl hm⟩⟩
      | _ => cases h
  | unlock =>
      cases p with
      | user =>
          simp only [CondVar.act, Option.bind_eq_bind, Option.bind_eq_some_iff, Option.some.injEq,
            Prod.mk.injEq] at h
          obtain ⟨m, hm, rfl, rfl⟩ := h
          exact .inr ⟨rfl, id, rfl, rfl, m, rfl, .inr ⟨id, .inr hm⟩⟩
      | _ => cases h
  | wait =>
      cases p with
      | user =>
          simp only [CondVar.act] at h
          split_ifs at h with ho
          obtain ⟨rfl, rfl⟩ := Prod.mk.inj (Option.some.inj h)
          exact .inr ⟨rfl, id, rfl, rfl, _, rfl, .inl ⟨rfl, fun _ => ho⟩⟩
      | _ => cases h
  | signal | signalAll =>
      cases p with
      | user =>
          obtain ⟨rfl, rfl⟩ := Prod.mk.inj (Option.some.inj h)
          exact .inr ⟨rfl, id, rfl, rfl, _, rfl, .inl ⟨rfl, False.elim⟩⟩
      | _ => cases h

theorem act_wait_mtx (h : c.act t a p = some (c', p')) :
    ¬ p.Inside ∧ p'.Inside ∧ c.wait_mtx_.lock t = some c'.wait_mtx_ ∨
      p.Inside ∧ ¬ p'.Inside ∧ c.wait_mtx_.unlock t = some c'.wait_mtx_ ∨
      (p'.Inside ↔ p.Inside) ∧ c'.wait_mtx_ = c.wait_mtx_ := by
  rcases act_cases h with hgo | ⟨rfl, hp', -, -, m, rfl, -⟩
  · exact go_wait_mtx hgo
  · exact .inr (.inr ⟨iff_of_false hp' id, rfl⟩)

theorem act_mu (h : c.act t a p = some (c', p')) :
    c'.mu_ = c.mu_ ∧ (p'.HasMu → p.HasMu ∨ c.mu_.owner = some t) ∨
      ¬ p'.HasMu ∧ (c.mu_.lock t = some c'.mu_ ∨ c.mu_.unlock t = some c'.mu_) := by
  rcases act_cases h with hgo | ⟨rfl, -, -, -, m, rfl, ⟨rfl, hm⟩ | hm⟩
  · exact (go_mu hgo).imp_left fun hmu => ⟨hmu.1, fun hp => .inl (hmu.2 hp)⟩
  · exact .inl ⟨rfl, fun hp => .inr (hm hp)⟩
  · exact .inr hm

theorem Books.act_inside {reg' ans' : Nat} (hb : Books c reg ans p)
    (h : c.act t a p = some (c', p')) (hin : p.Inside ∨ p'.Inside)
    (hreg : reg' + p.waiter = reg + p'.waiter) (hans : ans' + p.answering = ans + p'.answering) :
    Books c' reg' ans' p' := by
  rcases act_cases h with hgo | ⟨rfl, hp', -⟩
  · exact hb.go_inside hgo hin hreg hans
  · exact absurd hin (not_or.2 ⟨id, hp'⟩)

theorem act_counts {reg' ans' : Nat} (h : c.act t a p = some (c', p')) (hp : ¬ p.Inside)
    (hreg : reg' + p.waiter = reg + p'.waiter) (hans : ans' + p.answering = ans + p'.answering)
    (hmax : c.sem2_ < 10000) :
    c'.waiting_ = c.waiting_ ∧ c'.sem1_ + ans' + c'.sem2_ = c.sem1_ + ans + c.sem2_ ∧
      reg' + c.sem1_ = reg + c'.sem1_ := by
  rcases act_cases h with hgo | ⟨rfl, -, hw, ha, m, rfl, -⟩
  · exact go_counts hgo hp hreg hans hmax
  · rw [hw] at hreg
    rw [ha] at hans
    obtain rfl : reg' = reg := hreg
    obtain rfl : ans' = ans := hans
    exact ⟨rfl, rfl, rfl⟩

theorem Books.act_outside {reg' ans' : Nat} (hb : Books c reg ans q)
    (h : c.act t a p = some (c', p')) (hp : ¬ p.Inside)
    (hreg : reg' + p.waiter = reg + p'.waiter) (hans : ans' + p.answering = ans + p'.answering) :
    Books c' reg' ans' q := by
  obtain ⟨hw, hk', hr'⟩ := act_counts h hp hreg hans hb.sem2_lt
  obtain ⟨b, k, hr, hk, hq⟩ := hb
  exact ⟨b, k, by omega, by omega, hw ▸ hq⟩

/-! ### Runs -/

namespace State

/-- The place of the thread that holds `wait_mtx_`; `user` if there is none. -/
def holder (s : State T) : Pc :=
  match s.cv.wait_mtx_.owner with
  | none   => .user
  | some t => s.pc t

/-- What holds in every reachable state. -/
structure Inv [Fintype T] (s : State T) : Prop where
  wait_mtx : Guards Pc.Inside s.cv.wait_mtx_.owner s.pc
  once : ∀ t n, s.cv.wait_mtx_ = some (t, n) → n = 0
  mu : ∀ t, (s.pc t).HasMu → s.cv.mu_.owner = some t
  books : Books s.cv (total Pc.waiter s.pc) (total Pc.answering s.pc) s.holder

variable {s s' : State T}

theorem step_eq_some : s.step (t, a) = some s' ↔
    ∃ c p, s.cv.act t a (s.pc t) = some (c, p) ∧
      s' = { cv := c, pc := Function.update s.pc t p } := by
  simp only [step, Option.bind_eq_bind, Option.bind_eq_some_iff, Option.some.injEq, Prod.exists,
    eq_comm (a := s')]

omit [DecidableEq T] in
theorem holder_of_owner (h : s.cv.wait_mtx_.owner = some t) : s.holder = s.pc t := by
  simp only [holder, h]

omit [DecidableEq T] in
theorem holder_of_free (h : s.cv.wait_mtx_.owner = none) : s.holder = .user := by
  simp only [holder, h]

section

variable [Fintype T]

omit [DecidableEq T] in
theorem Inv.init : Inv (State.init : State T) where
  wait_mtx t := by simp [State.init, CondVar.new, Mutex.owner, Pc.Inside]
  once t n h := by cases h
  mu t h := h.elim
  books := by
    have hw : total Pc.waiter (State.init : State T).pc = 0 := Threads.total_eq_zero fun _ => rfl
    have ha : total Pc.answering (State.init : State T).pc = 0 :=
      Threads.total_eq_zero fun _ => rfl
    rw [hw, ha]
    exact ⟨0, 0, rfl, rfl, rfl, rfl⟩

/-- `*mu_` still belongs to the threads that have not unlocked it in `Wait()`. -/
theorem Inv.mu_step (hs : s.Inv) (h : s.cv.act t a (s.pc t) = some (c', p')) :
    ∀ u, (Function.update s.pc t p' u).HasMu → c'.mu_.owner = some u := by
  intro u hu
  by_cases hut : u = t
  · subst hut
    rw [Function.update_self] at hu
    rcases act_mu h with ⟨hmu, hp⟩ | ⟨hp, -⟩
    · rw [hmu]
      exact (hp hu).elim (hs.mu u) id
    · exact absurd hu hp
  · rw [Function.update_of_ne hut] at hu
    have howner := hs.mu u hu
    have hne : s.cv.mu_.owner ≠ some t := by
      rw [howner]
      exact fun heq => hut (Option.some.inj heq)
    rcases act_mu h with ⟨hmu, -⟩ | ⟨-, hl | hl⟩
    · rw [hmu, howner]
    · rcases Mutex.owner_of_lock hl with ho | ho
      · rw [howner] at ho
        cases ho
      · exact absurd ho hne
    · exact absurd (Mutex.owner_of_unlock hl) hne

theorem Inv.step (hs : s.Inv) (h : s.step (t, a) = some s') : s'.Inv := by
  obtain ⟨c', p', hact, rfl⟩ := step_eq_some.1 h
  have hreg := total_update Pc.waiter s.pc t p'
  have hans := total_update Pc.answering s.pc t p'
  have hmu := hs.mu_step hact
  rcases act_wait_mtx hact with ⟨hp, hp', hl⟩ | ⟨hp, hp', hl⟩ | ⟨hpp, hw⟩
  · -- `wait_mtx_.Lock()`: it is free, for its owner would be inside
    have hfree : s.cv.wait_mtx_ = none := by
      rcases Mutex.owner_of_lock hl with ho | ho
      · exact Option.map_eq_none_iff.1 ho
      · exact absurd ((hs.wait_mtx t).2 ho) hp
    rw [hfree] at hl
    have hnew : c'.wait_mtx_ = some (t, 0) := (Option.some.inj hl).symm
    have hown : c'.wait_mtx_.owner = some t := congrArg Mutex.owner hnew
    have hg := hs.wait_mtx
    have hb := hs.books
    rw [hfree] at hg
    rw [holder_of_free (congrArg Mutex.owner hfree)] at hb
    refine ⟨?_, fun u n hu => ?_, hmu, ?_⟩
    · exact hown ▸ hg.enter hp'
    · rw [hnew] at hu
      cases hu
      rfl
    · have hholder := (holder_of_owner (s := ⟨c', Function.update s.pc t p'⟩) hown).trans
        (Function.update_self t p' s.pc)
      rw [hholder]
      exact (hb.outside id hp).act_inside hact (.inr hp') hreg hans
  · -- `wait_mtx_.Unlock()`
    have hown := (hs.wait_mtx t).1 hp
    have hnew : c'.wait_mtx_ = none := by
      obtain ⟨⟨u, n⟩, hm, rfl⟩ := Option.map_eq_some_iff.1 hown
      obtain rfl := hs.once u n hm
      rw [hm, Mutex.unlock, if_pos rfl] at hl
      exact (Option.some.inj hl).symm
    have hg := hs.wait_mtx
    have hb := hs.books
    rw [hown] at hg
    rw [holder_of_owner hown] at hb
    have hfree : c'.wait_mtx_.owner = none := congrArg Mutex.owner hnew
    refine ⟨?_, fun u n hu => ?_, hmu, ?_⟩
    · exact hfree ▸ hg.leave hp'
    · rw [hnew] at hu
      cases hu
    · rw [holder_of_free hfree]
      exact (hb.act_inside hact (.inl hp) hreg hans).outside hp' id
  · refine ⟨?_, fun u n hu => hs.once u n (hw ▸ hu), hmu, ?_⟩
    · exact hw ▸ hs.wait_mtx.stay hpp
    · have hb := hs.books
      by_cases hp : (s.pc t).Inside
      · have hown := (hs.wait_mtx t).1 hp
        have hholder := (holder_of_owner (s := ⟨c', Function.update s.pc t p'⟩) (hw ▸ hown)).trans
          (Function.update_self t p' s.pc)
        rw [holder_of_owner hown] at hb
        rw [hholder]
        exact hb.act_inside hact (.inl hp) hreg hans
      · -- the thread is not the one that holds `wait_mtx_`
        have hq := hb.act_outside hact hp hreg hans
        rw [holder] at hq ⊢
        simp only [hw]
        cases hown : s.cv.wait_mtx_.owner with
        | none => simpa only [hown] using hq
        | some u =>
            have hut : u ≠ t := by
              rintro rfl
              exact hp ((hs.wait_mtx u).2 hown)
            simpa only [hown, Function.update_of_ne hut] using hq

theorem inv_keeps (s : State T) (i : T × Act) (s' : State T) (hs : s.Inv)
    (h : s.step i = some s') : s'.Inv :=
  Inv.step (t := i.1) (a := i.2) hs h

/-- Every state a run reaches. -/
theorem Inv.run {is : List (T × Act)} (hs : s.Inv) (h : run State.step s is = some s') : s'.Inv :=
  run_keeps inv_keeps is s s' hs h

omit [DecidableEq T] in
theorem Inv.waiting_eq (hs : s.Inv) (ht : s.pc t = .signalTest ∨ s.pc t = .allFor 0) :
    s.cv.waiting_ = total Pc.waiter s.pc ∧ s.cv.sem1_ = 0 ∧ s.cv.sem2_ = 0 := by
  have hown := (hs.wait_mtx t).1 (by rcases ht with ht | ht <;> rw [ht] <;> trivial)
  obtain ⟨b, k, hr, hk, hp⟩ := hs.books
  rw [holder_of_owner hown] at hp
  rcases ht with ht | ht <;> simp only [ht, Phase] at hp <;> omega

/-- Where `Signal()` tests `waiting_`, and where `SignalAll()` first reads it for its `for`-loop, it
is the number of the threads that could be woken: those counted in `Wait()` that no earlier call has
let go.  (Where `SignalAll()` reads it later, it need not be.) -/
theorem signal_sees_waiters {is : List (T × Act)} (h : Runs.run State.step State.init is = some s)
    (ht : s.pc t = .signalTest ∨ s.pc t = .allFor 0) :
    s.cv.waiting_ = total Pc.waiter s.pc ∧ s.cv.sem1_ = 0 ∧ s.cv.sem2_ = 0 :=
  (Inv.init.run h).waiting_eq ht

/-- One thread waits, and another one begins a `Signal()`. -/
def oneWaits : List (Bool × Act) :=
  [(false, .lock), (false, .wait)] ++ List.replicate 4 (false, .go) ++
    [(true, .signal), (true, .go)]

theorem signal_sees_waiters_one : ∃ s : State Bool,
    Runs.run State.step State.init oneWaits = some s ∧ s.cv.waiting_ = 1 ∧
      s.cv.waiting_ = total Pc.waiter s.pc := by
  have h : Runs.run State.step State.init oneWaits = some _ := rfl
  exact ⟨_, h, rfl, (signal_sees_waiters (t := true) h (.inl rfl)).1⟩

end

end State

end Leveldb.Port
