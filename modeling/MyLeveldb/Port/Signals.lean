import MyLeveldb.Port.Handshake

/-!
# Port — Signals

What a call of `Signal()` or `SignalAll()` does, whatever the other threads do meanwhile.

* `signal_wakes_one`: a `Signal()` that finds waiters lets exactly one of them go.
* `calls_settle`: left to themselves, the calls come to rest; then no thread is in `Signal()`, and
  one in `SignalAll()` only where it is stranded.
* `signalAll_returns_iff`: `SignalAll()` returns exactly where it finds at most one waiter.  The
  loop that waits for answers asks for one from every waiter, and only one was let go.
-/

namespace Leveldb.Port

open Runs (run run_cons run_keeps Quiet)
open Threads (total total_update Guards)

variable {T : Type} [DecidableEq T] {t u : T} {c c' : CondVar T} {p p' : Pc} {a : Act}

/-! ### Ranks -/

/-- A bound on the steps a call still has, less those that `waiting_` accounts for. -/
def Pc.rank : Pc → Nat
  | .user                       => 0
  | .waitRelock                 => 1
  | .waitSem2                   => 2
  | .waitSem1                   => 3
  | .waitRelease                => 4
  | .waitUnlock                 => 5
  -- `++waiting_` lengthens the loop of a `SignalAll()`
  | .waitCount                  => 10
  | .waitLock                   => 11
  | .signalUnlock | .allUnlock  => 1
  | .signalAwait                => 2
  | .signalRelease              => 3
  | .signalCount                => 4
  | .signalTest                 => 5
  | .signalLock                 => 6
  | .allLock                    => 7
  | .allFor 0                   => 6
  | .allFor (_ + 1)             => 2
  | .allRelease _               => 5
  | .allWhile _                 => 4
  | .allCount _                 => 3
  | .allAwait _                 => 5

theorem go_rank (h : c.go t p = some (c', p')) (hfor : ∀ i, p = .allFor i → i = 0 ∨ c.waiting_ = 0)
    (hcount : ∀ i, p = .allCount i → 0 < c.waiting_) :
    p'.rank + 4 * c'.waiting_ < p.rank + 4 * c.waiting_ := by
  cases p with
  | user => cases h
  | waitLock | waitUnlock | waitRelease | waitSem1 | waitRelock | signalLock | signalAwait
  | signalUnlock | allLock | allAwait | allUnlock =>
      simp only [CondVar.go, Option.bind_eq_bind, Option.bind_eq_some_iff, Option.some.injEq,
        Prod.mk.injEq] at h
      obtain ⟨_, -, rfl, rfl⟩ := h
      simp only [Pc.rank]
      omega
  | waitCount | waitSem2 | signalCount | signalRelease | allRelease =>
      obtain ⟨rfl, rfl⟩ := Prod.mk.inj (Option.some.inj h)
      simp only [Pc.rank]
      omega
  | allCount i =>
      obtain ⟨rfl, rfl⟩ := Prod.mk.inj (Option.some.inj h)
      have hw := hcount i rfl
      simp only [Pc.rank]
      omega
  | signalTest | allWhile =>
      obtain ⟨rfl, rfl⟩ := Prod.mk.inj (Option.some.inj h)
      split_ifs <;> simp only [Pc.rank] <;> omega
  | allFor i =>
      obtain ⟨rfl, rfl⟩ := Prod.mk.inj (Option.some.inj h)
      rcases hfor i rfl with rfl | hw
      · split_ifs <;> simp only [Pc.rank] <;> omega
      · rw [if_neg (by omega)]
        cases i <;> simp only [Pc.rank] <;> omega

/-- The places at which a thread can be blocked, and by what. -/
inductive Blocked (t : T) (c : CondVar T) : Pc → Prop where
  | user : Blocked t c .user
  | waitSem1 (h : c.sem1_ = 0) : Blocked t c .waitSem1
  | waitRelock (h : c.mu_.lock t = none) : Blocked t c .waitRelock
  | waitRelease (h : c.mu_.unlock t = none) : Blocked t c .waitRelease
  | lock {p : Pc} (hp : p = .waitLock ∨ p = .signalLock ∨ p = .allLock)
      (h : c.wait_mtx_.lock t = none) : Blocked t c p
  | unlock {p : Pc} (hp : p = .waitUnlock ∨ p = .signalUnlock ∨ p = .allUnlock)
      (h : c.wait_mtx_.unlock t = none) : Blocked t c p
  | signalAwait (h : c.sem2_ = 0) : Blocked t c .signalAwait
  | allAwait {i : Nat} (h : c.sem2_ = 0) : Blocked t c (.allAwait i)

theorem none_of_bind {α β : Type} {x : Option α} {f : α → β}
    (h : (x >>= fun m => some (f m)) = none) : x = none := by
  cases x with
  | none => rfl
  | some m => cases h

theorem blocked_of_go (h : c.go t p = none) : Blocked t c p := by
  cases p with
  | user => exact .user
  | waitLock => exact .lock (.inl rfl) (none_of_bind h)
  | signalLock => exact .lock (.inr (.inl rfl)) (none_of_bind h)
  | allLock => exact .lock (.inr (.inr rfl)) (none_of_bind h)
  | waitUnlock => exact .unlock (.inl rfl) (none_of_bind h)
  | signalUnlock => exact .unlock (.inr (.inl rfl)) (none_of_bind h)
  | allUnlock => exact .unlock (.inr (.inr rfl)) (none_of_bind h)
  | waitRelease => exact .waitRelease (none_of_bind h)
  | waitRelock => exact .waitRelock (none_of_bind h)
  | waitSem1 =>
      refine .waitSem1 ?_
      cases hn : c.sem1_ with
      | zero => rfl
      | succ n => simp [CondVar.go, hn, waitForSingleObject] at h
  | signalAwait =>
      refine .signalAwait ?_
      cases hn : c.sem2_ with
      | zero => rfl
      | succ n => simp [CondVar.go, hn, waitForSingleObject] at h
  | allAwait i =>
      refine .allAwait ?_
      cases hn : c.sem2_ with
      | zero => rfl
      | succ n => simp [CondVar.go, hn, waitForSingleObject] at h
  | waitCount | waitSem2 | signalTest | signalCount | signalRelease => cases h
  | allFor | allRelease | allWhile | allCount => cases h

/-- Where a `SignalAll()` is that found `w` waiters, with `permits` under way. -/
inductive Broadcasts (w waiting permits : Nat) : Pc → Prop where
  | allFor (h : waiting = w) : Broadcasts w waiting permits (.allFor 0)
  | allRelease (h : waiting = w) : Broadcasts w waiting permits (.allRelease 0)
  | allWhile (h : waiting + 1 = w + permits) : Broadcasts w waiting permits (.allWhile 0)
  | allCount (h : waiting + 1 = w + permits) : Broadcasts w waiting permits (.allCount 0)
  | allAwait (h : waiting + 2 = w + permits) : Broadcasts w waiting permits (.allAwait 0)
  | ending {p : Pc} (hp : p = .allFor 1 ∨ p = .allUnlock ∨ p = .user) (h : w ≤ 1) :
      Broadcasts w waiting permits p

/-- The next step of the `SignalAll()`. -/
theorem Broadcasts.go {w b ans : Nat} (h : Broadcasts w c.waiting_ (c.sem1_ + ans + c.sem2_) p)
    (hp : Phase c.waiting_ b (c.sem1_ + ans + c.sem2_) p) (hgo : c.go t p = some (c', p')) :
    Broadcasts w c'.waiting_ (c'.sem1_ + ans + c'.sem2_) p' := by
  cases h with
  | allFor hw =>
      obtain ⟨rfl, rfl⟩ := Prod.mk.inj (Option.some.inj hgo)
      split_ifs with hlt
      · exact .allRelease hw
      · exact .ending (.inr (.inl rfl)) (by omega)
  | allRelease hw =>
      obtain ⟨rfl, rfl⟩ := Prod.mk.inj (Option.some.inj hgo)
      have hpost := releaseSemaphore_of_lt (n := c.sem1_) (by have := hp.le_one; omega)
      have hzero := hp.1
      exact .allWhile (by simp only [hpost]; omega)
  | allWhile hw =>
      obtain ⟨rfl, rfl⟩ := Prod.mk.inj (Option.some.inj hgo)
      split_ifs with hlt
      · exact .allCount hw
      · exact .ending (.inl rfl) (by omega)
  | allCount hw =>
      obtain ⟨rfl, rfl⟩ := Prod.mk.inj (Option.some.inj hgo)
      have hpos := hp.2.1
      exact .allAwait (by simp only; omega)
  | allAwait hw =>
      simp only [CondVar.go, Option.bind_eq_bind, Option.bind_eq_some_iff, Option.some.injEq,
        Prod.mk.injEq, waitForSingleObject_eq_some] at hgo
      obtain ⟨n, hn, rfl, rfl⟩ := hgo
      exact .allWhile (by simp only; omega)
  | ending hend hw =>
      rcases hend with rfl | rfl | rfl
      · obtain ⟨rfl, rfl⟩ := Prod.mk.inj (Option.some.inj hgo)
        have hzero := hp.2.2
        rw [if_neg (by omega)]
        exact .ending (.inr (.inl rfl)) hw
      · simp only [CondVar.go, Option.bind_eq_bind, Option.bind_eq_some_iff, Option.some.injEq,
          Prod.mk.injEq] at hgo
        obtain ⟨m, -, rfl, rfl⟩ := hgo
        exact .ending (.inr (.inr rfl)) hw
      · cases hgo

theorem Broadcasts.inside {w waiting k : Nat} (h : Broadcasts w waiting k p) (hp : p ≠ .user) :
    p.Inside := by
  cases h with
  | allFor | allRelease | allWhile | allCount | allAwait => trivial
  | ending hend =>
      rcases hend with rfl | rfl | rfl
      · trivial
      · trivial
      · exact absurd rfl hp

/-- A call that holds `wait_mtx_` and is not `Wait()` neither waits nor answers. -/
theorem Broadcasts.answering {w waiting k : Nat} (h : Broadcasts w waiting k p) :
    p.answering = 0 := by
  cases h with
  | allFor | allRelease | allWhile | allCount | allAwait => rfl
  | ending hend => rcases hend with rfl | rfl | rfl <;> rfl

namespace State

variable {s s' : State T} {is js : List (T × Act)}

/-- The permits that are under way. -/
def permits [Fintype T] (s : State T) : Nat :=
  s.cv.sem1_ + total Pc.answering s.pc + s.cv.sem2_

/-- A step of another thread, while `t` holds `wait_mtx_`. -/
theorem step_other [Fintype T] (hs : s.Inv) (ht : (s.pc t).Inside) (hut : u ≠ t)
    (h : s.step (u, a) = some s') :
    s'.pc t = s.pc t ∧ s'.cv.waiting_ = s.cv.waiting_ ∧ s'.permits = s.permits := by
  obtain ⟨c', p', hact, rfl⟩ := step_eq_some.1 h
  have hu : ¬ (s.pc u).Inside := fun hin => hut (hs.wait_mtx.unique hin ht)
  obtain ⟨hw, hk, -⟩ := act_counts hact hu (total_update Pc.waiter s.pc u p')
    (total_update Pc.answering s.pc u p') hs.books.sem2_lt
  exact ⟨Function.update_of_ne hut.symm _ _, hw, hk⟩

/-- A step of `t` itself. -/
theorem step_self (h : s.step (t, a) = some s') :
    s.cv.act t a (s.pc t) = some (s'.cv, s'.pc t) := by
  obtain ⟨c', p', hact, rfl⟩ := step_eq_some.1 h
  exact hact.trans (congrArg (fun q => some (c', q)) (Function.update_self t p' s.pc).symm)

/-- Inside a call, the only step is the next one of the call. -/
theorem go_self (h : s.step (t, a) = some s') (ht : s.pc t ≠ .user) :
    s.cv.go t (s.pc t) = some (s'.cv, s'.pc t) := by
  rcases act_cases (step_self h) with hgo | ⟨hu, -⟩
  · exact hgo
  · exact absurd hu ht

/-! ### One `Signal()` -/

/-- `t` has taken `n` steps of a `Signal()` that read `w` from `waiting_`. -/
def Signals (t : T) (w : Nat) (s : State T) : Nat → Prop
  | 0     => s.pc t = .signalTest ∧ s.cv.waiting_ = w
  | 1     => s.pc t = .signalCount ∧ s.cv.waiting_ = w
  | 2     => s.pc t = .signalRelease ∧ s.cv.waiting_ + 1 = w
  | 3     => s.pc t = .signalAwait ∧ s.cv.waiting_ + 1 = w
  | 4     => s.pc t = .signalUnlock ∧ s.cv.waiting_ + 1 = w
  | _ + 5 => True

omit [DecidableEq T] in
theorem Signals.inside {w n : Nat} (h : Signals t w s n) (hn : n ≤ 4) : (s.pc t).Inside := by
  match n, hn with
  | 0, _ | 1, _ | 2, _ | 3, _ | 4, _ =>
      rw [h.1]
      trivial

/-- The next step of the `Signal()`. -/
theorem Signals.next {w n : Nat} (h : Signals t w s n) (hw : 0 < w) (hn : n ≤ 4)
    (hstep : s.step (t, a) = some s') : Signals t w s' (n + 1) := by
  match n, hn with
  | 0, _ =>
      obtain ⟨hpc, hwait⟩ := h
      have hgo := go_self hstep (by rw [hpc]; exact Pc.noConfusion)
      rw [hpc] at hgo
      obtain ⟨hc, hp⟩ := Prod.mk.inj (Option.some.inj hgo)
      rw [if_pos (hwait ▸ hw)] at hp
      exact ⟨hp.symm, hc ▸ hwait⟩
  | 1, _ =>
      obtain ⟨hpc, hwait⟩ := h
      have hgo := go_self hstep (by rw [hpc]; exact Pc.noConfusion)
      rw [hpc] at hgo
      obtain ⟨hc, hp⟩ := Prod.mk.inj (Option.some.inj hgo)
      refine ⟨hp.symm, ?_⟩
      rw [← hc, ← hwait]
      exact Nat.sub_add_cancel (hwait ▸ hw)
  | 2, _ =>
      obtain ⟨hpc, hwait⟩ := h
      have hgo := go_self hstep (by rw [hpc]; exact Pc.noConfusion)
      rw [hpc] at hgo
      obtain ⟨hc, hp⟩ := Prod.mk.inj (Option.some.inj hgo)
      exact ⟨hp.symm, hc ▸ hwait⟩
  | 3, _ =>
      obtain ⟨hpc, hwait⟩ := h
      have hgo := go_self hstep (by rw [hpc]; exact Pc.noConfusion)
      rw [hpc] at hgo
      simp only [CondVar.go, Option.bind_eq_bind, Option.bind_eq_some_iff, Option.some.injEq,
        Prod.mk.injEq] at hgo
      obtain ⟨m, -, hc, hp⟩ := hgo
      exact ⟨hp.symm, hc ▸ hwait⟩
  | 4, _ => exact trivial

section

variable [Fintype T]

/-- A run in which `t` takes no more steps than its `Signal()` has. -/
theorem Signals.run {w : Nat} (hw : 0 < w) : ∀ (js : List (T × Act)) (n : Nat) (s s' : State T),
    s.Inv → Signals t w s n → n + js.countP (fun j => j.1 = t) ≤ 4 →
    run State.step s js = some s' → Signals t w s' (n + js.countP (fun j => j.1 = t)) := by
  intro js
  induction js with
  | nil =>
      intro n s s' _ h _ hrun
      exact Option.some.inj hrun ▸ h
  | cons j js ih =>
      intro n s s' hs h hn hrun
      obtain ⟨u, b⟩ := j
      obtain ⟨s₁, h₁, hrun⟩ := run_cons.1 hrun
      by_cases hj : u = t
      · subst hj
        rw [List.countP_cons_of_pos (by simp)] at hn ⊢
        have hnext := h.next hw (by omega) h₁
        rw [show n + (js.countP (fun j => j.1 = u) + 1) = n + 1 + js.countP (fun j => j.1 = u) by
          omega] at hn ⊢
        exact ih (n + 1) s₁ s' (hs.step h₁) hnext hn hrun
      · rw [List.countP_cons_of_neg (by simpa using hj)] at hn ⊢
        obtain ⟨hpc, hwait, -⟩ := step_other hs (h.inside (by omega)) hj h₁
        refine ih n s₁ s' (hs.step h₁) ?_ hn hrun
        match n, h with
        | 0, h | 1, h | 2, h | 3, h | 4, h => exact ⟨hpc.trans h.1, hwait ▸ h.2⟩
        | _ + 5, h => exact trivial

/-- A `Signal()` that finds waiters lets exactly one of them go, whatever the other threads do
between its four steps. -/
theorem signal_wakes_one (h : Runs.run State.step State.init is = some s)
    (ht : s.pc t = .signalTest) (hw : 0 < total Pc.waiter s.pc)
    (hjs : js.countP (fun j => j.1 = t) = 4) (hrun : Runs.run State.step s js = some s') :
    s'.pc t = .signalUnlock ∧ total Pc.waiter s'.pc + 1 = total Pc.waiter s.pc := by
  have hs := Inv.init.run h
  have hread := (hs.waiting_eq (.inl ht)).1
  have hrest := Signals.run (w := s.cv.waiting_) (hread ▸ hw) js 0 s s' hs ⟨ht, rfl⟩ (by omega) hrun
  rw [hjs] at hrest
  obtain ⟨hpc, hwait⟩ := hrest
  refine ⟨hpc, ?_⟩
  -- no permit is under way any more
  have hs' := hs.run hrun
  have hown := (hs'.wait_mtx t).1 (by rw [hpc]; trivial)
  obtain ⟨b, k, hr, hk, hp⟩ := hs'.books
  rw [holder_of_owner hown] at hp
  simp only [hpc, Phase] at hp
  omega

/-- `t` and `u` wait, and `v` begins a call. -/
def twoWait (t u v : T) (call : Act) : List (T × Act) :=
  [(t, .lock), (t, .wait)] ++ List.replicate 4 (t, .go) ++
    [(u, .lock), (u, .wait)] ++ List.replicate 4 (u, .go) ++ [(v, call), (v, .go)]

theorem signal_wakes_one_of_two : ∃ s s' : State (Fin 3),
    Runs.run State.step State.init (twoWait 0 1 2 .signal) = some s ∧ s.pc 2 = .signalTest ∧
      total Pc.waiter s.pc = 2 ∧ s'.pc 2 = .signalUnlock ∧
        total Pc.waiter s'.pc + 1 = total Pc.waiter s.pc := by
  obtain ⟨s, h, hpc, hw, s', hrun⟩ : ∃ s : State (Fin 3),
      Runs.run State.step State.init (twoWait 0 1 2 .signal) = some s ∧ s.pc 2 = .signalTest ∧
        total Pc.waiter s.pc = 2 ∧ ∃ s', Runs.run State.step s [(2, .go), (2, .go),
          (2, .go), (1, .go), (1, .go), (2, .go)] = some s' :=
    ⟨_, rfl, rfl, by decide, _, rfl⟩
  exact ⟨s, s', h, hpc, hw, signal_wakes_one h hpc (by omega) rfl hrun⟩

/-! ### Calls that come to rest -/

/-- The steps of calls. -/
def Going (i : T × Act) : Prop := i.2 = .go

/-- A bound on the steps the calls still have. -/
def rank (s : State T) : Nat := total Pc.rank s.pc + 4 * s.cv.waiting_

/-- A step of a call brings it nearer to its end. -/
theorem rank_lt (hs : s.Inv) {i : T × Act} (hi : Going i) (h : s.step i = some s') :
    s'.rank < s.rank := by
  obtain ⟨t, a⟩ := i
  obtain ⟨c', p', hact, rfl⟩ := step_eq_some.1 h
  obtain rfl : a = .go := hi
  have hphase : (s.pc t).Inside → ∃ b k, Phase s.cv.waiting_ b k (s.pc t) := by
    intro hin
    obtain ⟨b, k, -, -, hp⟩ := hs.books
    rw [holder_of_owner ((hs.wait_mtx t).1 hin)] at hp
    exact ⟨b, k, hp⟩
  have hlt := go_rank (c := s.cv) hact
    (by
      intro i hi
      obtain ⟨b, k, hp⟩ := hphase (by rw [hi]; trivial)
      rw [hi] at hp
      exact hp.2.2)
    (by
      intro i hi
      obtain ⟨b, k, hp⟩ := hphase (by rw [hi]; trivial)
      rw [hi] at hp
      exact hp.2.1)
  have hrank := total_update Pc.rank s.pc t p'
  unfold rank
  simp only
  omega

/-- `t` waits for an answer in `SignalAll()`, and nobody is going to give one. -/
def Stranded (t : T) (s : State T) : Prop := s.pc t = .allAwait 0 ∧ s.permits = 0

/-- No call can go on. -/
abbrev AtRest (s : State T) : Prop := Quiet State.step Going s

omit [Fintype T] in
theorem AtRest.blocked (h : s.AtRest) (t : T) : Blocked t s.cv (s.pc t) := by
  refine blocked_of_go ?_
  cases hgo : s.cv.go t (s.pc t) with
  | none => rfl
  | some x =>
      obtain ⟨c, p⟩ := x
      have hstep : s.step (t, .go) = some { cv := c, pc := Function.update s.pc t p } :=
        step_eq_some.2 ⟨c, p, hgo, rfl⟩
      rw [h (t, .go) rfl] at hstep
      cases hstep

/-- No mutex keeps a thread from unlocking it. -/
theorem AtRest.not_unlocking (h : s.AtRest) (hs : s.Inv) (t : T) :
    s.pc t ≠ .waitRelease ∧
      ((s.pc t).Inside → s.pc t = .signalAwait ∨ ∃ i, s.pc t = .allAwait i) := by
  have hb := h.blocked t
  have hmu := hs.mu t
  have hin := (hs.wait_mtx t).1
  generalize s.pc t = p at hb hmu hin
  cases hb with
  | user | waitSem1 | waitRelock => exact ⟨Pc.noConfusion, False.elim⟩
  | waitRelease hno =>
      obtain ⟨m, hm⟩ := Mutex.unlock_of_owner (hmu trivial)
      rw [hno] at hm
      cases hm
  | lock hp hno => rcases hp with rfl | rfl | rfl <;> exact ⟨Pc.noConfusion, False.elim⟩
  | unlock hp hno =>
      obtain ⟨m, hm⟩ := Mutex.unlock_of_owner (hin (by rcases hp with rfl | rfl | rfl <;> trivial))
      rw [hno] at hm
      cases hm
  | signalAwait => exact ⟨Pc.noConfusion, fun _ => .inl rfl⟩
  | allAwait => exact ⟨Pc.noConfusion, fun _ => .inr ⟨_, rfl⟩⟩

/-- No permit stays under way: a waiter takes it, or answers. -/
theorem AtRest.no_permits (h : s.AtRest) (hs : s.Inv) :
    s.cv.sem1_ = 0 ∧ total Pc.answering s.pc = 0 := by
  constructor
  · by_contra hne
    obtain ⟨b, k, hr, -, -⟩ := hs.books
    obtain ⟨u, hu⟩ := Threads.exists_of_total_pos (w := Pc.waiter) (f := s.pc) (by omega)
    have hb := h.blocked u
    obtain ⟨hrel, hin⟩ := h.not_unlocking hs u
    generalize s.pc u = p at hu hb hrel hin
    cases hb with
    | user | waitRelock | signalAwait | allAwait => exact absurd hu (Nat.lt_irrefl 0)
    | waitSem1 hno => exact hne hno
    | waitRelease => exact hrel rfl
    | lock hp => rcases hp with rfl | rfl | rfl <;> exact absurd hu (Nat.lt_irrefl 0)
    | unlock hp =>
        rcases hin (by rcases hp with rfl | rfl | rfl <;> trivial) with rfl | ⟨i, rfl⟩ <;>
          exact absurd hu (Nat.lt_irrefl 0)
  · by_contra hne
    obtain ⟨u, hu⟩ := Threads.exists_of_total_pos (w := Pc.answering) (f := s.pc) (by omega)
    have hb := h.blocked u
    generalize s.pc u = p at hu hb
    cases hb with
    | user | waitSem1 | waitRelock | waitRelease | signalAwait | allAwait =>
        exact absurd hu (Nat.lt_irrefl 0)
    | lock hp | unlock hp => rcases hp with rfl | rfl | rfl <;> exact absurd hu (Nat.lt_irrefl 0)

/-- At rest, a thread that holds `wait_mtx_` waits for an answer that nobody is going to give. -/
theorem AtRest.stranded (h : s.AtRest) (hs : s.Inv) (ht : (s.pc t).Inside) : Stranded t s := by
  obtain ⟨hsem1, hans⟩ := h.no_permits hs
  have hb := h.blocked t
  obtain ⟨b, k, hr, hk, hp⟩ := hs.books
  rw [holder_of_owner ((hs.wait_mtx t).1 ht)] at hp
  have hin := (h.not_unlocking hs t).2 ht
  unfold Stranded permits
  generalize s.pc t = p at hb hp hin
  rcases hin with rfl | ⟨i, rfl⟩
  · cases hb with
    | signalAwait hno =>
        simp only [Phase] at hp
        omega
    | lock hno | unlock hno => rcases hno with h | h | h <;> cases h
  · cases hb with
    | allAwait hno =>
        obtain ⟨rfl, -⟩ := hp
        exact ⟨rfl, by omega⟩
    | lock hno | unlock hno => rcases hno with h | h | h <;> cases h

/-- `t` is in its own code, or waits for a `Signal()`, or for another thread's own code to unlock
`*mu_`. -/
def Resting (t : T) (s : State T) : Prop :=
  s.pc t = .user ∨ s.pc t = .waitSem1 ∨
    s.pc t = .waitRelock ∧ ∃ u, u ≠ t ∧ s.cv.mu_.owner = some u ∧
      (s.pc u = .user ∨ s.pc u = .waitSem1)

theorem AtRest.resting (h : s.AtRest) (hs : s.Inv) (hno : ∀ u, ¬ Stranded u s) (t : T) :
    Resting t s := by
  have hout : ∀ u, ¬ (s.pc u).Inside := fun u hu => hno u (h.stranded hs hu)
  have hplaces : ∀ u, s.pc u = .user ∨ s.pc u = .waitSem1 ∨
      s.pc u = .waitRelock ∧ s.cv.mu_.lock u = none := by
    intro u
    have hb := h.blocked u
    have hrel := (h.not_unlocking hs u).1
    have hu := hout u
    generalize s.pc u = p at hb hrel hu
    cases hb with
    | user => exact .inl rfl
    | waitSem1 => exact .inr (.inl rfl)
    | waitRelock hl => exact .inr (.inr ⟨rfl, hl⟩)
    | waitRelease => exact absurd rfl hrel
    | signalAwait | allAwait => exact absurd trivial hu
    | unlock hp => rcases hp with rfl | rfl | rfl <;> exact absurd trivial hu
    | lock hp hl =>
        -- whoever holds `wait_mtx_` is inside
        obtain ⟨v, -, hv⟩ := Mutex.owner_of_blocked hl
        exact absurd ((hs.wait_mtx v).2 hv) (hout v)
  rcases hplaces t with ht | ht | ⟨ht, hl⟩
  · exact .inl ht
  · exact .inr (.inl ht)
  · obtain ⟨u, hut, hu⟩ := Mutex.owner_of_blocked hl
    refine .inr (.inr ⟨ht, u, hut, hu, ?_⟩)
    rcases hplaces u with h | h | ⟨-, hlu⟩
    · exact .inl h
    · exact .inr h
    · -- the owner of `*mu_` can lock it again
      obtain ⟨v, hvu, hv⟩ := Mutex.owner_of_blocked hlu
      exact absurd (Option.some.inj (hv.symm.trans hu)) hvu

/-- From every reachable state the calls come to rest within `rank` steps, in any order.  Then no
thread is inside `Wait()` but for a `Signal()` or for `*mu_`, and none is in `Signal()` or
`SignalAll()`; or a `SignalAll()` is stranded. -/
theorem calls_settle (h : Runs.run State.step State.init is = some s) (hgo : ∀ j ∈ js, Going j)
    (hrun : Runs.run State.step s js = some s') :
    js.length ≤ s.rank ∧ (s'.AtRest → (∃ t, Stranded t s') ∨ ∀ t, Resting t s') := by
  have hs := Inv.init.run h
  have hlen := Runs.run_length_add_le inv_keeps (fun _ _ _ hs hi h => rank_lt hs hi h)
    js s s' hs hgo hrun
  refine ⟨by omega, fun hrest => ?_⟩
  by_cases hst : ∃ t, Stranded t s'
  · exact .inl hst
  · exact .inr fun t => hrest.resting (hs.run hrun) (not_exists.1 hst) t

theorem calls_settle_one : ∃ s s' : State Bool,
    Runs.run State.step State.init oneWaits = some s ∧
      Runs.run State.step s [(true, .go)] = some s' ∧
      (s'.AtRest → (∃ t, Stranded t s') ∨ ∀ t, Resting t s') := by
  obtain ⟨s, s', h, hrun⟩ : ∃ s s' : State Bool,
      Runs.run State.step State.init oneWaits = some s ∧
        Runs.run State.step s [(true, .go)] = some s' := ⟨_, _, rfl, rfl⟩
  have hgo : ∀ j ∈ [(true, Act.go)], Going j := List.forall_mem_singleton.2 rfl
  exact ⟨s, s', h, hrun, (calls_settle h hgo hrun).2⟩

/-! ### One `SignalAll()` -/

/-- The `SignalAll()` of `t`, which found `w` waiters, at a step of any thread. -/
theorem broadcasts_step {w : Nat} (hs : s.Inv)
    (h : Broadcasts w s.cv.waiting_ s.permits (s.pc t)) (ht : s.pc t ≠ .user)
    (hstep : s.step (u, a) = some s') : Broadcasts w s'.cv.waiting_ s'.permits (s'.pc t) := by
  have hin := h.inside ht
  by_cases hut : u = t
  · subst hut
    obtain ⟨b, k, -, rfl, hp⟩ := hs.books
    rw [holder_of_owner ((hs.wait_mtx u).1 hin)] at hp
    have hnext := Broadcasts.go h hp (go_self hstep ht)
    have hans : total Pc.answering s'.pc = total Pc.answering s.pc := by
      obtain ⟨c', p', -, rfl⟩ := step_eq_some.1 hstep
      have hupd := total_update Pc.answering s.pc u p'
      have hnew : p'.answering = 0 := (congrArg Pc.answering
        (Function.update_self u p' s.pc)).symm.trans hnext.answering
      rw [h.answering, hnew] at hupd
      exact hupd
    rw [permits, hans]
    exact hnext
  · obtain ⟨hpc, hwait, hperm⟩ := step_other hs hin hut hstep
    rw [hpc, hwait, hperm]
    exact h

/-- Two waiters are too many. -/
theorem broadcasts_run {w : Nat} (hw : 2 ≤ w) (hs : s.Inv)
    (h : Broadcasts w s.cv.waiting_ s.permits (s.pc t))
    (hrun : Runs.run State.step s js = some s') :
    s'.Inv ∧ Broadcasts w s'.cv.waiting_ s'.permits (s'.pc t) ∧ s'.pc t ≠ .user := by
  have hne : ∀ {s : State T}, Broadcasts w s.cv.waiting_ s.permits (s.pc t) → s.pc t ≠ .user := by
    intro s h hu
    rw [hu] at h
    cases h with
    | ending _ hle => omega
  have hkeep := run_keeps (P := fun s => s.Inv ∧ Broadcasts w s.cv.waiting_ s.permits (s.pc t))
    (fun s i s' hs h => ⟨inv_keeps s i s' hs.1 h,
      broadcasts_step (u := i.1) (a := i.2) hs.1 hs.2 (hne hs.2) h⟩) js s s' ⟨hs, h⟩ hrun
  exact ⟨hkeep.1, hkeep.2, hne hkeep.2⟩

omit [Fintype T] in
/-- Steps of calls leave a thread in its own code. -/
theorem user_of_going {i : T × Act} (hi : Going i) (ht : s.pc t = .user) (h : s.step i = some s') :
    s'.pc t = .user := by
  obtain ⟨u, a⟩ := i
  obtain ⟨c', p', hact, rfl⟩ := step_eq_some.1 h
  obtain rfl : a = .go := hi
  by_cases hut : u = t
  · subst hut
    rw [ht] at hact
    cases hact
  · exact (Function.update_of_ne (Ne.symm hut) _ _).trans ht

theorem broadcasts_going {w : Nat} {i : T × Act} (hi : Going i) (hs : s.Inv)
    (h : Broadcasts w s.cv.waiting_ s.permits (s.pc t)) (hstep : s.step i = some s') :
    Broadcasts w s'.cv.waiting_ s'.permits (s'.pc t) := by
  by_cases ht : s.pc t = .user
  · rw [user_of_going hi ht hstep]
    rw [ht] at h
    cases h with
    | ending _ hle => exact .ending (.inr (.inr rfl)) hle
  · exact broadcasts_step (u := i.1) (a := i.2) hs h ht hstep

/-- `SignalAll()` can return exactly where it finds at most one waiter. -/
theorem signalAll_returns_iff (h : Runs.run State.step State.init is = some s)
    (ht : s.pc t = .allFor 0) :
    (∃ js s', Runs.run State.step s js = some s' ∧ s'.pc t = .user) ↔
      total Pc.waiter s.pc ≤ 1 := by
  have hs := Inv.init.run h
  have hread := (hs.waiting_eq (.inr ht)).1
  have hb : Broadcasts (total Pc.waiter s.pc) s.cv.waiting_ s.permits (s.pc t) := by
    rw [ht]
    exact .allFor hread
  constructor
  · rintro ⟨js, s', hrun, hu⟩
    by_contra hw
    exact (broadcasts_run (by omega) hs hb hrun).2.2 hu
  · intro hw
    obtain ⟨js, s', hjs, hrun, hrest⟩ := Runs.exists_quiet inv_keeps
      (fun _ _ _ hs (hi : Going _) h => rank_lt hs hi h) s.rank s le_rfl hs
    refine ⟨js, s', hrun, ?_⟩
    obtain ⟨hs', hb'⟩ := Runs.run_keeps_of
      (P := fun x => x.Inv ∧ Broadcasts (total Pc.waiter s.pc) x.cv.waiting_ x.permits (x.pc t))
      (fun x i x' hx (hi : Going i) h =>
        ⟨inv_keeps x i x' hx.1 h, broadcasts_going hi hx.1 hx.2 h⟩) js s s' ⟨hs, hb⟩ hjs hrun
    by_contra hu
    -- inside, the call would wait for an answer that is not under way
    obtain ⟨hawait, hzero⟩ := AtRest.stranded hrest hs' (hb'.inside hu)
    rw [hawait] at hb'
    cases hb' with
    | allAwait heq => omega
    | ending hp => rcases hp with hp | hp | hp <;> cases hp

/-- And where it finds more, it returns in no run, holds `wait_mtx_` for good and has let one waiter
go: the others sleep on, and every later `Wait()`, `Signal()` and `SignalAll()` blocks. -/
theorem signalAll_strands (h : Runs.run State.step State.init is = some s)
    (ht : s.pc t = .allFor 0) (hw : 2 ≤ total Pc.waiter s.pc)
    (hrun : Runs.run State.step s js = some s') :
    s'.cv.wait_mtx_.owner = some t ∧ total Pc.waiter s.pc ≤ total Pc.waiter s'.pc + 1 := by
  have hs := Inv.init.run h
  have hread := (hs.waiting_eq (.inr ht)).1
  obtain ⟨hs', hb, hu⟩ := broadcasts_run (t := t) hw hs (ht ▸ .allFor hread) hrun
  have hown := (hs'.wait_mtx t).1 (hb.inside hu)
  refine ⟨hown, ?_⟩
  obtain ⟨b, k, hr, rfl, hp⟩ := hs'.books
  rw [holder_of_owner hown] at hp
  unfold permits at hb
  generalize s'.pc t = p at hb hp
  cases hb with
  | allFor heq | allRelease heq | allWhile heq | allCount heq | allAwait heq =>
      simp only [Phase] at hp
      omega
  | ending hp' hle => omega

theorem signalAll_returns_iff_two : ∃ s : State (Fin 3),
    Runs.run State.step State.init (twoWait 0 1 2 .signalAll) = some s ∧ s.pc 2 = .allFor 0 ∧
      ¬ ∃ js s', Runs.run State.step s js = some s' ∧ s'.pc 2 = .user := by
  obtain ⟨s, h, hpc, hw⟩ : ∃ s : State (Fin 3),
      Runs.run State.step State.init (twoWait 0 1 2 .signalAll) = some s ∧ s.pc 2 = .allFor 0 ∧
        total Pc.waiter s.pc = 2 := ⟨_, rfl, rfl, by decide⟩
  refine ⟨s, h, hpc, fun hreturn => ?_⟩
  have hle := (signalAll_returns_iff h hpc).1 hreturn
  omega

theorem signalAll_strands_two : ∃ s s' : State (Fin 3),
    Runs.run State.step State.init (twoWait 0 1 2 .signalAll) = some s ∧
      s'.cv.wait_mtx_.owner = some 2 ∧ total Pc.waiter s.pc ≤ total Pc.waiter s'.pc + 1 := by
  obtain ⟨s, h, hpc, hw, s', hrun⟩ : ∃ s : State (Fin 3),
      Runs.run State.step State.init (twoWait 0 1 2 .signalAll) = some s ∧ s.pc 2 = .allFor 0 ∧
        2 ≤ total Pc.waiter s.pc ∧ ∃ s', Runs.run State.step s (List.replicate 3 (2, .go) ++
          List.replicate 2 (0, .go) ++ List.replicate 3 (2, .go)) = some s' :=
    ⟨_, rfl, rfl, by decide, _, rfl⟩
  exact ⟨s, s', h, signalAll_strands h hpc hw hrun⟩

end

end State

end Leveldb.Port
