import MyLeveldb.Basics
import MyLeveldb.Support.Machines.Runs
import MyLeveldb.Support.Machines.Threads

/-!
# Env — RandomAccess

`PosixRandomAccessFile::Read` of `env_boost.cc`, under `WIN32`: there is no `pread`, so that a read
moves the one position of the file descriptor, behind a mutex.  Any number of threads read at once.

A step of a thread is a call on the mutex or the file descriptor.  What a system call returns is not
the code's to say, within what is documented: a seek or a read may fail, and a read may be short.

`size_t` has 64 bits, and `_read` takes an `unsigned` of 32.  So a `Read` of a multiple of 2^32
bytes reads nothing and its status is OK (`reads_own_bytes`).  A count of 2^31 or more is an invalid
parameter to `_read`: it calls the handler for these, which ends the program if it is the default
one, and returns `-1` if the handler returns.
-/

namespace Leveldb.PosixRandomAccessFile

open Runs (run run_keeps run_length_add_le Quiet)
open Threads (total total_update Guards)

/-- The arguments of `Read(offset, n, result, scratch)`. -/
structure Request where
  offset : U64
  n : U64
  deriving DecidableEq, Repr

/-- `n` as the third argument of `_read`, an `unsigned`. -/
def Request.count (q : Request) : Nat := q.n.toNat % 2 ^ 32

/-- Whether the status is OK, and what is in `*result`, if it has been set. -/
structure Answer where
  ok : Bool
  result : Option Bytes
  deriving DecidableEq, Repr

/-- What a thread does next. -/
inductive Place where
  /-- code of the program -/
  | user
  /-- `unique_lock lock(mu_)` -/
  | lock (q : Request)
  /-- `_lseeki64(fd_, offset, SEEK_SET)` -/
  | seek (q : Request)
  /-- `_read(fd_, scratch, n)` -/
  | read (q : Request)
  /-- `lock.unlock()`, or the destructor of `lock`, and `return` -/
  | unlock (q : Request) (a : Answer)
  deriving DecidableEq, Repr

/-- What can happen to a thread. -/
inductive Act where
  /-- its code calls `Read` -/
  | read (q : Request)
  /-- its next step; `r` is what a system call returns, `none` for `-1` -/
  | go (r : Option Nat)
  deriving DecidableEq, Repr

/-- The members of the object, where the file descriptor is, the threads and the reads that have
returned. -/
structure State (T : Type) where
  mu_ : Option T
  pos : Nat
  threads : T → Place
  answers : List (T × Request × Answer)

/-- `_read` of a valid count can return `k` bytes. -/
def CanRead (file : Bytes) (pos count k : Nat) : Prop :=
  count < 2 ^ 31 ∧ k ≤ count ∧ k ≤ file.length - pos ∧ (k = 0 → count = 0 ∨ file.length ≤ pos)

instance (file : Bytes) (pos count k : Nat) : Decidable (CanRead file pos count k) :=
  inferInstanceAs (Decidable (_ ∧ _ ∧ _ ∧ _))

namespace State

variable {T : Type}

def init : State T := { mu_ := none, pos := 0, threads := fun _ => .user, answers := [] }

variable [DecidableEq T]

def put (s : State T) (t : T) (p : Place) : State T :=
  { s with threads := Function.update s.threads t p }

/-- The next step of `t`. -/
def go (file : Bytes) (s : State T) (t : T) (r : Option Nat) : Place → Option (State T)
  | .user => none
  | .lock q => if s.mu_.isNone then some (put { s with mu_ := some t } t (.seek q)) else none
  | .seek q =>
      match r with
      | none   => some (s.put t (.unlock q { ok := false, result := none }))
      | some _ =>
          -- an offset from 2^63 on is negative
          if q.offset.toNat < 2 ^ 63 then some (put { s with pos := q.offset.toNat } t (.read q))
          else none
  | .read q =>
      match r with
      | none   => some (s.put t (.unlock q { ok := false, result := some [] }))
      | some k =>
          if CanRead file s.pos q.count k then
            some (put { s with pos := s.pos + k } t
              (.unlock q { ok := true, result := some ((file.drop s.pos).take k) }))
          else none
  | .unlock q a => some (put { s with mu_ := none, answers := s.answers ++ [(t, q, a)] } t .user)

/-- A step of one thread. -/
def step (file : Bytes) (s : State T) (i : T × Act) : Option (State T) :=
  match i.2 with
  | .read q => if s.threads i.1 = .user then some (s.put i.1 (.lock q)) else none
  | .go r   => s.go file i.1 r (s.threads i.1)

end State

/-! ### What a step keeps -/

/-- Between the locking and the unlocking of `mu_`. -/
def Place.Inside : Place → Prop
  | .seek _ | .read _ | .unlock _ _ => True
  | _                               => False

/-- What `pread(fd, scratch, count, offset)` may read. -/
structure Piece (file : Bytes) (offset count : Nat) (bytes : Bytes) : Prop where
  here : bytes <+: file.drop offset
  short : bytes.length ≤ count
  /-- nothing only where nothing is asked for, or nothing is left -/
  empty : bytes = [] → count = 0 ∨ file.length ≤ offset

/-- The result is one that `pread` could have given of the size that `_read` is called with. -/
def Served (file : Bytes) (q : Request) (a : Answer) : Prop :=
  a.ok → q.offset.toNat < 2 ^ 63 ∧ q.count < 2 ^ 31 ∧
    ∃ bytes, a.result = some bytes ∧ Piece file q.offset.toNat q.count bytes

/-- The result is one that `pread` could have given of the size asked for. -/
def Right (file : Bytes) (q : Request) (a : Answer) : Prop :=
  ∃ bytes, a.result = some bytes ∧ Piece file q.offset.toNat q.n.toNat bytes

/-- The two sizes differ only where that does not show: something is asked for of `_read`, or there
is nothing to return. -/
def Request.Kept (file : Bytes) (q : Request) : Prop :=
  q.count = 0 → q.n = 0 ∨ file.length ≤ q.offset.toNat

theorem Request.count_le (q : Request) : q.count ≤ q.n.toNat := Nat.mod_le _ _

/-- A piece of the smaller size is one of the larger, but for the empty one. -/
theorem Piece.right_iff {file bytes : Bytes} {q : Request}
    (h : Piece file q.offset.toNat q.count bytes) :
    Piece file q.offset.toNat q.n.toNat bytes ↔ q.Kept file := by
  constructor
  · intro hn hzero
    have hnil : bytes = [] := List.length_eq_zero_iff.1 (Nat.le_zero.1 (hzero ▸ h.short))
    exact (hn.empty hnil).imp_left fun hz => BitVec.eq_of_toNat_eq hz
  · intro hkept
    refine ⟨h.here, h.short.trans q.count_le, fun hnil => ?_⟩
    rcases h.empty hnil with hzero | hend
    · exact (hkept hzero).imp_left fun hz => by rw [hz]; rfl
    · exact .inr hend

/-- What a thread at `p` can rely on. -/
def Place.Holds (file : Bytes) (pos : Nat) : Place → Prop
  | .read q     => pos = q.offset.toNat ∧ q.offset.toNat < 2 ^ 63
  | .unlock q a => Served file q a
  | _           => True

theorem Place.holds_outside {file : Bytes} {pos : Nat} {p : Place} (hp : ¬ p.Inside) :
    p.Holds file pos := by
  cases p with
  | user | lock => trivial
  | seek | read | unlock => exact absurd trivial hp

/-- What the system call returns is what the file has at the offset. -/
theorem CanRead.served {file : Bytes} {q : Request} {k : Nat} (hlow : q.offset.toNat < 2 ^ 63)
    (h : CanRead file q.offset.toNat q.count k) :
    Served file q { ok := true, result := some ((file.drop q.offset.toNat).take k) } := by
  obtain ⟨hcount, hk, hleft, hempty⟩ := h
  have hlen : ((file.drop q.offset.toNat).take k).length = k := by
    rw [List.length_take, List.length_drop]
    omega
  refine fun _ => ⟨hlow, hcount, _, rfl, List.take_prefix _ _, hlen.le.trans hk, fun hnil => ?_⟩
  rw [hnil] at hlen
  exact hempty hlen.symm

namespace State

variable {T : Type} {file : Bytes} {s s' : State T} {t u : T} {is js : List (T × Act)}

structure Inv (file : Bytes) (s : State T) : Prop where
  mutex : Guards Place.Inside s.mu_ s.threads
  holds : ∀ t, (s.threads t).Holds file s.pos
  answers : ∀ x ∈ s.answers, Served file x.2.1 x.2.2

variable [DecidableEq T]

/-- A step, taken apart. -/
inductive Move (file : Bytes) (s : State T) (t : T) : State T → Prop where
  | call (q : Request) (hp : s.threads t = .user) : Move file s t (s.put t (.lock q))
  | lock (q : Request) (hp : s.threads t = .lock q) (hm : s.mu_ = none) :
      Move file s t (put { s with mu_ := some t } t (.seek q))
  | seek (q : Request) (hp : s.threads t = .seek q) (hlow : q.offset.toNat < 2 ^ 63) :
      Move file s t (put { s with pos := q.offset.toNat } t (.read q))
  | read (q : Request) (hp : s.threads t = .read q) (k : Nat)
      (hk : CanRead file s.pos q.count k) : Move file s t (put { s with pos := s.pos + k } t
        (.unlock q { ok := true, result := some ((file.drop s.pos).take k) }))
  | fail (q : Request) (hp : s.threads t = .seek q ∨ s.threads t = .read q) (a : Answer)
      (ha : a.ok = false) : Move file s t (s.put t (.unlock q a))
  | unlock (q : Request) (a : Answer) (hp : s.threads t = .unlock q a) :
      Move file s t (put { s with mu_ := none, answers := s.answers ++ [(t, q, a)] } t .user)

theorem step_move {a : Act} (h : s.step file (t, a) = some s') : Move file s t s' := by
  cases a with
  | read q =>
      simp only [step] at h
      split_ifs at h with hp
      obtain rfl := Option.some.inj h
      exact .call q hp
  | go r =>
      simp only [step] at h
      cases hp : s.threads t with
      | user =>
          rw [hp] at h
          cases h
      | lock q =>
          simp only [hp, go] at h
          split_ifs at h with hm
          obtain rfl := Option.some.inj h
          exact .lock q hp (Option.isNone_iff_eq_none.1 hm)
      | seek q =>
          rw [hp] at h
          cases r with
          | none =>
              obtain rfl := Option.some.inj h
              exact .fail q (.inl hp) _ rfl
          | some k =>
              simp only [go] at h
              split_ifs at h with hlow
              obtain rfl := Option.some.inj h
              exact .seek q hp hlow
      | read q =>
          rw [hp] at h
          cases r with
          | none =>
              obtain rfl := Option.some.inj h
              exact .fail q (.inr hp) _ rfl
          | some k =>
              simp only [go] at h
              split_ifs at h with hk
              obtain rfl := Option.some.inj h
              exact .read q hp k hk
      | unlock q a =>
          rw [hp] at h
          obtain rfl := Option.some.inj h
          exact .unlock q a hp

/-- The threads outside rely on nothing. -/
theorem Inv.holds_put (hs : s.Inv file) {s₀ : State T} {p : Place} (ht : s₀.threads = s.threads)
    (hpos : s₀.pos = s.pos ∨ (s.threads t).Inside) (hp : p.Holds file s₀.pos) :
    ∀ u, ((s₀.put t p).threads u).Holds file (s₀.put t p).pos := by
  intro u
  by_cases hut : u = t
  · subst hut
    simpa only [put, Function.update_self] using hp
  · simp only [put, Function.update_of_ne hut, ht]
    rcases hpos with hpos | hin
    · rw [hpos]
      exact hs.holds u
    · exact Place.holds_outside fun h => hut (hs.mutex.unique h hin)

theorem Inv.step {a : Act} (hs : s.Inv file) (h : s.step file (t, a) = some s') : s'.Inv file := by
  have hg := hs.mutex
  have hh := hs.holds t
  cases step_move h with
  | call q hp =>
      refine ⟨hg.stay ?_, hs.holds_put rfl (.inl rfl) trivial, hs.answers⟩
      rw [hp]
      exact Iff.rfl
  | lock q hp hm =>
      rw [hm] at hg
      exact ⟨hg.enter trivial, hs.holds_put rfl (.inl rfl) trivial, hs.answers⟩
  | seek q hp hlow =>
      refine ⟨hg.stay ?_, hs.holds_put rfl (.inr (by rw [hp]; trivial)) ⟨rfl, hlow⟩, hs.answers⟩
      rw [hp]
      exact Iff.rfl
  | read q hp k hk =>
      rw [hp] at hh
      obtain ⟨hpos, hlow⟩ := hh
      refine ⟨hg.stay ?_, hs.holds_put rfl (.inr (by rw [hp]; trivial)) ?_, hs.answers⟩
      · rw [hp]
        exact Iff.rfl
      · rw [hpos] at hk ⊢
        exact hk.served hlow
  | fail q hp a ha =>
      refine ⟨hg.stay ?_, hs.holds_put rfl (.inl rfl) fun h => ?_, hs.answers⟩
      · rcases hp with hp | hp <;> rw [hp] <;> exact Iff.rfl
      · rw [ha] at h
        cases h
  | unlock q a hp =>
      rw [hp] at hh
      have hown := (hg t).1 (by rw [hp]; trivial)
      rw [hown] at hg
      refine ⟨hg.leave id, hs.holds_put rfl (.inl rfl) trivial, fun x hx => ?_⟩
      rcases List.mem_append.1 hx with hx | hx
      · exact hs.answers x hx
      · rw [List.mem_singleton.1 hx]
        exact hh

omit [DecidableEq T] in
theorem Inv.init (file : Bytes) : Inv file (State.init : State T) where
  mutex _ := iff_of_false id (Option.some_ne_none _).symm
  holds _ := trivial
  answers _ h := absurd h List.not_mem_nil

theorem inv_keeps (s : State T) (i : T × Act) (s' : State T) (hs : s.Inv file)
    (h : s.step file i = some s') : s'.Inv file :=
  Inv.step (t := i.1) (a := i.2) hs h

/-- Whatever the threads do at once, every read that returns an OK status returns bytes of the file
at its own offset, and what it returns is what `pread` could have of the size asked for, unless this
is a multiple of 2^32 and there is something to return.  No read of an offset of 2^63 or more, or of
a size that is 2^31 or more when cut to 32 bits, returns an OK status. -/
theorem reads_own_bytes (h : Runs.run (State.step file) (State.init : State T) is = some s) :
    ∀ x ∈ s.answers, x.2.2.ok →
      (x.2.1.offset.toNat < 2 ^ 63 ∧ x.2.1.count < 2 ^ 31) ∧
      (∃ bytes, x.2.2.result = some bytes ∧ bytes <+: file.drop x.2.1.offset.toNat ∧
        bytes.length ≤ x.2.1.n.toNat) ∧
      (Right file x.2.1 x.2.2 ↔ x.2.1.Kept file) := by
  intro x hx hok
  obtain ⟨hlow, hcount, bytes, hresult, hpiece⟩ :=
    (run_keeps inv_keeps is _ s (Inv.init file) h).answers x hx hok
  refine ⟨⟨hlow, hcount⟩, ⟨bytes, hresult, hpiece.here, hpiece.short.trans x.2.1.count_le⟩, ?_⟩
  rw [← hpiece.right_iff]
  constructor
  · rintro ⟨bytes', hresult', hpiece'⟩
    rwa [Option.some.inj (hresult.symm.trans hresult')]
  · exact fun hpiece' => ⟨bytes, hresult, hpiece'⟩

/-- Two threads read at once, one of them 2^32 bytes. -/
def twoReads : List (Bool × Act) :=
  [(false, .read ⟨1, 2⟩), (true, .read ⟨3, 0x100000000⟩), (false, .go none), (false, .go (some 1)),
    (false, .go (some 2)), (false, .go none), (true, .go none), (true, .go (some 3)),
    (true, .go (some 0)), (true, .go none)]

theorem reads_own_bytes_two : ∃ s : State Bool,
    Runs.run (State.step [10, 11, 12, 13]) State.init twoReads = some s ∧
      s.answers =
        [(false, ⟨1, 2⟩, ⟨true, some [11, 12]⟩), (true, ⟨3, 0x100000000⟩, ⟨true, some []⟩)] ∧
      Right [10, 11, 12, 13] ⟨1, 2⟩ ⟨true, some [11, 12]⟩ ∧
      ¬ Right [10, 11, 12, 13] ⟨3, 0x100000000⟩ ⟨true, some []⟩ := by
  obtain ⟨s, h, hs⟩ : ∃ s : State Bool,
      Runs.run (State.step [10, 11, 12, 13]) State.init twoReads = some s ∧ s.answers =
        [(false, ⟨1, 2⟩, ⟨true, some [11, 12]⟩), (true, ⟨3, 0x100000000⟩, ⟨true, some []⟩)] :=
    ⟨_, rfl, rfl⟩
  have hkept := (reads_own_bytes h (false, ⟨1, 2⟩, ⟨true, some [11, 12]⟩) (by simp [hs]) rfl).2.2
  have hlost := (reads_own_bytes h (true, ⟨3, 0x100000000⟩, ⟨true, some []⟩) (by simp [hs]) rfl).2.2
  refine ⟨s, h, hs, hkept.2 fun hzero => absurd hzero (by decide), fun hright => ?_⟩
  exact absurd (hlost.1 hright (by decide)) (by decide)

/-! ### At rest -/

/-- The steps of reads. -/
def Going (i : T × Act) : Prop := ∃ r, i.2 = .go r

/-- No read can go on. -/
abbrev AtRest (file : Bytes) (s : State T) : Prop := Quiet (State.step file) Going s

theorem AtRest.go_eq_none (h : s.AtRest file) (t : T) (r : Option Nat) :
    s.go file t r (s.threads t) = none := h (t, .go r) ⟨r, rfl⟩

/-- Nobody keeps the mutex, and so nobody waits for it. -/
theorem AtRest.all_user (h : s.AtRest file) (hs : s.Inv file) (t : T) : s.threads t = .user := by
  have hinside : ∀ u, ¬ (s.threads u).Inside := by
    intro u hu
    have hgo := h.go_eq_none u none
    cases hp : s.threads u with
    | user | lock =>
        rw [hp] at hu
        exact hu
    | seek | read | unlock =>
        rw [hp] at hgo
        cases hgo
  have hgo := h.go_eq_none t none
  cases hp : s.threads t with
  | user => rfl
  | seek | read | unlock => exact absurd (by rw [hp]; trivial) (hinside t)
  | lock q =>
      cases hm : s.mu_ with
      | some u => exact absurd ((hs.mutex u).2 hm) (hinside u)
      | none => simp [hp, go, hm] at hgo

/-- The steps a read still has. -/
def placeRank : Place → Nat
  | .user       => 0
  | .lock _     => 4
  | .seek _     => 3
  | .read _     => 2
  | .unlock _ _ => 1

section

variable [Fintype T]

def rank (s : State T) : Nat := total placeRank s.threads

theorem rank_lt {i : T × Act} (hi : Going i) (h : s.step file i = some s') : s'.rank < s.rank := by
  obtain ⟨t, a⟩ := i
  have hput : ∀ {s₀ : State T} {p : Place}, s₀.threads = s.threads →
      placeRank p < placeRank (s.threads t) → (s₀.put t p).rank < s.rank := by
    intro s₀ p hthreads hlt
    have hupd := total_update placeRank s.threads t p
    simp only [rank, put, hthreads]
    omega
  cases step_move h with
  | call q hp =>
      obtain ⟨r, rfl⟩ := hi
      simp [step, hp, go] at h
  | lock q hp | seek q hp | read q hp | unlock q a hp =>
      refine hput rfl ?_
      rw [hp]
      simp [placeRank]
  | fail q hp a =>
      refine hput rfl ?_
      rcases hp with hp | hp <;> rw [hp] <;> simp [placeRank]

/-- From every reachable state the reads under way return within `rank` steps, in any order, also
where system calls fail; then the mutex is free. -/
theorem reads_settle (h : Runs.run (State.step file) State.init is = some s)
    (hgo : ∀ j ∈ js, Going j) (hrun : Runs.run (State.step file) s js = some s') :
    js.length ≤ s.rank ∧ (s'.AtRest file → s'.mu_ = none ∧ ∀ t, s'.threads t = .user) := by
  have hs := run_keeps inv_keeps is _ s (Inv.init file) h
  have hs' := run_keeps inv_keeps js _ s' hs hrun
  have hlen := run_length_add_le inv_keeps (fun _ _ _ _ hi h => rank_lt hi h) js s s' hs hgo hrun
  refine ⟨by omega, fun hrest => ⟨?_, hrest.all_user hs'⟩⟩
  cases hm : s'.mu_ with
  | none => rfl
  | some t =>
      have hin := (hs'.mutex t).2 hm
      rw [hrest.all_user hs' t] at hin
      exact absurd hin id

theorem reads_settle_failed : ∃ s s' : State Bool,
    Runs.run (State.step [10]) State.init [(false, .read ⟨0x8000000000000000, 1⟩)] = some s ∧
      Runs.run (State.step [10]) s (List.replicate 3 (false, .go none)) = some s' ∧
      s'.answers = [(false, ⟨0x8000000000000000, 1⟩, ⟨false, none⟩)] ∧
      (s'.AtRest [10] → s'.mu_ = none ∧ ∀ t, s'.threads t = .user) := by
  obtain ⟨s, s', h, hrun, hs'⟩ : ∃ s s' : State Bool,
      Runs.run (State.step [10]) State.init [(false, .read ⟨0x8000000000000000, 1⟩)] = some s ∧
        Runs.run (State.step [10]) s (List.replicate 3 (false, .go none)) = some s' ∧
        s'.answers = [(false, ⟨0x8000000000000000, 1⟩, ⟨false, none⟩)] := ⟨_, _, rfl, rfl, rfl⟩
  have hgo : ∀ j ∈ List.replicate 3 (false, Act.go none), Going j := fun j hj =>
    ⟨none, congrArg Prod.snd (List.eq_of_mem_replicate hj)⟩
  exact ⟨s, s', h, hrun, hs', (reads_settle h hgo hrun).2⟩

end

end State

end Leveldb.PosixRandomAccessFile
