import MyLeveldb.Iterator.Definitions
import MyLeveldb.Support.Machines.Lockstep

/-!
# Iterator — Cleanups

The reference keeps, for each iterator, the list of what it was registered with; while it is
destroyed, what is left of it.  `Stands` relates an iterator to its reference and to the addresses
of its heap nodes, which are its own (`Represents`), so that an operation on one iterator leaves
what the others stand for.  `step_follows` is the step of the simulation.

`cleanups_called_once`: in every program, with any number of iterators used in any order, the
destructor of an iterator calls what was registered with it, once each, the first one first and
the others from the last one back.
-/

namespace Leveldb.Iterator

open Objects (Heap Allocator Owned Represents)
open Lockstep

variable {F A : Type} {h h' : Heap (Cleanup F A)} {it : Iterator F A} {p : Option Nat}
  {ps : List Nat} {c : Call F A} {cs left rs : List (Call F A)} {i j : Nat}

/-! ### The reference -/

/-- The order in which the cleanups are called. -/
def cleanupOrder : List (Call F A) → List (Call F A)
  | []      => []
  | r :: rs => r :: rs.reverse

/-- What an iterator stands for. -/
inductive Life (F A : Type) where
  | alive (registered : List (Call F A))
  /-- the calls its destructor has not made yet -/
  | destroying (left : List (Call F A))

abbrev Ref (F A : Type) := Nat → Option (Life F A)

namespace Ref

/-- The next of the calls `cs`, and what follows it. -/
def next : List (Call F A) → Option (Life F A) × Option (Call F A)
  | []      => (none, none)
  | c :: cs => (some (.destroying cs), some c)

/-- The calls a destructor is still to make. -/
def calls : Option (Life F A) → List (Call F A)
  | none                    => []
  | some (.alive rs)        => cleanupOrder rs
  | some (.destroying left) => left

def register (c : Call F A) : Option (Life F A) → Option (Life F A)
  | some (.alive rs) => some (.alive (rs ++ [c]))
  | l                => l

def step (t : Ref F A) : Op F A → Ref F A × Option (Call F A)
  | .construct i _                       => (Function.update t i (some (.alive [])), none)
  | .registerCleanup i func arg1 arg2    =>
      (Function.update t i (register ⟨func, arg1, arg2⟩ (t i)), none)
  | .destroy i | .resume i               =>
      (Function.update t i (next (calls (t i))).1, (next (calls (t i))).2)

/-- An iterator is used from its construction to its destruction; a function it calls does not
touch it. -/
def Pre (t : Ref F A) : Op F A → Prop
  | .construct i _                           => t i = none
  | .registerCleanup i _ _ _ | .destroy i    => ∃ rs, t i = some (.alive rs)
  | .resume i                                => ∃ left, t i = some (.destroying left)

def init : Ref F A := fun _ => none

end Ref

/-! ### What an iterator stands for -/

/-- The node that holds a call. -/
def node (c : Call F A) (next : Option Nat) : Cleanup F A :=
  { function := some c.function, arg1 := c.arg1, arg2 := c.arg2, next := next }

/-- The nodes from `p` on are at `ps`, and hold `cs`. -/
inductive Chain (h : Heap (Cleanup F A)) : Option Nat → List Nat → List (Call F A) → Prop where
  | nil : Chain h none [] []
  | cons {q : Nat} {next : Option Nat} {ps : List Nat} {c : Call F A} {cs : List (Call F A)} :
      h.read q = some (node c next) → Chain h next ps cs → Chain h (some q) (q :: ps) (c :: cs)

theorem Chain.congr (hc : Chain h p ps cs) (hr : ∀ q ∈ ps, h'.read q = h.read q) :
    Chain h' p ps cs := by
  induction hc with
  | nil => exact .nil
  | cons hq _ ih =>
      refine .cons (by rw [hr _ List.mem_cons_self, hq]) (ih fun q hq => ?_)
      exact hr q (List.mem_cons_of_mem _ hq)

/-- An iterator whose heap nodes are at `ps`, with what it stands for. -/
inductive Stands (h : Heap (Cleanup F A)) :
    Option (Phase F A) → Option (Life F A) → List Nat → Prop where
  | gone : Stands h none none []
  | empty {it : Iterator F A} :
      it.cleanup_.function = none → it.cleanup_.next = none →
      Stands h (some (.alive it)) (some (.alive [])) []
  | registered {it : Iterator F A} {c : Call F A} {rs : List (Call F A)} {p : Option Nat}
      {ps : List Nat} :
      it.cleanup_ = node c p → Chain h p ps rs.reverse →
      Stands h (some (.alive it)) (some (.alive (c :: rs))) ps
  | inHead {it : Iterator F A} {left : List (Call F A)} {ps : List Nat} :
      Chain h it.cleanup_.next ps left →
      Stands h (some (.destroying it .head)) (some (.destroying left)) ps
  | inNode {it : Iterator F A} {c : Cleanup F A} {left : List (Call F A)} {q : Nat}
      {ps : List Nat} :
      h.read q = some c → Chain h c.next ps left →
      Stands h (some (.destroying it (.node q))) (some (.destroying left)) (q :: ps)

theorem Stands.congr {ph : Option (Phase F A)} {life : Option (Life F A)}
    (hs : Stands h ph life ps) (hr : ∀ q ∈ ps, h'.read q = h.read q) : Stands h' ph life ps := by
  cases hs with
  | gone => exact .gone
  | empty hf hn => exact .empty hf hn
  | registered hhead hc => exact .registered hhead (hc.congr hr)
  | inHead hc => exact .inHead (hc.congr hr)
  | inNode hq hc =>
      refine .inNode (by rw [hr _ List.mem_cons_self, hq]) (hc.congr fun q hq => ?_)
      exact hr q (List.mem_cons_of_mem _ hq)

theorem Stands.not_alive {ph : Option (Phase F A)} (hs : Stands h ph none ps) :
    ph = none ∧ ps = [] := by
  cases hs
  exact ⟨rfl, rfl⟩

theorem Stands.alive {ph : Option (Phase F A)} (hs : Stands h ph (some (.alive rs)) ps) :
    ∃ it, ph = some (.alive it) := by
  cases hs <;> exact ⟨_, rfl⟩

theorem Stands.destroying {ph : Option (Phase F A)}
    (hs : Stands h ph (some (.destroying left)) ps) : ∃ it r, ph = some (.destroying it r) := by
  cases hs <;> exact ⟨_, _, rfl⟩

theorem stands_local : Objects.Local (Stands : Heap (Cleanup F A) → _) :=
  fun _ _ _ _ _ hs hr => hs.congr hr

/-- Every iterator stands for its reference, and the heap holds their nodes. -/
abbrev Rep (s : State F A) (t : Ref F A) : Prop :=
  Represents Stands s.heap s.iterators t

theorem rep_init : Rep (State.init : State F A) Ref.init :=
  ⟨fun _ => [], .empty Nat, fun _ => .gone⟩

section

variable {s : State F A} {t : Ref F A} {own : Nat → List Nat}

/-! ### Registration -/

theorem assign_spec {x : Cleanup F A} {q : Nat} (f : Cleanup F A → Cleanup F A)
    (hq : h.read q = some x) : ∃ h', assign q f h = .ok h' ∧
      ∀ r, h'.read r = if r = q then some (f x) else h.read r := by
  obtain ⟨h', hw, hr⟩ := Objects.write_spec (f x) hq
  refine ⟨h', ?_, hr⟩
  rw [assign, hq, pointee_some, ok_bind, hw, pointee_some]

/-- A registration that finds the iterator's own cleanup taken. -/
theorem registerCleanup_spec (new_ : Allocator) (memory : Nat → Cleanup F A) {c₀ : Call F A}
    (h : Heap (Cleanup F A)) (hhead : it.cleanup_ = node c₀ p) :
    ∃ h', registerCleanup new_ memory (some c.function) c.arg1 c.arg2 it h =
        .ok (⟨node c₀ (some (h.address new_))⟩, h') ∧
      ∀ q, h'.read q = if q = h.address new_ then some (node c p) else h.read q := by
  have hnew := Objects.read_create new_ h (memory h.created)
  obtain ⟨h₁, hrun₁, hr₁⟩ := assign_spec (fun x => { x with next := p })
    ((hnew (h.address new_)).trans (if_pos rfl))
  obtain ⟨h₂, hrun₂, hr₂⟩ := assign_spec
    (fun x => { x with function := some c.function, arg1 := c.arg1, arg2 := c.arg2 })
    ((hr₁ (h.address new_)).trans (if_pos rfl))
  refine ⟨h₂, ?_, fun q => ?_⟩
  · have hcreate : (h.create new_ (memory h.created)).1 = h.address new_ := rfl
    simp only [registerCleanup, hhead, node, Option.isNone_some, Option.isSome_some, assertion,
      if_true, ok_bind, Bool.false_eq_true, if_false, hcreate, hrun₁, hrun₂]
  · rw [hr₂, hr₁, hnew]
    by_cases hq : q = h.address new_
    · rw [if_pos hq, if_pos hq]
      rfl
    · rw [if_neg hq, if_neg hq, if_neg hq, if_neg hq]

/-- The iterator's own cleanup stays, and the new one comes before the others. -/
theorem rep_register (new_ : Allocator) (memory : Nat → Cleanup F A) (c : Call F A)
    (ho : Owned s.heap own) (hs : ∀ j, Stands s.heap (s.iterators j) (t j) (own j))
    (hph : s.iterators i = some (.alive it)) (ht : t i = some (.alive rs)) :
    ∃ it' h', registerCleanup new_ memory (some c.function) c.arg1 c.arg2 it s.heap =
        .ok (it', h') ∧
      Rep (s.set i (some (.alive it')) h') (Function.update t i (some (.alive (rs ++ [c])))) := by
  have hi := hs i
  rw [hph, ht] at hi
  generalize hps : own i = ps at hi
  cases hi with
  | empty hf hn =>
      -- the first one goes into `cleanup_`
      refine ⟨⟨node c none⟩, s.heap, ?_, Represents.set_same stands_local ho hs ?_⟩
      · simp only [registerCleanup, hf, hn, node, Option.isNone_none, Option.isSome_some,
          assertion, if_true, ok_bind]
      · rw [hps]
        exact .registered rfl .nil
  | @registered _ c₀ rs p ps hhead hc =>
      obtain ⟨h', hrun, hr⟩ := registerCleanup_spec new_ memory s.heap hhead
      have hold : ∀ j, ∀ q ∈ own j, h'.read q = s.heap.read q := fun j q hq => by
        rw [hr, if_neg (ho.ne_address new_ hq)]
      have ho' := ho.created new_ i hr
      have hchain : Chain h' (some (s.heap.address new_)) (s.heap.address new_ :: own i)
          (rs ++ [c]).reverse := by
        rw [List.reverse_append]
        exact .cons ((hr _).trans (if_pos rfl)) (hps ▸ hc.congr (hps ▸ hold i))
      exact ⟨_, h', hrun,
        Represents.set stands_local hs ho' (.registered rfl hchain) fun j _ => hold j⟩

/-! ### Destruction -/

/-- What the destructor does at the node `p`. -/
theorem proceed_loop (s : State F A) (i : Nat) (it : Iterator F A) (hc : Chain h p ps cs) :
    ∃ r ph, loopCall h p = .ok r ∧ s.proceed i it h r = (s.set i ph h, (Ref.next cs).2) ∧
      Stands h ph (Ref.next cs).1 ps := by
  cases hc with
  | nil => exact ⟨none, none, rfl, rfl, .gone⟩
  | @cons q next ps c cs hq hc =>
      refine ⟨some (.node q, c), some (.destroying it (.node q)), ?_, rfl, .inNode hq hc⟩
      rw [loopCall, hq, pointee_some, ok_bind]
      rfl

theorem rep_destroy (ho : Owned s.heap own)
    (hs : ∀ j, Stands s.heap (s.iterators j) (t j) (own j))
    (hph : s.iterators i = some (.alive it)) (ht : t i = some (.alive rs)) :
    ∃ r s', it.destroy = .ok r ∧
      s.proceed i it s.heap r = (s', (Ref.next (cleanupOrder rs)).2) ∧
      Rep s' (Function.update t i (Ref.next (cleanupOrder rs)).1) := by
  have hi := hs i
  rw [hph, ht] at hi
  generalize hps : own i = ps at hi
  cases hi with
  | empty hf hn =>
      refine ⟨none, s.set i none s.heap, ?_, rfl, Represents.set_same stands_local ho hs ?_⟩
      · rw [destroy, hf]
        rfl
      · rw [hps]
        exact .gone
  | @registered _ c rs p ps hhead hc =>
      refine ⟨some (.head, c), s.set i (some (.destroying it .head)) s.heap, ?_, rfl,
        Represents.set_same stands_local ho hs ?_⟩
      · rw [destroy, hhead]
        rfl
      · rw [hps]
        refine .inHead ?_
        rw [hhead]
        exact hc

theorem rep_resume {r : Running} (ho : Owned s.heap own)
    (hs : ∀ j, Stands s.heap (s.iterators j) (t j) (own j))
    (hph : s.iterators i = some (.destroying it r)) (ht : t i = some (.destroying left)) :
    ∃ h' r' s', it.resume s.heap r = .ok (h', r') ∧
      s.proceed i it h' r' = (s', (Ref.next left).2) ∧
      Rep s' (Function.update t i (Ref.next left).1) := by
  have hi := hs i
  rw [hph, ht] at hi
  generalize hps : own i = ps at hi
  cases hi with
  | inHead hc =>
      obtain ⟨r', ph, hrun, hproceed, hi'⟩ := proceed_loop s i it hc
      refine ⟨s.heap, r', _, ?_, hproceed, Represents.set_same stands_local ho hs (hps ▸ hi')⟩
      rw [resume, hrun, ok_bind]
  | @inNode _ c left q ps hq hc =>
      -- the node is deleted, and the loop goes on at the one its `next` was
      obtain ⟨h', hdelete, hr⟩ := Objects.delete_spec hq
      have hq' : q ∉ ps := (List.nodup_cons.mp (hps ▸ ho.nodup i)).1
      have hrest : ∀ q' ∈ ps, h'.read q' = s.heap.read q' := fun q₁ hq₁ => by
        rw [hr, if_neg (ne_of_mem_of_not_mem hq₁ hq')]
      obtain ⟨r', ph, hrun, hproceed, hi'⟩ := proceed_loop s i it (hc.congr hrest)
      have hmem : q ∈ own i := hps ▸ List.mem_cons_self
      refine ⟨h', r', _, ?_, hproceed,
        Represents.set stands_local hs (ho.delete hps hr) hi' fun j hj q₁ hq₁ => ?_⟩
      · rw [resume, hq, pointee_some, ok_bind, hdelete, pointee_some, ok_bind, hrun, ok_bind]
      · show h'.read q₁ = s.heap.read q₁
        rw [hr, if_neg (ho.ne_of_ne hq₁ hmem hj)]

/-! ### The step of the simulation -/

theorem step_follows (new_ : Allocator) (memory : Nat → Cleanup F A) (op : Op F A)
    (hr : Rep s t) (hp : Ref.Pre t op) :
    ∃ s', step new_ memory s op = .ok (s', (Ref.step t op).2) ∧ Rep s' (Ref.step t op).1 := by
  obtain ⟨own, ho, hs⟩ := hr
  have hi := hs op.iterator
  cases op with
  | construct i raw =>
      have ht : t i = none := hp
      rw [Op.iterator, ht] at hi
      obtain ⟨hph, hps⟩ := hi.not_alive
      refine ⟨s.set i (some (.alive (new raw))) s.heap, ?_,
        Represents.set_same stands_local ho hs ?_⟩
      · simp only [step, Op.iterator, hph]
        rfl
      · rw [hps]
        exact .empty rfl rfl
  | registerCleanup i func arg1 arg2 =>
      obtain ⟨rs, ht⟩ := hp
      rw [Op.iterator, ht] at hi
      obtain ⟨it, hph⟩ := hi.alive
      obtain ⟨it', h', hrun, hrep⟩ :=
        rep_register new_ memory ⟨func, arg1, arg2⟩ ho hs hph ht
      refine ⟨s.set i (some (.alive it')) h', ?_, ?_⟩
      · simp only [step, Op.iterator, hph, hrun, ok_bind]
        rfl
      · rw [Ref.step, ht]
        exact hrep
  | destroy i =>
      obtain ⟨rs, ht⟩ := hp
      rw [Op.iterator, ht] at hi
      obtain ⟨it, hph⟩ := hi.alive
      obtain ⟨r, s', hrun, hproceed, hrep⟩ := rep_destroy ho hs hph ht
      refine ⟨s', ?_, ?_⟩
      · simp only [step, Op.iterator, hph, hrun, ok_bind, hproceed, Ref.step, ht, Ref.calls]
      · rw [Ref.step, ht]
        exact hrep
  | resume i =>
      obtain ⟨left, ht⟩ := hp
      rw [Op.iterator, ht] at hi
      obtain ⟨it, r, hph⟩ := hi.destroying
      obtain ⟨h', r', s', hrun, hproceed, hrep⟩ := rep_resume ho hs hph ht
      refine ⟨s', ?_, ?_⟩
      · simp only [step, Op.iterator, hph, hrun, ok_bind, hproceed, Ref.step, ht, Ref.calls]
      · rw [Ref.step, ht]
        exact hrep

end

/-! ### What a destructor calls -/

/-- What `i` has been registered with after `op`, having been with `rs`. -/
def Op.record (i : Nat) (rs : List (Call F A)) : Op F A → List (Call F A)
  | .construct j _                    => if j = i then [] else rs
  | .registerCleanup j func arg1 arg2 => if j = i then rs ++ [⟨func, arg1, arg2⟩] else rs
  | .destroy _ | .resume _            => rs

/-- What `i` has been registered with, in order, since it was last constructed. -/
def registered (i : Nat) (ops : List (Op F A)) : List (Call F A) :=
  ops.foldl (Op.record i) []

/-- The calls that the operations on `i` make. -/
def callsBy (i : Nat) (ops : List (Op F A)) (outs : List (Option (Call F A))) : List (Call F A) :=
  (ops.zip outs).filterMap fun x => if x.1.iterator = i then x.2 else none

/-- How often the destructor of `i` gets the control back. -/
def resumes (i : Nat) (ops : List (Op F A)) : Nat :=
  ops.countP fun
    | .resume j => j = i
    | _         => false

namespace Ref

variable {t : Ref F A} {op : Op F A} {ops : List (Op F A)}

theorem step_other (hop : op.iterator ≠ i) : (step t op).1 i = t i := by
  cases op <;> exact Function.update_of_ne (Ne.symm hop) _ _

/-- What a reference is on its way to after the calls `cs`. -/
theorem next_spec (cs : List (Call F A)) :
    ((next cs).1 = none ∨ ∃ left, (next cs).1 = some (.destroying left)) ∧
      cs = (next cs).2.toList ++ calls (next cs).1 := by
  cases cs with
  | nil => exact ⟨.inl rfl, rfl⟩
  | cons c cs => exact ⟨.inr ⟨cs, rfl⟩, rfl⟩

/-- The reference of `i`, while it is alive, is what has been recorded. -/
theorem record_step {rs rs' : List (Call F A)} (ht : ∀ rs', t i = some (.alive rs') → rs' = rs)
    (hp : Pre t op) (ht' : (step t op).1 i = some (.alive rs')) : rs' = op.record i rs := by
  by_cases hop : op.iterator = i
  · cases op with
    | construct j raw =>
        obtain rfl : j = i := hop
        simp only [step, Function.update_self] at ht'
        cases ht'
        exact (if_pos rfl).symm
    | registerCleanup j func arg1 arg2 =>
        obtain rfl : j = i := hop
        obtain ⟨rs₀, h₀⟩ := hp
        simp only [step, Function.update_self, h₀] at ht'
        cases ht'
        rw [Op.record, if_pos rfl, ht rs₀ h₀]
    | destroy j | resume j =>
        obtain rfl : j = i := hop
        simp only [step, Function.update_self] at ht'
        rcases (next_spec (calls (t j))).1 with hn | ⟨left, hn⟩ <;>
        · rw [hn] at ht'
          cases ht'
  · rw [step_other hop] at ht'
    rw [ht rs' ht']
    cases op with
    | construct j raw => exact (if_neg hop).symm
    | registerCleanup j func arg1 arg2 => exact (if_neg hop).symm
    | destroy j => rfl
    | resume j => rfl

theorem record_run :
    ∀ (ops : List (Op F A)) (t : Ref F A) (rs rs' : List (Call F A)),
      (∀ rs', t i = some (.alive rs') → rs' = rs) → Admissible Pre step t ops →
      (runRef step t ops).1 i = some (.alive rs') → rs' = ops.foldl (Op.record i) rs := by
  intro ops
  induction ops with
  | nil => exact fun t rs rs' ht _ h => ht rs' h
  | cons op ops ih =>
      intro t rs rs' ht hadm h
      exact ih _ (op.record i rs) rs' (fun _ h' => record_step ht hadm.1 h') hadm.2 h

end Ref

theorem callsBy_other {op : Op F A} {ops : List (Op F A)} {o : Option (Call F A)}
    {outs : List (Option (Call F A))} (hop : op.iterator ≠ i) :
    callsBy i (op :: ops) (o :: outs) = callsBy i ops outs := by
  rw [callsBy, List.zip_cons_cons, List.filterMap_cons, if_neg hop]
  rfl

theorem callsBy_self {op : Op F A} {ops : List (Op F A)} {o : Option (Call F A)}
    {outs : List (Option (Call F A))} (hop : op.iterator = i) :
    callsBy i (op :: ops) (o :: outs) = o.toList ++ callsBy i ops outs := by
  rw [callsBy, List.zip_cons_cons, List.filterMap_cons, if_pos hop]
  cases o <;> rfl

theorem resumes_other {op : Op F A} {ops : List (Op F A)} (hop : op.iterator ≠ i) :
    resumes i (op :: ops) = resumes i ops := by
  refine List.countP_cons_of_neg ?_
  cases op with
  | resume j => simpa [Op.iterator] using hop
  | construct j raw => simp
  | registerCleanup j func arg1 arg2 => simp
  | destroy j => simp

/-- How often a destructor is still to get the control back. -/
def waits : Option (Life F A) → Nat
  | some (.destroying left) => left.length + 1
  | _                       => 0

/-- What the operations of a run do to an iterator that is being destroyed, or is gone. -/
structure Destructs (i : Nat) (life : Option (Life F A)) (ops : List (Op F A))
    (outs : List (Option (Call F A))) (life' : Option (Life F A)) : Prop where
  called : callsBy i ops outs <+: Ref.calls life
  ended : life' = none ↔ resumes i ops = waits life
  all : life' = none → callsBy i ops outs = Ref.calls life

theorem waits_next (cs : List (Call F A)) : waits (Ref.next cs).1 = cs.length := by
  cases cs <;> rfl

/-- A call, and what follows it. -/
theorem Destructs.after_next {cs : List (Call F A)} {ops : List (Op F A)} {op : Op F A}
    {outs : List (Option (Call F A))} {life' : Option (Life F A)} (hop : op.iterator = i)
    (hd : Destructs i (Ref.next cs).1 ops outs life') :
    callsBy i (op :: ops) ((Ref.next cs).2 :: outs) <+: cs ∧
      (life' = none ↔ resumes i ops = cs.length) ∧
      (life' = none → callsBy i (op :: ops) ((Ref.next cs).2 :: outs) = cs) := by
  have hcs := (Ref.next_spec cs).2
  rw [callsBy_self hop]
  refine ⟨?_, waits_next cs ▸ hd.ended, fun h => ?_⟩
  · conv_rhs => rw [hcs]
    exact (List.prefix_append_right_inj _).mpr hd.called
  · rw [hd.all h, ← hcs]

/-- An operation on another iterator. -/
theorem Destructs.other {life life' : Option (Life F A)} {ops : List (Op F A)} {op : Op F A}
    {o : Option (Call F A)} {outs : List (Option (Call F A))} (hop : op.iterator ≠ i)
    (hd : Destructs i life ops outs life') : Destructs i life (op :: ops) (o :: outs) life' where
  called := by
    rw [callsBy_other hop]
    exact hd.called
  ended := by
    rw [resumes_other hop]
    exact hd.ended
  all := by
    rw [callsBy_other hop]
    exact hd.all

/-- The destructor gets the control back. -/
theorem Destructs.resume {life' : Option (Life F A)} {ops : List (Op F A)}
    {outs : List (Option (Call F A))} (hd : Destructs i (Ref.next left).1 ops outs life') :
    Destructs i (some (.destroying left)) (.resume i :: ops) ((Ref.next left).2 :: outs)
      life' := by
  obtain ⟨hcalled, hended, hall⟩ :=
    hd.after_next (show (Op.resume i : Op F A).iterator = i from rfl)
  have hcount : resumes i (.resume i :: ops) = resumes i ops + 1 :=
    List.countP_cons_of_pos (by simp)
  refine ⟨hcalled, ?_, hall⟩
  rw [hcount, waits, Nat.add_right_cancel_iff]
  exact hended

theorem destructs_run :
    ∀ (ops : List (Op F A)) (t : Ref F A), Admissible Ref.Pre Ref.step t ops →
      (∀ raw, Op.construct i raw ∉ ops) → (t i = none ∨ ∃ left, t i = some (.destroying left)) →
      Destructs i (t i) ops (runRef Ref.step t ops).2 ((runRef Ref.step t ops).1 i) := by
  intro ops
  induction ops with
  | nil =>
      intro t _ _ ht
      refine ⟨List.nil_prefix, ?_, fun h => ?_⟩
      · show t i = none ↔ 0 = waits (t i)
        rcases ht with ht | ⟨left, ht⟩ <;> simp [ht, waits]
      · have h : t i = none := h
        rw [h]
        rfl
  | cons op ops ih =>
      intro t hadm hno ht
      have hno' : ∀ raw, Op.construct i raw ∉ ops := fun raw h =>
        hno raw (List.mem_cons_of_mem _ h)
      by_cases hop : op.iterator = i
      · cases op with
        | construct j raw =>
            obtain rfl : j = i := hop
            exact absurd List.mem_cons_self (hno raw)
        | registerCleanup j func arg1 arg2 | destroy j =>
            -- `j` is not alive
            obtain rfl : j = i := hop
            obtain ⟨rs, h⟩ := hadm.1
            rcases ht with ht | ⟨left, ht⟩ <;>
            · rw [h] at ht
              cases ht
        | resume j =>
            obtain rfl : j = i := hop
            obtain ⟨left, h⟩ := hadm.1
            have hstep : (Ref.step t (.resume j)).1 j = (Ref.next left).1 := by
              simp only [Ref.step, Function.update_self, h, Ref.calls]
            have hout : (Ref.step t (.resume j)).2 = (Ref.next left).2 := by
              rw [Ref.step, h, Ref.calls]
            have hd := ih (Ref.step t (.resume j)).1 hadm.2 hno' (hstep ▸ (Ref.next_spec left).1)
            rw [hstep] at hd
            rw [runRef, hout, h]
            exact hd.resume
      · have hd := ih (Ref.step t op).1 hadm.2 hno' (Ref.step_other hop ▸ ht)
        rw [Ref.step_other hop] at hd
        exact hd.other hop

/-- What an iterator stands for is gone when it is. -/
theorem Stands.gone_iff {ph : Option (Phase F A)} {life : Option (Life F A)}
    (hs : Stands h ph life ps) : ph = none ↔ life = none := by
  cases hs <;> simp

/-- Where no iterator is left, none of their nodes is. -/
theorem Rep.eq_empty {s : State F A} {t : Ref F A} (hr : Rep s t)
    (hs : ∀ j, s.iterators j = none) : s.heap.objects = ∅ := by
  obtain ⟨own, ho, hstands⟩ := hr
  refine ho.eq_empty fun j => ?_
  have hj := hstands j
  rw [hj.gone_iff.mp (hs j)] at hj
  exact hj.not_alive.2

theorem length_cleanupOrder (rs : List (Call F A)) : (cleanupOrder rs).length = rs.length := by
  cases rs with
  | nil => rfl
  | cons r rs => rw [cleanupOrder, List.length_cons, List.length_cons, List.length_reverse]

/-- Where the destructor of `i` begins, `i` stands for what it was registered with. -/
theorem before_destroy (new_ : Allocator) (memory : Nat → Cleanup F A)
    {before after : List (Op F A)}
    (hops : Admissible Ref.Pre Ref.step Ref.init (before ++ .destroy i :: after)) :
    ∃ s outs t, run (step new_ memory) State.init before = .ok (s, outs) ∧ Rep s t ∧
      t i = some (.alive (registered i before)) ∧
      Admissible Ref.Pre Ref.step (Ref.step t (.destroy i)).1 after := by
  obtain ⟨hbefore, hdestroy, hafter⟩ := Admissible.append.mp hops
  obtain ⟨s, hrun, hr⟩ :=
    run_follows (fun s t op => step_follows (s := s) (t := t) new_ memory op) before State.init
      Ref.init rep_init hbefore
  obtain ⟨rs, hrs⟩ := hdestroy
  obtain rfl : rs = registered i before :=
    Ref.record_run before Ref.init [] rs (fun _ h => by cases h) hbefore hrs
  exact ⟨s, _, _, hrun, hr, hrs, hafter⟩

/-- **Cleanups run exactly once each.**  Whatever the program has done `before`, and whatever it
does while the destructor's calls run, the calls by `i` are those it was registered with, the first
one first and the others from the last one back.  The destructor ends when it has made them all,
and once all iterators are gone no node is left. -/
theorem cleanups_called_once (new_ : Allocator) (memory : Nat → Cleanup F A)
    (before after : List (Op F A)) (i : Nat)
    (hops : Admissible Ref.Pre Ref.step Ref.init (before ++ .destroy i :: after))
    (hlast : ∀ raw, Op.construct i raw ∉ after) :
    ∃ s outs s' outs', run (step new_ memory) State.init before = .ok (s, outs) ∧
      run (step new_ memory) s (.destroy i :: after) = .ok (s', outs') ∧
      callsBy i (.destroy i :: after) outs' <+: cleanupOrder (registered i before) ∧
      (s'.iterators i = none ↔ resumes i after = (registered i before).length) ∧
      (s'.iterators i = none →
        callsBy i (.destroy i :: after) outs' = cleanupOrder (registered i before)) ∧
      ((∀ j, s'.iterators j = none) → s'.heap.objects = ∅) := by
  obtain ⟨s, outs, t, hrun, hr, hrs, hafter⟩ := before_destroy new_ memory hops
  obtain ⟨s', hrun', hr'⟩ :=
    run_follows (fun s t op => step_follows (s := s) (t := t) new_ memory op)
      (.destroy i :: after) s t hr ⟨⟨_, hrs⟩, hafter⟩
  refine ⟨s, outs, s', _, hrun, hrun', ?_⟩
  have hstep : (Ref.step t (.destroy i)).1 i = (Ref.next (cleanupOrder (registered i before))).1 :=
    by simp only [Ref.step, Function.update_self, hrs, Ref.calls]
  have hout : (Ref.step t (.destroy i)).2 = (Ref.next (cleanupOrder (registered i before))).2 := by
    rw [Ref.step, hrs, Ref.calls]
  have hd := destructs_run after (Ref.step t (.destroy i)).1 hafter hlast
    (hstep ▸ (Ref.next_spec _).1)
  rw [hstep] at hd
  obtain ⟨hcalled, hended, hall⟩ :=
    hd.after_next (show (Op.destroy i : Op F A).iterator = i from rfl)
  obtain ⟨own, -, hstands⟩ := id hr'
  have hgone := (hstands i).gone_iff
  rw [length_cleanupOrder] at hended
  rw [runRef, hout]
  exact ⟨hcalled, hgone.trans hended, fun h => hall (hgone.mp h), hr'.eq_empty⟩

/-- Two iterators, the second one destroyed by a cleanup function of the first. -/
theorem cleanups_called_once_two :
    let raw : Cleanup Nat Nat := ⟨some 0, 0, 0, some 99⟩
    let before : List (Op Nat Nat) := [.construct 0 raw, .registerCleanup 0 7 1 2,
      .construct 1 raw, .registerCleanup 0 8 3 4, .registerCleanup 1 9 5 6,
      .registerCleanup 0 7 1 2]
    let after : List (Op Nat Nat) := [.destroy 1, .resume 1, .resume 0, .resume 0, .resume 0]
    ∃ s outs s' outs', run (step Objects.firstFit fun _ => raw) State.init before = .ok (s, outs) ∧
      run (step Objects.firstFit fun _ => raw) s (.destroy 0 :: after) = .ok (s', outs') ∧
      callsBy 0 (.destroy 0 :: after) outs' <+: cleanupOrder (registered 0 before) ∧
      (s'.iterators 0 = none ↔ resumes 0 after = (registered 0 before).length) ∧
      (s'.iterators 0 = none →
        callsBy 0 (.destroy 0 :: after) outs' = cleanupOrder (registered 0 before)) ∧
      ((∀ j, s'.iterators j = none) → s'.heap.objects = ∅) :=
  cleanups_called_once Objects.firstFit _ _ _ 0
    (by simp [Admissible, Ref.Pre, Ref.step, Ref.init, Ref.register, Ref.calls, Ref.next,
      cleanupOrder])
    (by simp)

/-- A destructor that nothing interrupts, from the return of a call. -/
theorem ref_resume_all (left : List (Call F A)) :
    ∀ t : Ref F A, t i = some (.destroying left) →
      Admissible Ref.Pre Ref.step t (List.replicate (left.length + 1) (.resume i)) ∧
      (runRef Ref.step t (List.replicate (left.length + 1) (.resume i))).2 =
        left.map some ++ [none] := by
  induction left with
  | nil =>
      intro t ht
      refine ⟨⟨⟨[], ht⟩, trivial⟩, ?_⟩
      simp [runRef, Ref.step, ht, Ref.calls, Ref.next]
  | cons c cs ih =>
      intro t ht
      have hstep : (Ref.step t (.resume i)).1 i = some (.destroying cs) := by
        simp only [Ref.step, Function.update_self, ht, Ref.calls, Ref.next]
      obtain ⟨hadm, houts⟩ := ih _ hstep
      refine ⟨⟨⟨c :: cs, ht⟩, hadm⟩, ?_⟩
      rw [List.length_cons, List.replicate_succ, runRef, houts]
      simp only [Ref.step, ht, Ref.calls, Ref.next]
      rfl

theorem ref_destroy_all {t : Ref F A} (ht : t i = some (.alive rs)) :
    Admissible Ref.Pre Ref.step t (.destroy i :: List.replicate rs.length (.resume i)) ∧
      (runRef Ref.step t (.destroy i :: List.replicate rs.length (.resume i))).2 =
        (cleanupOrder rs).map some ++ [none] := by
  cases rs with
  | nil =>
      refine ⟨⟨⟨[], ht⟩, trivial⟩, ?_⟩
      simp [runRef, Ref.step, ht, Ref.calls, Ref.next, cleanupOrder]
  | cons r rs =>
      have hstep : (Ref.step t (.destroy i)).1 i = some (.destroying rs.reverse) := by
        simp only [Ref.step, Function.update_self, ht, Ref.calls, Ref.next, cleanupOrder]
      obtain ⟨hadm, houts⟩ := ref_resume_all rs.reverse _ hstep
      rw [List.length_reverse] at hadm houts
      refine ⟨⟨⟨r :: rs, ht⟩, hadm⟩, ?_⟩
      rw [runRef, List.length_cons, houts]
      simp only [Ref.step, ht, Ref.calls, Ref.next, cleanupOrder]
      rfl

/-- Where the functions leave all iterators alone, the destructor makes its calls in one go. -/
theorem destructor_uninterrupted (new_ : Allocator) (memory : Nat → Cleanup F A)
    (before : List (Op F A)) (i : Nat)
    (hops : Admissible Ref.Pre Ref.step Ref.init (before ++ [.destroy i])) :
    ∃ s outs s', run (step new_ memory) State.init before = .ok (s, outs) ∧
      run (step new_ memory) s
        (.destroy i :: List.replicate (registered i before).length (.resume i)) =
        .ok (s', (cleanupOrder (registered i before)).map some ++ [none]) := by
  obtain ⟨s, outs, t, hrun, hr, hrs, -⟩ := before_destroy new_ memory hops
  obtain ⟨hadm, houts⟩ := ref_destroy_all hrs
  obtain ⟨s', hrun', -⟩ :=
    run_follows (fun s t op => step_follows (s := s) (t := t) new_ memory op) _ s t hr hadm
  exact ⟨s, outs, s', hrun, houts ▸ hrun'⟩

end Leveldb.Iterator
