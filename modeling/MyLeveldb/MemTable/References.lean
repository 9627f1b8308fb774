import MyLeveldb.Basics
import MyLeveldb.Support.Memory.Objects
import Mathlib.Data.List.Count

/-!
# MemTable — References

`ref()`, `unref()` and `~MemTable()` of `memtable.h` and `memtable.cpp`: a table counts those who
use it, and deletes itself when the last one is done.  Here a program has any number of tables and
of holders of references, who may hold several on one table and hand out others.

What the tables have besides `refs_` is left out: the other functions only need the table to exist.
-/

namespace Leveldb.MemTable.References

open Objects (Heap Allocator)

/-- `refs_`, an `int`, of every table there is. -/
abbrev Tables := Heap (BitVec 32)

/-- `MemTable(comparator)`. -/
def create (new_ : Allocator) (h : Tables) : Nat × Tables := h.create new_ 0

/-- `p->ref()`. -/
def ref (p : Nat) (h : Tables) : Except Fault Tables := do
  let refs_ ← pointee (h.read p)
  pointee (h.write p (refs_ + 1))

/-- `delete p`, with `~MemTable()`. -/
def destroy (p : Nat) (h : Tables) : Except Fault Tables := do
  let refs_ ← pointee (h.read p)
  assertion (refs_ = 0)
  pointee (h.delete p)

/-- `p->unref()`. -/
def unref (p : Nat) (h : Tables) : Except Fault Tables := do
  let refs_ ← pointee (h.read p)
  let h ← pointee (h.write p (refs_ - 1))
  assertion (0 ≤ (refs_ - 1).toInt)
  if (refs_ - 1).toInt ≤ 0 then destroy p h else .ok h

/-- Any other function of `*p`. -/
def use (p : Nat) (h : Tables) : Except Fault Unit := do
  let _ ← pointee (h.read p)
  .ok ()

/-! ### A program with any number of tables -/

/-- `fresh` are the tables nobody has referenced yet, `held` the references there are. -/
structure State (H : Type) where
  tables : Tables
  fresh : List Nat
  held : List (H × Nat)

inductive Op (H : Type) where
  | create
  | ref (i : H) (p : Nat)
  | unref (i : H) (p : Nat)
  | use (i : H) (p : Nat)

namespace State

variable {H : Type}

def init : State H := { tables := .empty, fresh := [], held := [] }

/-- How many references there are on `p`. -/
def refs (held : List (H × Nat)) (p : Nat) : Nat := (held.map Prod.snd).count p

def InUse (s : State H) (p : Nat) : Prop := p ∈ s.fresh ∨ 0 < refs s.held p

/-- What a holder may do: it uses a table, and gives a reference back, only where it has one; and
takes one only on a table that is new, or that somebody has one on, and whose `int` can count it. -/
def Permits (s : State H) : Op H → Prop
  | .create    => True
  | .ref _ p   => s.InUse p ∧ refs s.held p + 1 < 2 ^ 31
  | .unref i p => (i, p) ∈ s.held
  | .use i p   => p ∈ s.fresh ∨ (i, p) ∈ s.held

variable [DecidableEq H]

def step (new_ : Allocator) (s : State H) : Op H → Except Fault (State H)
  | .create => .ok { s with
      tables := (create new_ s.tables).2, fresh := (create new_ s.tables).1 :: s.fresh }
  | .ref i p => do
      let tables ← ref p s.tables
      .ok { tables := tables, fresh := s.fresh.erase p, held := (i, p) :: s.held }
  | .unref i p => do
      let tables ← unref p s.tables
      .ok { s with tables := tables, held := s.held.erase (i, p) }
  | .use _ p => do
      use p s.tables
      .ok s

def run (new_ : Allocator) (s : State H) : List (Op H) → Except Fault (State H)
  | []        => .ok s
  | op :: ops => do run new_ (← step new_ s op) ops

/-- Every operation is permitted, in the state the ones before it lead to. -/
def Admits (new_ : Allocator) (s : State H) : List (Op H) → Prop
  | []        => True
  | op :: ops => s.Permits op ∧ ∀ s', step new_ s op = .ok s' → Admits new_ s' ops

/-! ### What an operation keeps -/

/-- There are exactly the tables that are in use, and each has the number of its references. -/
structure Inv (s : State H) : Prop where
  counts : ∀ p, s.InUse p → s.tables.read p = some (BitVec.ofNat 32 (refs s.held p))
  gone : ∀ p, ¬ s.InUse p → s.tables.read p = none
  nodup : s.fresh.Nodup
  unheld : ∀ p ∈ s.fresh, refs s.held p = 0
  bounded : ∀ p, refs s.held p < 2 ^ 31

variable {new_ : Allocator} {s s' : State H} {held : List (H × Nat)} {i : H} {p q : Nat} {op : Op H}

omit [DecidableEq H] in
theorem refs_cons : refs ((i, p) :: held) q = refs held q + if p = q then 1 else 0 := by
  simp only [refs, List.map_cons, List.count_cons, beq_iff_eq]

theorem refs_erase (h : (i, p) ∈ held) :
    refs (held.erase (i, p)) q + (if p = q then 1 else 0) = refs held q := by
  have hperm := (List.perm_cons_erase h).map Prod.snd
  rw [refs, refs, hperm.count_eq, List.map_cons, List.count_cons]
  simp only [beq_iff_eq]

omit [DecidableEq H] in
theorem refs_pos (h : (i, p) ∈ held) : 0 < refs held p :=
  List.count_pos_iff.2 (List.mem_map.2 ⟨(i, p), h, rfl⟩)

omit [DecidableEq H] in
theorem not_inUse_init : ¬ (init : State H).InUse p := by
  rintro (h | h) <;> cases h

omit [DecidableEq H] in
theorem Inv.init : Inv (State.init : State H) where
  counts _ h := absurd h not_inUse_init
  gone p _ := Objects.read_empty p
  nodup := List.nodup_nil
  unheld _ h := absurd h List.not_mem_nil
  bounded _ := Nat.two_pow_pos 31

omit [DecidableEq H] in
theorem Inv.new_not_inUse (hs : s.Inv) (new_ : Allocator) : ¬ s.InUse (s.tables.address new_) := by
  intro h
  have hread := hs.counts _ h
  rw [Objects.read_address] at hread
  cases hread

omit [DecidableEq H] in
theorem refs_eq_zero (h : ¬ s.InUse p) : refs s.held p = 0 := by
  by_contra hne
  exact h (.inr (Nat.pos_of_ne_zero hne))

theorem Inv.create (hs : s.Inv) (new_ : Allocator) :
    ∃ s', step new_ s .create = .ok s' ∧ s'.Inv := by
  have hnew := hs.new_not_inUse new_
  have hread : ∀ q, (References.create new_ s.tables).2.read q =
      if q = s.tables.address new_ then some 0 else s.tables.read q :=
    Objects.read_create new_ s.tables 0
  have hin : ∀ {q}, q ≠ s.tables.address new_ →
      (InUse { s with
        tables := (References.create new_ s.tables).2
        fresh := (References.create new_ s.tables).1 :: s.fresh } q ↔ s.InUse q) := fun hq =>
    or_congr_left (List.mem_cons.trans (or_iff_right hq))
  refine ⟨_, rfl, fun q hq => ?_, fun q hq => ?_, ?_, fun q hq => ?_, hs.bounded⟩
  · simp only [hread]
    split_ifs with heq
    · rw [heq, refs_eq_zero hnew]
      rfl
    · exact hs.counts q ((hin heq).1 hq)
  · have heq : q ≠ s.tables.address new_ := by
      rintro rfl
      exact hq (.inl List.mem_cons_self)
    simp only [hread, if_neg heq]
    exact hs.gone q (mt (hin heq).2 hq)
  · exact List.nodup_cons.2 ⟨fun h => hnew (.inl h), hs.nodup⟩
  · rcases List.mem_cons.1 hq with rfl | hq
    · exact refs_eq_zero (s := s) hnew
    · exact hs.unheld q hq

theorem Inv.ref (hs : s.Inv) (new_ : Allocator) (i : H) (hp : s.InUse p)
    (hlt : refs s.held p + 1 < 2 ^ 31) : ∃ s', step new_ s (.ref i p) = .ok s' ∧ s'.Inv := by
  obtain ⟨tables, hwrite, hread⟩ := Objects.write_spec (BitVec.ofNat 32 (refs s.held p) + 1)
    (hs.counts p hp)
  have hin : ∀ {q}, InUse ⟨tables, s.fresh.erase p, (i, p) :: s.held⟩ q ↔ s.InUse q := by
    intro q
    by_cases hq : q = p
    · subst hq
      exact iff_of_true (.inr (refs_pos List.mem_cons_self)) hp
    · have hrefs : refs ((i, p) :: s.held) q = refs s.held q := by
        rw [refs_cons, if_neg (Ne.symm hq), Nat.add_zero]
      simp only [InUse, hrefs, List.mem_erase_of_ne hq]
  refine ⟨⟨tables, s.fresh.erase p, (i, p) :: s.held⟩, ?_, fun q hq => ?_, fun q hq => ?_,
    hs.nodup.erase p, fun q hq => ?_, fun q => ?_⟩
  · rw [step, References.ref, hs.counts p hp, pointee_some, ok_bind, hwrite]
    rfl
  · rw [hread, refs_cons]
    split_ifs with heq heq' heq'
    · rw [heq, BitVec.ofNat_add]
      rfl
    · exact absurd heq.symm heq'
    · exact absurd heq'.symm heq
    · exact hs.counts q (hin.1 hq)
  · have heq : q ≠ p := by
      rintro rfl
      exact hq (hin.2 hp)
    rw [hread, if_neg heq]
    exact hs.gone q (mt hin.2 hq)
  · have heq : q ≠ p := by
      rintro rfl
      exact hs.nodup.not_mem_erase hq
    rw [refs_cons, if_neg (Ne.symm heq), Nat.add_zero]
    exact hs.unheld q (List.mem_of_mem_erase hq)
  · have hq := hs.bounded q
    rw [refs_cons]
    split_ifs with heq
    · exact heq ▸ hlt
    · exact hq

theorem ofNat_sub_one {n : Nat} (hn : 0 < n) : BitVec.ofNat 32 n - 1 = BitVec.ofNat 32 (n - 1) := by
  obtain ⟨n, rfl⟩ := Nat.exists_eq_succ_of_ne_zero hn.ne'
  rw [Nat.succ_eq_add_one, BitVec.ofNat_add, Nat.add_sub_cancel]
  exact BitVec.add_sub_cancel _ _

theorem toInt_ofNat {n : Nat} (hn : n < 2 ^ 31) : (BitVec.ofNat 32 n).toInt = n := by
  rw [BitVec.toInt_eq_toNat_of_lt (by rw [BitVec.toNat_ofNat]; omega), BitVec.toNat_ofNat]
  omega

/-- The table is still there exactly where it was not the last reference. -/
theorem unref_eq {h : Tables} {n : Nat} (hp : h.read p = some (BitVec.ofNat 32 n)) (hn : 0 < n)
    (hlen : n < 2 ^ 31) : ∃ h', unref p h = .ok h' ∧ ∀ q, h'.read q =
      if q = p then if n = 1 then none else some (BitVec.ofNat 32 (n - 1)) else h.read q := by
  obtain ⟨h₁, hwrite, hread₁⟩ := Objects.write_spec (BitVec.ofNat 32 (n - 1)) hp
  have hself : h₁.read p = some (BitVec.ofNat 32 (n - 1)) := by rw [hread₁, if_pos rfl]
  have hint := toInt_ofNat (n := n - 1) (by omega)
  rw [unref, hp, pointee_some, ok_bind, ofNat_sub_one hn, hwrite, pointee_some, ok_bind, hint,
    assertion_of (by omega), ok_bind]
  by_cases hone : n = 1
  · obtain ⟨h₂, hdelete, hread₂⟩ := Objects.delete_spec hself
    refine ⟨h₂, ?_, fun q => ?_⟩
    · rw [if_pos (by omega), destroy, hself, pointee_some, ok_bind, hone, assertion_of (by decide),
        ok_bind, hdelete]
      rfl
    · rw [hread₂, hread₁, if_pos hone]
      split_ifs <;> rfl
  · refine ⟨h₁, ?_, fun q => ?_⟩
    · rw [if_neg (by omega)]
    · rw [hread₁, if_neg hone]

theorem Inv.unref (hs : s.Inv) (new_ : Allocator) (hp : (i, p) ∈ s.held) :
    ∃ s', step new_ s (.unref i p) = .ok s' ∧ s'.Inv := by
  have hpos := refs_pos hp
  obtain ⟨tables, hunref, hread⟩ := unref_eq (hs.counts p (.inr hpos)) hpos (hs.bounded p)
  have hself := refs_erase (q := p) hp
  rw [if_pos rfl] at hself
  have hother : ∀ {q}, q ≠ p → refs (s.held.erase (i, p)) q = refs s.held q := by
    intro q hq
    have hcount := refs_erase (q := q) hp
    rwa [if_neg (Ne.symm hq), Nat.add_zero] at hcount
  have hfresh : p ∉ s.fresh := fun h => by
    have hzero := hs.unheld p h
    omega
  refine ⟨⟨tables, s.fresh, s.held.erase (i, p)⟩, ?_, fun q hq => ?_, fun q hq => ?_, hs.nodup,
    fun q hq => ?_, fun q => ?_⟩
  · rw [step, hunref]
    rfl
  · rw [hread]
    by_cases heq : q = p
    · subst heq
      rcases hq with hq | hq
      · exact absurd hq hfresh
      · simp only at hq
        rw [if_pos rfl, if_neg (by omega), ← hself, Nat.add_sub_cancel]
    · rw [if_neg heq, hother heq]
      refine hs.counts q (hq.imp_right fun h => ?_)
      rwa [hother heq] at h
  · rw [hread]
    by_cases heq : q = p
    · subst heq
      have hzero := refs_eq_zero hq
      simp only at hzero
      rw [if_pos rfl, if_pos (by omega)]
    · rw [if_neg heq]
      refine hs.gone q fun h => hq (h.imp_right fun h => ?_)
      rwa [hother heq]
  · have heq : q ≠ p := by
      rintro rfl
      exact hfresh hq
    rw [hother heq]
    exact hs.unheld q hq
  · have hlt := hs.bounded q
    have hcount := refs_erase (q := q) hp
    simp only
    omega

theorem Inv.use (hs : s.Inv) (hp : s.InUse p) : step new_ s (.use i p) = .ok s := by
  rw [step, References.use, hs.counts p hp]
  rfl

theorem Inv.step (hs : s.Inv) (new_ : Allocator) (hop : s.Permits op) :
    ∃ s', s.step new_ op = .ok s' ∧ s'.Inv := by
  cases op with
  | create => exact hs.create new_
  | ref i p => exact hs.ref new_ i hop.1 hop.2
  | unref i p => exact hs.unref new_ hop
  | use i p => exact ⟨s, hs.use (hop.imp_right refs_pos), hs⟩

theorem Inv.run (ops : List (Op H)) (hs : s.Inv) (hops : Admits new_ s ops) :
    ∃ s', s.run new_ ops = .ok s' ∧ s'.Inv := by
  induction ops generalizing s with
  | nil => exact ⟨s, rfl, hs⟩
  | cons op ops ih =>
      obtain ⟨s₁, hstep, hs₁⟩ := hs.step new_ hops.1
      obtain ⟨s', hrun, hs'⟩ := ih hs₁ (hops.2 s₁ hstep)
      refine ⟨s', ?_, hs'⟩
      rw [State.run, hstep]
      exact hrun

/-- Where holders do only what they are permitted to, no `assert` of `unref()` and `~MemTable()`
fails, no table is used after it has deleted itself, and there are exactly the tables that are new
or that somebody has a reference on, each with the number of its references: it goes with the last
one.  However long the run, what counts is how many references there are on a table at one time. -/
theorem references_keep_tables {ops : List (Op H)}
    (hops : Admits new_ (State.init : State H) ops) :
    ∃ s, State.run new_ State.init ops = .ok s ∧
      (∀ p, (s.tables.read p).isSome ↔ p ∈ s.fresh ∨ ∃ i, (i, p) ∈ s.held) ∧
      ∀ p refs_, s.tables.read p = some refs_ → refs_.toInt = refs s.held p := by
  obtain ⟨s, hrun, hs⟩ := Inv.run ops Inv.init hops
  refine ⟨s, hrun, fun p => ?_, fun p refs_ hread => ?_⟩
  · have hin : s.InUse p ↔ p ∈ s.fresh ∨ ∃ i, (i, p) ∈ s.held := by
      simp only [InUse, refs, List.count_pos_iff, List.mem_map, Prod.exists, exists_eq_right]
    rw [← hin]
    by_cases hp : s.InUse p
    · rw [hs.counts p hp]
      exact iff_of_true rfl hp
    · rw [hs.gone p hp]
      exact iff_of_false Bool.false_ne_true hp
  · have hp : s.InUse p := by
      by_contra hno
      rw [hs.gone p hno] at hread
      cases hread
    rw [hs.counts p hp] at hread
    rw [← Option.some.inj hread, toInt_ofNat (hs.bounded p)]

/-- The references after an operation. -/
def heldAfter (held : List (H × Nat)) : Op H → List (H × Nat)
  | .create | .use _ _ => held
  | .ref i p           => (i, p) :: held
  | .unref i p         => held.erase (i, p)

theorem step_held (h : step new_ s op = .ok s') : s'.held = heldAfter s.held op := by
  cases op with
  | create => exact Except.ok.inj h ▸ rfl
  | ref i p | unref i p | use i p =>
      obtain ⟨tables, -, h⟩ := bind_eq_ok.1 h
      exact Except.ok.inj h ▸ rfl

/-- Where the first table goes. -/
def first (new_ : Allocator) : Nat := (Heap.empty : Tables).address new_

/-- One holder hands a table out to another, who is the last one to need it. -/
def handedOut (new_ : Allocator) : List (Op Bool) :=
  [.create, .ref false (first new_), .ref true (first new_), .unref false (first new_),
    .use true (first new_), .unref true (first new_)]

theorem references_keep_tables_handedOut :
    ∃ s, State.run Objects.firstFit State.init (handedOut Objects.firstFit) = .ok s ∧
      ∀ p, (s.tables.read p).isSome ↔ p ∈ s.fresh ∨ ∃ i, (i, p) ∈ s.held := by
  have hops : Admits Objects.firstFit State.init (handedOut Objects.firstFit) := by
    refine ⟨trivial, fun s₁ h₁ => ⟨?_, fun s₂ h₂ => ⟨?_, fun s₃ h₃ => ⟨?_, fun s₄ h₄ => ⟨?_,
      fun s₅ h₅ => ⟨?_, fun _ _ => trivial⟩⟩⟩⟩⟩⟩
    · obtain rfl := Except.ok.inj h₁
      exact ⟨.inl List.mem_cons_self, by decide⟩
    · refine ⟨.inr (refs_pos (i := false) (by rw [step_held h₂]; exact List.mem_cons_self)), ?_⟩
      rw [step_held h₂, step_held h₁]
      simp [heldAfter, State.init, refs]
    · simp [Permits, step_held h₃, step_held h₂, heldAfter]
    · simp [Permits, step_held h₄, step_held h₃, step_held h₂, heldAfter]
    · simp [Permits, step_held h₅, step_held h₄, step_held h₃, step_held h₂, heldAfter]
  obtain ⟨s, hrun, htables, -⟩ := references_keep_tables hops
  exact ⟨s, hrun, htables⟩

end State

end Leveldb.MemTable.References
