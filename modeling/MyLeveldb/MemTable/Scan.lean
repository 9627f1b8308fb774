import Mathlib.Algebra.Order.BigOperators.Group.List
import MyLeveldb.MemTable.Build

/-!
# MemTable — Scan

A client runs a `MemTableIterator` over the whole memtable, in either direction, or seeks an
internal key, and is to see the pairs added, each once and in the order of the internal keys.
`key()` reads as many bytes as the entry has in all, which is more than the internal key added has,
so that the keys of a memtable that has entries are never the ones added (`length_forward`), over
any user comparator: `memtable_iteration`.
-/

namespace Leveldb.MemTable

open Flat (Memory Allocator)

variable {new_ : Allocator kPointerSize} {user : Compare Bytes} {m : MemTable} {mem : Memory}
  {c : AddCall} {cs : List AddCall} {ps xs ys : List Placed} {kvs : List (Bytes × Bytes)}

/-! ### What a client sees -/

/-- `key()` and `value()`. -/
def pair (m : MemTable) (it : MemTableIterator) : Except Fault (Bytes × Bytes) := do
  let key ← it.key m
  let value ← it.value m
  .ok (← key.read m.memory, ← value.read m.memory)

/-- `while (it.valid()) { ... }`: the pairs on the iterator's way. -/
def scan (m : MemTable) (step : MemTableIterator → Except Fault MemTableIterator) :
    Nat → MemTableIterator → Except Fault (List (Bytes × Bytes))
  | 0, it => if it.valid then .error .fuel else .ok []
  | fuel + 1, it =>
      if it.valid then do
        let kv ← pair m it
        let kvs ← scan m step fuel (← step it)
        .ok (kv :: kvs)
      else .ok []

/-- From `seekToFirst` by `next`. -/
def forward (m : MemTable) : Except Fault (List (Bytes × Bytes)) := do
  let it ← MemTableIterator.seekToFirst m
  scan m (fun it => it.next m) m.table_.fuel it

/-- From `seekToLast` by `prev`. -/
def backward (user : Compare Bytes) (m : MemTable) : Except Fault (List (Bytes × Bytes)) := do
  let it ← MemTableIterator.seekToLast m
  scan m (fun it => it.prev user m) m.table_.fuel it

/-- The pair a call adds. -/
def AddCall.pair (c : AddCall) : Bytes × Bytes :=
  (c.key ++ encodeFixed64 (tagOf c.seq c.type), c.value)

section

variable (user : Compare Bytes)

/-- The internal key of the pair is before `k`. -/
def KeyBefore (kv : Bytes × Bytes) (k : Bytes) : Prop :=
  ∃ r, InternalKeyComparator.compare user kv.1 k = .ok r ∧ r < 0

/-- The internal key of the pair is `k` or after it. -/
def KeyNotBefore (kv : Bytes × Bytes) (k : Bytes) : Prop :=
  ∃ r, InternalKeyComparator.compare user kv.1 k = .ok r ∧ 0 ≤ r

/-- `seek(k)` ends at the first of the pairs `kvs` that is not before `k`. -/
def SeeksTo (kvs : List (Bytes × Bytes)) (k : Bytes) (m : MemTable) : Prop :=
  ∃ it, MemTableIterator.seek user m k = .ok it ∧
    ((it.valid = false ∧ ∀ kv ∈ kvs, KeyBefore user kv k) ∨
      ∃ as kv bs, kvs = as ++ kv :: bs ∧ (∀ q ∈ as, KeyBefore user q k) ∧
        KeyNotBefore user kv k ∧ it.valid = true ∧ pair m it = .ok kv)

/-- The pairs `cs` adds, in order, are what a client sees. -/
def Iterates (cs : List AddCall) (m : MemTable) : Prop :=
  ∃ kvs, kvs.Perm (cs.map AddCall.pair) ∧ kvs.Pairwise (fun a b => KeyBefore user a b.1) ∧
    forward m = .ok kvs ∧ backward user m = .ok kvs.reverse ∧
    ∀ k : Bytes, 8 ≤ k.length → SeeksTo user kvs k m

end

/-! ### The lengths of the keys -/

/-- The iterator on the first of `ys`, or on none. -/
def at_ (ys : List Placed) : MemTableIterator := { iter_ := ⟨ys.head?.map Placed.ptr⟩ }

theorem Placed.In.length_pair {p : Placed} (h : p.In m.memory) {it : MemTableIterator}
    (hit : it.iter_.key m.table_ = .ok (.arena p.buf)) {kv : Bytes × Bytes}
    (hpair : pair m it = .ok kv) : kv.1.length = encodedLen p.call.value.length := by
  have hkey : it.key m = .ok _ := bind_eq_ok.mpr ⟨_, hit, h.written.slice_eq h.encodedLen_lt⟩
  obtain ⟨s, hs, hpair⟩ := bind_eq_ok.mp hpair
  obtain ⟨v, -, hpair⟩ := bind_eq_ok.mp hpair
  obtain ⟨k, hk, hpair⟩ := bind_eq_ok.mp hpair
  obtain ⟨w, -, hpair⟩ := bind_eq_ok.mp hpair
  obtain rfl := Except.ok.inj (hkey.symm.trans hs)
  cases hk
  cases hpair
  exact Flat.length_bytesAt _ _ _

/-- A scan passes every node from where it starts, and reads a key of each. -/
theorem length_scan (hb : Built ps m) :
    ∀ (ys xs : List Placed) (fuel : Nat) (kvs : List (Bytes × Bytes)), ps = xs ++ ys →
      scan m (fun it => it.next m) fuel (at_ ys) = .ok kvs →
      kvs.map (fun kv => kv.1.length) = ys.map fun p => encodedLen p.call.value.length := by
  intro ys
  induction ys with
  | nil =>
      intro xs fuel kvs _ hrun
      cases fuel <;> cases hrun <;> rfl
  | cons p ys ih =>
      intro xs fuel kvs hps hrun
      cases fuel with
      | zero => cases hrun
      | succ fuel =>
          have hp : p ∈ ps := by simp [hps]
          have hnext : m.table_.next p.ptr 0 = .ok (ys.head?.map Placed.ptr) := by
            have hshape := hb.shape
            rw [hps, show xs ++ p :: ys = (xs ++ [p]) ++ ys by simp, List.map_append] at hshape
            have := hshape.next_zero
            rw [List.map_append, List.map_singleton, SkipList.lastPtr_concat] at this
            rw [List.head?_map, Option.map_map] at this
            exact this
          have hstep : (at_ (p :: ys)).next m = .ok (at_ ys) :=
            bind_eq_ok.mpr ⟨⟨ys.head?.map Placed.ptr⟩, bind_eq_ok.mpr ⟨_, hnext, rfl⟩, rfl⟩
          have hkey : (at_ (p :: ys)).iter_.key m.table_ = .ok (.arena p.buf) :=
            hb.shape.key_eq p.entry (List.mem_map_of_mem hp)
          obtain ⟨kv, hpair, hrun₁⟩ := bind_eq_ok.mp hrun
          obtain ⟨it, hit, hrun₂⟩ := bind_eq_ok.mp hrun₁
          obtain ⟨kvs', hrest, hkvs⟩ := bind_eq_ok.mp hrun₂
          obtain rfl : at_ ys = it := Except.ok.inj (hstep.symm.trans hit)
          obtain rfl : kv :: kvs' = kvs := Except.ok.inj hkvs
          rw [List.map_cons, List.map_cons, (hb.holds p hp).length_pair hkey hpair,
            ih (xs ++ [p]) fuel kvs' (by simp [hps]) hrest]

theorem seekToFirst_eq (hb : Built ps m) : MemTableIterator.seekToFirst m = .ok (at_ ps) := by
  have hshape : SkipList.Shape m.table_ ([] ++ ps.map Placed.entry) := hb.shape
  have hnext := hshape.next_zero
  rw [SkipList.lastPtr_nil, List.head?_map, Option.map_map] at hnext
  exact bind_eq_ok.mpr ⟨_, bind_eq_ok.mpr ⟨_, hnext, rfl⟩, rfl⟩

theorem length_forward (hb : Built ps m) (hrun : forward m = .ok kvs) :
    kvs.map (fun kv => kv.1.length) = ps.map fun p => encodedLen p.call.value.length := by
  obtain ⟨it, hit, hrun⟩ := bind_eq_ok.mp hrun
  rw [seekToFirst_eq hb] at hit
  cases hit
  exact length_scan hb ps [] _ kvs rfl hrun

/-- The entry is longer than its internal key. -/
theorem AddCall.Fits.length_lt (h : c.Fits) :
    c.pair.1.length < encodedLen c.value.length := by
  have heq := h.encodedLen_eq
  have hpos : 0 < varintLength (BitVec.ofNat 64 c.value.length) := by
    rw [varintLength_eq]
    exact Base128.length_encode_pos _
  rw [AddCall.tagOffset] at heq
  rw [AddCall.pair, length_key]
  omega

theorem Built.not_iterates (hb : Built ps m) (hperm : (ps.map Placed.call).Perm cs)
    (hfits : ∀ c ∈ cs, c.Fits) (hne : cs ≠ []) : ¬ Iterates user cs m := by
  rintro ⟨kvs, hkvs, -, hrun, -⟩
  have hlen := length_forward hb hrun
  -- the keys read and the keys added would have the same lengths in all
  have hsum : (cs.map fun c => c.pair.1.length).sum =
      (cs.map fun c => encodedLen c.value.length).sum := by
    have h₁ := (hkvs.map fun kv => kv.1.length).sum_eq
    have h₂ := (hperm.map fun c => encodedLen c.value.length).sum_eq
    rw [List.map_map] at h₁ h₂
    rw [hlen] at h₁
    exact h₁.symm.trans h₂
  have hlt := List.sum_lt_sum_of_ne_nil hne (fun c => c.pair.1.length)
    (fun c => encodedLen c.value.length) fun c hc => (hfits c hc).length_lt
  omega

/-! ### The empty memtable -/

theorem Built.iterates_nil (hb : Built [] m) : Iterates user [] m := by
  have hlast : MemTableIterator.seekToLast m = .ok (at_ []) := by
    refine bind_eq_ok.mpr ⟨⟨none⟩, bind_eq_ok.mpr ⟨_, SkipList.findLast_eq hb.shape, ?_⟩, rfl⟩
    rw [List.map_nil, SkipList.lastPtr_nil, SkipList.Iterator.unlessHead, if_pos rfl]
  have hscan : ∀ step fuel, scan m step fuel (at_ []) = .ok [] := by
    intro step fuel
    cases fuel <;> rfl
  refine ⟨[], .nil, .nil, bind_eq_ok.mpr ⟨_, seekToFirst_eq hb, hscan _ _⟩,
    bind_eq_ok.mpr ⟨_, hlast, hscan _ _⟩, fun k _ => ?_⟩
  exact ⟨at_ [], bind_eq_ok.mpr ⟨_, SkipList.seek_nil hb.shape _ (encodeKey k), rfl⟩,
    .inl ⟨rfl, by simp⟩⟩

/-- **When a memtable is built and iterated as it should be.** -/
theorem memtable_iteration (new_ : Allocator kPointerSize) (user : Compare Bytes) (mem : Memory)
    (cs : List AddCall) (hcs : ∀ c ∈ cs, c.WellFormed) :
    (∃ m, build new_ user mem cs = .ok m ∧ Iterates user cs m) ↔ cs = [] := by
  constructor
  · rintro ⟨m, hrun, hiter⟩
    have hfits := fits_of_build hcs hrun
    obtain ⟨ps, hb, hperm⟩ := built_of_build hcs hrun
    by_contra hne
    exact hb.not_iterates hperm hfits hne hiter
  · rintro rfl
    obtain ⟨m, hnew, hb⟩ := new_built new_ mem
    exact ⟨m, bind_eq_ok.mpr ⟨m, hnew, rfl⟩, hb.iterates_nil⟩

theorem memtable_iteration_addK :
    (∃ m, build (Flat.bump kPointerSize (by decide)) bytewiseComparator (fun _ => 0) [addK] =
      .ok m ∧ Iterates bytewiseComparator [addK] m) ↔ [addK] = [] :=
  memtable_iteration _ _ _ [addK] addK_wellFormed

/-- A memtable of one entry, whose key an iterator does not return. -/
theorem memtable_iteration_longKey :
    ∃ m, build (Flat.bump kPointerSize (by decide)) bytewiseComparator (fun _ => 0) [addK] =
      .ok m ∧ ¬ Iterates bytewiseComparator [addK] m := by
  obtain ⟨m, ps, hrun, hb, hperm⟩ := addK_built
  exact ⟨m, hrun, hb.not_iterates hperm (fits_of_build addK_wellFormed hrun) (by simp)⟩

end Leveldb.MemTable
