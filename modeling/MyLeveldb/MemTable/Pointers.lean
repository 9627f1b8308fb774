import MyLeveldb.Coding.Loads
import MyLeveldb.Coding.Stream
import MyLeveldb.Format.Order
import MyLeveldb.MemTable.Definitions
import MyLeveldb.SkipList.Search

/-!
# MemTable — Pointers

What the memtable's readers make of a pointer: a length, and as many bytes after it.  A reader
passes `p + 5` as the limit of the length, wherever the buffer ends.

* `CharPtr.At mem p bs`: the bytes `bs` are at `p`, in the memory or in a caller's buffer.
* `getVarint32Ptr_eq_decode`: the decoder, load by load.
* `keyComparator_internal`: `KeyComparator` compares internal keys, whatever is after them.
* `lookupKey_views`: a `LookupKey` is an internal key with its length before it, like the key a
  `MemTableIterator` seeks.
* `PointsTo mem p k`: a pointer the readers take for one to the internal key `k`.
* `get_miss`, `get_fails`: where `get` returns nothing, and where it does not return, in any table.
-/

namespace Leveldb

open Flat (Memory bytesAt)

namespace CharPtr

variable {mem : Memory} {p : CharPtr} {bs cs : Bytes} {v : U32}

/-- The bytes `bs` are at `p`. -/
def At (mem : Memory) (p : CharPtr) (bs : Bytes) : Prop := p.read mem bs.length = .ok bs

theorem length_read {n : Nat} (h : p.read mem n = .ok bs) : bs.length = n := by
  cases p with
  | arena a =>
      obtain rfl := Except.ok.inj h
      exact Flat.length_bytesAt _ _ _
  | buffer b offset =>
      rw [read] at h
      split_ifs at h with hroom
      obtain rfl := Except.ok.inj h
      rw [List.length_take, List.length_drop]
      omega

theorem at_arena {a : Nat} : At mem (.arena a) bs ↔ bytesAt mem a bs.length = bs :=
  ⟨Except.ok.inj, congrArg Except.ok⟩

theorem at_buffer {b : Bytes} {offset : Nat} :
    At mem (.buffer b offset) bs ↔ offset + bs.length ≤ b.length ∧ bs <+: b.drop offset := by
  rw [At, read, List.prefix_iff_eq_take]
  by_cases hroom : offset + bs.length ≤ b.length
  · rw [if_pos hroom]
    exact ⟨fun h => ⟨hroom, (Except.ok.inj h).symm⟩, fun h => congrArg Except.ok h.2.symm⟩
  · rw [if_neg hroom]
    exact ⟨nofun, fun h => absurd h.1 hroom⟩

/-- The bytes a buffer starts with. -/
theorem at_start (mem : Memory) (bs cs : Bytes) : At mem (.buffer (bs ++ cs) 0) bs := by
  refine at_buffer.mpr ⟨?_, bs.prefix_append cs⟩
  rw [Nat.zero_add, List.length_append]
  exact Nat.le_add_right _ _

theorem At.append (h : At mem p (bs ++ cs)) : At mem p bs ∧ At mem (p.plus bs.length) cs := by
  cases p with
  | arena a =>
      rw [at_arena, List.length_append, Flat.bytesAt_add] at h
      obtain ⟨hl, hr⟩ := List.append_inj h (Flat.length_bytesAt _ _ _)
      exact ⟨at_arena.mpr hl, at_arena.mpr hr⟩
  | buffer b offset =>
      obtain ⟨hroom, rest, hrest⟩ := at_buffer.mp h
      rw [List.length_append] at hroom
      refine ⟨at_buffer.mpr ⟨by omega, cs ++ rest, ?_⟩, at_buffer.mpr ⟨by omega, rest, ?_⟩⟩
      · rw [← hrest, List.append_assoc]
      · rw [← List.drop_drop, ← hrest, List.append_assoc, List.drop_left]

theorem plus_plus (p : CharPtr) (m n : Nat) : (p.plus m).plus n = p.plus (m + n) := by
  cases p with
  | arena a => exact congrArg CharPtr.arena (Nat.add_assoc a m n)
  | buffer b offset => exact congrArg (CharPtr.buffer b) (Nat.add_assoc offset m n)

theorem plus_minus (p : CharPtr) {m n : Nat} (h : n ≤ m) :
    (p.plus m).minus n = .ok (p.plus (m - n)) := by
  cases p with
  | arena a =>
      rw [plus, minus, if_pos (h.trans (Nat.le_add_left m a)), Nat.add_sub_assoc h]
      rfl
  | buffer b offset =>
      rw [plus, minus, if_pos (h.trans (Nat.le_add_left m offset)), Nat.add_sub_assoc h]
      rfl

/-- What is at `p` is what a reader of `p` finds first. -/
theorem At.upTo5 (h : At mem p bs) (hle : bs.length ≤ 5) : ∃ rest, p.upTo5 mem = bs ++ rest := by
  obtain ⟨k, hk⟩ : ∃ k, 5 = bs.length + k := ⟨_, (Nat.add_sub_cancel' hle).symm⟩
  cases p with
  | arena a => exact ⟨_, by rw [CharPtr.upTo5, hk, Flat.bytesAt_add, at_arena.mp h]⟩
  | buffer b offset =>
      obtain ⟨-, rest, hrest⟩ := at_buffer.mp h
      exact ⟨_, by rw [CharPtr.upTo5, ← hrest, hk, List.take_length_add_append]⟩

theorem At.decode (h : At mem p (encodeVarint32 v)) :
    p.getVarint32Ptr mem = .ok (p.plus (encodeVarint32 v).length, v.toNat) := by
  obtain ⟨rest, hrest⟩ := h.upTo5 (length_encodeVarint32_le v)
  rw [CharPtr.getVarint32Ptr, hrest, getVarint32Ptr_encode]
  simp only [List.length_append, Nat.add_sub_cancel]

/-! ### Loads -/

/-- `*(p + i)`. -/
def load (mem : Memory) (p : CharPtr) : Load := fun i =>
  match p with
  | .arena a         => .ok (mem (a + i))
  | .buffer b offset => match b[offset + i]? with
    | some c => .ok c
    | none   => .error .wild

/-- `getVarint32Ptr(p, p + 5, &len)` with these loads. -/
def decode (load : Load) (p : CharPtr) : Except Fault (CharPtr × Nat) := do
  match ← getVarint32PtrLoads load 5 with
  | some (n, len) => .ok (p.plus n, len.toNat)
  | none          => .error .wild

theorem returns_upTo5 (mem : Memory) (p : CharPtr) : Returns (p.load mem) 0 (p.upTo5 mem) := by
  intro j c hj
  rw [Nat.zero_add]
  cases p with
  | arena a =>
      rw [upTo5, Flat.getElem?_bytesAt] at hj
      split_ifs at hj
      exact congrArg Except.ok (Option.some.inj hj)
  | buffer b offset =>
      rw [upTo5, List.getElem?_take] at hj
      split_ifs at hj
      rw [List.getElem?_drop] at hj
      simp only [load, hj]

/-- The bytes end before the limit only where the next load fails. -/
theorem upTo5_end (mem : Memory) (p : CharPtr) : (p.upTo5 mem).length = 5 ∨
    (p.upTo5 mem).length < 5 ∧ p.load mem (p.upTo5 mem).length = .error .wild := by
  cases p with
  | arena a => exact .inl (Flat.length_bytesAt _ _ _)
  | buffer b offset =>
      have hlen : ((CharPtr.buffer b offset).upTo5 mem).length = min 5 (b.length - offset) := by
        rw [upTo5, List.length_take, List.length_drop]
      by_cases hlong : 5 ≤ b.length - offset
      · exact .inl (hlen.trans (Nat.min_eq_left hlong))
      · have hmin : min 5 (b.length - offset) = b.length - offset := Nat.min_eq_right (by omega)
        have hnone : b[offset + (b.length - offset)]? = none :=
          List.getElem?_eq_none (by omega)
        rw [hlen, hmin]
        exact .inr ⟨Nat.not_le.mp hlong, by simp only [load, hnone]⟩

/-- The decoder, load by load. -/
theorem getVarint32Ptr_eq_decode (mem : Memory) (p : CharPtr) :
    p.getVarint32Ptr mem = p.decode (p.load mem) := by
  have hload := returns_upTo5 mem p
  have hend := upTo5_end mem p
  rw [CharPtr.getVarint32Ptr]
  cases hptr : Leveldb.getVarint32Ptr (p.upTo5 mem) with
  | some r =>
      have hle : (p.upTo5 mem).length ≤ 5 := hend.elim Eq.le fun h => h.1.le
      rw [decode, getVarint32PtrLoads_of_some hload hle hptr, ok_bind]
  | none =>
      rcases getVarint32PtrLoads_of_none hload hend hptr with hrun | hrun
      · rw [decode, hrun, ok_bind]
      · rw [decode, hrun, error_bind]

end CharPtr

open CharPtr (At)

namespace MemTable

variable {mem : Memory} {p q : CharPtr} {a b : Bytes}

/-! ### Slices -/

/-- How many bytes the length before `b` takes. -/
def headLen (b : Bytes) : Nat := (encodeVarint32 (BitVec.ofNat 32 b.length)).length

theorem prefixed_eq (b : Bytes) :
    putLengthPrefixedSlice [] b = encodeVarint32 (BitVec.ofNat 32 b.length) ++ b := rfl

theorem length_prefixed (b : Bytes) : (putLengthPrefixedSlice [] b).length = headLen b + b.length :=
  List.length_append

theorem headLen_le (b : Bytes) : headLen b ≤ 5 := length_encodeVarint32_le _

theorem decode_prefixed (h : At mem p (putLengthPrefixedSlice [] b)) (hlt : b.length < 2 ^ 32) :
    p.getVarint32Ptr mem = .ok (p.plus (headLen b), b.length) := by
  obtain ⟨hhead, -⟩ := h.append
  have hlen : (BitVec.ofNat 32 b.length).toNat = b.length := Nat.mod_eq_of_lt hlt
  rw [At.decode hhead, hlen, headLen]

/-- A length that is a `uint32_t` is read with the bytes after it. -/
theorem slice_at (h : At mem p (putLengthPrefixedSlice [] b)) (hlt : b.length < 2 ^ 32) :
    getLengthPrefixedSlice mem p = .ok ⟨p.plus (headLen b), b.length⟩ ∧
      At mem (p.plus (headLen b)) b :=
  ⟨by rw [getLengthPrefixedSlice, decode_prefixed h hlt, ok_bind], h.append.2⟩

/-- Any length is read modulo `2 ^ 32`, with that many bytes after it. -/
theorem slice_buffer (mem : Memory) (b : Bytes) :
    ∃ s, getLengthPrefixedSlice mem (.buffer (putLengthPrefixedSlice [] b) 0) = .ok s ∧
      s.read mem = .ok (b.take (b.length % 2 ^ 32)) := by
  have hlen : (BitVec.ofNat 32 b.length).toNat = b.length % 2 ^ 32 := BitVec.toNat_ofNat _ _
  have hmod := Nat.mod_le b.length (2 ^ 32)
  have hhead : At mem (.buffer (putLengthPrefixedSlice [] b) 0)
    (encodeVarint32 (BitVec.ofNat 32 b.length)) := CharPtr.at_start mem _ b
  refine ⟨_, by rw [getLengthPrefixedSlice, hhead.decode, ok_bind], ?_⟩
  have hroom : 0 + headLen b + b.length % 2 ^ 32 ≤ (putLengthPrefixedSlice [] b).length := by
    rw [length_prefixed]
    omega
  rw [Slice.read, hlen]
  show CharPtr.read mem (.buffer _ (0 + headLen b)) _ = _
  rw [CharPtr.read, if_pos hroom, Nat.zero_add, prefixed_eq, headLen, List.drop_left]

/-! ### Entries -/

/-- An entry as the readers expect it: an internal key and a value, each with its length before
it. -/
def entryBytes (key value : Bytes) (s : U64) (type : ValueType) : Bytes :=
  encodeVarint32 (BitVec.ofNat 32 (key.length + 8)) ++ key ++ encodeFixed64 (tagOf s type) ++
    encodeVarint32 (BitVec.ofNat 32 value.length) ++ value

theorem entryBytes_eq (key value : Bytes) (s : U64) (type : ValueType) :
    entryBytes key value s type = putLengthPrefixedSlice [] (key ++ encodeFixed64 (tagOf s type)) ++
      putLengthPrefixedSlice [] value := by
  rw [prefixed_eq, prefixed_eq, length_key]
  simp only [entryBytes, List.append_assoc]

/-! ### The comparator -/

/-- The bytes `encodeKey(scratch, a)` leaves in `*scratch`, which it returns a pointer to. -/
def scratch (a : Bytes) : Bytes :=
  match encodeKey a with
  | .buffer bytes _ => bytes
  | .arena _        => []

theorem scratch_eq (a : Bytes) : scratch a = putLengthPrefixedSlice [] a := rfl

theorem encodeKey_eq (a : Bytes) : encodeKey a = .buffer (scratch a) 0 := rfl

/-- The length before `a` is decoded at `p` from no more than the bytes of `encodeKey(a)`, whatever
the loads after them do; it is that of the rest of these bytes. -/
def DecodesWithin (mem : Memory) (p : CharPtr) (a : Bytes) : Prop :=
  p.getVarint32Ptr mem = p.decode (p.load mem) ∧
    ∃ n, n + a.length = (scratch a).length ∧
      ∀ load, Returns load 0 (scratch a) → p.decode load = .ok (p.plus n, a.length)

theorem decodesWithin (mem : Memory) (p : CharPtr) (h : a.length < 2 ^ 32) :
    DecodesWithin mem p a := by
  refine ⟨p.getVarint32Ptr_eq_decode mem, headLen a, (length_prefixed a).symm, fun load hload => ?_⟩
  have hlen : (BitVec.ofNat 32 a.length).toNat = a.length := Nat.mod_eq_of_lt h
  have hrun := getVarint32PtrLoads_encode hload.left (length_encodeVarint32_le _)
  rw [CharPtr.decode, hrun, ok_bind]
  simp only [hlen, headLen]

theorem keyComparator_at (user : Compare Bytes) (hp : At mem p (putLengthPrefixedSlice [] a))
    (hq : At mem q (putLengthPrefixedSlice [] b)) (ha : a.length < 2 ^ 32)
    (hb : b.length < 2 ^ 32) :
    KeyComparator user mem p q = InternalKeyComparator.compare user a b := by
  obtain ⟨hs, hread⟩ := slice_at hp ha
  obtain ⟨ht, hread'⟩ := slice_at hq hb
  have ha' : Slice.read mem ⟨p.plus (headLen a), a.length⟩ = .ok a := hread
  have hb' : Slice.read mem ⟨q.plus (headLen b), b.length⟩ = .ok b := hread'
  rw [KeyComparator, hs, ok_bind, ht, ok_bind, ha', ok_bind, hb', ok_bind]

/-- **`KeyComparator` sees the internal keys only.**  What is after the buffers of `encodeKey`, and
whether anything is, makes no difference, and the lengths in them are decoded from their own
bytes. -/
theorem keyComparator_internal (user : Compare Bytes) (mem : Memory) (a b x y : Bytes)
    (p q : CharPtr) (ha : a.length < 2 ^ 32) (hb : b.length < 2 ^ 32)
    (hp : At mem p (scratch a ++ x)) (hq : At mem q (scratch b ++ y)) :
    KeyComparator user mem p q = InternalKeyComparator.compare user a b ∧
      DecodesWithin mem p a ∧ DecodesWithin mem q b :=
  ⟨keyComparator_at user hp.append.1 hq.append.1 ha hb, decodesWithin mem p ha,
    decodesWithin mem q hb⟩

/-- A stored entry of `k`, with a value, and the key a reader of `k` seeks. -/
theorem keyComparator_internal_value :
    KeyComparator bytewiseComparator (fun _ => 0)
        (.buffer (scratch [107, 1, 1, 0, 0, 0, 0, 0, 0] ++ [1, 118]) 0)
        (.buffer (scratch [107, 1, 2, 0, 0, 0, 0, 0, 0] ++ []) 0) =
        InternalKeyComparator.compare bytewiseComparator [107, 1, 1, 0, 0, 0, 0, 0, 0]
          [107, 1, 2, 0, 0, 0, 0, 0, 0] ∧
      DecodesWithin (fun _ => 0)
        (.buffer (scratch [107, 1, 1, 0, 0, 0, 0, 0, 0] ++ [1, 118]) 0)
        [107, 1, 1, 0, 0, 0, 0, 0, 0] ∧
      DecodesWithin (fun _ => 0)
        (.buffer (scratch [107, 1, 2, 0, 0, 0, 0, 0, 0] ++ []) 0)
        [107, 1, 2, 0, 0, 0, 0, 0, 0] :=
  keyComparator_internal _ _ _ _ [1, 118] [] _ _ (by decide) (by decide) rfl rfl

/-! ### Lookup keys -/

/-- What a `LookupKey` of `u` at `s` holds: in its buffer the internal key with its length before
it, as a `MemTableIterator` that seeks the internal key builds it. -/
structure LookupViews (u : Bytes) (s : U64) (key : LookupKey) : Prop where
  written : key.bytes.length ≤ u.length + 13
  room : key.bytes.length ≤ key.capacity
  inline_or_heap : key.capacity = if u.length + 13 ≤ 200 then 200 else u.length + 13
  internal : appendInternalKey [] ⟨u, s, kValueTypeForSeek⟩ = .ok key.internal_key
  user : key.user_key = u
  encoded : encodeKey key.internal_key = .buffer key.memtable_key 0
  decoded : ∀ result, Leveldb.getLengthPrefixedSlice key.memtable_key result =
    { ok := true, input := [], value := key.internal_key }
  sought : ∀ (user : Compare Bytes) (m : MemTable),
    MemTableIterator.seek user m key.internal_key = (do
      let iter ← SkipList.Iterator.seek (KeyComparator user m.memory) m.table_
        (.buffer key.memtable_key 0)
      .ok { iter_ := iter })
  /-- `get` looks where such an iterator is -/
  got : ∀ (user : Compare Bytes) (m : MemTable) (value : Bytes) (st : Status),
    m.get user key value st = (do
      let it ← MemTableIterator.seek user m key.internal_key
      m.getAt user key value st it.iter_)

/-- **The views of a `LookupKey` are consistent, and its buffer is long enough.** -/
theorem lookupKey_views (u : Bytes) (s : U64) (hu : u.length + 8 < 2 ^ 32)
    (hs : s.toNat ≤ kMaxSequenceNumber.toNat) :
    ∃ key, LookupKey.new u s = .ok key ∧ LookupViews u s key := by
  obtain ⟨key, hkey, hinternal, hmem, huser⟩ := lookupKey_eq hs u
  have hlen : key.internal_key.length = u.length + 8 := by rw [hinternal, length_key]
  have hprefixed : key.memtable_key = putLengthPrefixedSlice [] key.internal_key := by
    rw [hmem, prefixed_eq, hlen]
  have hwritten : key.bytes.length ≤ u.length + 13 := by
    have hhead := headLen_le key.internal_key
    have hbytes : key.bytes.length = headLen key.internal_key + key.internal_key.length := by
      rw [← length_prefixed, ← hprefixed, LookupKey.memtable_key]
    omega
  have hcapacity : key.capacity = if u.length + 13 ≤ 200 then 200 else u.length + 13 := by
    obtain ⟨_, -, hnew⟩ := bind_eq_ok.mp hkey
    exact congrArg LookupKey.capacity (Except.ok.inj hnew).symm
  have henc : encodeKey key.internal_key = .buffer key.memtable_key 0 := by
    rw [encodeKey_eq, scratch_eq, hprefixed]
  refine ⟨key, hkey, hwritten, ?_, hcapacity, ?_, huser, henc, fun result => ?_, fun user m => ?_,
    fun user m value st => ?_⟩
  · rw [hcapacity]
    split_ifs with hinline
    · exact hwritten.trans hinline
    · exact hwritten
  · rw [hinternal]
    exact appendInternalKey_eq hs (.inr rfl) [] u
  · have hread := getLengthPrefixedSlice_prefixed (s := key.internal_key) (hlen ▸ hu) [] result
    rwa [List.append_nil, ← hprefixed] at hread
  · rw [MemTableIterator.seek, henc]
  · rw [MemTableIterator.seek, henc, get, bind_assoc]
    rfl

/-- A key that does not fit in `space_`. -/
theorem lookupKey_views_heap : ∃ key, LookupKey.new (List.replicate 188 97) 7 = .ok key ∧
    key.capacity = 201 ∧ LookupViews (List.replicate 188 97) 7 key := by
  obtain ⟨key, hkey, hviews⟩ := lookupKey_views (List.replicate 188 97) 7
    (by rw [List.length_replicate]; decide) (by decide)
  have hcapacity := hviews.inline_or_heap
  rw [List.length_replicate] at hcapacity
  exact ⟨key, hkey, hcapacity, hviews⟩

/-! ### Pointers to internal keys -/

/-- What the readers take for the internal key of `LookupKey(u, s)`: the length before it is a
`uint32_t`. -/
def soughtKey (u : Bytes) (s : U64) : Bytes :=
  (u ++ encodeFixed64 (tagOf s kValueTypeForSeek)).take ((u.length + 8) % 2 ^ 32)

/-- The length before the internal key of `u` reads as that of an internal key. -/
def LengthReads (u : Bytes) : Prop := 8 ≤ (u.length + 8) % 2 ^ 32

theorem length_soughtKey (u : Bytes) (s : U64) :
    (soughtKey u s).length = (u.length + 8) % 2 ^ 32 := by
  refine List.length_take_of_le ?_
  rw [length_key]
  exact Nat.mod_le _ _

/-- A key that is not too long is read whole. -/
theorem soughtKey_eq {s : U64} {u : Bytes} (h : u.length + 8 < 2 ^ 32) :
    soughtKey u s = u ++ encodeFixed64 (tagOf s kValueTypeForSeek) := by
  rw [soughtKey, Nat.mod_eq_of_lt h, ← length_key u (tagOf s kValueTypeForSeek), List.take_length]

theorem lookupKey_sought {s : U64} (mem : Memory) (hs : s.toNat ≤ kMaxSequenceNumber.toNat)
    (u : Bytes) :
    ∃ key slice, LookupKey.new u s = .ok key ∧ key.user_key = u ∧
      getLengthPrefixedSlice mem (.buffer key.memtable_key 0) = .ok slice ∧
      slice.read mem = .ok (soughtKey u s) := by
  obtain ⟨key, hkey, hinternal, hmem, huser⟩ := lookupKey_eq hs u
  obtain ⟨slice, hslice, hread⟩ := slice_buffer mem (u ++ encodeFixed64 (tagOf s kValueTypeForSeek))
  rw [prefixed_eq, length_key] at hslice
  rw [length_key] at hread
  exact ⟨key, slice, hkey, huser, by rw [hmem, hinternal, hslice], hread⟩

/-- A pointer the readers take for one to the internal key `k`. -/
def PointsTo (mem : Memory) (p : CharPtr) (k : InternalBytes) : Prop :=
  ∃ s, getLengthPrefixedSlice mem p = .ok s ∧ s.read mem = .ok k.1

/-- The comparator fails on a slice that is shorter than a tag. -/
theorem keyComparator_short {user : Compare Bytes} {s : Slice}
    (hs : getLengthPrefixedSlice mem q = .ok s) (hb : s.read mem = .ok b) (hlt : b.length < 8)
    (r : Int) : KeyComparator user mem p q ≠ .ok r := by
  intro hrun
  obtain ⟨sp, -, hrun⟩ := bind_eq_ok.mp hrun
  rw [hs, ok_bind] at hrun
  obtain ⟨a, -, hrun⟩ := bind_eq_ok.mp hrun
  rw [hb, ok_bind, InternalKeyComparator.compare] at hrun
  obtain ⟨ua, -, hrun⟩ := bind_eq_ok.mp hrun
  obtain ⟨ub, hub, -⟩ := bind_eq_ok.mp hrun
  obtain ⟨_, hassert, -⟩ := bind_eq_ok.mp hub
  exact absurd (assertion_eq_ok.mp hassert) (Nat.not_le.mpr hlt)

/-- The comparator of two pointers, one of them to a key that is not too long. -/
theorem keyComparator_eq {k l : InternalBytes} (hp : PointsTo mem p k) (hq : PointsTo mem q l)
    (hlt : k.1.length < 2 ^ 31) :
    KeyComparator bytewiseComparator mem p q = .ok (internalOrder bytewiseOrder k l) := by
  obtain ⟨s, hs, ha⟩ := hp
  obtain ⟨t, ht, hb⟩ := hq
  have hmin : min k.1.length l.1.length < 2 ^ 31 := (Nat.min_le_left _ _).trans_lt hlt
  rw [KeyComparator, hs, ok_bind, ht, ok_bind, ha, ok_bind, hb, ok_bind]
  exact compare_bytewise hmin

/-- A key whose length does not read fails the `assert` of `extractUserKey`, in any table with an
entry. -/
theorem get_fails {user : Compare Bytes} {m : MemTable} {es : List (SkipList.Entry CharPtr)}
    {u : Bytes} {s : U64} (h : SkipList.Shape m.table_ es) (hne : es ≠ [])
    (hs : s.toNat ≤ kMaxSequenceNumber.toNat) (hreads : ¬ LengthReads u) {key : LookupKey}
    (hkey : LookupKey.new u s = .ok key) (value : Bytes) (st : Status)
    (r : Bool × Bytes × Status) : m.get user key value st ≠ .ok r := by
  obtain ⟨key', slice, hkey', -, hslice, hread⟩ := lookupKey_sought m.memory hs u
  obtain rfl : key = key' := Except.ok.inj (hkey.symm.trans hkey')
  have hlt : (soughtKey u s).length < 8 := by
    rw [length_soughtKey]
    exact Nat.not_le.mp hreads
  intro hrun
  obtain ⟨iter, hseek, -⟩ := bind_eq_ok.mp hrun
  obtain ⟨found, hfind, -⟩ := bind_eq_ok.mp hseek
  exact SkipList.findEqualOrGreater_fails h hne
    (fun _ _ => keyComparator_short hslice hread hlt) found hfind

/-- `get` misses an entry whose slice the user comparator tells from the user key sought. -/
theorem get_miss {user : Compare Bytes} {m : MemTable} {key : LookupKey}
    {iter : SkipList.Iterator} {n : Nat} {r : Int}
    (hseek : SkipList.Iterator.seek (KeyComparator user m.memory) m.table_
      (.buffer key.memtable_key 0) = .ok iter)
    (hvalid : iter.valid = true) (hentry : iter.key m.table_ = .ok p)
    (hdecode : p.getVarint32Ptr m.memory = .ok (q, n)) (hread : q.read m.memory n = .ok b)
    (hcompare : user b key.user_key = .ok r) (hne : r ≠ 0) (value : Bytes) (st : Status) :
    m.get user key value st = .ok (false, value, st) := by
  refine bind_eq_ok.mpr ⟨iter, hseek, ?_⟩
  rw [getAt, if_pos hvalid]
  refine bind_eq_ok.mpr ⟨p, hentry, ?_⟩
  refine bind_eq_ok.mpr ⟨_, hdecode, ?_⟩
  refine bind_eq_ok.mpr ⟨b, hread, ?_⟩
  refine bind_eq_ok.mpr ⟨r, hcompare, ?_⟩
  exact if_neg hne

end MemTable

end Leveldb
