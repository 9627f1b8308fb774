import MyLeveldb.Format.Versions
import MyLeveldb.MemTable.Build

/-!
# MemTable — Get

A reader of the user key `u` at the snapshot `s` asks for the newest version of `u` that is not
newer than `s`.  `get` seeks the internal key of `LookupKey(u, s)` and compares the user key `u`
with the whole internal key of the entry it finds, as it reads it.  An internal key is never equal
to a user key it is not put before, so that `get` finds no key in any memtable (`get_eq`):
`memtable_snapshot_read`.

`LookupKey` writes the length of the internal key as a `uint32_t`.  Where what is left of it is
less than a tag, the first comparison of the seek fails an `assert` (`get_fails` of
`MemTable — Pointers`).
-/

namespace Leveldb.MemTable

open Flat (Memory Allocator)
open ThreeWay

variable {new_ : Allocator kPointerSize} {m : MemTable} {mem : Memory} {c : AddCall}
  {cs : List AddCall} {ps : List Placed} {u : Bytes} {s : U64}

/-- A version of `u` that a reader at `s` may see. -/
def Visible (u : Bytes) (s : U64) (c : AddCall) : Prop := c.key = u ∧ c.seq.toNat ≤ s.toNat

/-- The version of `u` that a reader at `s` must see. -/
def Newest (cs : List AddCall) (u : Bytes) (s : U64) (c : AddCall) : Prop :=
  c ∈ cs ∧ Visible u s c ∧ ∀ d ∈ cs, Visible u s d → d.seq.toNat ≤ c.seq.toNat

/-- `get(LookupKey(u, s), value, st)` returns what the calls `cs` say. -/
def ReadsSnapshot (cs : List AddCall) (u : Bytes) (s : U64) (m : MemTable) : Prop :=
  ∃ key, LookupKey.new u s = .ok key ∧ ∀ (value : Bytes) (st : Status),
    (∀ c, Newest cs u s c → c.type = .kTypeValue →
      m.get bytewiseComparator key value st = .ok (true, c.value, st)) ∧
    (∀ c, Newest cs u s c → c.type = .kTypeDeletion →
      ∃ st', m.get bytewiseComparator key value st = .ok (true, value, st') ∧
        st'.isNotFound = true) ∧
    ((∀ c ∈ cs, ¬ Visible u s c) → m.get bytewiseComparator key value st = .ok (false, value, st))

/-- A visible version has a newest one beside it: the one closest to the snapshot. -/
theorem exists_newest (h : ∃ c ∈ cs, Visible u s c) : ∃ c, Newest cs u s c := by
  have hpre := isStrict_ofLT.toIsPreorder.comap fun c : AddCall => s.toNat - c.seq.toNat
  obtain ⟨c, ⟨hc, hvis⟩, hmin⟩ := hpre.exists_isLeast h
  refine ⟨c, hc, hvis, fun d hd hdvis => ?_⟩
  have hle := ofLT_le.mp (hmin d ⟨hd, hdvis⟩)
  have := hdvis.2
  have := hvis.2
  omega

/-! ### What `get` returns -/

/-- The entry the seek finds is not put before the key sought. -/
theorem Built.seek_spec (hb : Built ps m) {t : CharPtr} {k : InternalBytes}
    (ht : PointsTo m.memory t k) :
    ∃ iter, SkipList.Iterator.seek (KeyComparator bytewiseComparator m.memory) m.table_ t =
        .ok iter ∧
      (iter.valid = false ∨ ∃ p ∈ ps, iter.valid = true ∧ iter.key m.table_ = .ok (.arena p.buf) ∧
        0 ≤ internalOrder bytewiseOrder (p.key m.memory) k) := by
  have hanswers : ∀ e ∈ ps.map Placed.entry,
      ∃ r, KeyComparator bytewiseComparator m.memory e.key t = .ok r := by
    intro e he
    obtain ⟨p, hp, rfl⟩ := List.mem_map.mp he
    exact ⟨_, (hb.holds p hp).compare_eq ht⟩
  obtain ⟨as, bs, pre, hes, hcut, hfind⟩ :=
    SkipList.findEqualOrGreater_cut hb.shape (SkipList.decides_of_ok hanswers)
  have hhead := hcut.descent.head_not_below hb.shape.cur_pos fun e he =>
    hb.shape.height_pos e (hes ▸ List.mem_append_right _ he)
  refine ⟨⟨bs.head?.map SkipList.Entry.ptr⟩, by rw [SkipList.Iterator.seek, hfind, ok_bind], ?_⟩
  cases bs with
  | nil => exact .inl rfl
  | cons e bs =>
      have he : e ∈ ps.map Placed.entry := hes ▸ List.mem_append_right _ List.mem_cons_self
      have hkey := hb.shape.key_eq e he
      obtain ⟨p, hp, rfl⟩ := List.mem_map.mp he
      refine .inr ⟨p, hp, rfl, hkey, ?_⟩
      by_contra hneg
      exact hhead p.entry rfl ⟨_, (hb.holds p hp).compare_eq ht, Int.not_le.mp hneg⟩

/-- `get` finds nothing and leaves its output parameters. -/
theorem get_eq (hb : Built ps m) (hs : s.toNat ≤ kMaxSequenceNumber.toNat)
    (hreads : ps = [] ∨ LengthReads u) {key : LookupKey} (hkey : LookupKey.new u s = .ok key)
    (value : Bytes) (st : Status) :
    m.get bytewiseComparator key value st = .ok (false, value, st) := by
  obtain ⟨key', slice, hkey', huser, hslice, hread⟩ := lookupKey_sought m.memory hs u
  obtain rfl : key = key' := Except.ok.inj (hkey.symm.trans hkey')
  rcases hreads with rfl | hreads
  · exact bind_eq_ok.mpr ⟨_, SkipList.seek_nil hb.shape _ _, rfl⟩
  let k : InternalBytes := ⟨soughtKey u s, by rwa [length_soughtKey]⟩
  have ht : PointsTo m.memory (.buffer key.memtable_key 0) k := ⟨slice, hslice, hread⟩
  obtain ⟨iter, hseek, hinvalid | ⟨p, hp, hvalid, hentry, hnot⟩⟩ := hb.seek_spec ht
  · refine bind_eq_ok.mpr ⟨iter, hseek, ?_⟩
    rw [getAt, hinvalid]
    rfl
  · have hin := hb.holds p hp
    have hcompare : bytewiseComparator (p.key m.memory).1 key.user_key =
        .ok (bytewiseOrder (p.key m.memory).1 u) := by
      rw [huser]
      exact compare_eq ((Nat.min_le_left _ _).trans_lt hin.length_key)
    have hne : bytewiseOrder (p.key m.memory).1 u ≠ 0 := fun h₀ => by
      have heq := isStrict_bytewiseOrder.eq_of_tie _ _ h₀
      -- then `u` is as short as the entry's key, and `k` is its internal key
      have hshort : u.length < 2 ^ 31 := heq ▸ hin.length_key
      have hk : k.userKey = u := by
        show (soughtKey u s).take ((soughtKey u s).length - 8) = u
        rw [soughtKey_eq (by omega), take_key]
      exact absurd (before_of_eq (heq.trans hk.symm)) (Int.not_lt.mpr hnot)
    exact get_miss hseek hvalid hentry (hin.written.decode_eq hin.encodedLen_lt) rfl hcompare hne
      value st

/-! ### What a reader sees -/

/-- A snapshot that is read as it should be: `get` returns whether there is a visible version. -/
theorem ReadsSnapshot.returns (h : ReadsSnapshot cs u s m) (hcs : ∀ c ∈ cs, c.WellFormed) :
    ∃ key r, LookupKey.new u s = .ok key ∧ m.get bytewiseComparator key [] .OK = .ok r ∧
      (r.1 = true ↔ ∃ c ∈ cs, Visible u s c) := by
  obtain ⟨key, hkey, hread⟩ := h
  obtain ⟨hvalue, hdeletion, hnone⟩ := hread [] .OK
  by_cases hvis : ∃ c ∈ cs, Visible u s c
  · obtain ⟨d, hd⟩ := exists_newest hvis
    rcases (hcs d hd.1).type_valid with ht | ht
    · obtain ⟨st', hrun, -⟩ := hdeletion d hd ht
      exact ⟨key, _, hkey, hrun, by simpa using hvis⟩
    · exact ⟨key, _, hkey, hvalue d hd ht, by simpa using hvis⟩
  · have hno : ∀ c ∈ cs, ¬ Visible u s c := fun c hc hv => hvis ⟨c, hc, hv⟩
    exact ⟨key, _, hkey, hnone hno, by simpa using hno⟩

/-- A snapshot with no visible version is read as it should be, where the key's length reads, and
no other is. -/
theorem Built.readsSnapshot_iff (hb : Built ps m) (hperm : (ps.map Placed.call).Perm cs)
    (hcs : ∀ c ∈ cs, c.WellFormed) (hs : s.toNat ≤ kMaxSequenceNumber.toNat) :
    ReadsSnapshot cs u s m ↔ (∀ c ∈ cs, ¬ Visible u s c) ∧ (cs = [] ∨ LengthReads u) := by
  have hnil : ps = [] ↔ cs = [] := by
    rw [← List.length_eq_zero_iff, ← List.length_eq_zero_iff, ← hperm.length_eq, List.length_map]
  rw [← hnil]
  constructor
  · intro h
    obtain ⟨key, r, hkey, hrun, hvis⟩ := h.returns hcs
    by_cases hreads : ps = [] ∨ LengthReads u
    · rw [get_eq hb hs hreads hkey] at hrun
      cases hrun
      exact ⟨by simpa using hvis, hreads⟩
    · obtain ⟨hne, hshort⟩ := not_or.mp hreads
      exact absurd hrun (get_fails hb.shape (by simpa using hne) hs hshort hkey _ _ r)
  · rintro ⟨hno, hreads⟩
    obtain ⟨key, -, hkey, -⟩ := lookupKey_sought m.memory hs u
    exact ⟨key, hkey, fun value st => ⟨fun c hc _ => absurd hc.2.1 (hno c hc.1),
      fun c hc _ => absurd hc.2.1 (hno c hc.1), fun _ => get_eq hb hs hreads hkey value st⟩⟩

/-- **When a memtable is built and a snapshot read from it.**  The arena's allocator, its memory
and the heights are any. -/
theorem memtable_snapshot_read (new_ : Allocator kPointerSize) (mem : Memory) (cs : List AddCall)
    (hcs : ∀ c ∈ cs, c.WellFormed) (hnd : (cs.map AddCall.seq).Nodup) (u : Bytes) (s : U64)
    (hs : s.toNat ≤ kMaxSequenceNumber.toNat) :
    (∃ m, build new_ bytewiseComparator mem cs = .ok m ∧ ReadsSnapshot cs u s m) ↔
      (∀ c ∈ cs, c.Fits) ∧ (∀ c ∈ cs, ¬ Visible u s c) ∧ (cs = [] ∨ LengthReads u) := by
  constructor
  · rintro ⟨m, hrun, hread⟩
    have hfits := fits_of_build hcs hrun
    obtain ⟨m', ps, hrun', hb, hperm⟩ :=
      build_spec new_ mem (fun c hc => ⟨hcs c hc, hfits c hc⟩) hnd
    obtain rfl : m = m' := Except.ok.inj (hrun.symm.trans hrun')
    exact ⟨hfits, (hb.readsSnapshot_iff hperm hcs hs).mp hread⟩
  · rintro ⟨hfits, hno⟩
    obtain ⟨m, ps, hrun, hb, hperm⟩ :=
      build_spec new_ mem (fun c hc => ⟨hcs c hc, hfits c hc⟩) hnd
    exact ⟨m, hrun, (hb.readsSnapshot_iff hperm hcs hs).mpr hno⟩

theorem memtable_snapshot_read_absent :
    (∃ m, build (Flat.bump kPointerSize (by decide)) bytewiseComparator (fun _ => 0) [addK] =
        .ok m ∧ ReadsSnapshot [addK] [109] 2 m) ↔
      (∀ c ∈ [addK], c.Fits) ∧ (∀ c ∈ [addK], ¬ Visible [109] 2 c) ∧
        ([addK] = [] ∨ LengthReads [109]) :=
  memtable_snapshot_read _ _ [addK] addK_wellFormed (by decide) [109] 2 (by decide)

/-- `k` is in the memtable, and a reader of `k` does not find it. -/
theorem memtable_snapshot_read_misses :
    ∃ m, build (Flat.bump kPointerSize (by decide)) bytewiseComparator (fun _ => 0) [addK] =
      .ok m ∧ ¬ ReadsSnapshot [addK] [107] 2 m := by
  obtain ⟨m, ps, hrun, hb, hperm⟩ := addK_built
  refine ⟨m, hrun, fun hread => ?_⟩
  obtain ⟨hno, -⟩ := (hb.readsSnapshot_iff hperm addK_wellFormed (by decide)).mp hread
  exact hno addK (List.mem_singleton_self _) ⟨rfl, by decide⟩

end Leveldb.MemTable
