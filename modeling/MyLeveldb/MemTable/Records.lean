import MyLeveldb.MemTable.Pointers
import MyLeveldb.SkipList.Invariant

/-!
# MemTable — Records

`get` on tables of entries in the format it reads, whoever has written them.
`Tabled user cmp m rs`: the records `rs` are the entries of `m`'s table, in the order
`KeyComparator` has for them.

* `Tabled.seek`: the seek finds the first record that is not before the key sought.
* `Tabled.get_missed`, `Tabled.get_hit`: what `get` makes of it.  It compares the user key of the
  `LookupKey` with the whole internal key of the record, the tag included, where the record's user
  key is meant.
* `memtable_get`: so it decodes a table as it should where that record's user key is another one,
  and its internal key is not the user key sought.
* `Tabled.insert`: an insertion of a record with a new internal key leaves such a table.
-/

namespace Leveldb.MemTable

open Flat (Memory bytesAt write)
open CharPtr (At)
open SkipList (Shape)
open ThreeWay

/-- An entry of the table: its node, the pointer there, and what is at that pointer. -/
structure Record where
  ptr : NodePtr
  data : CharPtr
  height : Nat
  key : Bytes
  seq : U64
  type : ValueType
  value : Bytes
  deriving DecidableEq, Repr

namespace Record

variable {mem : Memory} {r : Record}

def entry (r : Record) : SkipList.Entry CharPtr := ⟨r.ptr, r.data, r.height⟩

def internalKey (r : Record) : InternalBytes :=
  ⟨r.key ++ encodeFixed64 (tagOf r.seq r.type), by rw [length_key]; exact Nat.le_add_left 8 _⟩

/-- The record's bytes are in the memory `mem`. -/
structure In (mem : Memory) (r : Record) : Prop where
  stored : At mem r.data (entryBytes r.key r.value r.seq r.type)
  seq_le : r.seq.toNat ≤ kMaxSequenceNumber.toNat
  type_valid : r.type.Valid
  key_lt : r.key.length + 8 < 2 ^ 32
  value_lt : r.value.length < 2 ^ 32

/-- The user comparator answers on the record's keys as `cmp` does. -/
def Answered (user : Compare Bytes) (cmp : Bytes → Bytes → Int) (r : Record) : Prop :=
  ∀ b, user r.key b = .ok (cmp r.key b) ∧
    user r.internalKey.1 b = .ok (cmp r.internalKey.1 b)

/-- The pointer to the internal key's bytes. -/
def keyPtr (r : Record) : CharPtr := r.data.plus (headLen r.internalKey.1)

theorem userKey_eq (r : Record) : r.internalKey.userKey = r.key := take_key _ _

theorem length_internalKey (r : Record) : r.internalKey.1.length = r.key.length + 8 :=
  length_key _ _

theorem In.internalKey_lt (h : r.In mem) : r.internalKey.1.length < 2 ^ 32 := by
  rw [length_internalKey]
  exact h.key_lt

theorem In.split (h : r.In mem) :
    At mem r.data (putLengthPrefixedSlice [] r.internalKey.1) ∧
      At mem (r.keyPtr.plus r.internalKey.1.length) (putLengthPrefixedSlice [] r.value) := by
  have hat := h.stored
  rw [entryBytes_eq] at hat
  obtain ⟨hkey, hvalue⟩ := hat.append
  refine ⟨hkey, ?_⟩
  rw [keyPtr, CharPtr.plus_plus, ← length_prefixed]
  exact hvalue

theorem In.key_at (h : r.In mem) : At mem r.keyPtr r.internalKey.1 :=
  (slice_at h.split.1 h.internalKey_lt).2

theorem In.decode (h : r.In mem) :
    r.data.getVarint32Ptr mem = .ok (r.keyPtr, r.internalKey.1.length) :=
  decode_prefixed h.split.1 h.internalKey_lt

theorem In.pointsTo (h : r.In mem) : PointsTo mem r.data r.internalKey :=
  ⟨_, (slice_at h.split.1 h.internalKey_lt).1, h.key_at⟩

/-- The tag, 8 bytes before the end of the internal key. -/
theorem In.tag_at (h : r.In mem) : ∃ p, (r.keyPtr.plus r.internalKey.1.length).minus 8 = .ok p ∧
    p.read mem 8 = .ok (encodeFixed64 (tagOf r.seq r.type)) := by
  obtain ⟨-, htag⟩ := CharPtr.At.append h.key_at
  have hlen := r.length_internalKey
  have hminus := r.keyPtr.plus_minus r.internalKey.2
  rw [hlen, Nat.add_sub_cancel] at hminus
  refine ⟨_, by rw [hlen, hminus], ?_⟩
  have hread := htag
  rw [At, length_encodeFixed64] at hread
  exact hread

theorem In.value_at (h : r.In mem) :
    ∃ s, getLengthPrefixedSlice mem (r.keyPtr.plus r.internalKey.1.length) = .ok s ∧
      s.read mem = .ok r.value :=
  ⟨_, (slice_at h.split.2 h.value_lt).1, (slice_at h.split.2 h.value_lt).2⟩

/-- A user key as long as a record's internal key is not the record's user key. -/
theorem key_ne_internalKey (r : Record) : r.key ≠ r.internalKey.1 := fun h => by
  have hlen := congrArg List.length h
  rw [length_internalKey] at hlen
  omega

/-- A key whose length reads, though it is not that of an internal key, is longer than every
record's. -/
theorem In.ne_of_long {u : Bytes} (h : r.In mem) (hreads : LengthReads u)
    (hlong : ¬ u.length + 8 < 2 ^ 32) : r.key ≠ u ∧ r.internalKey.1 ≠ u := by
  have hlt := h.internalKey_lt
  have hlen := r.length_internalKey
  have hmod : 8 ≤ (u.length + 8) % 2 ^ 32 := hreads
  constructor
  · rintro rfl
    omega
  · rintro rfl
    omega

end Record

variable {user : Compare Bytes} {cmp : Bytes → Bytes → Int} {m : MemTable} {rs : List Record}
  {r : Record} {k : InternalBytes} {t : CharPtr} {u : Bytes} {s : U64}

/-- `KeyComparator` of a record and any internal key. -/
theorem Record.In.compare_eq {mem : Memory} (h : r.In mem) (ha : r.Answered user cmp)
    (ht : PointsTo mem t k) :
    KeyComparator user mem r.data t = .ok (internalOrder cmp r.internalKey k) := by
  obtain ⟨s, hs, hread⟩ := h.pointsTo
  obtain ⟨s', hs', hread'⟩ := ht
  rw [KeyComparator, hs, ok_bind, hs', ok_bind, hread, ok_bind, hread', ok_bind]
  refine compare_of_user ?_
  rw [r.userKey_eq]
  exact (ha _).1

/-! ### Tables -/

structure Tabled (user : Compare Bytes) (cmp : Bytes → Bytes → Int) (m : MemTable)
    (rs : List Record) : Prop where
  shape : Shape m.table_ (rs.map Record.entry)
  holds : ∀ r ∈ rs, r.In m.memory
  answered : ∀ r ∈ rs, r.Answered user cmp
  sorted : rs.Pairwise fun a b => ∃ c, KeyComparator user m.memory a.data b.data = .ok c ∧ c < 0

/-- The first record that is not before `k`. -/
def firstFrom (cmp : Bytes → Bytes → Int) (rs : List Record) (k : InternalBytes) :
    Option Record :=
  rs.find? fun r => 0 ≤ internalOrder cmp r.internalKey k

theorem firstFrom_mem (h : firstFrom cmp rs k = some r) : r ∈ rs := List.mem_of_find?_eq_some h

/-- The order of the records, as one of their entries. -/
def Before (cmp : Bytes → Bytes → Int) (rs : List Record) (a b : SkipList.Entry CharPtr) : Prop :=
  ∃ r ∈ rs, ∃ r' ∈ rs, r.entry = a ∧ r'.entry = b ∧
    internalOrder cmp r.internalKey r'.internalKey < 0

/-- The comparator puts the entry before the target. -/
def Below (user : Compare Bytes) (m : MemTable) (t : CharPtr) (e : SkipList.Entry CharPtr) :
    Prop :=
  ∃ c, KeyComparator user m.memory e.key t = .ok c ∧ c < 0

namespace Tabled

theorem pairwise (ht : Tabled user cmp m rs) :
    rs.Pairwise fun a b => internalOrder cmp a.internalKey b.internalKey < 0 := by
  refine ht.sorted.imp_of_mem fun {a b} ha hb hlt => ?_
  obtain ⟨c, hc, hneg⟩ := hlt
  rw [(ht.holds a ha).compare_eq (ht.answered a ha) (ht.holds b hb).pointsTo] at hc
  obtain rfl := Except.ok.inj hc
  exact hneg

/-- The comparator puts the records before the target's internal key below the target. -/
theorem below_iff (ht : Tabled user cmp m rs) (hp : PointsTo m.memory t k) (hr : r ∈ rs) :
    Below user m t r.entry ↔ internalOrder cmp r.internalKey k < 0 := by
  have hcompare : KeyComparator user m.memory r.entry.key t =
      .ok (internalOrder cmp r.internalKey k) :=
    (ht.holds r hr).compare_eq (ht.answered r hr) hp
  rw [Below, hcompare]
  simp only [Except.ok.injEq, exists_eq_left']

theorem decides (ht : Tabled user cmp m rs) (hp : PointsTo m.memory t k) :
    SkipList.Decides (KeyComparator user m.memory) t (rs.map Record.entry) (Below user m t) := by
  refine SkipList.decides_of_ok fun e he => ?_
  obtain ⟨r, hr, rfl⟩ := List.mem_map.mp he
  exact ⟨_, (ht.holds r hr).compare_eq (ht.answered r hr) hp⟩

theorem before_entries (ht : Tabled user cmp m rs) :
    (rs.map Record.entry).Pairwise (Before cmp rs) := by
  rw [List.pairwise_map]
  exact ht.pairwise.imp_of_mem fun ha hb hlt => ⟨_, ha, _, hb, rfl, rfl, hlt⟩

/-- A record before one below the target is below it. -/
theorem below_of_before (hc : IsStrict cmp) (ht : Tabled user cmp m rs)
    (hp : PointsTo m.memory t k) {a b : SkipList.Entry CharPtr} (hab : Before cmp rs a b)
    (hb : Below user m t b) : Below user m t a := by
  obtain ⟨r, hr, r', hr', rfl, rfl, hlt⟩ := hab
  have horder := isPreorder_internalOrder hc.toIsPreorder
  exact (ht.below_iff hp hr).mpr (horder.lt_trans hlt ((ht.below_iff hp hr').mp hb))

/-- The cut of a search, at the first record that is not before the target. -/
theorem split {xs ys : List Record} {n : Nat} (hc : IsStrict cmp)
    (ht : Tabled user cmp m (xs ++ ys)) (hp : PointsTo m.memory t k)
    (hd : Levels.Descent SkipList.Entry.height (Below user m t) n 0 (xs.map Record.entry)
      (ys.map Record.entry)) (hn : 0 < n) :
    (∀ r ∈ xs, internalOrder cmp r.internalKey k < 0) ∧
      ∀ r ∈ ys, 0 ≤ internalOrder cmp r.internalKey k := by
  have hpair := ht.before_entries
  rw [List.map_append] at hpair
  obtain ⟨hxs, hys, -⟩ := List.pairwise_append.mp hpair
  have hdown : ∀ a b, Before cmp (xs ++ ys) a b → Below user m t b → Below user m t a :=
    fun _ _ => ht.below_of_before hc hp
  constructor
  · intro r hr
    exact (ht.below_iff hp (List.mem_append_left ys hr)).mp
      (hd.all_below hxs hdown r.entry (List.mem_map_of_mem hr))
  · intro r hr
    have hpos : ∀ e ∈ ys.map Record.entry, 0 < e.height := fun e he =>
      ht.shape.height_pos e (by rw [List.map_append]; exact List.mem_append_right _ he)
    have hnot := hd.none_below hn hpos hys hdown r.entry (List.mem_map_of_mem hr)
    exact Int.not_lt.mp fun hlt =>
      hnot ((ht.below_iff hp (List.mem_append_right xs hr)).mpr hlt)

theorem seek (hc : IsStrict cmp) (ht : Tabled user cmp m rs) (hp : PointsTo m.memory t k) :
    SkipList.Iterator.seek (KeyComparator user m.memory) m.table_ t =
      .ok ⟨(firstFrom cmp rs k).map Record.ptr⟩ := by
  obtain ⟨as, bs, pre, hes, hcut, hfind⟩ := SkipList.findEqualOrGreater_cut ht.shape (ht.decides hp)
  obtain ⟨xs, ys, rfl, rfl, rfl⟩ := List.map_eq_append_iff.mp hes
  obtain ⟨hlow, hhigh⟩ := ht.split hc hp hcut.descent ht.shape.cur_pos
  have hfirst : firstFrom cmp (xs ++ ys) k = ys.head? := by
    have hnone : firstFrom cmp xs k = none := by
      refine List.find?_eq_none.mpr fun r hr => ?_
      simpa using hlow r hr
    rw [firstFrom, List.find?_append, ← firstFrom, hnone, Option.none_or]
    cases ys with
    | nil => rfl
    | cons y ys => exact List.find?_cons_of_pos (by simpa using hhigh y List.mem_cons_self)
  rw [hfirst, ← List.head?_map]
  refine bind_eq_ok.mpr ⟨_, hfind, ?_⟩
  rw [List.head?_map, List.head?_map, Option.map_map]
  rfl

/-! ### What `get` returns -/

/-- Where the first record from `k` on is not the user key sought, byte for byte, `get` finds
nothing. -/
theorem get_missed (hc : IsStrict cmp) (ht : Tabled user cmp m rs) {key : LookupKey}
    (hp : PointsTo m.memory (.buffer key.memtable_key 0) k)
    (hmiss : ∀ r, firstFrom cmp rs k = some r → r.internalKey.1 ≠ key.user_key) (value : Bytes)
    (st : Status) : m.get user key value st = .ok (false, value, st) := by
  have hseek := ht.seek hc hp
  cases hfirst : firstFrom cmp rs k with
  | none =>
      rw [hfirst] at hseek
      exact bind_eq_ok.mpr ⟨_, hseek, rfl⟩
  | some r =>
      rw [hfirst] at hseek
      have hr := firstFrom_mem hfirst
      have hin := ht.holds r hr
      have hentry := ht.shape.key_eq r.entry (List.mem_map_of_mem hr)
      have hcompare := (ht.answered r hr key.user_key).2
      have hne : cmp r.internalKey.1 key.user_key ≠ 0 := fun h₀ =>
        hmiss r hfirst (hc.eq_of_tie _ _ h₀)
      exact get_miss hseek rfl hentry hin.decode hin.key_at hcompare hne value st

end Tabled

/-- What a hit on `r` leaves. -/
structure Hit (r : Record) (value : Bytes) (st : Status) (out : Bool × Bytes × Status) : Prop where
  found : out.1 = true
  of_value : r.type = .kTypeValue → out.2 = (r.value, st)
  of_deletion : r.type = .kTypeDeletion → out.2.1 = value ∧ out.2.2.isNotFound = true

/-- …and where it is, a hit on that record. -/
theorem Tabled.get_hit (hc : IsStrict cmp) (ht : Tabled user cmp m rs) {key : LookupKey}
    (hp : PointsTo m.memory (.buffer key.memtable_key 0) k) (hfirst : firstFrom cmp rs k = some r)
    (heq : r.internalKey.1 = key.user_key) (value : Bytes) (st : Status) :
    ∃ out, m.get user key value st = .ok out ∧ Hit r value st out := by
  have hr := firstFrom_mem hfirst
  have hin := ht.holds r hr
  obtain ⟨tagPtr, hminus, htag⟩ := hin.tag_at
  obtain ⟨v, hv, hread⟩ := hin.value_at
  have hcompare : user r.internalKey.1 key.user_key = .ok 0 := by
    rw [(ht.answered r hr key.user_key).2, heq, hc.self]
  have hdecode := decodeFixed64_encode (tagOf r.seq r.type) []
  rw [List.append_nil] at hdecode
  have htype := (parts_tagOf hin.seq_le hin.type_valid).2
  -- what is left of `get` once the tag has been decoded, for each of the two types
  have hrun : ∀ out, (r.type = .kTypeDeletion → (do
          let notFound ← Status.notFound [] []
          .ok (true, value, notFound)) = .ok out) →
      (r.type = .kTypeValue → (do
          let v ← getLengthPrefixedSlice m.memory (r.keyPtr.plus r.internalKey.1.length)
          .ok (true, ← v.read m.memory, st)) = .ok out) →
      m.get user key value st = .ok out := by
    intro out hofDeletion hofValue
    refine bind_eq_ok.mpr ⟨_, ht.seek hc hp, ?_⟩
    rw [hfirst]
    refine bind_eq_ok.mpr ⟨_, ht.shape.key_eq r.entry (List.mem_map_of_mem hr), ?_⟩
    refine bind_eq_ok.mpr ⟨_, hin.decode, ?_⟩
    refine bind_eq_ok.mpr ⟨_, hin.key_at, ?_⟩
    refine bind_eq_ok.mpr ⟨_, hcompare, ?_⟩
    refine bind_eq_ok.mpr ⟨_, hminus, ?_⟩
    refine bind_eq_ok.mpr ⟨_, htag, ?_⟩
    refine bind_eq_ok.mpr ⟨_, hdecode, ?_⟩
    rw [htype]
    rcases hin.type_valid with hdeletion | hvalue
    · rw [hdeletion]
      exact hofDeletion hdeletion
    · rw [hvalue]
      exact hofValue hvalue
  rcases hin.type_valid with hdeletion | hvalue
  · obtain ⟨notFound, hnotFound, his⟩ :
        ∃ s, Status.notFound [] [] = .ok s ∧ s.isNotFound = true := ⟨_, rfl, rfl⟩
    have hne : r.type ≠ .kTypeValue := by
      rw [hdeletion]
      nofun
    exact ⟨(true, value, notFound), hrun _ (fun _ => bind_eq_ok.mpr ⟨_, hnotFound, rfl⟩)
      (fun h => absurd h hne), rfl, fun h => absurd h hne, fun _ => ⟨rfl, his⟩⟩
  · have hne : r.type ≠ .kTypeDeletion := by
      rw [hvalue]
      nofun
    exact ⟨(true, r.value, st), hrun _ (fun h => absurd h hne)
      (fun _ => bind_eq_ok.mpr ⟨_, hv, bind_eq_ok.mpr ⟨_, hread, rfl⟩⟩), rfl, fun _ => rfl,
      fun h => absurd h hne⟩

/-! ### When a table is decoded -/

/-- The internal key of `LookupKey(u, s)`. -/
def lookupInternal (u : Bytes) (s : U64) : InternalBytes :=
  ⟨u ++ encodeFixed64 (tagOf s kValueTypeForSeek), by rw [length_key]; exact Nat.le_add_left 8 _⟩

/-- What `get` must leave for the user key `u`, where the seek is to end at `first`. -/
def Decodes (u : Bytes) (first : Option Record) (value : Bytes) (st : Status)
    (out : Bool × Bytes × Status) : Prop :=
  match first with
  | some r => if r.key = u then Hit r value st out else out = (false, value, st)
  | none   => out = (false, value, st)

theorem decodes_key {value : Bytes} {st : Status} {out : Bool × Bytes × Status} :
    Decodes r.key (some r) value st out ↔ Hit r value st out := by
  simp only [Decodes, if_true]

theorem decodes_of_ne {value : Bytes} {st : Status} {out : Bool × Bytes × Status}
    (h : r.key ≠ u) : Decodes u (some r) value st out ↔ out = (false, value, st) := by
  simp only [Decodes, if_neg h]

/-- `get(LookupKey(u, s), value, st)` decodes the table. -/
def GetDecodes (user : Compare Bytes) (cmp : Bytes → Bytes → Int) (m : MemTable)
    (rs : List Record) (u : Bytes) (s : U64) : Prop :=
  ∃ key, LookupKey.new u s = .ok key ∧ ∀ value st, ∃ out,
    m.get user key value st = .ok out ∧
      Decodes u (firstFrom cmp rs (lookupInternal u s)) value st out

theorem sought_eq (h : u.length + 8 < 2 ^ 32) (s : U64) : soughtKey u s = (lookupInternal u s).1 :=
  soughtKey_eq h

/-- An entry of the user key sought is the one record `get` misses. -/
theorem Tabled.misses_key (hc : IsStrict cmp) (ht : Tabled user cmp m rs)
    (hs : s.toNat ≤ kMaxSequenceNumber.toNat)
    (hfirst : firstFrom cmp rs (lookupInternal r.key s) = some r) :
    ∃ key, LookupKey.new r.key s = .ok key ∧
      ∀ value st, m.get user key value st = .ok (false, value, st) := by
  obtain ⟨key, slice, hkey, huser, hslice, hread⟩ := lookupKey_sought m.memory hs r.key
  rw [sought_eq (ht.holds r (firstFrom_mem hfirst)).key_lt] at hread
  refine ⟨key, hkey, fun value st => ht.get_missed hc ⟨slice, hslice, hread⟩ ?_ value st⟩
  intro r' hr'
  obtain rfl := Option.some.inj (hfirst.symm.trans hr')
  rw [huser]
  exact r.key_ne_internalKey.symm

theorem Tabled.not_decodes_key (hc : IsStrict cmp) (ht : Tabled user cmp m rs)
    (hs : s.toNat ≤ kMaxSequenceNumber.toNat)
    (hfirst : firstFrom cmp rs (lookupInternal r.key s) = some r) :
    ¬ GetDecodes user cmp m rs r.key s := by
  rintro ⟨key, hkey, hrun⟩
  obtain ⟨key', hkey', hmiss⟩ := ht.misses_key hc hs hfirst
  obtain rfl : key = key' := Except.ok.inj (hkey.symm.trans hkey')
  obtain ⟨out, hout, hdecodes⟩ := hrun [] .OK
  obtain rfl := Except.ok.inj ((hmiss [] .OK).symm.trans hout)
  rw [hfirst] at hdecodes
  have hfound := (decodes_key.mp hdecodes).found
  cases hfound

/-- **When `get` decodes a table of well-formed entries.**  The table is empty, or the length of
the key sought reads and the first record that is not before it is of another user key, and has an
internal key that is not the user key sought. -/
theorem memtable_get (user : Compare Bytes) (cmp : Bytes → Bytes → Int) (hc : IsStrict cmp)
    (m : MemTable) (rs : List Record) (ht : Tabled user cmp m rs) (u : Bytes) (s : U64)
    (hs : s.toNat ≤ kMaxSequenceNumber.toNat) :
    GetDecodes user cmp m rs u s ↔ rs = [] ∨ (LengthReads u ∧
      ∀ r, firstFrom cmp rs (lookupInternal u s) = some r → r.key ≠ u ∧ r.internalKey.1 ≠ u) := by
  obtain ⟨key, slice, hkey, huser, hslice, hread⟩ := lookupKey_sought m.memory hs u
  by_cases hnil : rs = []
  · -- nothing is compared
    subst hnil
    refine iff_of_true ⟨key, hkey, fun value st => ⟨(false, value, st), ?_, rfl⟩⟩ (.inl rfl)
    exact bind_eq_ok.mpr ⟨_, SkipList.seek_nil ht.shape _ _, rfl⟩
  by_cases hreads : LengthReads u
  swap
  · refine iff_of_false ?_ (fun h => h.elim hnil fun h => hreads h.1)
    rintro ⟨key', hkey', hrun⟩
    obtain ⟨out, hout, -⟩ := hrun [] .OK
    exact get_fails ht.shape (by simpa using hnil) hs hreads hkey' [] .OK out hout
  let k : InternalBytes := ⟨soughtKey u s, by rwa [length_soughtKey]⟩
  have hp : PointsTo m.memory (.buffer key.memtable_key 0) k := ⟨slice, hslice, hread⟩
  have hshort : u.length + 8 < 2 ^ 32 → k = lookupInternal u s := fun h =>
    Subtype.ext (sought_eq h s)
  have hlong : ¬ u.length + 8 < 2 ^ 32 → ∀ r ∈ rs, r.key ≠ u ∧ r.internalKey.1 ≠ u :=
    fun h r hr => (ht.holds r hr).ne_of_long hreads h
  constructor
  · rintro ⟨key', hkey', hrun⟩
    obtain rfl : key = key' := Except.ok.inj (hkey.symm.trans hkey')
    refine .inr ⟨hreads, fun r hr => ?_⟩
    by_cases hlen : u.length + 8 < 2 ^ 32
    swap
    · exact hlong hlen r (firstFrom_mem hr)
    refine ⟨fun heq => ?_, fun heq => ?_⟩
    · subst heq
      exact ht.not_decodes_key hc hs hr ⟨key, hkey, hrun⟩
    · obtain ⟨out, hout, hdecodes⟩ := hrun [] .OK
      rw [hr] at hdecodes
      rw [← hshort hlen] at hr
      obtain ⟨out', hout', hhit⟩ := ht.get_hit hc hp hr (heq.trans huser.symm) [] .OK
      obtain rfl := Except.ok.inj (hout'.symm.trans hout)
      have hne : r.key ≠ u := fun h => r.key_ne_internalKey (h.trans heq.symm)
      have hfound := hhit.found
      rw [(decodes_of_ne hne).mp hdecodes] at hfound
      cases hfound
  · rintro (h | ⟨-, hfirst⟩)
    · exact absurd h hnil
    refine ⟨key, hkey, fun value st => ⟨_, ht.get_missed hc hp (fun r hr => ?_) value st, ?_⟩⟩
    · rw [huser]
      by_cases hlen : u.length + 8 < 2 ^ 32
      · rw [hshort hlen] at hr
        exact (hfirst r hr).2
      · exact (hlong hlen r (firstFrom_mem hr)).2
    · cases hr : firstFrom cmp rs (lookupInternal u s) with
      | none => rfl
      | some r => exact (decodes_of_ne (hfirst r hr).1).mpr rfl

/-! ### Tables of any records -/

/-- An insertion of a record with a new internal key. -/
theorem Tabled.insert (hc : IsStrict cmp) (ht : Tabled user cmp m rs) (hr : r.In m.memory)
    (ha : r.Answered user cmp) (hnew : ∀ r' ∈ rs, r'.internalKey ≠ r.internalKey)
    (hpos : 1 ≤ r.height) (hle : r.height ≤ SkipList.kMaxHeight) :
    ∃ table xs ys, rs = xs ++ ys ∧
      m.table_.insertAt (KeyComparator user m.memory) r.height r.data = .ok table ∧
      Tabled user cmp { m with table_ := table }
        (xs ++ { r with ptr := m.table_.nodes.length } :: ys) := by
  have horder := isStrict_internalOrder hc
  have hne : ∀ r' ∈ rs, internalOrder cmp r'.internalKey r.internalKey ≠ 0 := fun r' hr' h₀ =>
    hnew r' hr' (horder.eq_of_tie _ _ h₀)
  have habsent : ∀ e ∈ rs.map Record.entry, KeyComparator user m.memory e.key r.data ≠ .ok 0 := by
    intro e he h₀
    obtain ⟨r', hr', rfl⟩ := List.mem_map.mp he
    have hcompare := (ht.holds r' hr').compare_eq (ht.answered r' hr') hr.pointsTo
    exact hne r' hr' (Except.ok.inj (hcompare.symm.trans h₀))
  obtain ⟨as, bs, table, hes, hd, hrun, hshape, -⟩ :=
    SkipList.insertAt_cut ht.shape (ht.decides hr.pointsTo) habsent hpos hle
  obtain ⟨xs, ys, rfl, rfl, rfl⟩ := List.map_eq_append_iff.mp hes
  obtain ⟨hlow, hhigh⟩ := ht.split hc hr.pointsTo hd ht.shape.cur_pos
  let r₁ : Record := { r with ptr := m.table_.nodes.length }
  have hmem : ∀ r' ∈ xs ++ r₁ :: ys, r' = r₁ ∨ r' ∈ xs ++ ys := fun r' hr' => by
    simpa [or_left_comm] using hr'
  refine ⟨table, xs, ys, rfl, hrun, ⟨?_, ?_, ?_, ?_⟩⟩
  · rw [List.map_append, List.map_cons]
    exact hshape
  · intro r' hr'
    rcases hmem r' hr' with rfl | hr'
    · exact ⟨hr.stored, hr.seq_le, hr.type_valid, hr.key_lt, hr.value_lt⟩
    · exact ht.holds r' hr'
  · intro r' hr'
    rcases hmem r' hr' with rfl | hr'
    · exact ha
    · exact ht.answered r' hr'
  · obtain ⟨hxs, hys, hcross⟩ := List.pairwise_append.mp ht.sorted
    have hxs' : ∀ r' ∈ xs, ∃ c, KeyComparator user m.memory r'.data r.data = .ok c ∧ c < 0 :=
      fun r' hr' => by
        have hr'' := List.mem_append_left ys hr'
        exact ⟨_, (ht.holds r' hr'').compare_eq (ht.answered r' hr'') hr.pointsTo, hlow r' hr'⟩
    have hys' : ∀ r' ∈ ys, ∃ c, KeyComparator user m.memory r.data r'.data = .ok c ∧ c < 0 :=
      fun r' hr' => by
        have hr'' := List.mem_append_right xs hr'
        have hpositive := lt_of_le_of_ne (hhigh r' hr') (hne r' hr'').symm
        exact ⟨_, hr.compare_eq ha (ht.holds r' hr'').pointsTo, (horder.flip _ _).mpr hpositive⟩
    refine List.pairwise_append.mpr ⟨hxs, List.pairwise_cons.mpr ⟨hys', hys⟩, fun a ha' b hb => ?_⟩
    rcases List.mem_cons.mp hb with rfl | hb
    · exact hxs' a ha'
    · exact hcross a ha' b hb

/-- The bytewise comparator answers on a record that is not too long for it. -/
theorem Record.answered_bytewise (h : r.key.length + 8 < 2 ^ 31) :
    r.Answered bytewiseComparator bytewiseOrder := fun b => by
  have hlen := r.length_internalKey
  exact ⟨compare_eq (min_lt_of_left_lt (by omega)), compare_eq (min_lt_of_left_lt (by omega))⟩

/-- The key `k` with the value `v`, at sequence number 1. -/
def recordK : Record :=
  { ptr := 1, data := .arena 64, height := 1, key := [107], seq := 1, type := .kTypeValue
    value := [118] }

/-- A table of one record. -/
theorem exists_tabled : ∃ m, Tabled bytewiseComparator bytewiseOrder m [recordK] := by
  obtain ⟨table, -, hshape, hsize⟩ := SkipList.new_shape CharPtr
  let mem : Memory := write (fun _ => 0) 64 (entryBytes [107] [118] 1 .kTypeValue)
  have hat : At mem recordK.data (entryBytes [107] [118] 1 .kTypeValue) :=
    CharPtr.at_arena.mpr (Flat.bytesAt_write _ _ _)
  have hin : recordK.In mem := ⟨hat, by decide, by decide, by decide, by decide⟩
  have hempty : Tabled bytewiseComparator bytewiseOrder
      { arena_ := Arena.new, table_ := table, memory := mem, entries := [], nodes := [] } [] :=
    ⟨hshape, by simp, by simp, .nil⟩
  obtain ⟨table', xs, ys, hnil, -, ht⟩ := hempty.insert isStrict_bytewiseOrder hin
    (Record.answered_bytewise (by decide)) (by simp) (by decide) (by decide)
  obtain ⟨rfl, rfl⟩ := List.append_eq_nil_iff.mp hnil.symm
  rw [hsize] at ht
  exact ⟨_, ht⟩

theorem memtable_get_other :
    ∃ m, Tabled bytewiseComparator bytewiseOrder m [recordK] ∧
      (GetDecodes bytewiseComparator bytewiseOrder m [recordK] [106] 2 ↔
        [recordK] = [] ∨ (LengthReads [106] ∧
          ∀ r, firstFrom bytewiseOrder [recordK] (lookupInternal [106] 2) = some r →
            r.key ≠ [106] ∧ r.internalKey.1 ≠ [106])) := by
  obtain ⟨m, ht⟩ := exists_tabled
  exact ⟨m, ht, memtable_get _ _ isStrict_bytewiseOrder m _ ht [106] 2 (by decide)⟩

/-- `k` is in the table, at the sequence number sought, and is not found. -/
theorem memtable_get_misses :
    ∃ m, Tabled bytewiseComparator bytewiseOrder m [recordK] ∧
      firstFrom bytewiseOrder [recordK] (lookupInternal [107] 1) = some recordK ∧
      ¬ GetDecodes bytewiseComparator bytewiseOrder m [recordK] [107] 1 := by
  obtain ⟨m, ht⟩ := exists_tabled
  have hfirst : firstFrom bytewiseOrder [recordK] (lookupInternal recordK.key 1) = some recordK :=
    List.find?_cons_of_pos (by decide)
  exact ⟨m, ht, hfirst, ht.not_decodes_key isStrict_bytewiseOrder (by decide) hfirst⟩

end Leveldb.MemTable
