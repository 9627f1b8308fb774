import MyLeveldb.Arena.Allocation
import MyLeveldb.MemTable.Entries
import MyLeveldb.SkipList.Invariant

/-!
# MemTable — Layout

`add` up to the insertion: what it asks the arena for, how far its write pointer gets, and the
bytes it leaves.

The size it asks for goes by the value, where it should go by the key, and the write pointer goes
by both; the two agree on the calls that fit (`add_stays_inside`).  The bytes are those of an entry
in the format the readers expect on no call: where a call fits, the length the entry starts with is
that of the whole entry (`add_writes_no_entry`).
-/

namespace Leveldb.MemTable

open Flat (Memory Region Allocator bytesAt write)

/-! ### The steps of `add` -/

section

variable (new_ : Allocator kPointerSize) (s : U64) (type : ValueType) (key value : Bytes)

/-- `add` up to its `assert`: the entry's address, the write pointer, the arena and the memory. -/
def fillEntry (m : MemTable) : Except Fault (Nat × Nat × Arena × Memory) := do
  let key_size := key.length
  let val_size := value.length
  let internal_key_size := val_size + 8
  let encoded_len := varintLength (BitVec.ofNat 64 internal_key_size) + internal_key_size +
    varintLength (BitVec.ofNat 64 val_size) + val_size
  let (buf, arena_) ← m.arena_.allocate new_ encoded_len
  let (p, mem) := put m.memory buf (encodeVarint32 (BitVec.ofNat 32 encoded_len))
  let _ ← memcmp key_size (bytesAt mem p key_size) key
  let p := p + key_size
  let (p, mem) := put mem p (encodeFixed64 ((s <<< 8) ||| BitVec.ofNat 64 type.toNat))
  let (p, mem) := put mem p (encodeVarint32 (BitVec.ofNat 32 val_size))
  let _ ← memcmp val_size (bytesAt mem p val_size) value
  .ok (buf, p + val_size, arena_, mem)

/-- `add` up to `table_.insert`: the pointer it inserts, the arena and the memory. -/
def writeEntry (m : MemTable) : Except Fault (Nat × Arena × Memory) := do
  let (buf, p, arena_, mem) ← fillEntry new_ s type key value m
  assertion (p - buf = encodedLen value.length)
  .ok (buf, arena_, mem)

/-- `add` inserts what `writeEntry` hands it. -/
theorem add_eq_write (user : Compare Bytes) (height : Nat) (image : Memory) (m : MemTable) :
    m.add new_ user s type key value height image = (do
      let (buf, arena_, mem) ← writeEntry new_ s type key value m
      let table_ ← m.table_.insertAt (KeyComparator user mem) height (.arena buf)
      let (node, arena_) ← arena_.allocateAligned new_ (nodeBytes height)
      let entries := ⟨buf, encodedLen value.length⟩ :: m.entries
      let nodes := ⟨node, nodeBytes height⟩ :: m.nodes
      .ok { arena_ := arena_, table_ := table_, memory := overlay entries nodes mem image
            entries := entries, nodes := nodes }) := by
  simp only [writeEntry, fillEntry, bind_assoc, ok_bind]
  rfl

end

variable {new_ : Allocator kPointerSize} {m : MemTable} {mem : Memory} {buf : Nat} {c : AddCall}

namespace AddCall

def fill (new_ : Allocator kPointerSize) (c : AddCall) (m : MemTable) :
    Except Fault (Nat × Nat × Arena × Memory) :=
  fillEntry new_ c.seq c.type c.key c.value m

def write (new_ : Allocator kPointerSize) (c : AddCall) (m : MemTable) :
    Except Fault (Nat × Arena × Memory) :=
  writeEntry new_ c.seq c.type c.key c.value m

/-- How far the write pointer gets. -/
def advance (c : AddCall) : Nat :=
  c.tagOffset + 8 + (encodeVarint32 (BitVec.ofNat 32 c.value.length)).length + c.value.length

/-- It gets as far as the `assert` says where the lengths fit. -/
theorem advance_eq_iff (hv : c.value.length < 2 ^ 32) :
    c.advance = encodedLen c.value.length ↔ c.Fits := by
  unfold advance tagOffset Fits encodedLen
  rw [length_encodeVarint32_ofNat hv]
  omega

/-- The comparisons of `add` change nothing. -/
theorem fill_eq (new_ : Allocator kPointerSize) (c : AddCall) (m : MemTable) :
    c.fill new_ m = (do
      let (buf, arena_) ← m.arena_.allocate new_ (encodedLen c.value.length)
      .ok (buf, buf + c.advance, arena_, stored c buf m.memory)) := by
  have hmemcmp : ∀ (mem : Memory) (p : Nat) (bs : Bytes),
      ∃ r, memcmp bs.length (bytesAt mem p bs.length) bs = .ok r := fun mem p bs =>
    memcmp_ok (Flat.length_bytesAt _ _ _).ge (Nat.le_refl _)
  refine bind_congr fun ⟨buf, arena⟩ => ?_
  obtain ⟨r, hr⟩ := hmemcmp (Flat.write m.memory buf (lengthBytes c.value.length))
    (buf + (lengthBytes c.value.length).length) c.key
  obtain ⟨r', hr'⟩ := hmemcmp (stored c buf m.memory)
    (buf + (lengthBytes c.value.length).length + c.key.length + c.tag.length +
      (encodeVarint32 (BitVec.ofNat 32 c.value.length)).length) c.value
  have hend : buf + (lengthBytes c.value.length).length + c.key.length + c.tag.length +
      (encodeVarint32 (BitVec.ofNat 32 c.value.length)).length + c.value.length =
      buf + c.advance := by
    unfold advance tagOffset
    rw [length_tag]
    omega
  refine bind_eq_ok.mpr ⟨_, hr, bind_eq_ok.mpr ⟨_, hr', ?_⟩⟩
  rw [← hend]
  rfl

theorem fill_total (new_ : Allocator kPointerSize) (c : AddCall) (m : MemTable) :
    ∃ buf arena, c.fill new_ m = .ok (buf, buf + c.advance, arena, stored c buf m.memory) := by
  have hpos : 0 < encodedLen c.value.length := Nat.lt_of_lt_of_le (by omega) (le_encodedLen _)
  obtain ⟨buf, arena, halloc⟩ := Arena.allocate_total new_ m.arena_ hpos
  exact ⟨buf, arena, by rw [fill_eq, halloc, ok_bind]⟩

/-- A call hands an entry to `table_.insert` if its lengths fit, and else fails the `assert`. -/
theorem write_eq (new_ : Allocator kPointerSize) (hv : c.value.length < 2 ^ 32) (m : MemTable) :
    c.write new_ m = (do
      let (buf, arena_) ← m.arena_.allocate new_ (encodedLen c.value.length)
      if c.Fits then .ok (buf, arena_, stored c buf m.memory) else .error .assertion) := by
  have hfill : c.write new_ m = (do
      let (buf, p, arena_, mem) ← c.fill new_ m
      assertion (p - buf = encodedLen c.value.length)
      .ok (buf, arena_, mem)) := rfl
  rw [hfill, fill_eq, bind_assoc]
  refine bind_congr fun ⟨buf, arena⟩ => ?_
  simp only [ok_bind, Nat.add_sub_cancel_left]
  by_cases hfits : c.Fits
  · rw [assertion_of ((advance_eq_iff hv).mpr hfits), ok_bind, if_pos hfits]
  · rw [assertion_not fun h => hfits ((advance_eq_iff hv).mp h), error_bind, if_neg hfits]

theorem write_fits {arena : Arena} (hv : c.value.length < 2 ^ 32) (h : c.Fits)
    (halloc : m.arena_.allocate new_ (encodedLen c.value.length) = .ok (buf, arena)) :
    c.write new_ m = .ok (buf, arena, stored c buf m.memory) := by
  rw [write_eq new_ hv, halloc, ok_bind]
  exact if_pos h

theorem write_ok {arena : Arena} (hv : c.value.length < 2 ^ 32)
    (h : c.write new_ m = .ok (buf, arena, mem)) : c.Fits ∧ mem = stored c buf m.memory := by
  rw [write_eq new_ hv] at h
  obtain ⟨⟨buf', arena'⟩, -, h⟩ := bind_eq_ok.mp h
  by_cases hfits : c.Fits
  · simp only [if_pos hfits, Except.ok.injEq, Prod.mk.injEq] at h
    obtain ⟨rfl, -, rfl⟩ := h
    exact ⟨hfits, rfl⟩
  · simp only [if_neg hfits] at h
    cases h

end AddCall

/-! ### Where `add` writes -/

/-- The write pointer gets as far as the size asked of the arena, nothing outside that range is
written to, the `assert` holds, and the ranges `given` out before keep their bytes. -/
def StaysInside (new_ : Allocator kPointerSize) (given : List Region) (m : MemTable)
    (c : AddCall) : Prop :=
  ∃ buf p arena mem, c.fill new_ m = .ok (buf, p, arena, mem) ∧
    p = buf + encodedLen c.value.length ∧
    (∀ a, ¬ (c.region buf).Mem a → mem a = m.memory a) ∧
    c.write new_ m = .ok (buf, arena, mem) ∧
    ∀ r ∈ given, ∀ a, r.Mem a → mem a = m.memory a

theorem StaysInside.fits {given : List Region} (h : StaysInside new_ given m c)
    (hv : c.value.length < 2 ^ 32) : c.Fits := by
  obtain ⟨buf, p, arena, mem, hfill, hp, -⟩ := h
  rw [AddCall.fill_eq] at hfill
  obtain ⟨_, -, heq⟩ := bind_eq_ok.mp hfill
  cases heq
  exact (AddCall.advance_eq_iff hv).mp (Nat.add_left_cancel hp)

/-- **When `add` stays inside its allocation.**  The arena is any that requests leave. -/
theorem add_stays_inside (new_ : Allocator kPointerSize) (qs : List Arena.Request)
    (hqs : ∀ q ∈ qs, 0 < q.bytes ∧ q.bytes < 2 ^ 63) (given : List Region) (m : MemTable)
    (hm : Arena.serveAll new_ qs Arena.new = .ok (given, m.arena_)) (c : AddCall)
    (hv : c.value.length < 2 ^ 32) : StaysInside new_ given m c ↔ c.Fits := by
  refine ⟨fun h => h.fits hv, fun hfits => ?_⟩
  obtain ⟨rs, arena, hrun, -, -, -, hinv⟩ :=
    Arena.serveAll_spec new_ qs [] Arena.new Arena.inv_new hqs
  obtain ⟨rfl, rfl⟩ := Prod.mk.inj (Except.ok.inj (hrun.symm.trans hm))
  have hpos : 0 < encodedLen c.value.length := Nat.lt_of_lt_of_le (by omega) (le_encodedLen _)
  obtain ⟨buf, arena', halloc, ha⟩ := Arena.allocate_spec new_ hinv hpos
  have hout : ∀ a, ¬ (c.region buf).Mem a → stored c buf m.memory a = m.memory a := fun a h =>
    stored_outside hv hfits h
  refine ⟨buf, _, arena', _, ?_, congrArg (buf + ·) ((AddCall.advance_eq_iff hv).mpr hfits), hout,
    ?_, fun r hr a har => hout a ?_⟩
  · rw [AddCall.fill_eq, halloc, ok_bind]
  · exact AddCall.write_fits hv hfits halloc
  · have hfresh := ha.fresh r (by simpa using hr)
    exact hfresh.symm.not_mem har

/-- A fresh memtable's arena has served one request, the one for `head_`. -/
theorem new_serves (new_ : Allocator kPointerSize) (mem : Memory) :
    ∃ m, MemTable.new new_ mem = .ok m ∧
      Arena.serveAll new_ [.allocateAligned (nodeBytes SkipList.kMaxHeight)] Arena.new =
        .ok (m.nodes, m.arena_) := by
  obtain ⟨head, arena, halloc, -, -⟩ := Arena.allocateAligned_spec new_ Arena.inv_new
    (n := nodeBytes SkipList.kMaxHeight) (by decide) (by decide)
  obtain ⟨table, htable, -, -⟩ := SkipList.new_shape CharPtr
  refine ⟨⟨arena, table, mem, [], [⟨head, nodeBytes SkipList.kMaxHeight⟩]⟩, ?_, ?_⟩
  · simp only [MemTable.new, halloc, htable, ok_bind]
  · simp only [Arena.serveAll, Arena.Request.serve, halloc, ok_bind, Arena.Request.bytes]

/-- The key `k` with the value `v`, at sequence number 1. -/
def addK : AddCall :=
  { seq := 1, type := .kTypeValue, key := [107], value := [118], height := 1, image := fun _ => 0 }

theorem addK_short : addK.formatLen < 2 ^ 31 := by
  have hlen : addK.formatLen = 12 := by decide
  rw [hlen]
  decide

theorem add_stays_inside_k :
    ∃ m, MemTable.new (Flat.bump kPointerSize (by decide)) (fun _ => 0) = .ok m ∧
      (StaysInside (Flat.bump kPointerSize (by decide)) m.nodes m addK ↔ addK.Fits) := by
  obtain ⟨m, hnew, hserves⟩ := new_serves (Flat.bump kPointerSize (by decide)) fun _ => 0
  exact ⟨m, hnew, add_stays_inside _ _ (by decide) m.nodes m hserves addK (by decide)⟩

/-- The key `k` with an empty value: 10 bytes are asked for, and 11 are passed over. -/
theorem add_stays_inside_short : ∃ m buf arena mem,
    MemTable.new (Flat.bump kPointerSize (by decide)) (fun _ => 0) = .ok m ∧
      AddCall.fill (Flat.bump kPointerSize (by decide)) { addK with value := [] } m =
        .ok (buf, buf + 11, arena, mem) ∧
      encodedLen ({ addK with value := [] } : AddCall).value.length = 10 ∧
      ¬ StaysInside (Flat.bump kPointerSize (by decide)) m.nodes m { addK with value := [] } := by
  obtain ⟨m, hnew, -⟩ := new_serves (Flat.bump kPointerSize (by decide)) fun _ => 0
  obtain ⟨buf, arena, hfill⟩ := AddCall.fill_total (Flat.bump kPointerSize (by decide))
    { addK with value := [] } m
  exact ⟨m, buf, arena, _, hnew, hfill, by decide, fun h =>
    absurd (h.fits (by decide)) (by decide)⟩

/-! ### What `add` leaves -/

/-- The entry the readers expect. -/
def AddCall.format (c : AddCall) : Bytes := entryBytes c.key c.value c.seq c.type

/-- The pointer `add` hands to `table_.insert` is one to such an entry. -/
def WritesEntry (new_ : Allocator kPointerSize) (m : MemTable) (c : AddCall) : Prop :=
  ∃ buf arena mem, c.write new_ m = .ok (buf, arena, mem) ∧
    bytesAt mem buf c.format.length = c.format

/-- The readers find the internal key there, and the value after it. -/
def WritesReadable (new_ : Allocator kPointerSize) (m : MemTable) (c : AddCall) : Prop :=
  ∃ buf arena mem, c.write new_ m = .ok (buf, arena, mem) ∧
    ∃ key s v, appendInternalKey [] ⟨c.key, c.seq, c.type⟩ = .ok key ∧
      getLengthPrefixedSlice mem (.arena buf) = .ok s ∧ s.read mem = .ok key ∧
      getLengthPrefixedSlice mem (s.data.plus s.size) = .ok v ∧ v.read mem = .ok c.value

/-- The readers take the internal key of an entry for longer than it is. -/
theorem write_slice {arena : Arena} (hshort : c.formatLen < 2 ^ 31)
    (hrun : c.write new_ m = .ok (buf, arena, mem)) :
    ∃ s, getLengthPrefixedSlice mem (.arena buf) = .ok s ∧ c.key.length + 8 < s.size := by
  obtain ⟨hfits, rfl⟩ := AddCall.write_ok ((AddCall.value_lt hshort).trans (by decide)) hrun
  refine ⟨_, (written_stored c buf m.memory).slice_eq (hfits.encodedLen_lt hshort), ?_⟩
  have hlen := hfits.encodedLen_eq
  have hpos : 0 < varintLength (BitVec.ofNat 64 c.value.length) := by
    rw [varintLength_eq]
    exact Base128.length_encode_pos _
  unfold AddCall.tagOffset at hlen
  show c.key.length + 8 < encodedLen c.value.length
  omega

theorem writes_no_entry (hshort : c.formatLen < 2 ^ 31) : ¬ WritesEntry new_ m c := by
  rintro ⟨buf, arena, mem, hrun, hformat⟩
  obtain ⟨s, hs, hlong⟩ := write_slice hshort hrun
  have hkey : (c.key ++ c.tag).length = c.key.length + 8 := length_key _ _
  have hat : CharPtr.At mem (.arena buf) c.format := CharPtr.at_arena.mpr hformat
  rw [AddCall.format, entryBytes_eq] at hat
  have hlt : c.key.length + 8 < 2 ^ 32 := by
    unfold AddCall.formatLen at hshort
    omega
  have hslice := (slice_at hat.append.1 (hkey ▸ hlt)).1
  obtain rfl := Except.ok.inj (hs.symm.trans hslice)
  exact absurd hkey hlong.ne'

theorem writes_nothing_readable (hshort : c.formatLen < 2 ^ 31) : ¬ WritesReadable new_ m c := by
  rintro ⟨buf, arena, mem, hrun, key, s', v, hkey, hs', hread, -, -⟩
  obtain ⟨s, hs, hlong⟩ := write_slice hshort hrun
  obtain rfl := Except.ok.inj (hs.symm.trans hs')
  obtain ⟨-, -, rfl⟩ := appendInternalKey_ok hkey
  have hlen := CharPtr.length_read hread
  rw [length_key] at hlen
  exact absurd hlen hlong.ne

/-- **`add` never writes an entry its readers decode.**  Where it hands a pointer to the table, the
length there is that of the whole entry. -/
theorem add_writes_no_entry (new_ : Allocator kPointerSize) (m : MemTable) (c : AddCall)
    (hshort : c.formatLen < 2 ^ 31) : ¬ WritesEntry new_ m c ∧ ¬ WritesReadable new_ m c :=
  ⟨writes_no_entry hshort, writes_nothing_readable hshort⟩

theorem add_writes_no_entry_fresh :
    ∃ m, MemTable.new (Flat.bump kPointerSize (by decide)) (fun _ => 0) = .ok m ∧
      ¬ WritesEntry (Flat.bump kPointerSize (by decide)) m addK ∧
      ¬ WritesReadable (Flat.bump kPointerSize (by decide)) m addK := by
  obtain ⟨m, hnew, -⟩ := new_serves (Flat.bump kPointerSize (by decide)) fun _ => 0
  exact ⟨m, hnew, add_writes_no_entry _ m addK addK_short⟩

/-- The key `k` with the value `v`: 12, the length of the entry, where the one of the internal key,
9, belongs. -/
theorem add_writes_twelve : ∃ m buf arena mem,
    MemTable.new (Flat.bump kPointerSize (by decide)) (fun _ => 0) = .ok m ∧
      addK.write (Flat.bump kPointerSize (by decide)) m = .ok (buf, arena, mem) ∧
      bytesAt mem buf 1 = [12] ∧ addK.format.take 1 = [9] ∧
      ¬ WritesEntry (Flat.bump kPointerSize (by decide)) m addK := by
  obtain ⟨m, hnew, -⟩ := new_serves (Flat.bump kPointerSize (by decide)) fun _ => 0
  obtain ⟨buf, arena, halloc⟩ := Arena.allocate_total (n := encodedLen addK.value.length)
    (Flat.bump kPointerSize (by decide)) m.arena_ (by decide)
  have hwrite := AddCall.write_fits (c := addK) (by decide) (by decide) halloc
  have hlen : lengthBytes addK.value.length = [12] := by decide
  have hfirst := (written_stored addK buf m.memory).length_eq
  rw [hlen] at hfirst
  exact ⟨m, buf, arena, _, hnew, hwrite, hfirst, by decide, writes_no_entry addK_short⟩

end Leveldb.MemTable
