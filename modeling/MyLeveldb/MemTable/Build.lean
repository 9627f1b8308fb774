import MyLeveldb.MemTable.Layout

/-!
# MemTable — Build

The memtables the constructor and any calls of `add` reach.  `Built ps m`: the nodes of `m`'s table
are those of `ps`, in their order, each for an entry whose length and tag are in `m`'s memory; the
arena has given out the entries and the nodes.

The comparator reads past the entries' ends, so that it orders no two entries for good, and `Built`
says nothing of the order.  An `add` that returns keeps it, whatever the user comparator
(`built_of_run`); so the memtable of any calls is built (`built_of_build`).

Over the bytewise comparator an `add` whose lengths fit returns (`add_built`), and over any an `add`
whose lengths do not fit fails (`fits_of_add`): a sequence of calls builds a memtable if and only if
all of them fit (`build_spec`, `fits_of_build`).
-/

namespace Leveldb.MemTable

open Flat (Memory Region Allocator bytesAt write)
open Flat.Region (Apart)
open SkipList (Shape)
open ThreeWay

/-! ### Calls -/

def AddCall.run (new_ : Allocator kPointerSize) (user : Compare Bytes) (c : AddCall)
    (m : MemTable) : Except Fault MemTable :=
  m.add new_ user c.seq c.type c.key c.value c.height c.image

/-- Adds `cs` in order. -/
def addAll (new_ : Allocator kPointerSize) (user : Compare Bytes) :
    List AddCall → MemTable → Except Fault MemTable
  | [], m => .ok m
  | c :: cs, m => do
      let m ← c.run new_ user m
      addAll new_ user cs m

/-- The memtable the constructor and the calls `cs` leave, in a memory that holds `mem` at first. -/
def build (new_ : Allocator kPointerSize) (user : Compare Bytes) (mem : Memory)
    (cs : List AddCall) : Except Fault MemTable := do
  let m ← MemTable.new new_ mem
  addAll new_ user cs m

variable {new_ : Allocator kPointerSize} {user : Compare Bytes} {m m' : MemTable} {mem : Memory}
  {c : AddCall} {cs : List AddCall}

/-! ### The invariant -/

/-- A node of the table, the buffer its key points to and the call that made it. -/
structure Placed where
  ptr : NodePtr
  buf : Nat
  call : AddCall

namespace Placed

def entry (p : Placed) : SkipList.Entry CharPtr := ⟨p.ptr, .arena p.buf, p.call.height⟩

def region (p : Placed) : Region := p.call.region p.buf

/-- The internal key the comparator reads. -/
def key (mem : Memory) (p : Placed) : InternalBytes := internalKey mem p.buf p.call

/-- The entry is in the memory `mem`. -/
structure In (mem : Memory) (p : Placed) : Prop where
  written : Written mem p.buf p.call
  wellFormed : p.call.WellFormed
  fits : p.call.Fits

variable {p q : Placed}

theorem In.encodedLen_lt (h : p.In mem) : encodedLen p.call.value.length < 2 ^ 31 :=
  h.fits.encodedLen_lt h.wellFormed.short

theorem In.pointsTo (h : p.In mem) : PointsTo mem (.arena p.buf) (p.key mem) :=
  h.written.pointsTo h.encodedLen_lt

theorem In.length_key (h : p.In mem) : (p.key mem).1.length < 2 ^ 31 := by
  rw [key, internalKey, length_keyBytes]
  exact h.encodedLen_lt

theorem In.congr {mem' : Memory} (h : p.In mem)
    (hmem : ∀ a, p.region.Mem a → mem' a = mem a) : p.In mem' :=
  ⟨h.written.congr h.fits hmem, h.wellFormed, h.fits⟩

/-- The comparator answers on an entry and any internal key. -/
theorem In.compare_eq (h : p.In mem) {t : CharPtr} {k : InternalBytes} (ht : PointsTo mem t k) :
    KeyComparator bytewiseComparator mem p.entry.key t =
      .ok (internalOrder bytewiseOrder (p.key mem) k) :=
  keyComparator_eq h.pointsTo ht h.length_key

/-- Entries of different sequence numbers do not tie. -/
theorem In.not_tie (h : p.In mem) (h' : q.In mem) (hne : p.call.seq ≠ q.call.seq) :
    internalOrder bytewiseOrder (p.key mem) (q.key mem) ≠ 0 := fun h₀ =>
  hne (h.written.seq_eq h'.written h.wellFormed h'.wellFormed h.fits h'.fits
    (congrArg Subtype.val ((isStrict_internalOrder isStrict_bytewiseOrder).eq_of_tie _ _ h₀)))

end Placed

structure Built (ps : List Placed) (m : MemTable) : Prop where
  shape : Shape m.table_ (ps.map Placed.entry)
  arena : Arena.Inv (m.entries ++ m.nodes) m.arena_
  apart : ∀ r ∈ m.entries, ∀ s ∈ m.nodes, Apart r s
  given : ∀ p ∈ ps, p.region ∈ m.entries
  holds : ∀ p ∈ ps, p.In m.memory

variable {ps : List Placed}

theorem nodeBytes_range {h : Nat} (hle : h ≤ SkipList.kMaxHeight) :
    0 < nodeBytes h ∧ nodeBytes h < 2 ^ 63 := by
  rw [nodeBytes]
  rw [SkipList.kMaxHeight] at hle
  omega

theorem new_built (new_ : Allocator kPointerSize) (mem : Memory) :
    ∃ m, MemTable.new new_ mem = .ok m ∧ Built [] m := by
  obtain ⟨hpos, hlt⟩ := nodeBytes_range (Nat.le_refl SkipList.kMaxHeight)
  obtain ⟨head, arena, halloc, -, ha⟩ := Arena.allocateAligned_spec new_ Arena.inv_new hpos hlt
  obtain ⟨table, htable, hshape, -⟩ := SkipList.new_shape CharPtr
  refine ⟨⟨arena, table, mem, [], [⟨head, nodeBytes SkipList.kMaxHeight⟩]⟩, ?_,
    ⟨hshape, ha.inv, by simp, by simp, by simp⟩⟩
  simp only [MemTable.new, halloc, htable, ok_bind]

/-! ### One call -/

/-- The memory keeps the entries no node overlaps. -/
theorem overlay_eq {entries nodes : List Region} {image : Memory} {r : Region} {a : Nat}
    (hr : r ∈ entries) (hapart : ∀ s ∈ nodes, Apart r s) (ha : r.Mem a) :
    overlay entries nodes mem image a = mem a := by
  refine if_pos ⟨⟨r, hr, ha⟩, ?_⟩
  rintro ⟨s, hs, has⟩
  exact (hapart s hs).not_mem ha has

theorem AddCall.encodedLen_pos (c : AddCall) : 0 < encodedLen c.value.length :=
  Nat.lt_of_lt_of_le (by omega) (le_encodedLen _)

/-- A call that returns has lengths that fit. -/
theorem fits_of_add (hv : c.value.length < 2 ^ 32) (h : c.run new_ user m = .ok m') : c.Fits := by
  rw [AddCall.run, add_eq_write] at h
  obtain ⟨_, hwrite, -⟩ := bind_eq_ok.mp h
  exact (AddCall.write_ok hv hwrite).1

/-- A call whose lengths fit, step by step. -/
theorem add_eq {buf node : Nat} {arena arena' : Arena} {table : SkipList CharPtr}
    (hc : c.WellFormed) (h : c.Fits)
    (halloc : m.arena_.allocate new_ (encodedLen c.value.length) = .ok (buf, arena))
    (hinsert : m.table_.insertAt (KeyComparator user (stored c buf m.memory)) c.height
      (.arena buf) = .ok table)
    (hnode : arena.allocateAligned new_ (nodeBytes c.height) = .ok (node, arena')) :
    c.run new_ user m = .ok
      { arena_ := arena'
        table_ := table
        memory := overlay (c.region buf :: m.entries) (⟨node, nodeBytes c.height⟩ :: m.nodes)
          (stored c buf m.memory) c.image
        entries := c.region buf :: m.entries
        nodes := ⟨node, nodeBytes c.height⟩ :: m.nodes } := by
  have hwrite := AddCall.write_fits (hc.value_lt.trans (by decide)) h halloc
  rw [AddCall.run, add_eq_write]
  refine bind_eq_ok.mpr ⟨_, hwrite, ?_⟩
  refine bind_eq_ok.mpr ⟨_, hinsert, ?_⟩
  refine bind_eq_ok.mpr ⟨_, hnode, ?_⟩
  rfl

/-- The insertion finds a place: the new entry ties with no other. -/
theorem insert_spec {mem : Memory} {buf : Nat} (hshape : Shape m.table_ (ps.map Placed.entry))
    (hin : ∀ p ∈ ps, p.In mem) (hw : Written mem buf c) (hc : c.WellFormed) (h : c.Fits)
    (hseq : ∀ p ∈ ps, p.call.seq ≠ c.seq) :
    ∃ xs ys table, ps = xs ++ ys ∧
      m.table_.insertAt (KeyComparator bytewiseComparator mem) c.height (.arena buf) = .ok table ∧
      Shape table ((xs ++ ⟨m.table_.nodes.length, buf, c⟩ :: ys).map Placed.entry) := by
  have hnew : Placed.In mem ⟨m.table_.nodes.length, buf, c⟩ := ⟨hw, hc, h⟩
  have hcompare : ∀ p ∈ ps, KeyComparator bytewiseComparator mem p.entry.key (.arena buf) =
      .ok (internalOrder bytewiseOrder (p.key mem) (internalKey mem buf c)) :=
    fun p hp => (hin p hp).compare_eq hnew.pointsTo
  -- the comparator need not be an order for the search to end somewhere
  have hanswers : ∀ e ∈ ps.map Placed.entry,
      ∃ r, KeyComparator bytewiseComparator mem e.key (.arena buf) = .ok r := by
    intro e he
    obtain ⟨p, hp, rfl⟩ := List.mem_map.mp he
    exact ⟨_, hcompare p hp⟩
  have habsent : ∀ e ∈ ps.map Placed.entry,
      KeyComparator bytewiseComparator mem e.key (.arena buf) ≠ .ok 0 := by
    intro e he h₀
    obtain ⟨p, hp, rfl⟩ := List.mem_map.mp he
    rw [hcompare p hp] at h₀
    exact (hin p hp).not_tie hnew (hseq p hp) (Except.ok.inj h₀)
  obtain ⟨as, bs, table, hes, -, hrun, hshape', -⟩ := SkipList.insertAt_cut hshape
    (SkipList.decides_of_ok hanswers) habsent hc.height_pos hc.height_le
  obtain ⟨xs, ys, rfl, rfl, rfl⟩ := List.map_eq_append_iff.mp hes
  refine ⟨xs, ys, table, rfl, hrun, ?_⟩
  rw [List.map_append, List.map_cons]
  exact hshape'

/-- The stores of a call are outside the older entries. -/
theorem Built.stored {buf : Nat} {arena : Arena} (hb : Built ps m) (hc : c.WellFormed)
    (h : c.Fits)
    (ha : Arena.Allocated (m.entries ++ m.nodes) (encodedLen c.value.length) buf arena) :
    ∀ p ∈ ps, p.In (stored c buf m.memory) := by
  intro p hp
  refine (hb.holds p hp).congr fun a hpa => stored_outside (hc.value_lt.trans (by decide)) h ?_
  have hfresh := ha.fresh p.region (List.mem_append_left _ (hb.given p hp))
  exact hfresh.symm.not_mem hpa

/-- The step of the invariant, from the insertion on. -/
theorem built_of_insert {xs ys : List Placed} {buf : Nat} {arena : Arena}
    {table : SkipList CharPtr} (hb : Built (xs ++ ys) m) (hc : c.WellFormed) (h : c.Fits)
    (halloc : m.arena_.allocate new_ (encodedLen c.value.length) = .ok (buf, arena))
    (ha : Arena.Allocated (m.entries ++ m.nodes) (encodedLen c.value.length) buf arena)
    (hinsert : m.table_.insertAt (KeyComparator user (stored c buf m.memory)) c.height
      (.arena buf) = .ok table)
    (hshape : Shape table ((xs ++ ⟨m.table_.nodes.length, buf, c⟩ :: ys).map Placed.entry)) :
    ∃ m', c.run new_ user m = .ok m' ∧
      Built (xs ++ ⟨m.table_.nodes.length, buf, c⟩ :: ys) m' := by
  obtain ⟨hnpos, hnlt⟩ := nodeBytes_range hc.height_le
  obtain ⟨node, arena', hnode, -, ha'⟩ := Arena.allocateAligned_spec new_ ha.inv hnpos hnlt
  have hold := hb.stored hc h ha
  have hw := written_stored c buf m.memory
  have hgiven : ∀ p ∈ xs ++ (⟨m.table_.nodes.length, buf, c⟩ : Placed) :: ys,
      p.region ∈ c.region buf :: m.entries ∧ p.In (stored c buf m.memory) := by
    intro p hp
    rcases List.mem_append.mp hp with hp | hp
    · exact ⟨List.mem_cons_of_mem _ (hb.given p (List.mem_append_left _ hp)),
        hold p (List.mem_append_left _ hp)⟩
    rcases List.mem_cons.mp hp with rfl | hp
    · exact ⟨List.mem_cons_self, hw, hc, h⟩
    · exact ⟨List.mem_cons_of_mem _ (hb.given p (List.mem_append_right _ hp)),
        hold p (List.mem_append_right _ hp)⟩
  have hapart : ∀ r ∈ c.region buf :: m.entries,
      ∀ s ∈ (⟨node, nodeBytes c.height⟩ : Region) :: m.nodes, Apart r s := by
    intro r hr s hs
    rcases List.mem_cons.mp hs with rfl | hs
    · refine (ha'.fresh r ?_).symm
      rw [← List.cons_append]
      exact List.mem_append_left _ hr
    · rcases List.mem_cons.mp hr with rfl | hr
      · exact ha.fresh s (List.mem_append_right _ hs)
      · exact hb.apart r hr s hs
  refine ⟨_, add_eq hc h halloc hinsert hnode, hshape, ?_, hapart,
    fun p hp => (hgiven p hp).1, ?_⟩
  · refine ha'.inv.congr fun r => ?_
    simp only [List.mem_append, List.mem_cons, AddCall.region]
    tauto
  · intro p hp
    obtain ⟨hr, hin⟩ := hgiven p hp
    exact hin.congr fun a hpa => overlay_eq hr (hapart _ hr) hpa

/-- The step of the invariant, over the bytewise comparator: a call that fits returns. -/
theorem add_built (new_ : Allocator kPointerSize) (hb : Built ps m) (hc : c.WellFormed)
    (h : c.Fits) (hseq : ∀ p ∈ ps, p.call.seq ≠ c.seq) :
    ∃ m' xs ys p, ps = xs ++ ys ∧ p.call = c ∧ c.run new_ bytewiseComparator m = .ok m' ∧
      Built (xs ++ p :: ys) m' := by
  obtain ⟨buf, arena, halloc, ha⟩ := Arena.allocate_spec new_ hb.arena c.encodedLen_pos
  have hold := hb.stored hc h ha
  have hw := written_stored c buf m.memory
  obtain ⟨xs, ys, table, rfl, hinsert, hshape⟩ := insert_spec hb.shape hold hw hc h hseq
  obtain ⟨m', hrun, hb'⟩ := built_of_insert hb hc h halloc ha hinsert hshape
  exact ⟨m', xs, ys, _, rfl, rfl, hrun, hb'⟩

/-- The step of the invariant, over any comparator: a call that returns keeps it. -/
theorem built_of_run (hb : Built ps m) (hc : c.WellFormed) (hrun : c.run new_ user m = .ok m') :
    ∃ xs ys p, ps = xs ++ ys ∧ p.call = c ∧ Built (xs ++ p :: ys) m' := by
  have hv : c.value.length < 2 ^ 32 := hc.value_lt.trans (by decide)
  have h : c.Fits := fits_of_add hv hrun
  obtain ⟨buf, arena, halloc, ha⟩ := Arena.allocate_spec new_ hb.arena c.encodedLen_pos
  -- the call has inserted what it wrote
  obtain ⟨table, hinsert⟩ : ∃ table, m.table_.insertAt
      (KeyComparator user (stored c buf m.memory)) c.height (.arena buf) = .ok table := by
    rw [AddCall.run, add_eq_write] at hrun
    obtain ⟨w, hwrite, hrest⟩ := bind_eq_ok.mp hrun
    obtain rfl := Except.ok.inj ((AddCall.write_fits hv h halloc).symm.trans hwrite)
    obtain ⟨table, hinsert, -⟩ := bind_eq_ok.mp hrest
    exact ⟨table, hinsert⟩
  obtain ⟨as, bs, hes, hshape⟩ := hb.shape.inserted hinsert hc.height_pos hc.height_le
  obtain ⟨xs, ys, rfl, rfl, rfl⟩ := List.map_eq_append_iff.mp hes
  obtain ⟨m'', hrun', hb'⟩ := built_of_insert hb hc h halloc ha hinsert
    (by rw [List.map_append, List.map_cons]; exact hshape)
  obtain rfl := Except.ok.inj (hrun.symm.trans hrun')
  exact ⟨xs, ys, _, rfl, rfl, hb'⟩

/-! ### Sequences of calls -/

/-- The calls behind the nodes, and those to come, when the first of these has been made. -/
theorem calls_perm (xs ys : List Placed) (p : Placed) (cs : List AddCall) :
    ((xs ++ p :: ys).map Placed.call ++ cs).Perm
      ((xs ++ ys).map Placed.call ++ p.call :: cs) := by
  simp only [List.map_append, List.map_cons]
  exact (List.perm_middle.append_right cs).trans List.perm_middle.symm

theorem built_of_addAll : ∀ (cs : List AddCall) (ps : List Placed) (m : MemTable),
    Built ps m → (∀ c ∈ cs, c.WellFormed) → addAll new_ user cs m = .ok m' →
    ∃ ps', Built ps' m' ∧ (ps'.map Placed.call).Perm (ps.map Placed.call ++ cs) := by
  intro cs
  induction cs with
  | nil =>
      intro ps m hb _ hrun
      cases hrun
      exact ⟨ps, hb, by simp⟩
  | cons c cs ih =>
      intro ps m hb hcs hrun
      obtain ⟨m₁, hrun₁, hrest⟩ := bind_eq_ok.mp hrun
      obtain ⟨xs, ys, p, rfl, rfl, hb₁⟩ := built_of_run hb (hcs c List.mem_cons_self) hrun₁
      obtain ⟨ps', hb', hperm⟩ := ih _ m₁ hb₁
        (fun c' hc' => hcs c' (List.mem_cons_of_mem _ hc')) hrest
      exact ⟨ps', hb', hperm.trans (calls_perm xs ys p cs)⟩

/-- The memtable any calls leave, over any comparator. -/
theorem built_of_build (hcs : ∀ c ∈ cs, c.WellFormed) (hrun : build new_ user mem cs = .ok m) :
    ∃ ps, Built ps m ∧ (ps.map Placed.call).Perm cs := by
  obtain ⟨m₀, hnew, hb₀⟩ := new_built new_ mem
  obtain ⟨m₁, hnew', hrun₁⟩ := bind_eq_ok.mp hrun
  obtain rfl := Except.ok.inj (hnew.symm.trans hnew')
  obtain ⟨ps, hb, hperm⟩ := built_of_addAll cs [] m₀ hb₀ hcs hrun₁
  exact ⟨ps, hb, by simpa using hperm⟩

theorem addAll_spec (new_ : Allocator kPointerSize) :
    ∀ (cs : List AddCall) (ps : List Placed) (m : MemTable), Built ps m →
      (∀ c ∈ cs, c.WellFormed ∧ c.Fits) →
      ((ps.map Placed.call ++ cs).map AddCall.seq).Nodup →
      ∃ m' ps', addAll new_ bytewiseComparator cs m = .ok m' ∧ Built ps' m' ∧
        (ps'.map Placed.call).Perm (ps.map Placed.call ++ cs) := by
  intro cs
  induction cs with
  | nil => exact fun ps m hb _ _ => ⟨m, ps, rfl, hb, by simp⟩
  | cons c cs ih =>
      intro ps m hb hcs hnd
      obtain ⟨hc, hfits⟩ := hcs c List.mem_cons_self
      have hseq : ∀ p ∈ ps, p.call.seq ≠ c.seq := by
        intro p hp heq
        rw [List.map_append, List.nodup_append] at hnd
        refine hnd.2.2 p.call.seq ?_ c.seq (by simp) heq
        exact List.mem_map_of_mem (List.mem_map_of_mem hp)
      obtain ⟨m₁, xs, ys, p, rfl, rfl, hrun, hb₁⟩ := add_built new_ hb hc hfits hseq
      have hperm := calls_perm xs ys p cs
      obtain ⟨m', ps', hrun', hb', hperm'⟩ := ih _ m₁ hb₁
        (fun c' hc' => hcs c' (List.mem_cons_of_mem _ hc'))
        ((hperm.map AddCall.seq).nodup_iff.mpr hnd)
      refine ⟨m', ps', ?_, hb', hperm'.trans hperm⟩
      rw [addAll, hrun, ok_bind, hrun']

/-- Calls that fit build a memtable. -/
theorem build_spec (new_ : Allocator kPointerSize) (mem : Memory)
    (hcs : ∀ c ∈ cs, c.WellFormed ∧ c.Fits) (hnd : (cs.map AddCall.seq).Nodup) :
    ∃ m ps, build new_ bytewiseComparator mem cs = .ok m ∧ Built ps m ∧
      (ps.map Placed.call).Perm cs := by
  obtain ⟨m₀, hnew, hb₀⟩ := new_built new_ mem
  obtain ⟨m, ps, hrun, hb, hperm⟩ := addAll_spec new_ cs [] m₀ hb₀ hcs (by simpa using hnd)
  refine ⟨m, ps, ?_, hb, by simpa using hperm⟩
  rw [build, hnew, ok_bind, hrun]

theorem fits_of_addAll (hcs : ∀ c ∈ cs, c.value.length < 2 ^ 32)
    (h : addAll new_ user cs m = .ok m') : ∀ c ∈ cs, c.Fits := by
  induction cs generalizing m with
  | nil => simp
  | cons c cs ih =>
      obtain ⟨m₁, hrun, hrest⟩ := bind_eq_ok.mp h
      intro c' hc'
      rcases List.mem_cons.mp hc' with rfl | hc'
      · exact fits_of_add (hcs c' List.mem_cons_self) hrun
      · exact ih (fun c hc => hcs c (List.mem_cons_of_mem _ hc)) hrest c' hc'

/-- …and others do not. -/
theorem fits_of_build (hcs : ∀ c ∈ cs, c.WellFormed) (h : build new_ user mem cs = .ok m) :
    ∀ c ∈ cs, c.Fits := by
  obtain ⟨m₀, -, hrun⟩ := bind_eq_ok.mp h
  exact fits_of_addAll (fun c hc => (hcs c hc).value_lt.trans (by decide)) hrun

/-! ### One entry -/

theorem addK_wellFormed : ∀ c ∈ [addK], c.WellFormed := by
  intro c hc
  obtain rfl := List.mem_singleton.mp hc
  exact ⟨by decide, by decide, addK_short, by decide, by decide⟩

theorem addK_built :
    ∃ m ps, build (Flat.bump kPointerSize (by decide)) bytewiseComparator (fun _ => 0) [addK] =
      .ok m ∧ Built ps m ∧ (ps.map Placed.call).Perm [addK] := by
  refine build_spec _ _ (fun c hc => ⟨addK_wellFormed c hc, ?_⟩) (by decide)
  obtain rfl := List.mem_singleton.mp hc
  decide

end Leveldb.MemTable
