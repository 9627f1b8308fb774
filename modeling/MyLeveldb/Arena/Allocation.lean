import MyLeveldb.Arena.Definitions

/-!
# Arena — Allocation

`Arena.Inv given a`: the regions `given` have been handed out.  They lie in the arena's blocks,
which are disjoint, and the free part of the current block is disjoint from all of them.  The three
ways to serve a request keep the invariant (`Inv.bumped`, `Inv.block`, `Inv.standardBlock`), so that
both routines do (`allocate_spec`, `allocateAligned_spec`), and so does a run of requests:
`arena_allocations`.
-/

namespace Leveldb.Arena

open Flat (Region Allocator)
open Flat.Region (Apart Within)

variable {new_ : Allocator kPointerSize} {given : List Region} {a a' : Arena} {b : Block}
  {n p slop : Nat}

/-- What is left of the current block. -/
def tail (a : Arena) : Region := ⟨a.alloc_ptr_, a.alloc_bytes_remaining_⟩

/-- No block for small requests has been made. -/
structure NoCurrent (a : Arena) : Prop where
  ptr : a.alloc_ptr_ = 0
  remaining : a.alloc_bytes_remaining_ = 0
  none_standard : ∀ b ∈ a.blocks_, b.standard = false

/-- `b` is the latest block for small requests, and what is left of it is its unused tail. -/
structure Current (given : List Region) (a : Arena) (b : Block) : Prop where
  latest : ∃ pre post, a.blocks_ = pre ++ b :: post ∧ ∀ c ∈ post, c.standard = false
  standard : b.standard = true
  size : b.region.size = kMaxBlockSize
  stop : a.tail.stop = b.region.stop
  start : ∃ r ∈ given, Within r b.region ∧ r.stop = a.tail.ptr
  used : ∀ r ∈ given, Within r b.region → r.stop ≤ a.tail.ptr
  free : ∀ r ∈ given, Apart r a.tail

/-- The regions `given` have been handed out. -/
structure Inv (given : List Region) (a : Arena) : Prop where
  blocks : a.blocks_.Pairwise fun b c => Apart b.region c.region
  pos : ∀ r ∈ given, 0 < r.size
  inside : ∀ r ∈ given, ∃ b ∈ a.blocks_, Within r b.region
  current : NoCurrent a ∨ ∃ b, Current given a b

theorem inv_new : Inv [] new :=
  ⟨.nil, by simp, by simp, .inl ⟨rfl, rfl, by simp [new]⟩⟩

/-- The order in which the regions were handed out does not matter. -/
theorem Inv.congr {given' : List Region} (h : Inv given a) (hmem : ∀ r, r ∈ given' ↔ r ∈ given) :
    Inv given' a := by
  refine ⟨h.blocks, fun r hr => h.pos r ((hmem r).mp hr), fun r hr => h.inside r ((hmem r).mp hr),
    h.current.imp_right ?_⟩
  rintro ⟨b, hb⟩
  obtain ⟨r₀, hr₀, hr₀b⟩ := hb.start
  exact ⟨b, hb.latest, hb.standard, hb.size, hb.stop, ⟨r₀, (hmem r₀).mpr hr₀, hr₀b⟩,
    fun r hr => hb.used r ((hmem r).mp hr), fun r hr => hb.free r ((hmem r).mp hr)⟩

theorem Current.mem (h : Current given a b) : b ∈ a.blocks_ := by
  obtain ⟨pre, post, hb, -⟩ := h.latest
  rw [hb]
  simp

theorem Current.tail_within (h : Current given a b) : Within a.tail b.region := by
  obtain ⟨r, -, hr, hstop⟩ := h.start
  refine ⟨?_, h.stop.le⟩
  rw [← hstop]
  exact hr.1.trans (Nat.le_add_right _ _)

theorem pos_cons (h : Inv given a) (hn : 0 < n) (p : Nat) :
    ∀ r ∈ (⟨p, n⟩ : Region) :: given, 0 < r.size := by
  intro r hr
  rcases List.mem_cons.mp hr with rfl | hr
  · exact hn
  · exact h.pos r hr

/-! ### Three ways to serve a request -/

/-- The result of a request for `n` bytes. -/
structure Allocated (given : List Region) (n p : Nat) (a' : Arena) : Prop where
  fresh : ∀ r ∈ given, Apart ⟨p, n⟩ r
  inv : Inv (⟨p, n⟩ :: given) a'

/-- The arena after `n` bytes are taken from the tail, past `slop` bytes. -/
def bumped (a : Arena) (slop n : Nat) : Arena :=
  { a with
    alloc_ptr_ := a.alloc_ptr_ + (slop + n)
    alloc_bytes_remaining_ := a.alloc_bytes_remaining_ - (slop + n) }

theorem Inv.bumped (h : Inv given a) (hn : 0 < n) (hfit : slop + n ≤ a.alloc_bytes_remaining_) :
    Allocated given n (a.alloc_ptr_ + slop) (a.bumped slop n) := by
  obtain hno | ⟨b, hb⟩ := h.current
  · -- nothing fits in the tail of no block
    have := hno.remaining
    omega
  · have hr : Within ⟨a.alloc_ptr_ + slop, n⟩ a.tail := by
      unfold Within Region.stop tail
      simp only
      omega
    have htail : Within (a.bumped slop n).tail a.tail := by
      unfold Within Region.stop tail Arena.bumped
      simp only
      omega
    refine ⟨fun r hrg => ((hb.free r hrg).mono (.refl r) hr).symm, h.blocks, pos_cons h hn _,
      fun r hrg => ?_,
      .inr ⟨b, hb.latest, hb.standard, hb.size, ?_, ?_, fun r hrg hrb => ?_, fun r hrg => ?_⟩⟩
    · rcases List.mem_cons.mp hrg with rfl | hrg
      · exact ⟨b, hb.mem, hr.trans hb.tail_within⟩
      · exact h.inside r hrg
    · rw [← hb.stop]
      unfold Region.stop tail Arena.bumped
      simp only
      omega
    · refine ⟨_, List.mem_cons_self, hr.trans hb.tail_within, ?_⟩
      unfold Region.stop tail Arena.bumped
      simp only
      omega
    · have hle : a.tail.ptr ≤ (a.bumped slop n).tail.ptr := htail.1
      rcases List.mem_cons.mp hrg with rfl | hrg
      · unfold Region.stop tail Arena.bumped
        simp only
        omega
      · exact (hb.used r hrg hrb).trans hle
    · rcases List.mem_cons.mp hrg with rfl | hrg
      · refine .inl ?_
        unfold Region.stop tail Arena.bumped
        simp only
        omega
      · exact (hb.free r hrg).mono (.refl r) htail

section NewBlock

variable (new_)

/-- A new block is apart from all that has been handed out. -/
theorem Inv.new_apart (h : Inv given a) (n : Nat) : ∀ r ∈ given,
    Apart ⟨new_.alloc (a.blocks_.map Block.region) n, n⟩ r := by
  intro r hr
  obtain ⟨b, hb, hrb⟩ := h.inside r hr
  exact (new_.fresh _ n _ (List.mem_map_of_mem hb)).mono (.refl _) hrb

theorem Inv.new_blocks (h : Inv given a) (n : Nat) (standard : Bool) :
    (a.allocateNewBlock new_ n standard).2.blocks_.Pairwise
      fun b c => Apart b.region c.region := by
  refine List.pairwise_append.mpr ⟨h.blocks, List.pairwise_singleton _ _, fun b hb c hc => ?_⟩
  rw [List.mem_singleton.mp hc]
  exact (new_.fresh _ n _ (List.mem_map_of_mem hb)).symm

/-- A block of its own for a large request. -/
theorem Inv.block (h : Inv given a) (hn : 0 < n) :
    Allocated given n (a.allocateNewBlock new_ n false).1
      (a.allocateNewBlock new_ n false).2 := by
  have hapart := h.new_apart new_ n
  have hblocks := h.new_blocks new_ n false
  have hfresh : ∀ b ∈ a.blocks_, Apart ⟨new_.alloc (a.blocks_.map Block.region) n, n⟩ b.region :=
    fun b hb => new_.fresh _ n _ (List.mem_map_of_mem hb)
  obtain ⟨q, hq⟩ : ∃ q, new_.alloc (a.blocks_.map Block.region) n = q := ⟨_, rfl⟩
  rw [hq] at hapart hfresh
  simp only [allocateNewBlock, hq] at hblocks ⊢
  refine ⟨hapart, hblocks, pos_cons h hn q, fun r hr => ?_, ?_⟩
  · rcases List.mem_cons.mp hr with rfl | hr
    · exact ⟨_, List.mem_append_right _ (List.mem_singleton_self _), .refl _⟩
    · obtain ⟨b, hb, hrb⟩ := h.inside r hr
      exact ⟨b, List.mem_append_left _ hb, hrb⟩
  · refine h.current.imp (fun hno => ⟨hno.ptr, hno.remaining, fun b hb => ?_⟩) ?_
    · rcases List.mem_append.mp hb with hb | hb
      · exact hno.none_standard b hb
      · rw [List.mem_singleton.mp hb]
    · rintro ⟨b, hb⟩
      obtain ⟨pre, post, hpre, hpost⟩ := hb.latest
      obtain ⟨r₀, hr₀, hr₀b, hr₀s⟩ := hb.start
      refine ⟨b, ⟨pre, post ++ [⟨⟨q, n⟩, false⟩], ?_, fun c hc => ?_⟩, hb.standard, hb.size,
        hb.stop, ⟨r₀, List.mem_cons_of_mem _ hr₀, hr₀b, hr₀s⟩, fun r hr hrb => ?_, fun r hr => ?_⟩
      · simp only [hpre, List.append_assoc, List.cons_append]
      · rcases List.mem_append.mp hc with hc | hc
        · exact hpost c hc
        · rw [List.mem_singleton.mp hc]
      · rcases List.mem_cons.mp hr with rfl | hr
        · exact absurd hrb ((hfresh b hb.mem).not_within hn)
        · exact hb.used r hr hrb
      · rcases List.mem_cons.mp hr with rfl | hr
        · exact (hfresh b hb.mem).mono (.refl _) hb.tail_within
        · exact hb.free r hr

/-- A new current block, and a small request served from its start. -/
theorem Inv.standardBlock (h : Inv given a) (hn : 0 < n) (hle : n ≤ kMaxBlockSize) :
    Allocated given n (a.allocateNewBlock new_ kMaxBlockSize true).1
      { (a.allocateNewBlock new_ kMaxBlockSize true).2 with
        alloc_ptr_ := (a.allocateNewBlock new_ kMaxBlockSize true).1 + n
        alloc_bytes_remaining_ := kMaxBlockSize - n } := by
  have hapart := h.new_apart new_ kMaxBlockSize
  have hblocks := h.new_blocks new_ kMaxBlockSize true
  obtain ⟨q, hq⟩ : ∃ q, new_.alloc (a.blocks_.map Block.region) kMaxBlockSize = q := ⟨_, rfl⟩
  rw [hq] at hapart
  have hhead : Within ⟨q, n⟩ ⟨q, kMaxBlockSize⟩ := ⟨Nat.le_refl q, Nat.add_le_add_left hle q⟩
  have htail : Within ⟨q + n, kMaxBlockSize - n⟩ ⟨q, kMaxBlockSize⟩ := by
    unfold Within Region.stop
    simp only
    omega
  have hpos : 0 < kMaxBlockSize := by decide
  simp only [allocateNewBlock, hq] at hblocks ⊢
  refine ⟨fun r hr => (hapart r hr).mono hhead (.refl r), hblocks, pos_cons h hn q,
    fun r hr => ?_, .inr ⟨⟨⟨q, kMaxBlockSize⟩, true⟩, ?_⟩⟩
  · rcases List.mem_cons.mp hr with rfl | hr
    · exact ⟨_, List.mem_append_right _ (List.mem_singleton_self _), hhead⟩
    · obtain ⟨b, hb, hrb⟩ := h.inside r hr
      exact ⟨b, List.mem_append_left _ hb, hrb⟩
  · exact
      { latest := ⟨a.blocks_, [], rfl, by simp⟩
        standard := rfl
        size := rfl
        stop := by
          show q + n + (kMaxBlockSize - n) = q + kMaxBlockSize
          omega
        start := ⟨_, List.mem_cons_self, hhead, rfl⟩
        used := by
          intro r hr hrb
          rcases List.mem_cons.mp hr with rfl | hr
          · exact Nat.le_refl _
          · exact absurd hrb ((hapart r hr).symm.not_within (h.pos r hr))
        free := by
          intro r hr
          rcases List.mem_cons.mp hr with rfl | hr
          · exact .inl (Nat.le_refl _)
          · exact ((hapart r hr).mono htail (.refl r)).symm }

/-- `allocateFallback` serves any request. -/
theorem Inv.fallback (h : Inv given a) (hn : 0 < n) :
    Allocated given n (a.allocateFallback new_ n).1 (a.allocateFallback new_ n).2 := by
  unfold allocateFallback
  split_ifs with hbig
  · exact h.block new_ hn
  · have hle : n ≤ kMaxBlockSize := (Nat.not_lt.mp hbig).trans (by decide)
    exact h.standardBlock new_ hn hle

theorem fallback_aligned (a : Arena) (n : Nat) :
    (a.allocateFallback new_ n).1 % kPointerSize = 0 := by
  unfold allocateFallback
  split_ifs
  · exact new_.aligned _ _
  · exact new_.aligned _ _

end NewBlock

/-! ### The two routines -/

theorem allocate_spec (new_ : Allocator kPointerSize) (h : Inv given a) (hn : 0 < n) :
    ∃ p a', a.allocate new_ n = .ok (p, a') ∧ Allocated given n p a' := by
  unfold allocate
  rw [assertion_of hn, ok_bind]
  split_ifs with hfit
  · have hb : Allocated given n (a.alloc_ptr_ + 0) (a.bumped 0 n) :=
      h.bumped hn (by rwa [Nat.zero_add])
    refine ⟨a.alloc_ptr_, a.bumped 0 n, ?_, hb⟩
    rw [Arena.bumped, Nat.zero_add]
  · exact ⟨_, _, rfl, h.fallback new_ hn⟩

/-- A request for some bytes is served, whatever the arena. -/
theorem allocate_total (new_ : Allocator kPointerSize) (a : Arena) (hn : 0 < n) :
    ∃ p a', a.allocate new_ n = .ok (p, a') := by
  unfold allocate
  rw [assertion_of hn, ok_bind]
  split_ifs
  · exact ⟨_, _, rfl⟩
  · exact ⟨_, _, rfl⟩

theorem and_align (p : Nat) : p &&& (kPointerSize - 1) = p % kPointerSize :=
  Nat.and_two_pow_sub_one_eq_mod p 3

/-- The distance from `p` to the next multiple of the pointer size. -/
def slopOf (p : Nat) : Nat := if p % kPointerSize = 0 then 0 else kPointerSize - p % kPointerSize

theorem slopOf_spec (p : Nat) : (p + slopOf p) % kPointerSize = 0 ∧ slopOf p < kPointerSize := by
  unfold slopOf kPointerSize
  split_ifs with h₀ <;> omega

/-- A request below `2^63` bytes does not wrap around. -/
theorem needed_eq (p : Nat) (hlt : n < 2 ^ 63) : (n + slopOf p) % 2 ^ 64 = slopOf p + n := by
  have hslop : slopOf p < 8 := (slopOf_spec p).2
  omega

/-- The arena after `m` bytes are taken from the tail. -/
def advanced (a : Arena) (m : Nat) : Arena :=
  { a with
    alloc_ptr_ := a.alloc_ptr_ + m
    alloc_bytes_remaining_ := a.alloc_bytes_remaining_ - m }

/-- `allocateAligned`, for any `size_t`. -/
theorem allocateAligned_eq_mod (new_ : Allocator kPointerSize) (a : Arena) (n : Nat) :
    a.allocateAligned new_ n =
      if (n + slopOf a.alloc_ptr_) % 2 ^ 64 ≤ a.alloc_bytes_remaining_ then
        .ok (a.alloc_ptr_ + slopOf a.alloc_ptr_, a.advanced ((n + slopOf a.alloc_ptr_) % 2 ^ 64))
      else .ok (a.allocateFallback new_ n) := by
  have hpow : kPointerSize % kPointerSize = 0 := by decide
  have hslop : (if a.alloc_ptr_ % kPointerSize = 0 then 0
      else kPointerSize - a.alloc_ptr_ % kPointerSize) = slopOf a.alloc_ptr_ := rfl
  simp only [allocateAligned, and_align, assertion_of hpow, ok_bind, hslop]
  split_ifs with hfit
  · rw [assertion_of (slopOf_spec _).1, ok_bind, advanced]
  · rw [assertion_of (fallback_aligned new_ a n), ok_bind]

theorem allocateAligned_eq (new_ : Allocator kPointerSize) (a : Arena) (hlt : n < 2 ^ 63) :
    a.allocateAligned new_ n =
      if slopOf a.alloc_ptr_ + n ≤ a.alloc_bytes_remaining_ then
        .ok (a.alloc_ptr_ + slopOf a.alloc_ptr_, a.bumped (slopOf a.alloc_ptr_) n)
      else .ok (a.allocateFallback new_ n) := by
  rw [allocateAligned_eq_mod, needed_eq _ hlt]
  rfl

theorem allocateAligned_spec (new_ : Allocator kPointerSize) (h : Inv given a) (hn : 0 < n)
    (hlt : n < 2 ^ 63) :
    ∃ p a', a.allocateAligned new_ n = .ok (p, a') ∧ p % kPointerSize = 0 ∧
      Allocated given n p a' := by
  rw [allocateAligned_eq new_ a hlt]
  split_ifs with hfit
  · exact ⟨_, _, rfl, (slopOf_spec _).1, h.bumped hn hfit⟩
  · exact ⟨_, _, rfl, fallback_aligned new_ a n, h.fallback new_ hn⟩

/-! ### Runs -/

/-- A request. -/
inductive Request where
  | allocate (n : Nat)
  | allocateAligned (n : Nat)
  deriving DecidableEq, Repr

namespace Request

def bytes : Request → Nat
  | .allocate n | .allocateAligned n => n

def serve (new_ : Allocator kPointerSize) (a : Arena) : Request → Except Fault (Nat × Arena)
  | .allocate n        => a.allocate new_ n
  | .allocateAligned n => a.allocateAligned new_ n

/-- The bytes of the tail the request passes over. -/
def slopIn (a : Arena) : Request → Nat
  | .allocate _        => 0
  | .allocateAligned _ => slopOf a.alloc_ptr_

theorem slopIn_lt (q : Request) (a : Arena) : q.slopIn a < 8 := by
  cases q with
  | allocate n => exact Nat.succ_pos 7
  | allocateAligned n => exact (slopOf_spec a.alloc_ptr_).2

/-- The address is one the request may be served at. -/
def Suits (p : Nat) : Request → Prop
  | .allocate _        => True
  | .allocateAligned _ => p % kPointerSize = 0

/-- A request for any `size_t` of bytes is served from the tail, if the sum of what it needs is at
most what is left, and otherwise from a new block. -/
theorem serve_eq_mod (new_ : Allocator kPointerSize) (a : Arena) {q : Request}
    (hq : 0 < q.bytes ∧ q.bytes < 2 ^ 64) :
    q.serve new_ a =
      if (q.bytes + q.slopIn a) % 2 ^ 64 ≤ a.alloc_bytes_remaining_ then
        .ok (a.alloc_ptr_ + q.slopIn a, a.advanced ((q.bytes + q.slopIn a) % 2 ^ 64))
      else .ok (a.allocateFallback new_ q.bytes) := by
  obtain ⟨hpos, hlt⟩ := hq
  cases q with
  | allocate n =>
      change 0 < n at hpos
      have hmod : (n + 0) % 2 ^ 64 = n := Nat.mod_eq_of_lt hlt
      show a.allocate new_ n = _
      rw [Arena.allocate, assertion_of hpos, ok_bind, bytes, slopIn, hmod]
      rfl
  | allocateAligned n => exact allocateAligned_eq_mod new_ a n

/-- No sum of a request below `2^63` bytes wraps around. -/
theorem serve_eq (new_ : Allocator kPointerSize) (a : Arena) {q : Request}
    (hq : 0 < q.bytes ∧ q.bytes < 2 ^ 63) :
    q.serve new_ a =
      if q.slopIn a + q.bytes ≤ a.alloc_bytes_remaining_ then
        .ok (a.alloc_ptr_ + q.slopIn a, a.bumped (q.slopIn a) q.bytes)
      else .ok (a.allocateFallback new_ q.bytes) := by
  obtain ⟨hpos, hlt⟩ := hq
  have hslop := q.slopIn_lt a
  have hneeded : (q.bytes + q.slopIn a) % 2 ^ 64 = q.slopIn a + q.bytes := by omega
  rw [serve_eq_mod new_ a ⟨hpos, hlt.trans (by decide)⟩, hneeded]
  rfl

end Request

/-- The ranges the requests are served with, in order, and the arena after them. -/
def serveAll (new_ : Allocator kPointerSize) :
    List Request → Arena → Except Fault (List Region × Arena)
  | [], a => .ok ([], a)
  | q :: qs, a => do
      let (p, a) ← q.serve new_ a
      let (rs, a) ← serveAll new_ qs a
      .ok (⟨p, q.bytes⟩ :: rs, a)

/-- A range a request may be served with. -/
def Serves (q : Request) (r : Region) : Prop := r.size = q.bytes ∧ q.Suits r.ptr

theorem serve_spec (new_ : Allocator kPointerSize) (h : Inv given a) {q : Request}
    (hq : 0 < q.bytes ∧ q.bytes < 2 ^ 63) :
    ∃ p a', q.serve new_ a = .ok (p, a') ∧ q.Suits p ∧ Allocated given q.bytes p a' := by
  cases q with
  | allocate n =>
      obtain ⟨p, a', hrun, ha⟩ := allocate_spec new_ h hq.1
      exact ⟨p, a', hrun, trivial, ha⟩
  | allocateAligned n => exact allocateAligned_spec new_ h hq.1 hq.2

theorem serveAll_spec (new_ : Allocator kPointerSize) :
    ∀ (qs : List Request) (given : List Region) (a : Arena), Inv given a →
      (∀ q ∈ qs, 0 < q.bytes ∧ q.bytes < 2 ^ 63) →
      ∃ rs a', serveAll new_ qs a = .ok (rs, a') ∧ List.Forall₂ Serves qs rs ∧
        rs.Pairwise Apart ∧ (∀ r ∈ rs, ∀ g ∈ given, Apart r g) ∧ Inv (rs.reverse ++ given) a' := by
  intro qs
  induction qs with
  | nil => exact fun given a h _ => ⟨[], a, rfl, .nil, .nil, by simp, h⟩
  | cons q qs ih =>
      intro given a h hqs
      obtain ⟨p, a₁, hrun, hsuits, ha⟩ := serve_spec new_ h (hqs q List.mem_cons_self)
      obtain ⟨rs, a', hrun', hserves, hpair, hapart, hinv⟩ :=
        ih (⟨p, q.bytes⟩ :: given) a₁ ha.inv fun q' hq' => hqs q' (List.mem_cons_of_mem q hq')
      refine ⟨⟨p, q.bytes⟩ :: rs, a', by simp only [serveAll, hrun, hrun', ok_bind],
        .cons ⟨rfl, hsuits⟩ hserves, .cons (fun r hr => ?_) hpair, fun r hr g hg => ?_, ?_⟩
      · exact (hapart r hr _ List.mem_cons_self).symm
      · rcases List.mem_cons.mp hr with rfl | hr
        · exact ha.fresh g hg
        · exact hapart r hr g (List.mem_cons_of_mem _ hg)
      · rwa [List.reverse_cons, List.append_assoc, List.singleton_append]

/-- **Arena allocations never overlap.** -/
theorem arena_allocations (new_ : Allocator kPointerSize) (qs : List Request)
    (hqs : ∀ q ∈ qs, 0 < q.bytes ∧ q.bytes < 2 ^ 63) :
    ∃ rs a, serveAll new_ qs new = .ok (rs, a) ∧ List.Forall₂ Serves qs rs ∧
      (∀ r ∈ rs, ∃ b ∈ a.blocks_, Within r b.region) ∧ rs.Pairwise Apart ∧
      (NoCurrent a ∨ ∃ b, Current rs a b) := by
  obtain ⟨rs, a, hrun, hserves, hpair, -, hinv⟩ := serveAll_spec new_ qs [] new inv_new hqs
  have hrs : Inv rs a := hinv.congr (by simp)
  exact ⟨rs, a, hrun, hserves, hrs.inside, hpair, hrs.current⟩

theorem arena_allocations_bump :
    ∃ rs a, serveAll (Flat.bump kPointerSize (by decide))
        [.allocate 3, .allocateAligned 100, .allocate 5000, .allocateAligned 1] new = .ok (rs, a) ∧
      rs.Pairwise Apart := by
  obtain ⟨rs, a, hrun, -, -, hpair, -⟩ := arena_allocations (Flat.bump kPointerSize (by decide))
    [.allocate 3, .allocateAligned 100, .allocate 5000, .allocateAligned 1]
    (by simp [Request.bytes])
  exact ⟨rs, a, hrun, hpair⟩

end Leveldb.Arena
