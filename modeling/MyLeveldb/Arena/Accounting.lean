import MyLeveldb.Arena.Allocation

/-!
# Arena — Accounting

How much memory an arena holds for what has been asked of it.  `Accounts S A a`: requests for `S`
bytes in all have been served, `A` of them aligned.  The blocks hold those bytes, what is left of
the current block, at most 7 bytes of slop for each aligned request, and what was left of the
standard blocks that have been retired.  A block is retired only where a request of at most a
quarter of its size, and its slop, does not fit what is left of it: 1030 bytes at most.

`arena_accounting`: so it is after every request.
-/

namespace Leveldb.Arena

open Flat (Region Allocator)

variable {new_ : Allocator kPointerSize} {a a' : Arena} {n p slop S A : Nat}

/-- The size of all blocks. -/
def blockBytes (a : Arena) : Nat := (a.blocks_.map fun b => b.region.size).sum

/-- The blocks made for small requests. -/
def standardBlocks (a : Arena) : Nat := a.blocks_.countP Block.standard

/-- The standard blocks that are no longer current. -/
def retired (a : Arena) : Nat := a.standardBlocks - 1

/-- `S` bytes have been handed out, in `A` aligned requests among others. -/
structure Accounts (S A : Nat) (a : Arena) : Prop where
  memory : a.blocks_memory_ = a.blockBytes % 2 ^ 64
  none_left : a.standardBlocks = 0 → a.alloc_bytes_remaining_ = 0
  lower : S + a.alloc_bytes_remaining_ ≤ a.blockBytes
  upper : a.blockBytes ≤ S + 7 * A + 1030 * a.retired + a.alloc_bytes_remaining_

theorem accounts_new : Accounts 0 0 new := ⟨rfl, fun _ => rfl, Nat.le_refl _, Nat.le_refl _⟩

/-! ### One request -/

theorem blockBytes_allocateNewBlock (new_ : Allocator kPointerSize) (a : Arena) (n : Nat)
    (standard : Bool) :
    (a.allocateNewBlock new_ n standard).2.blockBytes = a.blockBytes + n := by
  simp [allocateNewBlock, blockBytes]

theorem standardBlocks_allocateNewBlock (new_ : Allocator kPointerSize) (a : Arena) (n : Nat)
    (standard : Bool) : (a.allocateNewBlock new_ n standard).2.standardBlocks =
      a.standardBlocks + if standard then 1 else 0 := by
  simp [allocateNewBlock, standardBlocks, List.countP_append, List.countP_cons]

theorem memory_allocateNewBlock (new_ : Allocator kPointerSize)
    (h : a.blocks_memory_ = a.blockBytes % 2 ^ 64) (n : Nat) (standard : Bool) :
    (a.allocateNewBlock new_ n standard).2.blocks_memory_ =
      (a.allocateNewBlock new_ n standard).2.blockBytes % 2 ^ 64 := by
  rw [blockBytes_allocateNewBlock]
  show (a.blocks_memory_ + n) % 2 ^ 64 = _
  rw [h, Nat.mod_add_mod]

/-- The bytes of the tail that are not handed out are slop. -/
theorem Accounts.bumped (h : Accounts S A a) {k : Nat} (hslop : slop ≤ 7 * k)
    (hfit : slop + n ≤ a.alloc_bytes_remaining_) :
    Accounts (S + n) (A + k) (a.bumped slop n) := by
  have hlower := h.lower
  have hupper := h.upper
  refine ⟨h.memory, fun hnone => ?_, ?_, ?_⟩
  · have hleft : a.alloc_bytes_remaining_ = 0 := h.none_left hnone
    show a.alloc_bytes_remaining_ - (slop + n) = 0
    omega
  · show S + n + (a.alloc_bytes_remaining_ - (slop + n)) ≤ a.blockBytes
    omega
  · show a.blockBytes ≤
      S + n + 7 * (A + k) + 1030 * a.retired + (a.alloc_bytes_remaining_ - (slop + n))
    omega

/-- A large request gets a block of its size, and the current block stays. -/
theorem Accounts.block (h : Accounts S A a) (new_ : Allocator kPointerSize) (n : Nat) :
    Accounts (S + n) A (a.allocateNewBlock new_ n false).2 := by
  have hlower := h.lower
  have hupper := h.upper
  have hcount := standardBlocks_allocateNewBlock new_ a n false
  have hretired : (a.allocateNewBlock new_ n false).2.retired = a.retired := by
    rw [retired, hcount]
    rfl
  refine ⟨memory_allocateNewBlock new_ h.memory n false, fun hnone => h.none_left ?_, ?_, ?_⟩
  · rwa [hcount] at hnone
  · rw [blockBytes_allocateNewBlock]
    show S + n + a.alloc_bytes_remaining_ ≤ a.blockBytes + n
    omega
  · rw [blockBytes_allocateNewBlock, hretired]
    show a.blockBytes + n ≤ S + n + 7 * A + 1030 * a.retired + a.alloc_bytes_remaining_
    omega

/-- A small request that does not fit retires the current block, if there is one. -/
theorem Accounts.fallback (h : Accounts S A a) (new_ : Allocator kPointerSize)
    (hleft : n ≤ kMaxBlockSize / 4 → a.alloc_bytes_remaining_ ≤ 1030) :
    Accounts (S + n) A (a.allocateFallback new_ n).2 := by
  rw [allocateFallback]
  split_ifs with hbig
  · exact h.block new_ n
  · have hsmall : n ≤ 1024 := Nat.not_lt.mp hbig
    have hlower := h.lower
    have hupper := h.upper
    have hnone := h.none_left
    have hleft := hleft hsmall
    have hmemory := memory_allocateNewBlock new_ h.memory kMaxBlockSize true
    have hbytes := blockBytes_allocateNewBlock new_ a kMaxBlockSize true
    have hcount := standardBlocks_allocateNewBlock new_ a kMaxBlockSize true
    have hsize : kMaxBlockSize = 4096 := rfl
    have hretired : a.retired = a.standardBlocks - 1 := rfl
    rw [if_pos rfl] at hcount
    refine ⟨hmemory, fun hzero => ?_, ?_, ?_⟩
    · have hzero' : (a.allocateNewBlock new_ kMaxBlockSize true).2.standardBlocks = 0 := hzero
      omega
    · show S + n + (kMaxBlockSize - n) ≤ (a.allocateNewBlock new_ kMaxBlockSize true).2.blockBytes
      omega
    · show (a.allocateNewBlock new_ kMaxBlockSize true).2.blockBytes ≤ S + n + 7 * A +
        1030 * ((a.allocateNewBlock new_ kMaxBlockSize true).2.standardBlocks - 1) +
          (kMaxBlockSize - n)
      -- with no block to retire there was nothing left of one
      rcases Nat.eq_zero_or_pos a.standardBlocks with h₀ | hpos
      · have := hnone h₀
        omega
      · omega

theorem Accounts.mono (h : Accounts S A a) (k : Nat) : Accounts S (A + k) a := by
  have hupper := h.upper
  exact ⟨h.memory, h.none_left, h.lower, by omega⟩

namespace Request

/-- 1 for an aligned request. -/
def aligned : Request → Nat
  | .allocate _        => 0
  | .allocateAligned _ => 1

theorem slopIn_le (q : Request) (a : Arena) : q.slopIn a ≤ 7 * q.aligned := by
  cases q with
  | allocate n => exact Nat.le_refl 0
  | allocateAligned n => exact Nat.le_of_lt_succ (slopOf_spec a.alloc_ptr_).2

end Request

theorem Accounts.serve (h : Accounts S A a) (new_ : Allocator kPointerSize) {q : Request}
    (hq : 0 < q.bytes ∧ q.bytes < 2 ^ 63) :
    ∃ p a', q.serve new_ a = .ok (p, a') ∧ Accounts (S + q.bytes) (A + q.aligned) a' := by
  rw [q.serve_eq new_ a hq]
  split_ifs with hfit
  · exact ⟨_, _, rfl, h.bumped (q.slopIn_le a) hfit⟩
  · -- what is left is less than a quarter of a block and the slop
    have hslop := q.slopIn_lt a
    have hleft : q.bytes ≤ kMaxBlockSize / 4 → a.alloc_bytes_remaining_ ≤ 1030 := fun hsmall => by
      have hsmall' : q.bytes ≤ 1024 := hsmall
      omega
    exact ⟨_, _, rfl, (h.fallback new_ hleft).mono q.aligned⟩

/-! ### Runs -/

/-- The bytes asked for. -/
def requested (qs : List Request) : Nat := (qs.map Request.bytes).sum

/-- The aligned requests. -/
def alignedRequests (qs : List Request) : Nat := (qs.map Request.aligned).sum

theorem Accounts.serveAll (new_ : Allocator kPointerSize) :
    ∀ (qs : List Request) {S A : Nat} {a : Arena}, Accounts S A a →
      (∀ q ∈ qs, 0 < q.bytes ∧ q.bytes < 2 ^ 63) →
      ∃ rs a', Arena.serveAll new_ qs a = .ok (rs, a') ∧
        Accounts (S + requested qs) (A + alignedRequests qs) a' := by
  intro qs
  induction qs with
  | nil => exact fun h _ => ⟨[], _, rfl, h⟩
  | cons q qs ih =>
      intro S A a h hqs
      obtain ⟨p, a₁, hserve, h₁⟩ := h.serve new_ (hqs q List.mem_cons_self)
      obtain ⟨rs, a', hrun, h'⟩ := ih h₁ fun q' hq' => hqs q' (List.mem_cons_of_mem q hq')
      refine ⟨⟨p, q.bytes⟩ :: rs, a', by simp only [Arena.serveAll, hserve, hrun, ok_bind], ?_⟩
      rwa [Nat.add_assoc, Nat.add_assoc] at h'

/-- The total is kept in `blocks_memory_` while it fits. -/
theorem Accounts.memory_eq (h : Accounts S A a) (hfits : a.blockBytes < 2 ^ 64) :
    a.blocks_memory_ = a.blockBytes := by
  rw [h.memory, Nat.mod_eq_of_lt hfits]

/-- Blocks are only ever added. -/
def Grows (a a' : Arena) : Prop := ∃ bs, a'.blocks_ = a.blocks_ ++ bs

theorem Grows.refl (a : Arena) : Grows a a := ⟨[], (List.append_nil _).symm⟩

theorem Grows.trans {a'' : Arena} (h₁ : Grows a a') (h₂ : Grows a' a'') : Grows a a'' := by
  obtain ⟨bs, h₁⟩ := h₁
  obtain ⟨cs, h₂⟩ := h₂
  exact ⟨bs ++ cs, by rw [h₂, h₁, List.append_assoc]⟩

theorem grows_fallback (new_ : Allocator kPointerSize) (a : Arena) (n : Nat) :
    Grows a (a.allocateFallback new_ n).2 := by
  rw [allocateFallback]
  split_ifs
  · exact ⟨_, rfl⟩
  · exact ⟨_, rfl⟩

theorem grows_serve {q : Request} (hq : 0 < q.bytes ∧ q.bytes < 2 ^ 63)
    (h : q.serve new_ a = .ok (p, a')) : Grows a a' := by
  rw [q.serve_eq new_ a hq] at h
  split_ifs at h
  · cases h
    exact .refl a
  · obtain rfl : (a.allocateFallback new_ q.bytes).2 = a' := congrArg Prod.snd (Except.ok.inj h)
    exact grows_fallback new_ a q.bytes

theorem grows_serveAll {qs : List Request} {rs : List Region}
    (hqs : ∀ q ∈ qs, 0 < q.bytes ∧ q.bytes < 2 ^ 63) (h : serveAll new_ qs a = .ok (rs, a')) :
    Grows a a' := by
  induction qs generalizing a rs with
  | nil =>
      cases h
      exact .refl _
  | cons q qs ih =>
      obtain ⟨⟨p, a₁⟩, hserve, hrest⟩ := bind_eq_ok.mp h
      obtain ⟨⟨rs', a₂⟩, hrun, hret⟩ := bind_eq_ok.mp hrest
      cases hret
      exact (grows_serve (hqs q List.mem_cons_self) hserve).trans
        (ih (fun q' hq' => hqs q' (List.mem_cons_of_mem q hq')) hrun)

theorem Grows.blockBytes_le (h : Grows a a') : a.blockBytes ≤ a'.blockBytes := by
  obtain ⟨bs, h⟩ := h
  simp only [blockBytes, h, List.map_append, List.sum_append]
  exact Nat.le_add_right _ _

theorem Grows.length_le (h : Grows a a') : a.blocks_.length ≤ a'.blocks_.length := by
  obtain ⟨bs, h⟩ := h
  rw [h, List.length_append]
  exact Nat.le_add_right _ _

/-- What `memoryUsage()` adds up. -/
def usage (vector : Growth) (a : Arena) : Nat :=
  a.blockBytes + vector.capacity a.blocks_.length * kPointerSize

theorem Accounts.memoryUsage_eq (h : Accounts S A a) (vector : Growth)
    (hfits : a.usage vector < 2 ^ 64) : a.memoryUsage vector = a.usage vector := by
  rw [memoryUsage, h.memory, Nat.mod_add_mod]
  exact Nat.mod_eq_of_lt hfits

theorem Grows.usage_le (h : Grows a a') (vector : Growth) : a.usage vector ≤ a'.usage vector :=
  Nat.add_le_add h.blockBytes_le
    (Nat.mul_le_mul_right _ (vector.mono _ _ h.length_le))

/-- **An arena's accounts**, after any requests, and after some more. -/
theorem arena_accounting (new_ : Allocator kPointerSize) (vector : Growth)
    (qs more : List Request) (hqs : ∀ q ∈ qs ++ more, 0 < q.bytes ∧ q.bytes < 2 ^ 31) :
    ∃ rs a rs' a', serveAll new_ qs new = .ok (rs, a) ∧ serveAll new_ more a = .ok (rs', a') ∧
      (a.blockBytes < 2 ^ 64 → a.blocks_memory_ = a.blockBytes ∧
        requested qs + a.alloc_bytes_remaining_ ≤ a.blocks_memory_ ∧
        a.blocks_memory_ ≤ requested qs + 7 * alignedRequests qs + 1030 * a.retired +
          a.alloc_bytes_remaining_) ∧
      (a'.usage vector < 2 ^ 64 → requested qs ≤ a.memoryUsage vector ∧
        a.memoryUsage vector ≤ a'.memoryUsage vector) := by
  have hlt : ∀ q ∈ qs ++ more, 0 < q.bytes ∧ q.bytes < 2 ^ 63 := fun q hq =>
    ⟨(hqs q hq).1, (hqs q hq).2.trans (by decide)⟩
  obtain ⟨rs, a, hrun, ha⟩ := accounts_new.serveAll new_ qs fun q hq =>
    hlt q (List.mem_append_left more hq)
  have hmore : ∀ q ∈ more, 0 < q.bytes ∧ q.bytes < 2 ^ 63 := fun q hq =>
    hlt q (List.mem_append_right qs hq)
  obtain ⟨rs', a', hrun', ha'⟩ := ha.serveAll new_ more hmore
  rw [Nat.zero_add, Nat.zero_add] at ha
  have hgrows := grows_serveAll hmore hrun'
  refine ⟨rs, a, rs', a', hrun, hrun', fun hfits => ?_, fun hfits => ?_⟩
  · rw [ha.memory_eq hfits]
    exact ⟨rfl, ha.lower, ha.upper⟩
  · have husage := hgrows.usage_le vector
    rw [ha.memoryUsage_eq vector (husage.trans_lt hfits), ha'.memoryUsage_eq vector hfits]
    have hlower := ha.lower
    refine ⟨?_, husage⟩
    calc requested qs ≤ a.blockBytes := (Nat.le_add_right _ _).trans hlower
      _ ≤ a.usage vector := Nat.le_add_right _ _

/-- A vector that has room for its elements and no more. -/
def tight : Growth := ⟨id, fun _ => Nat.le_refl _, fun _ _ h => h⟩

theorem arena_accounting_bump :
    ∃ rs a rs' a',
      serveAll (Flat.bump kPointerSize (by decide)) [.allocate 3, .allocateAligned 100] new =
        .ok (rs, a) ∧
      serveAll (Flat.bump kPointerSize (by decide)) [.allocate 5000] a = .ok (rs', a') ∧
      a.blocks_memory_ = a.blockBytes ∧ 103 + a.alloc_bytes_remaining_ ≤ a.blocks_memory_ ∧
      103 ≤ a.memoryUsage tight ∧ a.memoryUsage tight ≤ a'.memoryUsage tight := by
  obtain ⟨rs, a, rs', a', hrun, hrun', haccounts, husage⟩ := arena_accounting
    (Flat.bump kPointerSize (by decide)) tight [.allocate 3, .allocateAligned 100]
    [.allocate 5000] (by simp [Request.bytes])
  -- one standard block, and one for the large request
  have hblock : (serveAll (Flat.bump kPointerSize (by decide)) [.allocate 3, .allocateAligned 100]
      new).toOption.map (fun ra => ra.2.blockBytes) = some 4096 := by decide +kernel
  have hblocks : ((serveAll (Flat.bump kPointerSize (by decide))
      [.allocate 3, .allocateAligned 100] new).toOption.bind fun ra =>
        (serveAll (Flat.bump kPointerSize (by decide)) [.allocate 5000] ra.2).toOption.map
          fun ra' => ra'.2.usage tight) = some 9112 := by decide +kernel
  rw [hrun] at hblock hblocks
  simp only [Except.toOption, Option.bind_some, hrun', Option.map_some, Option.some.injEq]
    at hblock hblocks
  obtain ⟨hmemory, hlower, -⟩ := haccounts (by omega)
  exact ⟨rs, a, rs', a', hrun, hrun', hmemory, hlower, husage (by omega)⟩

end Leveldb.Arena
