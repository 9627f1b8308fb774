import MyLeveldb.Arena.Allocation

/-!
# Arena — FitCheck

The check of `allocateAligned` that a request fits what is left of the current block.  Its sum is
one of `size_t`s, so that a request near `2^64` bytes, past some slop, comes out as a few bytes.

An arena stays well formed even so, since the tail is advanced by the sum that was checked
(`Tailed`); but the range that is returned reaches past it.  `fit_check`: the check is right about
all requests but those whose sum wraps around to what fits.
-/

namespace Leveldb.Arena

open Flat (Region Allocator)
open Flat.Region (Within)

variable {new_ : Allocator kPointerSize} {a a' : Arena} {b : Block} {m n p : Nat}

/-- `b` is the current block, and the tail is in it. -/
structure TailIn (a : Arena) (b : Block) : Prop where
  latest : ∃ pre post, a.blocks_ = pre ++ b :: post ∧ ∀ c ∈ post, c.standard = false
  standard : b.standard = true
  size : b.region.size = kMaxBlockSize
  within : Within a.tail b.region

/-- There is no current block, or the tail is in it. -/
def Tailed (a : Arena) : Prop := NoCurrent a ∨ ∃ b, TailIn a b

theorem tailed_new : Tailed new := .inl ⟨rfl, rfl, nofun⟩

/-! ### Reachable arenas -/

theorem Tailed.advanced (h : Tailed a) (hm : m ≤ a.alloc_bytes_remaining_) :
    Tailed (a.advanced m) := by
  rcases h with hno | ⟨b, hb⟩
  · obtain rfl : m = 0 := Nat.le_zero.mp (hno.remaining ▸ hm)
    exact .inl ⟨hno.ptr, hno.remaining, hno.none_standard⟩
  · have htail : Within (a.advanced m).tail a.tail := by
      unfold Within Region.stop tail Arena.advanced
      simp only
      omega
    exact .inr ⟨b, hb.latest, hb.standard, hb.size, htail.trans hb.within⟩

theorem Tailed.fallback (h : Tailed a) (new_ : Allocator kPointerSize) (n : Nat) :
    Tailed (a.allocateFallback new_ n).2 := by
  unfold allocateFallback
  split_ifs with hbig
  · obtain ⟨q, hq⟩ : ∃ q, new_.alloc (a.blocks_.map Block.region) n = q := ⟨_, rfl⟩
    simp only [allocateNewBlock, hq]
    refine h.imp (fun hno => ⟨hno.ptr, hno.remaining, fun c hc => ?_⟩) ?_
    · rcases List.mem_append.mp hc with hc | hc
      · exact hno.none_standard c hc
      · rw [List.mem_singleton.mp hc]
    · rintro ⟨b, hb⟩
      obtain ⟨pre, post, hblocks, hpost⟩ := hb.latest
      refine ⟨b, ⟨pre, post ++ [⟨⟨q, n⟩, false⟩], ?_, fun c hc => ?_⟩, hb.standard, hb.size,
        hb.within⟩
      · simp only [hblocks, List.append_assoc, List.cons_append]
      · rcases List.mem_append.mp hc with hc | hc
        · exact hpost c hc
        · rw [List.mem_singleton.mp hc]
  · have hle : n ≤ kMaxBlockSize := (Nat.not_lt.mp hbig).trans (by decide)
    obtain ⟨q, hq⟩ : ∃ q, new_.alloc (a.blocks_.map Block.region) kMaxBlockSize = q := ⟨_, rfl⟩
    simp only [allocateNewBlock, hq]
    refine .inr ⟨⟨⟨q, kMaxBlockSize⟩, true⟩,
      ⟨a.blocks_, [], rfl, fun c hc => absurd hc List.not_mem_nil⟩, rfl, rfl, ?_⟩
    unfold Within Region.stop tail
    simp only
    omega

/-- A request for some bytes, as a `size_t`. -/
def Request.IsSize (q : Request) : Prop := 0 < q.bytes ∧ q.bytes < 2 ^ 64

theorem Tailed.serve (h : Tailed a) {q : Request} (hq : q.IsSize)
    (hrun : q.serve new_ a = .ok (p, a')) : Tailed a' := by
  rw [q.serve_eq_mod new_ a hq] at hrun
  split_ifs at hrun with hfit
  · cases hrun
    exact h.advanced hfit
  · obtain rfl : (a.allocateFallback new_ q.bytes).2 = a' := congrArg Prod.snd (Except.ok.inj hrun)
    exact h.fallback new_ q.bytes

/-- An arena that requests of any size have left. -/
def Reached (new_ : Allocator kPointerSize) (a : Arena) : Prop :=
  ∃ qs rs, (∀ q ∈ qs, Request.IsSize q) ∧ serveAll new_ qs new = .ok (rs, a)

theorem Tailed.serveAll {qs : List Request} {rs : List Region} (h : Tailed a)
    (hqs : ∀ q ∈ qs, Request.IsSize q) (hrun : Arena.serveAll new_ qs a = .ok (rs, a')) :
    Tailed a' := by
  induction qs generalizing a rs with
  | nil =>
      cases hrun
      exact h
  | cons q qs ih =>
      obtain ⟨⟨p, a₁⟩, hserve, hrest⟩ := bind_eq_ok.mp hrun
      obtain ⟨⟨rs', a₂⟩, hrun', hret⟩ := bind_eq_ok.mp hrest
      cases hret
      exact ih (h.serve (hqs q List.mem_cons_self) hserve)
        (fun q' hq' => hqs q' (List.mem_cons_of_mem q hq')) hrun'

theorem Reached.tailed (h : Reached new_ a) : Tailed a := by
  obtain ⟨qs, rs, hqs, hrun⟩ := h
  exact tailed_new.serveAll hqs hrun

/-! ### The check -/

/-- The request fits what is left, and is served from there. -/
structure Served (a : Arena) (n p : Nat) (a' : Arena) : Prop where
  fits : slopOf a.alloc_ptr_ + n ≤ a.alloc_bytes_remaining_
  current : ∃ b, TailIn a b
  inside : Within ⟨p, n⟩ a.tail
  shrinks : a'.alloc_bytes_remaining_ + n ≤ a.alloc_bytes_remaining_

/-- Where the check succeeds, `allocateAligned` serves the request from what is left. -/
def Checked (new_ : Allocator kPointerSize) (a : Arena) (n : Nat) : Prop :=
  (n + slopOf a.alloc_ptr_) % 2 ^ 64 ≤ a.alloc_bytes_remaining_ →
    ∃ p a', a.allocateAligned new_ n = .ok (p, a') ∧ Served a n p a'

/-- The sum passes `2^64`, and what it comes to fits. -/
def WrapsToFit (a : Arena) (n : Nat) : Prop :=
  2 ^ 64 ≤ n + slopOf a.alloc_ptr_ ∧ n + slopOf a.alloc_ptr_ - 2 ^ 64 ≤ a.alloc_bytes_remaining_

/-- There is never more left than a block. -/
theorem Tailed.remaining_le (h : Tailed a) : a.alloc_bytes_remaining_ ≤ kMaxBlockSize := by
  rcases h with hno | ⟨b, hb⟩
  · rw [hno.remaining]
    exact Nat.zero_le _
  · have hwithin := hb.within
    have hsize := hb.size
    unfold Within Region.stop tail at hwithin
    simp only at hwithin
    omega

/-- **When the fit check is right.** -/
theorem fit_check (new_ : Allocator kPointerSize) (h : Reached new_ a) (hn : 0 < n)
    (hlt : n < 2 ^ 64) : Checked new_ a n ↔ ¬ WrapsToFit a n := by
  have hslop : slopOf a.alloc_ptr_ < 8 := (slopOf_spec a.alloc_ptr_).2
  have hleft : a.alloc_bytes_remaining_ ≤ 4096 := h.tailed.remaining_le
  constructor
  · rintro hchecked ⟨hwraps, hfits⟩
    have hmod : (n + slopOf a.alloc_ptr_) % 2 ^ 64 = n + slopOf a.alloc_ptr_ - 2 ^ 64 := by omega
    obtain ⟨p, a', -, hserved⟩ := hchecked (hmod ▸ hfits)
    have := hserved.fits
    omega
  · intro hnot hfits
    have hsum : n + slopOf a.alloc_ptr_ < 2 ^ 64 := by
      by_contra hwraps
      exact hnot ⟨Nat.not_lt.mp hwraps, by omega⟩
    rw [Nat.mod_eq_of_lt hsum] at hfits
    refine ⟨a.alloc_ptr_ + slopOf a.alloc_ptr_, a.advanced (n + slopOf a.alloc_ptr_), ?_, ?_⟩
    · rw [allocateAligned_eq_mod, Nat.mod_eq_of_lt hsum, if_pos hfits]
    · refine ⟨by omega, ?_, ?_, ?_⟩
      · rcases h.tailed with hno | hcurrent
        · have hnone := hno.remaining
          omega
        · exact hcurrent
      · unfold Within Region.stop tail
        simp only
        omega
      · show a.alloc_bytes_remaining_ - (n + slopOf a.alloc_ptr_) + n ≤ a.alloc_bytes_remaining_
        omega

/-- One byte has been taken from a block. -/
def oneTaken : Arena :=
  { alloc_ptr_ := 9, alloc_bytes_remaining_ := 4095, blocks_ := [⟨⟨8, 4096⟩, true⟩]
    blocks_memory_ := 4096 }

theorem reached_oneTaken : Reached (Flat.bump kPointerSize (by decide)) oneTaken := by
  refine ⟨[.allocate 1], [⟨8, 1⟩], fun q hq => ?_, by decide⟩
  obtain rfl := List.mem_singleton.mp hq
  exact ⟨Nat.one_pos, by decide⟩

theorem fit_check_oneTaken : Checked (Flat.bump kPointerSize (by decide)) oneTaken 100 :=
  (fit_check _ reached_oneTaken (by decide) (by decide)).mpr fun h => absurd h.1 (by decide)

/-- `2 ^ 64 - 1` bytes and 7 of slop come to 6. -/
theorem fit_check_not :
    ∃ a, Reached (Flat.bump kPointerSize (by decide)) a ∧
      ¬ Checked (Flat.bump kPointerSize (by decide)) a (2 ^ 64 - 1) := by
  refine ⟨oneTaken, reached_oneTaken, fun hchecked => ?_⟩
  obtain ⟨p, a', -, hserved⟩ := hchecked (by decide)
  exact absurd hserved.fits (by decide)

end Leveldb.Arena
