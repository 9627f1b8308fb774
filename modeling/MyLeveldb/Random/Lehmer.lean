import MyLeveldb.Random.Definitions
import MyLeveldb.Support.Numbers.Mersenne
import Mathlib.Data.Nat.ModEq

/-!
# Random — Lehmer

`Random::next` against the generator it is meant to be, `x ↦ 16807 x mod M` on `[1, M - 1]`.  The
fold of its product is reduction mod `M` (`reduce_product`), but the product is one of `uint32_t`s:
what is folded is `16807 x mod 2^32`.

* The number drawn is right exactly where the product is below `2^32` (`next_eq_iff`).
* It is in `[1, M - 1]` unless the state is 0 or one of the two whose products are `M` and `2 M`
  mod `2^32` (`inRange_next_iff`).
* The numbers that would lead to one of these two are not states: they have 32 bits.  So a run stays
  in `[1, M - 1]` unless it begins in one of the three (`after_not_degenerate`).
-/

namespace Leveldb.Random

/-- The state is in `[1, M - 1]`. -/
def InRange (x : UInt32) : Prop := 1 ≤ x.toNat ∧ x.toNat ≤ M.toNat - 1

instance (x : UInt32) : Decidable (InRange x) :=
  inferInstanceAs (Decidable (1 ≤ x.toNat ∧ x.toNat ≤ M.toNat - 1))

/-- The states after which `next()` leaves 0 or `M`. -/
def Degenerate (x : UInt32) : Prop := x = 0 ∨ x = 868985321 ∨ x = 1737970642

instance (x : UInt32) : Decidable (Degenerate x) :=
  inferInstanceAs (Decidable (x = 0 ∨ x = 868985321 ∨ x = 1737970642))

/-- The generator after `n` calls of `next()`. -/
def after (r : Random) : Nat → Random
  | 0     => r
  | n + 1 => (r.after n).next.2

theorem toNat_M : M.toNat = 2 ^ 31 - 1 := rfl

theorem toNat_A : A.toNat = 16807 := rfl

/-! ### One number -/

/-- `seed_` before the conditional subtraction. -/
theorem toNat_fold (p : UInt32) :
    ((p.toUInt64 >>> 31).toUInt32.toUInt64 + (p.toUInt64 &&& M.toUInt64)).toUInt32.toNat =
      Mersenne.fold 31 p.toNat := by
  have hlt : p.toNat < 2 ^ 32 := p.toNat_lt
  have hhigh : ((p.toUInt64 >>> 31).toUInt32.toUInt64).toNat = p.toNat / 2 ^ 31 := by
    rw [UInt32.toNat_toUInt64, UInt64.toNat_toUInt32, UInt64.toNat_shiftRight,
      UInt32.toNat_toUInt64]
    show p.toNat >>> 31 % 2 ^ 32 = _
    rw [Nat.shiftRight_eq_div_pow]
    omega
  have hlow : (p.toUInt64 &&& M.toUInt64).toNat = p.toNat % 2 ^ 31 := by
    rw [UInt64.toNat_and, UInt32.toNat_toUInt64, UInt32.toNat_toUInt64, toNat_M]
    exact Nat.and_two_pow_sub_one_eq_mod p.toNat 31
  rw [UInt64.toNat_toUInt32, UInt64.toNat_add, hhigh, hlow, Mersenne.fold]
  omega

/-- The number drawn: the product mod `2^32`, folded. -/
theorem toNat_next (r : Random) :
    r.next.1.toNat = Mersenne.reduce 31 (r.seed_.toNat * 16807 % 2 ^ 32) := by
  have hprod : (r.seed_ * A).toNat = r.seed_.toNat * 16807 % 2 ^ 32 := by
    rw [UInt32.toNat_mul, toNat_A]
  have hfold := toNat_fold (r.seed_ * A)
  obtain ⟨seed, hseed⟩ : ∃ seed, (((r.seed_ * A).toUInt64 >>> 31).toUInt32.toUInt64 +
      ((r.seed_ * A).toUInt64 &&& M.toUInt64)).toUInt32 = seed := ⟨_, rfl⟩
  have hnext : r.next.1 = if seed > M then seed - M else seed := by rw [← hseed]; rfl
  rw [hseed, hprod] at hfold
  rw [hnext, Mersenne.reduce, ← hfold]
  by_cases hgt : seed > M
  · have hgtNat : seed.toNat > 2 ^ 31 - 1 := hgt
    rw [if_pos hgt, if_pos hgtNat, UInt32.toNat_sub_of_le _ _ (UInt32.le_of_lt hgt)]
    rfl
  · have hgtNat : ¬ seed.toNat > 2 ^ 31 - 1 := hgt
    rw [if_neg hgt, if_neg hgtNat]

/-- Folded whole, the product would be reduced mod `M`. -/
theorem reduce_product {x : Nat} (hx : 1 ≤ x ∧ x ≤ 2 ^ 31 - 2) :
    Mersenne.reduce 31 (x * 16807) = x * 16807 % (2 ^ 31 - 1) := by
  refine Mersenne.reduce_eq_mod (by omega) (by omega) fun hdvd => ?_
  have hcoprime : Nat.Coprime (2 ^ 31 - 1) 16807 := by decide +kernel
  have hle := Nat.le_of_dvd hx.1 (hcoprime.dvd_of_dvd_mul_right hdvd)
  omega

/-- The number is right where the product does not wrap around. -/
theorem next_eq_iff {x : UInt32} (hx : InRange x) :
    ({ seed_ := x } : Random).next.1.toNat = x.toNat * 16807 % M.toNat ↔
      x.toNat * 16807 < 2 ^ 32 := by
  obtain ⟨hpos, hle⟩ := hx
  rw [toNat_M] at hle ⊢
  rw [toNat_next]
  constructor
  · intro heq
    by_contra hwraps
    have hlost := Mersenne.mod_two_pow_mod_ne (k := 31) (by omega) (Nat.not_lt.mp hwraps) (by omega)
    rw [← Mersenne.reduce_mod 31 (x.toNat * 16807 % 2 ^ 32), heq, Nat.mod_mod] at hlost
    exact hlost rfl
  · intro hlt
    rw [Nat.mod_eq_of_lt hlt]
    exact reduce_product ⟨hpos, hle⟩

theorem next_le (r : Random) : r.next.1.toNat ≤ M.toNat := by
  rw [toNat_next, toNat_M]
  exact Mersenne.reduce_le (lt_trans (Nat.mod_lt _ (Nat.two_pow_pos 32)) (by decide))

/-- 16807 is odd: no two states have one product. -/
theorem product_inj {x y : UInt32} (h : x.toNat * 16807 % 2 ^ 32 = y.toNat * 16807 % 2 ^ 32) :
    x = y := by
  have hmod := Nat.ModEq.cancel_right_of_coprime (by decide +kernel) h
  rw [Nat.ModEq, Nat.mod_eq_of_lt x.toNat_lt, Nat.mod_eq_of_lt y.toNat_lt] at hmod
  exact UInt32.toNat_inj.mp hmod

/-- The degenerate states are those whose product is 0, `M` or `2 M`. -/
theorem degenerate_iff (x : UInt32) :
    Degenerate x ↔ (2 ^ 31 - 1) ∣ x.toNat * 16807 % 2 ^ 32 := by
  constructor
  · rintro (rfl | rfl | rfl) <;> decide
  · rintro ⟨c, hc⟩
    have hbound : (2 ^ 31 - 1) * c < 2 ^ 32 := hc ▸ Nat.mod_lt _ (Nat.two_pow_pos 32)
    have hcases : c = 0 ∨ c = 1 ∨ c = 2 := by
      clear hc
      omega
    rcases hcases with rfl | rfl | rfl
    · exact .inl (product_inj (hc.trans (by decide)))
    · exact .inr (.inl (product_inj (hc.trans (by decide))))
    · exact .inr (.inr (product_inj (hc.trans (by decide))))

/-- The next state is in range again, unless the state is degenerate. -/
theorem inRange_next_iff (x : UInt32) :
    InRange ({ seed_ := x } : Random).next.1 ↔ ¬ Degenerate x := by
  have hle := next_le { seed_ := x }
  have hfits : x.toNat * 16807 % 2 ^ 32 < 2 ^ 31 * (2 ^ 31 - 1) :=
    lt_trans (Nat.mod_lt _ (Nat.two_pow_pos 32)) (by decide)
  rw [InRange, degenerate_iff]
  rw [toNat_M] at hle ⊢
  rw [toNat_next] at hle ⊢
  obtain ⟨p, hp⟩ : ∃ p, x.toNat * 16807 % 2 ^ 32 = p := ⟨_, rfl⟩
  rw [hp] at hle hfits ⊢
  rcases Nat.eq_zero_or_pos p with rfl | hpos
  · exact iff_of_false (fun h => absurd h.1 (by decide)) (not_not.mpr (Nat.dvd_zero _))
  · rw [← Mersenne.reduce_eq_top hpos hfits]
    have hred := Mersenne.reduce_pos (k := 31) hpos
    omega

/-! ### Runs -/

theorem eq_of_mod_eq {p t : Nat} (hp : p < 2 ^ 32) (ht : 2 ≤ t ∧ t < 2 ^ 31 - 1)
    (h : t % (2 ^ 31 - 1) = p % (2 ^ 31 - 1)) : p = t ∨ p = t + (2 ^ 31 - 1) := by
  omega

/-- A number below `M` is drawn from the states whose products are it, or `M` more: where both have
32 bits, from none. -/
theorem next_ne {x t : UInt32} (y₁ y₂ : UInt32) (hx : x.toNat < 2 ^ 31)
    (ht : 2 ≤ t.toNat ∧ t.toNat < 2 ^ 31 - 1) (hy₁ : y₁.toNat * 16807 % 2 ^ 32 = t.toNat)
    (hy₂ : y₂.toNat * 16807 % 2 ^ 32 = t.toNat + (2 ^ 31 - 1))
    (hle : 2 ^ 31 ≤ y₁.toNat ∧ 2 ^ 31 ≤ y₂.toNat) : ({ seed_ := x } : Random).next.1 ≠ t := by
  intro heq
  have hdraw := toNat_next { seed_ := x }
  rw [heq] at hdraw
  have hlt : x.toNat * 16807 % 2 ^ 32 < 2 ^ 32 := Nat.mod_lt _ (Nat.two_pow_pos 32)
  obtain ⟨p, hp⟩ : ∃ p, x.toNat * 16807 % 2 ^ 32 = p := ⟨_, rfl⟩
  rw [hp] at hdraw hlt
  have hmod := Mersenne.reduce_mod 31 p
  rw [← hdraw] at hmod
  rcases eq_of_mod_eq hlt ht hmod with hcase | hcase
  · obtain rfl := product_inj (hp.trans (hcase.trans hy₁.symm))
    exact absurd hx (Nat.not_lt.mpr hle.1)
  · obtain rfl := product_inj (hp.trans (hcase.trans hy₂.symm))
    exact absurd hx (Nat.not_lt.mpr hle.2)

theorem next_not_degenerate {x : UInt32} (hx : x.toNat < 2 ^ 31) (h : ¬ Degenerate x) :
    ¬ Degenerate ({ seed_ := x } : Random).next.1 := by
  have hin := (inRange_next_iff x).2 h
  rintro (hzero | hM | h2M)
  · rw [hzero] at hin
    exact absurd hin (by decide)
  · exact next_ne 3249834479 4118819800 hx (by decide) (by decide) (by decide) (by decide) hM
  · exact next_ne 2204701662 3073686983 hx (by decide) (by decide) (by decide) (by decide) h2M

theorem toNat_mk'_lt (s : UInt32) : (mk' s).seed_.toNat < 2 ^ 31 := by
  show (s &&& 0x7fffffff).toNat < 2 ^ 31
  rw [UInt32.toNat_and]
  exact Nat.and_lt_two_pow _ (by decide)

/-- A state that does not lead out of the range leads to no state that does. -/
theorem after_not_degenerate {r : Random} (hr : r.seed_.toNat < 2 ^ 31)
    (h : ¬ Degenerate r.seed_) :
    ∀ i, (r.after i).seed_.toNat < 2 ^ 31 ∧ ¬ Degenerate (r.after i).seed_ := by
  intro i
  induction i with
  | zero => exact ⟨hr, h⟩
  | succ i ih =>
      have hle := next_le (r.after i)
      rw [toNat_M] at hle
      exact ⟨Nat.lt_of_le_of_lt hle (by decide), next_not_degenerate ih.1 ih.2⟩

/-- **When the generator is the Lehmer generator.**  In a run it is in range from the first number
on exactly where the seed, cut to 31 bits, is none of the three degenerate states. -/
theorem random_lehmer (s : UInt32) (n : Nat) {x : UInt32} (hx : InRange x) :
    ((∀ i < n, InRange ((mk' s).after (i + 1)).seed_) ↔
      (0 < n → ¬ Degenerate (s &&& 0x7fffffff))) ∧
    ((∀ i < n, InRange ((mk' s).after (i + 1)).seed_) ↔
      ∀ i < n, ¬ Degenerate ((mk' s).after i).seed_) ∧
    (({ seed_ := x } : Random).next.1.toNat = x.toNat * 16807 % M.toNat ↔
      x.toNat * 16807 < 2 ^ 32) ∧
    (InRange ({ seed_ := x } : Random).next.1 ↔ ¬ Degenerate x) := by
  have hstep : ∀ i, InRange ((mk' s).after (i + 1)).seed_ ↔
      ¬ Degenerate ((mk' s).after i).seed_ := fun i => inRange_next_iff _
  simp only [hstep, iff_self, true_and]
  refine ⟨⟨fun hrun hpos => hrun 0 hpos, fun h i hi => ?_⟩, next_eq_iff hx, inRange_next_iff x⟩
  exact (after_not_degenerate (toNat_mk'_lt s) (h (Nat.zero_lt_of_lt hi)) i).2

/-- Every number from the seed of `SkipList` is in range, and the one from 1 is right. -/
theorem random_lehmer_deadbeef :
    InRange 1 ∧ (∀ n, ∀ i < n, InRange ((mk' 0xdeadbeef).after (i + 1)).seed_) ∧
      ({ seed_ := 1 } : Random).next.1.toNat = 1 * 16807 % M.toNat := by
  have hx : InRange 1 := by decide
  exact ⟨hx, fun n => (random_lehmer 0xdeadbeef n hx).1.mpr fun _ => by decide,
    (random_lehmer 0xdeadbeef 0 hx).2.2.1.mpr (by decide)⟩

/-- The seeds 0 and 868985321 leave the range at once, and the number after 255547 is wrong. -/
theorem random_lehmer_not :
    ((mk' 0).after 1).seed_ = 0 ∧ ((mk' 868985321).after 1).seed_ = M ∧ InRange 255547 ∧
      ({ seed_ := 255547 } : Random).next.1.toNat ≠ 255547 * 16807 % M.toNat := by
  decide

end Leveldb.Random
