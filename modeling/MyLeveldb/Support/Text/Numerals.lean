import Mathlib.Data.Nat.Digits.Lemmas
import Mathlib.Tactic.Common

/-!
# Support — Text — Numerals

Numbers written in a base, the highest digit first, as they are printed and read.

* `zeros_numeral`: digits are some zeros and the numeral of their value, so `numeral` is the only
  way to write a number without a leading zero.
* `room_iff`: the test by which a reader finds out, before it takes a digit, that the number would
  become too large.
-/

namespace Numerals

variable {b n d v m k : Nat} {ds es : List Nat}

/-- The number that digits go on to, from the `v` that has been read. -/
def extend (b v : Nat) (ds : List Nat) : Nat := ds.foldl (fun v d => v * b + d) v

/-- The number digits stand for. -/
def value (b : Nat) (ds : List Nat) : Nat := extend b 0 ds

/-- The digits of a number; `0` has one. -/
def numeral (b n : Nat) : List Nat := if n = 0 then [0] else (Nat.digits b n).reverse

@[simp] theorem extend_nil : extend b v [] = v := rfl

@[simp] theorem extend_cons : extend b v (d :: ds) = extend b (v * b + d) ds := rfl

theorem extend_eq : extend b v ds = v * b ^ ds.length + value b ds := by
  induction ds generalizing v with
  | nil => simp [value]
  | cons d ds ih =>
      have hzero := ih (v := 0 * b + d)
      have hv := ih (v := v * b + d)
      rw [value, extend_cons, extend_cons, hv, hzero, List.length_cons, pow_succ]
      ring

@[simp] theorem value_singleton : value b [d] = d := by
  simp [value]

/-- More digits make no smaller number. -/
theorem le_extend (hb : 0 < b) : v ≤ extend b v ds := by
  have hpos := Nat.pow_pos (n := ds.length) hb
  rw [extend_eq]
  exact (Nat.le_mul_of_pos_right v hpos).trans (Nat.le_add_right _ _)

theorem value_eq_ofDigits : value b ds = Nat.ofDigits b ds.reverse := by
  induction ds with
  | nil => rfl
  | cons d ds ih =>
      rw [List.reverse_cons, Nat.ofDigits_append, ← ih, List.length_reverse, Nat.ofDigits_singleton,
        value, extend_cons, extend_eq, Nat.zero_mul, Nat.zero_add]
      ring

theorem value_replicate_zero : value b (List.replicate k 0 ++ ds) = value b ds := by
  induction k with
  | zero => rfl
  | succ k ih => simpa [value, List.replicate_succ] using ih

/-! ### Printing -/

theorem value_numeral : value b (numeral b n) = n := by
  unfold numeral
  split_ifs with hn
  · rw [hn, value_singleton]
  · rw [value_eq_ofDigits, List.reverse_reverse, Nat.ofDigits_digits]

theorem numeral_lt (hb : 1 < b) (hd : d ∈ numeral b n) : d < b := by
  unfold numeral at hd
  split_ifs at hd with hn
  · rw [List.mem_singleton.1 hd]
    omega
  · exact Nat.digits_lt_base hb (List.mem_reverse.1 hd)

theorem numeral_ne_nil : numeral b n ≠ [] := by
  unfold numeral
  split_ifs with hn
  · exact List.cons_ne_nil 0 []
  · simpa [Nat.digits_ne_nil_iff_ne_zero] using hn

theorem numeral_inj (h : numeral b n = numeral b m) : n = m := by
  rw [← value_numeral (b := b) (n := n), h, value_numeral]

theorem length_numeral_le (hb : 1 < b) (hk : 0 < k) (hn : n < b ^ k) :
    (numeral b n).length ≤ k := by
  unfold numeral
  split_ifs with h
  · exact hk
  · rw [List.length_reverse, Nat.digits_length_le_iff hb]
    exact hn

/-- The recursion of a program that prints: the last digit is put after the others. -/
theorem numeral_eq (hb : 1 < b) :
    numeral b n = if n < b then [n] else numeral b (n / b) ++ [n % b] := by
  rcases Nat.eq_zero_or_pos n with rfl | hn
  · rw [if_pos (by omega)]
    rfl
  · have hdiv : n / b = 0 ↔ n < b := by
      rw [Nat.div_eq_zero_iff]
      omega
    rw [numeral, if_neg hn.ne', Nat.digits_def' hb hn, List.reverse_cons]
    split_ifs with hlt
    · rw [hdiv.2 hlt, Nat.mod_eq_of_lt hlt]
      simp
    · rw [numeral, if_neg (mt hdiv.1 hlt)]

/-! ### Reading -/

theorem numeral_value (hb : 1 < b) (hds : ∀ d ∈ ds, d < b) (hne : ds ≠ [])
    (hhead : ds.head hne ≠ 0) : numeral b (value b ds) = ds := by
  have hrev : ds.reverse ≠ [] := by simpa using hne
  have hdigits : Nat.digits b (value b ds) = ds.reverse := by
    rw [value_eq_ofDigits]
    refine Nat.digits_ofDigits b hb _ (fun d hd => hds d (List.mem_reverse.1 hd)) fun h => ?_
    rwa [List.getLast_reverse]
  have hv : value b ds ≠ 0 := by
    intro hv
    rw [hv, Nat.digits_zero] at hdigits
    exact hrev hdigits.symm
  rw [numeral, if_neg hv, hdigits, List.reverse_reverse]

/-- Digits are some zeros, and the numeral of their value. -/
theorem zeros_numeral (hb : 1 < b) (hds : ∀ d ∈ ds, d < b) (hne : ds ≠ []) :
    ∃ k, ds = List.replicate k 0 ++ numeral b (value b ds) := by
  induction ds with
  | nil => exact absurd rfl hne
  | cons d ds ih =>
      by_cases hd : d = 0
      · subst hd
        by_cases hnil : ds = []
        · subst hnil
          exact ⟨0, by rw [value_singleton]; rfl⟩
        · obtain ⟨k, hk⟩ := ih (fun d h => hds d (List.mem_cons_of_mem 0 h)) hnil
          refine ⟨k + 1, ?_⟩
          have hv : value b (0 :: ds) = value b ds := value_replicate_zero (k := 1)
          rw [hv, List.replicate_succ, List.cons_append, ← hk]
      · exact ⟨0, (numeral_value hb hds hne hd).symm⟩

/-- A digit can be taken, without going beyond `m`, unless the test says that there is no room. -/
theorem room_iff (hb : 0 < b) (hd : d < b) :
    ¬ (m / b < v ∨ v = m / b ∧ m % b < d) ↔ v * b + d ≤ m := by
  have hm := Nat.div_add_mod m b
  have hlt := Nat.mod_lt m hb
  rw [Nat.mul_comm] at hm
  constructor
  · intro h
    rcases Nat.lt_trichotomy v (m / b) with hv | hv | hv
    · have hmul : (v + 1) * b ≤ m / b * b := Nat.mul_le_mul_right b hv
      rw [Nat.add_mul] at hmul
      omega
    · subst hv
      have hle : ¬ m % b < d := fun hlt => h (.inr ⟨rfl, hlt⟩)
      omega
    · exact absurd (.inl hv) h
  · rintro h (hv | ⟨rfl, hlt'⟩)
    · have hmul : (m / b + 1) * b ≤ v * b := Nat.mul_le_mul_right b hv
      rw [Nat.add_mul] at hmul
      omega
    · omega

/-- The longest start of the digits whose value is at most `m`, read on from `v`. -/
def fitting (b m : Nat) : Nat → List Nat → Nat
  | _, []      => 0
  | v, d :: ds => if v * b + d ≤ m then fitting b m (v * b + d) ds + 1 else 0

theorem extend_take_le_iff (hb : 0 < b) (hv : v ≤ m) :
    k ≤ fitting b m v ds ↔ k ≤ ds.length ∧ extend b v (ds.take k) ≤ m := by
  induction ds generalizing v k with
  | nil => simp [fitting, hv]
  | cons d ds ih =>
      cases k with
      | zero => simp [hv]
      | succ k =>
          rw [List.take_succ_cons, extend_cons, fitting, List.length_cons]
          split_ifs with hd
          · rw [Nat.add_le_add_iff_right, ih hd, Nat.add_le_add_iff_right]
          · refine iff_of_false (Nat.not_succ_le_zero k) fun h => hd ?_
            exact (le_extend hb).trans h.2

end Numerals
