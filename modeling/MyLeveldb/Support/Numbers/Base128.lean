import Mathlib.Algebra.BigOperators.Ring.Finset
import Mathlib.Algebra.Order.Ring.Int
import Mathlib.Data.List.Basic
import Mathlib.Tactic.Common

/-!
# Support — Numbers — Base128

Numbers in base 128, the lowest digit first, one digit a byte; every byte but the last has its
highest bit set.  A code ends where its bytes say it does, so that codes may be concatenated:
`takeCode N` reads the first byte string of at most `N` bytes that is shaped like a code, and
`takeCode_encode` says that it reads back what `encode` wrote, whatever follows.

* `takeCode_iff`: where a code ends, in terms of the bytes at each place (`EndsAt`).
* `value_take`: a code's number as a sum over its digits.
* `length_encode_le_of_takeCode`: no byte string with the number `n` is shorter than `encode n`.
-/

namespace Base128

/-- The code of `n`. -/
def encode (n : Nat) : List UInt8 :=
  if n < 128 then [UInt8.ofNat n] else UInt8.ofNat (n % 128 + 128) :: encode (n / 128)
termination_by n
decreasing_by omega

/-- The number whose digits are the low seven bits of `bs`. -/
def value : List UInt8 → Nat
  | []      => 0
  | b :: bs => b.toNat % 128 + 128 * value bs

/-- The bytes up to the first one below 128, if it is among the first `N`, and the rest. -/
def takeCode : Nat → List UInt8 → Option (List UInt8 × List UInt8)
  | 0, _           => none
  | _ + 1, []      => none
  | N + 1, b :: bs =>
      if b.toNat < 128 then some ([b], bs)
      else (takeCode N bs).map fun r => (b :: r.1, r.2)

variable {n N : Nat} {rest : List UInt8}

theorem encode_of_lt (h : n < 128) : encode n = [UInt8.ofNat n] := by
  rw [encode, if_pos h]

theorem encode_of_le (h : 128 ≤ n) :
    encode n = UInt8.ofNat (n % 128 + 128) :: encode (n / 128) := by
  rw [encode, if_neg (by omega)]

theorem length_encode_pos (n : Nat) : 0 < (encode n).length := by
  by_cases h : n < 128
  · rw [encode_of_lt h]
    exact Nat.one_pos
  · rw [encode_of_le (Nat.not_lt.mp h)]
    exact Nat.succ_pos _

/-- A code has as many bytes as its number has digits. -/
theorem length_encode_le (k : Nat) : (encode n).length ≤ k + 1 ↔ n < 128 ^ (k + 1) := by
  induction k generalizing n with
  | zero =>
      by_cases hn : n < 128
      · simp [encode_of_lt hn, hn]
      · have := length_encode_pos (n / 128)
        rw [encode_of_le (Nat.not_lt.mp hn), List.length_cons]
        omega
  | succ k ih =>
      have hpow : 128 ^ (k + 2) = 128 * 128 ^ (k + 1) := pow_succ' 128 (k + 1)
      by_cases hn : n < 128
      · have := Nat.pow_pos (show 0 < 128 by decide) (n := k + 1)
        rw [encode_of_lt hn, List.length_singleton, hpow]
        omega
      · rw [encode_of_le (Nat.not_lt.mp hn), List.length_cons, Nat.add_le_add_iff_right, ih, hpow]
        omega

theorem length_encode_mono {m : Nat} (h : m ≤ n) : (encode m).length ≤ (encode n).length := by
  obtain ⟨k, hk⟩ : ∃ k, (encode n).length = k + 1 := ⟨_, (Nat.succ_pred_eq_of_pos
    (length_encode_pos n)).symm⟩
  rw [hk, length_encode_le]
  exact h.trans_lt ((length_encode_le k).mp hk.le)

theorem value_encode (n : Nat) : value (encode n) = n := by
  induction n using encode.induct with
  | case1 n h =>
      rw [encode_of_lt h, value, value, UInt8.toNat_ofNat']
      omega
  | case2 n h ih =>
      rw [encode_of_le (Nat.not_lt.mp h), value, ih, UInt8.toNat_ofNat']
      omega

theorem takeCode_encode (h : (encode n).length ≤ N) (rest : List UInt8) :
    takeCode N (encode n ++ rest) = some (encode n, rest) := by
  induction n using encode.induct generalizing N with
  | case1 n hn =>
      rw [encode_of_lt hn] at h ⊢
      obtain ⟨N, rfl⟩ : ∃ M, N = M + 1 := ⟨N - 1, by simp at h; omega⟩
      rw [List.singleton_append, takeCode, if_pos]
      rw [UInt8.toNat_ofNat']
      omega
  | case2 n hn ih =>
      rw [encode_of_le (Nat.not_lt.mp hn)] at h ⊢
      obtain ⟨N, rfl⟩ : ∃ M, N = M + 1 := ⟨N - 1, by simp at h; omega⟩
      rw [List.cons_append, takeCode, if_neg, ih (by simpa using h)]
      · rfl
      · rw [UInt8.toNat_ofNat']
        omega

/-! ### Where a code ends -/

/-- The byte at `i` is the first one below 128. -/
def EndsAt (bs : List UInt8) (i : Nat) : Prop :=
  ∃ h : i < bs.length, bs[i].toNat < 128 ∧ ∀ (j : Nat) (hj : j < i), 128 ≤ bs[j].toNat

variable {bs cs code : List UInt8} {b : UInt8} {i k : Nat}

theorem endsAt_zero : EndsAt (b :: bs) 0 ↔ b.toNat < 128 :=
  ⟨fun ⟨_, h, _⟩ => h, fun h => ⟨Nat.succ_pos _, h, fun _ hj => absurd hj (Nat.not_lt_zero _)⟩⟩

theorem endsAt_succ : EndsAt (b :: bs) (i + 1) ↔ 128 ≤ b.toNat ∧ EndsAt bs i := by
  constructor
  · rintro ⟨hlt, hlast, hmore⟩
    exact ⟨hmore 0 (Nat.succ_pos i), Nat.lt_of_succ_lt_succ hlt, hlast,
      fun j hj => hmore (j + 1) (Nat.succ_lt_succ hj)⟩
  · rintro ⟨hb, hlt, hlast, hmore⟩
    refine ⟨Nat.succ_lt_succ hlt, hlast, fun j hj => ?_⟩
    cases j with
    | zero => exact hb
    | succ j => exact hmore j (Nat.lt_of_succ_lt_succ hj)

theorem not_endsAt_nil : ¬ EndsAt [] i := fun ⟨h, _⟩ => absurd h (Nat.not_lt_zero i)

theorem EndsAt.unique (h : EndsAt bs i) (h' : EndsAt bs k) : i = k := by
  obtain ⟨_, hlast, hmore⟩ := h
  obtain ⟨_, hlast', hmore'⟩ := h'
  rcases Nat.lt_trichotomy i k with hlt | rfl | hlt
  · exact absurd hlast (Nat.not_lt.mpr (hmore' i hlt))
  · rfl
  · exact absurd hlast' (Nat.not_lt.mpr (hmore k hlt))

/-- A byte below 128 is at the end of a code or after it. -/
theorem exists_endsAt (h : i < bs.length) (hb : bs[i].toNat < 128) : ∃ k ≤ i, EndsAt bs k := by
  induction bs generalizing i with
  | nil => exact absurd h (Nat.not_lt_zero i)
  | cons b bs ih =>
      by_cases hfirst : b.toNat < 128
      · exact ⟨0, Nat.zero_le i, endsAt_zero.mpr hfirst⟩
      · cases i with
        | zero => exact absurd hb hfirst
        | succ i =>
            obtain ⟨k, hk, hends⟩ := ih (Nat.lt_of_succ_lt_succ h) hb
            exact ⟨k + 1, Nat.succ_le_succ hk, endsAt_succ.mpr ⟨Nat.not_lt.mp hfirst, hends⟩⟩

/-- A code is taken up to its end, if that is among the first `N` bytes. -/
theorem takeCode_iff : takeCode N bs = some (code, rest) ↔
    ∃ i < N, EndsAt bs i ∧ code = bs.take (i + 1) ∧ rest = bs.drop (i + 1) := by
  induction N generalizing bs code with
  | zero =>
      rw [takeCode]
      exact ⟨nofun, fun ⟨_, h, _⟩ => absurd h (Nat.not_lt_zero _)⟩
  | succ N ih =>
      cases bs with
      | nil =>
          rw [takeCode]
          exact ⟨nofun, fun ⟨_, _, h, _⟩ => absurd h not_endsAt_nil⟩
      | cons b bs =>
          rw [takeCode]
          by_cases hb : b.toNat < 128
          · rw [if_pos hb]
            constructor
            · intro h
              obtain ⟨rfl, rfl⟩ := Prod.mk.inj (Option.some.inj h)
              exact ⟨0, Nat.succ_pos N, endsAt_zero.mpr hb, rfl, rfl⟩
            · rintro ⟨i, -, hends, rfl, rfl⟩
              obtain rfl := hends.unique (endsAt_zero.mpr hb)
              rfl
          · rw [if_neg hb, Option.map_eq_some_iff]
            constructor
            · rintro ⟨⟨code', rest'⟩, htake, h⟩
              obtain ⟨rfl, rfl⟩ := Prod.mk.inj h
              obtain ⟨i, hi, hends, rfl, rfl⟩ := ih.mp htake
              exact ⟨i + 1, Nat.succ_lt_succ hi, endsAt_succ.mpr ⟨Nat.not_lt.mp hb, hends⟩, rfl,
                rfl⟩
            · rintro ⟨i, hi, hends, rfl, rfl⟩
              cases i with
              | zero => exact absurd (endsAt_zero.mp hends) hb
              | succ i =>
                  have htake := ih.mpr
                    ⟨i, Nat.lt_of_succ_lt_succ hi, (endsAt_succ.mp hends).2, rfl, rfl⟩
                  exact ⟨_, htake, rfl⟩

theorem takeCode_eq_none : takeCode N bs = none ↔ ∀ i < N, ¬ EndsAt bs i := by
  constructor
  · intro hnone i hi hends
    have hsome := takeCode_iff.mpr ⟨i, hi, hends, rfl, rfl⟩
    rw [hnone] at hsome
    cases hsome
  · intro h
    cases htake : takeCode N bs with
    | none => rfl
    | some r =>
        obtain ⟨i, hi, hends, -⟩ := takeCode_iff.mp htake
        exact absurd hends (h i hi)

/-- A code and what is after it make up the input. -/
theorem takeCode_append_eq (h : takeCode N bs = some (code, rest)) : code ++ rest = bs := by
  obtain ⟨i, -, -, rfl, rfl⟩ := takeCode_iff.mp h
  exact List.take_append_drop _ _

theorem length_takeCode_pos (h : takeCode N bs = some (code, rest)) : 0 < code.length := by
  obtain ⟨i, -, ⟨hlt, -⟩, rfl, -⟩ := takeCode_iff.mp h
  rw [List.length_take]
  omega

/-- Bytes after a code do not matter to it. -/
theorem takeCode_append (h : takeCode N bs = some (code, rest)) (cs : List UInt8) :
    takeCode N (bs ++ cs) = some (code, rest ++ cs) := by
  obtain ⟨i, hi, ⟨hlt, hlast, hmore⟩, rfl, rfl⟩ := takeCode_iff.mp h
  refine takeCode_iff.mpr ⟨i, hi, ⟨?_, ?_, fun j hj => ?_⟩, ?_, ?_⟩
  · rw [List.length_append]
    exact Nat.lt_add_right _ hlt
  · rwa [List.getElem_append_left hlt]
  · rw [List.getElem_append_left (hj.trans hlt)]
    exact hmore j hj
  · exact (List.take_append_of_le_length hlt).symm
  · exact (List.drop_append_of_le_length hlt).symm

/-- No code is a proper prefix of another. -/
theorem takeCode_prefix (h : (encode n).length ≤ N) (hp : bs <+: encode n) (hne : bs ≠ encode n) :
    takeCode N bs = none := by
  obtain ⟨cs, hcs⟩ := hp
  cases htake : takeCode N bs with
  | none => rfl
  | some r =>
      have hwhole := takeCode_encode h []
      rw [List.append_nil, ← hcs, takeCode_append htake cs] at hwhole
      have hnil : r.2 ++ cs = [] := congrArg Prod.snd (Option.some.inj hwhole)
      rw [(List.append_eq_nil_iff.mp hnil).2, List.append_nil] at hcs
      exact absurd hcs hne

/-- All bytes of a code but the last have their highest bit set. -/
theorem endsAt_encode (n : Nat) : EndsAt (encode n) ((encode n).length - 1) := by
  have hpos := length_encode_pos n
  have htake := takeCode_encode (Nat.le_refl (encode n).length) []
  obtain ⟨i, hi, hends, hcode, -⟩ := takeCode_iff.mp htake
  rw [List.append_nil] at hends hcode
  have hlen := congrArg List.length hcode
  rw [List.length_take] at hlen
  have hlast : (encode n).length - 1 = i := by omega
  rwa [hlast]

/-! ### The number of a code -/

/-- `value` as a sum over the digits; past the end of `bs` they are 0. -/
theorem value_take (bs : List UInt8) (n : Nat) : value (bs.take n) =
    ∑ j ∈ Finset.range n, (bs.getD j 0).toNat % 128 * 2 ^ (7 * j) := by
  induction n generalizing bs with
  | zero => rfl
  | succ n ih =>
      cases bs with
      | nil => simp [value]
      | cons b bs =>
          have hdigit : ∀ j, (bs.getD j 0).toNat % 128 * 2 ^ (7 * (j + 1)) =
              128 * ((bs.getD j 0).toNat % 128 * 2 ^ (7 * j)) := fun j => by
            rw [Nat.mul_add, pow_add, Nat.mul_left_comm 128, Nat.mul_comm 128]
            rfl
          rw [List.take_succ_cons, value, ih, Finset.sum_range_succ', Finset.mul_sum]
          simp only [List.getD_cons_succ, List.getD_cons_zero, hdigit, Nat.mul_zero, pow_zero,
            Nat.mul_one]
          exact Nat.add_comm _ _

theorem value_append (bs cs : List UInt8) :
    value (bs ++ cs) = value bs + 128 ^ bs.length * value cs := by
  induction bs with
  | nil => simp [value]
  | cons b bs ih =>
      rw [List.cons_append, value, value, ih, List.length_cons, pow_succ', Nat.mul_add,
        Nat.add_assoc, Nat.mul_assoc]

theorem value_lt (bs : List UInt8) : value bs < 128 ^ bs.length := by
  induction bs with
  | nil => exact Nat.one_pos
  | cons b bs ih =>
      have hdigit := Nat.mod_lt b.toNat (show 0 < 128 by decide)
      rw [value, List.length_cons, pow_succ]
      omega

/-- Whether a number is below a multiple of the weight of its highest digit is up to that digit. -/
theorem value_concat_lt (bs : List UInt8) (b : UInt8) (t : Nat) :
    value (bs ++ [b]) < 128 ^ bs.length * t ↔ b.toNat % 128 < t := by
  have hlow := value_lt bs
  have hlast : value [b] = b.toNat % 128 := by simp [value]
  rw [value_append, hlast]
  constructor
  · intro h
    exact Nat.lt_of_mul_lt_mul_left ((Nat.le_add_left _ _).trans_lt h)
  · intro h
    calc value bs + 128 ^ bs.length * (b.toNat % 128)
        < 128 ^ bs.length * (b.toNat % 128 + 1) := by rw [Nat.mul_add]; omega
      _ ≤ 128 ^ bs.length * t := Nat.mul_le_mul_left _ h

/-- A number below `128 ^ k` has a code of at most `k` bytes, and so no shorter one than `encode`
gives it. -/
theorem length_encode_le_of_takeCode (h : takeCode N bs = some (code, rest)) :
    (encode (value code)).length ≤ code.length := by
  obtain ⟨i, -, ⟨hlt, -⟩, rfl, -⟩ := takeCode_iff.mp h
  have hlen : (bs.take (i + 1)).length = i + 1 := by
    rw [List.length_take]
    omega
  have hvalue := value_lt (bs.take (i + 1))
  rw [hlen] at hvalue ⊢
  exact (length_encode_le i).mpr hvalue

end Base128
