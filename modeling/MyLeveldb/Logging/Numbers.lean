import MyLeveldb.Logging.Definitions
import MyLeveldb.Support.Text.Numerals
import Mathlib.Data.List.TakeWhile

/-!
# Logging — Numbers

Decimal numbers, printed and read again.  `ConsumeDecimalNumber` reads what `NumberToString` prints,
with or without zeros before it, and nothing else; so a text of numbers with separators between them
is read by `ConsumeDecimalNumber` and `ConsumeChar` in turn (`consume_separated`).
-/

namespace Leveldb

open Numerals (extend value numeral fitting)
open Status (ascii)

variable {b n d : Nat} {c : UInt8} {ds input rest : Bytes} {v val num : U64}

/-! ### Digits as characters -/

/-- The character of a digit. -/
def digitChar (d : Nat) : UInt8 := UInt8.ofNat d.digitChar.toNat

/-- `c - '0'`. -/
def digitVal (c : UInt8) : Nat := c.toNat - 48

/-- The digits at the start of a text. -/
def digitVals (input : Bytes) : List Nat := (input.takeWhile isDigit).map digitVal

theorem digits_eq (hb : 1 < b) (n : Nat) : digits b n = (numeral b n).map digitChar := by
  induction n using Nat.strong_induction_on with
  | _ n ih =>
      rw [digits, Nat.toDigits_eq_if hb, Numerals.numeral_eq hb]
      split_ifs with hlt
      · rfl
      · have hdiv : n / b < n := Nat.div_lt_self (by omega) hb
        rw [List.map_append, List.map_append, ← ih (n / b) hdiv]
        rfl

theorem toNat_digitChar (hd : d < 10) : (digitChar d).toNat = 48 + d := by
  have hall : ∀ d < 10, (digitChar d).toNat = 48 + d := by decide
  exact hall d hd

theorem isDigit_iff : isDigit c ↔ 48 ≤ c.toNat ∧ c.toNat ≤ 57 := by
  rw [isDigit, decide_eq_true_iff]

theorem isDigit_digitChar (hd : d < 10) : isDigit (digitChar d) := by
  rw [isDigit_iff, toNat_digitChar hd]
  omega

theorem digitVal_digitChar (hd : d < 10) : digitVal (digitChar d) = d := by
  rw [digitVal, toNat_digitChar hd, Nat.add_sub_cancel_left]

theorem digitVal_lt (hc : isDigit c) : digitVal c < 10 := by
  have hc' := isDigit_iff.1 hc
  rw [digitVal]
  omega

theorem digitChar_digitVal (hc : isDigit c) : digitChar (digitVal c) = c := by
  have hc' := isDigit_iff.1 hc
  apply UInt8.toNat_inj.1
  rw [toNat_digitChar (digitVal_lt hc), digitVal]
  omega

theorem isDigit_of_mem_digits (hc : c ∈ digits 10 n) : isDigit c := by
  rw [digits_eq (by decide)] at hc
  obtain ⟨d, hd, rfl⟩ := List.mem_map.1 hc
  exact isDigit_digitChar (Numerals.numeral_lt (by decide) hd)

theorem digitVals_lt : ∀ d ∈ digitVals input, d < 10 := by
  intro d hd
  obtain ⟨c, hc, rfl⟩ := List.mem_map.1 hd
  exact digitVal_lt (List.mem_takeWhile_imp hc)

/-- The digits can be written again. -/
theorem map_digitVals : (digitVals input).map digitChar = input.takeWhile isDigit := by
  rw [digitVals, List.map_map]
  refine (List.map_congr_left fun c hc => ?_).trans (List.map_id _)
  exact digitChar_digitVal (List.mem_takeWhile_imp hc)

theorem digitVals_append (hds : ∀ c ∈ ds, isDigit c) (hrest : ∀ c ∈ rest.head?, ¬ isDigit c) :
    digitVals (ds ++ rest) = ds.map digitVal := by
  have hnil : rest.takeWhile isDigit = [] := by
    cases rest with
    | nil => rfl
    | cons c rest => exact List.takeWhile_cons_of_neg (hrest c rfl)
  rw [digitVals, List.takeWhile_append_of_pos hds, hnil, List.append_nil]

/-! ### The buffer -/

/-- No number has more than 20 digits, and the buffer has room for 29. -/
theorem numberToString_eq : numberToString num = digits 10 num.toNat := by
  have hlen : (digits 10 num.toNat).length ≤ 20 := by
    rw [digits_eq (by decide), List.length_map]
    have hnum := num.isLt
    exact Numerals.length_numeral_le (by decide) (by decide) (by omega)
  rw [numberToString, appendNumberTo, List.nil_append, snprintf, List.take_of_length_le]
  omega

/-! ### The loop -/

/-- The code's test for overflow. -/
theorem overflow_iff (hd : d < 10) :
    ((kMaxUint64 / 10).toNat < v.toNat ∨ v = kMaxUint64 / 10 ∧ (kMaxUint64 % 10).toNat < d) ↔
      ¬ v.toNat * 10 + d ≤ 2 ^ 64 - 1 := by
  have hdiv : (kMaxUint64 / 10).toNat = (2 ^ 64 - 1) / 10 := by decide
  have hmod : (kMaxUint64 % 10).toNat = (2 ^ 64 - 1) % 10 := by decide
  rw [← Numerals.room_iff (by decide) hd, not_not, ← BitVec.toNat_inj, hdiv, hmod]

theorem consumeDigits_eq (input : Bytes) (v : U64) (count : BitVec 32) :
    consumeDigits input v count =
      (input.drop (fitting 10 (2 ^ 64 - 1) v.toNat (digitVals input)),
        if fitting 10 (2 ^ 64 - 1) v.toNat (digitVals input) = (digitVals input).length then
          some (BitVec.ofNat 64 (extend 10 v.toNat (digitVals input)),
            count + BitVec.ofNat 32 (digitVals input).length)
        else none) := by
  induction input generalizing v count with
  | nil => simp [consumeDigits, digitVals, fitting]
  | cons c input ih =>
      by_cases hc : isDigit c
      · have hvals : digitVals (c :: input) = digitVal c :: digitVals input := by
          rw [digitVals, List.takeWhile_cons_of_pos hc]
          rfl
        have hover := overflow_iff (v := v) (digitVal_lt hc)
        rw [consumeDigits, if_pos hc, hvals, fitting]
        simp only
        by_cases hfit : v.toNat * 10 + digitVal c ≤ 2 ^ 64 - 1
        · have hv : (v * 10 + BitVec.ofNat 64 (digitVal c)).toNat = v.toNat * 10 + digitVal c := by
            have hten : (10 : BitVec 64).toNat = 10 := rfl
            rw [BitVec.toNat_add, BitVec.toNat_mul, BitVec.toNat_ofNat, hten]
            omega
          have hcount : count + 1 + BitVec.ofNat 32 (digitVals input).length =
              count + BitVec.ofNat 32 ((digitVals input).length + 1) := by
            rw [BitVec.add_assoc, BitVec.add_comm 1, BitVec.ofNat_add]
            rfl
          rw [← digitVal, if_neg (mt hover.1 (not_not.2 hfit)), if_pos hfit, ih, hv, hcount]
          simp only [List.drop_succ_cons, List.length_cons, Nat.add_right_cancel_iff,
            Numerals.extend_cons]
        · rw [← digitVal, if_pos (hover.2 hfit), if_neg hfit]
          simp
      · have hvals : digitVals (c :: input) = [] := by
          rw [digitVals, List.takeWhile_cons_of_neg hc]
          rfl
        rw [consumeDigits, if_neg hc, hvals]
        simp [fitting]

/-! ### What is consumed -/

theorem toInt_pos (hn : n < 2 ^ 31) : 0 < (BitVec.ofNat 32 n).toInt ↔ 0 < n := by
  rw [BitVec.toInt_eq_toNat_of_lt (by rw [BitVec.toNat_ofNat]; omega), BitVec.toNat_ofNat]
  omega

theorem le_fitting_iff (input : Bytes) (k : Nat) : k ≤ fitting 10 (2 ^ 64 - 1) 0 (digitVals input) ↔
    k ≤ (digitVals input).length ∧ value 10 ((digitVals input).take k) ≤ 2 ^ 64 - 1 :=
  Numerals.extend_take_le_iff (by decide) (by decide)

/-- All digits are read if their value fits; else those before the one that would be too many. -/
theorem consumeDecimalNumber_eq (hlen : (digitVals input).length < 2 ^ 31) (val : U64) :
    consumeDecimalNumber input val =
      if value 10 (digitVals input) ≤ 2 ^ 64 - 1 then
        ⟨decide (digitVals input ≠ []), input.drop (digitVals input).length,
          BitVec.ofNat 64 (value 10 (digitVals input))⟩
      else ⟨false, input.drop (fitting 10 (2 ^ 64 - 1) 0 (digitVals input)), val⟩ := by
  have hfit := le_fitting_iff input (digitVals input).length
  rw [List.take_length] at hfit
  have hle : fitting 10 (2 ^ 64 - 1) 0 (digitVals input) ≤ (digitVals input).length :=
    ((le_fitting_iff input _).1 le_rfl).1
  have hloop := consumeDigits_eq input 0 0
  rw [show (0 : U64).toNat = 0 from rfl] at hloop
  by_cases hval : value 10 (digitVals input) ≤ 2 ^ 64 - 1
  · have heq := Nat.le_antisymm hle (hfit.2 ⟨le_rfl, hval⟩)
    have hpos : 0 < (digitVals input).length ↔ digitVals input ≠ [] := List.length_pos_iff
    have hcount : 0 + BitVec.ofNat 32 (digitVals input).length =
        BitVec.ofNat 32 (digitVals input).length := BitVec.zero_add _
    rw [if_pos heq, heq, hcount] at hloop
    rw [consumeDecimalNumber, hloop, if_pos hval]
    simp only [toInt_pos hlen, hpos, value]
  · have hne : fitting 10 (2 ^ 64 - 1) 0 (digitVals input) ≠ (digitVals input).length :=
      fun heq => hval (hfit.1 heq.ge).2
    rw [if_neg hne] at hloop
    rw [consumeDecimalNumber, hloop, if_neg hval]

/-- What follows the digits. -/
theorem drop_digitVals : input.drop (digitVals input).length = input.dropWhile isDigit := by
  have hsplit := List.takeWhile_append_dropWhile (p := isDigit) (l := input)
  calc input.drop (digitVals input).length
      = (input.takeWhile isDigit ++ input.dropWhile isDigit).drop
          (input.takeWhile isDigit).length := by rw [hsplit, digitVals, List.length_map]
    _ = input.dropWhile isDigit := List.drop_left

/-- The digits at the start of a printed number, with zeros before it. -/
theorem digitVals_printed (k : Nat) (num : U64) (hrest : ∀ c ∈ rest.head?, ¬ isDigit c) :
    digitVals (List.replicate k 48 ++ numberToString num ++ rest) =
      List.replicate k 0 ++ numeral 10 num.toNat := by
  have hds : ∀ c ∈ List.replicate k 48 ++ (numeral 10 num.toNat).map digitChar, isDigit c := by
    intro c hc
    rcases List.mem_append.1 hc with hc | hc
    · rw [List.eq_of_mem_replicate hc]
      rfl
    · obtain ⟨d, hd, rfl⟩ := List.mem_map.1 hc
      exact isDigit_digitChar (Numerals.numeral_lt (by decide) hd)
  rw [numberToString_eq, digits_eq (by decide), digitVals_append hds hrest, List.map_append,
    List.map_replicate, List.map_map]
  congr 1
  refine (List.map_congr_left fun d hd => ?_).trans (List.map_id _)
  exact digitVal_digitChar (Numerals.numeral_lt (by decide) hd)

/-- A printed number is read. -/
theorem consumeDecimalNumber_printed (k : Nat) (hrest : ∀ c ∈ rest.head?, ¬ isDigit c)
    (hlen : (digitVals (List.replicate k 48 ++ numberToString num ++ rest)).length < 2 ^ 31) :
    consumeDecimalNumber (List.replicate k 48 ++ numberToString num ++ rest) val =
      ⟨true, rest, num⟩ := by
  have hnum := num.isLt
  have hval : value 10 (List.replicate k 0 ++ numeral 10 num.toNat) = num.toNat := by
    rw [Numerals.value_replicate_zero, Numerals.value_numeral]
  have hne : List.replicate k 0 ++ numeral 10 num.toNat ≠ [] :=
    List.append_ne_nil_of_right_ne_nil _ Numerals.numeral_ne_nil
  have hlength : (List.replicate k 0 ++ numeral 10 num.toNat).length =
      (List.replicate k (48 : UInt8) ++ numberToString num).length := by
    rw [numberToString_eq, digits_eq (by decide)]
    simp
  rw [consumeDecimalNumber_eq hlen, digitVals_printed k num hrest, hval, if_pos (by omega),
    hlength, List.drop_left, BitVec.ofNat_toNat, BitVec.setWidth_eq, decide_eq_true hne]

/-- `ConsumeChar` takes `c` from the start of the input, or leaves the input as it is. -/
theorem consumeChar_spec (input : Bytes) (c : UInt8) :
    ((consumeChar input c).1 = true ↔ input = c :: (consumeChar input c).2) ∧
      ((consumeChar input c).1 = false → (consumeChar input c).2 = input) := by
  cases input with
  | nil => simp [consumeChar]
  | cons d input =>
      by_cases hd : d = c
      · simp [consumeChar, hd]
      · simp [consumeChar, hd]

/-- Numbers with a character between them that is no digit are read one after the other. -/
theorem consume_separated (a b : U64) {c : UInt8} (hc : ¬ isDigit c)
    (hrest : ∀ d ∈ rest.head?, ¬ isDigit d) (val val' : U64) : ∃ in₁ in₂,
      consumeDecimalNumber (numberToString a ++ c :: (numberToString b ++ rest)) val =
        ⟨true, in₁, a⟩ ∧
      consumeChar in₁ c = (true, in₂) ∧ consumeDecimalNumber in₂ val' = ⟨true, rest, b⟩ := by
  have hlen : ∀ (num : U64) (rest : Bytes), (∀ d ∈ rest.head?, ¬ isDigit d) →
      (digitVals (List.replicate 0 48 ++ numberToString num ++ rest)).length < 2 ^ 31 := by
    intro num rest hrest
    have hnum := num.isLt
    have hle := Numerals.length_numeral_le (b := 10) (k := 20) (n := num.toNat) (by decide)
      (by decide) (by omega)
    rw [digitVals_printed 0 num hrest, List.length_append, List.length_replicate]
    omega
  have hsep : ∀ d ∈ (c :: (numberToString b ++ rest)).head?, ¬ isDigit d := by
    intro d hd
    obtain rfl : c = d := Option.some.inj hd
    exact hc
  have hfirst : consumeDecimalNumber (numberToString a ++ c :: (numberToString b ++ rest)) val =
      ⟨true, _, a⟩ := consumeDecimalNumber_printed 0 hsep (hlen a _ hsep)
  have hsecond : consumeDecimalNumber (numberToString b ++ rest) val' = ⟨true, rest, b⟩ :=
    consumeDecimalNumber_printed 0 hrest (hlen b _ hrest)
  exact ⟨_, _, hfirst, if_pos rfl, hsecond⟩

/-- `ConsumeDecimalNumber` returns `num`, and leaves `rest`, exactly where it is given what
`NumberToString(num)` prints, after any number of zeros, and then `rest`, which goes on with
something else than a digit. -/
theorem consumeDecimalNumber_iff (hlen : (digitVals input).length < 2 ^ 31) :
    consumeDecimalNumber input val = ⟨true, rest, num⟩ ↔
      (∃ k, input = List.replicate k 48 ++ numberToString num ++ rest) ∧
        ∀ c ∈ rest.head?, ¬ isDigit c := by
  rw [consumeDecimalNumber_eq hlen]
  constructor
  · intro h
    split_ifs at h with hval
    · obtain ⟨hok, hrest, hnum⟩ := Got.mk.inj h
      have hne : digitVals input ≠ [] := of_decide_eq_true hok
      have hnum' : value 10 (digitVals input) = num.toNat := by
        rw [← hnum, BitVec.toNat_ofNat, Nat.mod_eq_of_lt (by omega)]
      obtain ⟨k, hk⟩ := Numerals.zeros_numeral (b := 10) (by decide) digitVals_lt hne
      rw [drop_digitVals] at hrest
      have hdigits : input.takeWhile isDigit =
          List.replicate k 48 ++ (numeral 10 num.toNat).map digitChar := by
        rw [← map_digitVals, hk, List.map_append, List.map_replicate, hnum']
        rfl
      refine ⟨⟨k, ?_⟩, ?_⟩
      · rw [numberToString_eq, digits_eq (by decide), ← hdigits, ← hrest,
          List.takeWhile_append_dropWhile]
      · intro c hc
        rw [← hrest] at hc
        have hhead := List.head?_dropWhile_not isDigit input
        rw [Option.mem_def.1 hc] at hhead
        simpa using hhead
    · cases (Got.mk.inj h).1
  · rintro ⟨⟨k, rfl⟩, hrest⟩
    rw [← consumeDecimalNumber_eq hlen]
    exact consumeDecimalNumber_printed k hrest hlen

theorem consumeDecimalNumber_iff_zeros :
    consumeDecimalNumber (ascii "0070a1") 5 = ⟨true, ascii "a1", 70⟩ := by
  refine (consumeDecimalNumber_iff (by decide)).2 ⟨⟨2, by decide⟩, fun c hc => ?_⟩
  obtain rfl : 97 = c := Option.some.inj hc
  decide

/-- It fails exactly where there is no digit, or where the digits stand for a number that is too
large.  Then `*in` is where it was, and `*val` is zero; or `*val` is as it was, and `*in` is past
the most digits whose value fits. -/
theorem consumeDecimalNumber_fails (hlen : (digitVals input).length < 2 ^ 31) (val : U64) :
    ((consumeDecimalNumber input val).ok = false ↔
      digitVals input = [] ∨ 2 ^ 64 ≤ value 10 (digitVals input)) ∧
    (digitVals input = [] → consumeDecimalNumber input val = ⟨false, input, 0⟩) ∧
    (2 ^ 64 ≤ value 10 (digitVals input) → ∃ k < (digitVals input).length,
      consumeDecimalNumber input val = ⟨false, input.drop k, val⟩ ∧
      value 10 ((digitVals input).take k) < 2 ^ 64 ∧
      2 ^ 64 ≤ value 10 ((digitVals input).take (k + 1))) := by
  rw [consumeDecimalNumber_eq hlen]
  refine ⟨?_, fun hnil => ?_, fun hval => ?_⟩
  · split_ifs with hval
    · rw [decide_eq_false_iff_not, not_not]
      exact ⟨.inl, fun h => h.resolve_right (by omega)⟩
    · exact iff_of_true rfl (.inr (by omega))
  · rw [hnil]
    rfl
  · obtain ⟨hle, hin⟩ := (le_fitting_iff input _).1 le_rfl
    have hlt : fitting 10 (2 ^ 64 - 1) 0 (digitVals input) < (digitVals input).length := by
      refine lt_of_le_of_ne hle fun heq => ?_
      rw [heq, List.take_length] at hin
      omega
    have hout :=
      mt (le_fitting_iff input (fitting 10 (2 ^ 64 - 1) 0 (digitVals input) + 1)).2 (by omega)
    rw [if_neg (by omega)]
    refine ⟨_, hlt, rfl, by omega, ?_⟩
    by_contra hlow
    exact hout ⟨hlt, by omega⟩

theorem consumeDecimalNumber_fails_overflow :
    ∃ k < 21, consumeDecimalNumber (ascii "184467440737095516160") 5 =
      ⟨false, (ascii "184467440737095516160").drop k, 5⟩ := by
  have hlen : (digitVals (ascii "184467440737095516160")).length < 2 ^ 31 := by decide
  obtain ⟨k, hk, heq, -⟩ := (consumeDecimalNumber_fails hlen 5).2.2 (by decide)
  exact ⟨k, hk, heq⟩

end Leveldb
