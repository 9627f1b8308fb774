import MyLeveldb.Logging.Numbers
import MyLeveldb.Support.Text.Escapes
import MyLeveldb.Format.Keys

/-!
# Logging — Texts

What a text tells about the bytes it was made from.  `EscapeString` does not escape the backslash,
so that `\x00` may be a zero byte or four characters; the two `debugString()` do not escape the
user key, and can be read from the end.
-/

namespace Leveldb

open Numerals (numeral)
open Status (ascii)

variable {c : UInt8} {v t : Bytes} {k k' : ParsedInternalKey}

/-! ### Escapes -/

theorem hexDigit {d : Nat} (hd : d < 16) : isPrintable (digitChar d) ∧ digitChar d ≠ 92 := by
  have hall : ∀ d < 16, isPrintable (digitChar d) ∧ digitChar d ≠ 92 := by decide
  exact hall d hd

theorem hexDigit_inj {d e : Nat} (hd : d < 16) (he : e < 16) (h : digitChar d = digitChar e) :
    d = e := by
  have hall : ∀ d < 16, ∀ e < 16, digitChar d = digitChar e → d = e := by decide
  exact hall d hd e he h

/-- `%02x` of a byte. -/
theorem zeroPadded_hex (c : UInt8) :
    zeroPadded 16 2 c.toNat = [digitChar (c.toNat / 16), digitChar (c.toNat % 16)] := by
  have hc := c.toNat_lt
  have hdiv : c.toNat / 16 < 16 := by omega
  rw [zeroPadded, digits_eq (by decide), Numerals.numeral_eq (by decide)]
  split_ifs with hlt
  · rw [show c.toNat / 16 = 0 by omega, Nat.mod_eq_of_lt hlt]
    rfl
  · rw [Numerals.numeral_eq (by decide), if_pos hdiv]
    rfl

theorem zeroPadded_hex_inj {d : UInt8} (h : zeroPadded 16 2 c.toNat = zeroPadded 16 2 d.toNat) :
    c = d := by
  have hc := c.toNat_lt
  have hd := d.toNat_lt
  rw [zeroPadded_hex, zeroPadded_hex] at h
  obtain ⟨hhigh, hlow⟩ := List.cons_eq_cons.1 h
  have hdiv := hexDigit_inj (by omega) (by omega) hhigh
  have hmod := hexDigit_inj (by omega) (by omega) (List.cons_eq_cons.1 hlow).1
  apply UInt8.toNat_inj.1
  omega

/-- The escapes of `AppendEscapedStringTo`. -/
def escapes : Escaping UInt8 where
  plain := isPrintable
  mark := 92
  width := 3
  word c := 120 :: zeroPadded 16 2 c.toNat
  unword w := ((List.range 256).map UInt8.ofNat).find? fun c =>
    !isPrintable c && w == 120 :: zeroPadded 16 2 c.toNat
  mark_plain := rfl
  word_plain c _ x hx := by
    have hc := c.toNat_lt
    rw [zeroPadded_hex] at hx
    simp only [List.mem_cons, List.not_mem_nil, or_false] at hx
    rcases hx with rfl | rfl | rfl
    · decide
    · exact hexDigit (by omega)
    · exact hexDigit (by omega)
  length_word c _ := by rw [zeroPadded_hex]; rfl
  unword_eq_some w c := by
    have hp : ∀ d : UInt8, (!isPrintable d && w == 120 :: zeroPadded 16 2 d.toNat) = true ↔
        ¬ isPrintable d ∧ w = 120 :: zeroPadded 16 2 d.toNat := fun d => by simp
    constructor
    · intro h
      exact (hp c).1 (List.find?_some (p := fun c =>
        !isPrintable c && w == 120 :: zeroPadded 16 2 c.toNat) h)
    · intro h
      cases hfind : ((List.range 256).map UInt8.ofNat).find? fun c =>
          !isPrintable c && w == 120 :: zeroPadded 16 2 c.toNat with
      | none =>
          have hmem : c ∈ (List.range 256).map UInt8.ofNat :=
            List.mem_map.2 ⟨c.toNat, List.mem_range.2 c.toNat_lt, UInt8.ofNat_toNat⟩
          exact absurd ((hp c).2 h) (List.find?_eq_none.1 hfind c hmem)
      | some d =>
          have hd := (hp d).1 (List.find?_some (p := fun c =>
            !isPrintable c && w == 120 :: zeroPadded 16 2 c.toNat) hfind)
          have hword := (List.cons_eq_cons.1 (h.2.symm.trans hd.2)).2
          rw [zeroPadded_hex_inj hword]

@[simp] theorem escapes_plain (c : UInt8) : escapes.plain c = isPrintable c := rfl

theorem escapes_word (c : UInt8) :
    escapes.word c = [120, digitChar (c.toNat / 16), digitChar (c.toNat % 16)] :=
  congrArg (List.cons 120) (zeroPadded_hex c)

theorem escapeChar_eq (c : UInt8) : escapeChar c = escapes.letter c := by
  rw [escapeChar, Escaping.letter, zeroPadded_hex, escapes_word, escapes_plain]
  rfl

theorem appendEscapedStringTo_eq (str value : Bytes) :
    appendEscapedStringTo str value = str ++ escapes.encode value := by
  induction value generalizing str with
  | nil => exact (List.append_nil str).symm
  | cons c value ih =>
      have hrest := ih (str ++ escapeChar c)
      rw [appendEscapedStringTo, List.foldl_cons, ← appendEscapedStringTo, hrest, escapeChar_eq,
        List.append_assoc]
      rfl

theorem escapeString_eq : escapeString v = escapes.encode v := appendEscapedStringTo_eq [] v

/-- No escape is written out in the text. -/
def Unescaped (v : Bytes) : Prop := ∀ c, ¬ isPrintable c → ¬ escapeChar c <:+: v

theorem unescaped_iff : Unescaped v ↔ escapes.Clean v := by
  refine forall_congr' fun c => forall_congr' fun hc => ?_
  rw [escapeChar_eq, Escaping.letter, escapes_plain, if_neg hc]

/-- A text is printable exactly where it is the escape of bytes in which no escape is written out;
and then of no others. -/
theorem isPrintable_iff_escapeString :
    (∀ c ∈ t, isPrintable c) ↔ ∃! v, Unescaped v ∧ escapeString v = t := by
  constructor
  · intro ht
    refine ⟨escapes.decode t, ⟨?_, ?_⟩, fun v hv => ?_⟩
    · exact unescaped_iff.2 Escaping.clean_decode
    · rw [escapeString_eq]
      exact Escaping.encode_decode ht
    · rw [← hv.2, escapeString_eq]
      exact (Escaping.decode_encode_iff.2 (unescaped_iff.1 hv.1)).symm
  · rintro ⟨v, ⟨-, rfl⟩, -⟩
    rw [escapeString_eq]
    exact Escaping.encode_plain

/-! ### Keys -/

/-- Where a text ends in letters of one kind, after one of another kind, it can be taken apart. -/
theorem append_cons_inj {α : Type} {p : α → Prop} {xs ys ds es : List α} {x y : α}
    (hds : ∀ d ∈ ds, p d) (hes : ∀ e ∈ es, p e) (hx : ¬ p x) (hy : ¬ p y)
    (h : xs ++ x :: ds = ys ++ y :: es) : xs = ys ∧ x = y ∧ ds = es := by
  rcases List.append_eq_append_iff.1 h with ⟨zs, rfl, hzs⟩ | ⟨zs, rfl, hzs⟩
  · cases zs with
    | nil =>
        obtain ⟨hxy, htail⟩ := List.cons_eq_cons.1 hzs
        exact ⟨(List.append_nil xs).symm, hxy, htail⟩
    | cons z zs =>
        obtain ⟨rfl, rfl⟩ := List.cons_eq_cons.1 hzs
        exact absurd (hds y (List.mem_append_right _ List.mem_cons_self)) hy
  · cases zs with
    | nil =>
        obtain ⟨hyx, htail⟩ := List.cons_eq_cons.1 hzs
        exact ⟨List.append_nil ys, hyx.symm, htail.symm⟩
    | cons z zs =>
        obtain ⟨rfl, rfl⟩ := List.cons_eq_cons.1 hzs
        exact absurd (hes x (List.mem_append_right _ List.mem_cons_self)) hx

theorem digits_inj {m n : Nat} (h : digits 10 m = digits 10 n) : m = n := by
  have hvals : ∀ n, (digits 10 n).map digitVal = numeral 10 n := by
    intro n
    rw [digits_eq (by decide), List.map_map]
    refine (List.map_congr_left fun d hd => ?_).trans (List.map_id _)
    exact digitVal_digitChar (Numerals.numeral_lt (by decide) hd)
  exact Numerals.numeral_inj (b := 10) (by rw [← hvals, h, hvals])

theorem length_digits_le {n k : Nat} (hk : 0 < k) (hn : n < 10 ^ k) : (digits 10 n).length ≤ k := by
  rw [digits_eq (by decide), List.length_map]
  exact Numerals.length_numeral_le (by decide) hk hn

theorem ValueType.toNat_lt (t : ValueType) : t.toNat < 256 := by
  cases t with
  | kTypeDeletion | kTypeValue => decide
  | unknown c h => exact c.toNat_lt

theorem ValueType.toNat_inj {t t' : ValueType} (h : t.toNat = t'.toNat) : t = t' := by
  cases t with
  | kTypeDeletion | kTypeValue =>
      cases t' with
      | kTypeDeletion | kTypeValue => first | rfl | cases h
      | unknown c hc =>
          simp only [ValueType.toNat] at h
          omega
  | unknown c hc =>
      cases t' with
      | kTypeDeletion | kTypeValue =>
          simp only [ValueType.toNat] at h
          omega
      | unknown d hd =>
          obtain rfl := UInt8.toNat_inj.1 h
          rfl

/-- The buffer has room for the numbers. -/
theorem ParsedInternalKey.debugString_eq (k : ParsedInternalKey) :
    k.debugString = (((ascii "'" ++ k.user_key) ++ ascii "' @") ++ 32 :: digits 10 k.sequence.toNat
      ++ ascii " :") ++ 32 :: digits 10 k.type.toNat := by
  have hseq := length_digits_le (n := k.sequence.toNat) (k := 20) (by decide) (by omega)
  have htype := length_digits_le (n := k.type.toNat) (k := 3) (by decide)
    (by have := k.type.toNat_lt; omega)
  have hlen : (ascii "' @ " ++ digits 10 k.sequence.toNat ++ ascii " : " ++
      digits 10 k.type.toNat).length ≤ 49 := by
    have h₁ : (ascii "' @ ").length = 4 := rfl
    have h₂ : (ascii " : ").length = 3 := rfl
    simp only [List.length_append, h₁, h₂]
    omega
  rw [ParsedInternalKey.debugString, snprintf, List.take_of_length_le hlen]
  simp only [List.append_assoc, List.cons_append]
  rfl

theorem ParsedInternalKey.debugString_inj : k.debugString = k'.debugString ↔ k = k' := by
  refine ⟨fun h => ?_, congrArg _⟩
  have hblank : ¬ isDigit 32 := by decide
  rw [debugString_eq, debugString_eq] at h
  -- the type, from the last blank on
  obtain ⟨hhead, -, htype⟩ := append_cons_inj (fun _ => isDigit_of_mem_digits)
    (fun _ => isDigit_of_mem_digits) hblank hblank h
  -- the sequence number, from the blank before
  obtain ⟨huser, -, hseq⟩ := append_cons_inj (fun _ => isDigit_of_mem_digits)
    (fun _ => isDigit_of_mem_digits) hblank hblank (List.append_cancel_right hhead)
  have hkey := List.append_cancel_left (List.append_cancel_right huser)
  obtain ⟨user_key, sequence, type⟩ := k
  obtain ⟨user_key', sequence', type'⟩ := k'
  simp only at hkey hseq htype
  rw [hkey, BitVec.eq_of_toNat_eq (digits_inj hseq), ValueType.toNat_inj (digits_inj htype)]

/-- `parseInternalKey` returns `false`. -/
def InternalKey.Bad (rep_ : Bytes) : Prop :=
  rep_.length < 8 ∨ ∃ c, rep_[rep_.length - 8]? = some c ∧ ValueType.kTypeValue.toNat < c.toNat

/-- The text of a key; of a good one, that of what it is made from. -/
theorem InternalKey.debugString_cases (rep_ : Bytes) :
    (Bad rep_ ∧ ∀ parsed, debugString rep_ parsed = .ok (ascii "(bad)" ++ escapeString rep_)) ∨
      ¬ Bad rep_ ∧ ∃ k : ParsedInternalKey, appendInternalKey [] k = .ok rep_ ∧
        ∀ parsed, debugString rep_ parsed = .ok k.debugString := by
  by_cases hlen : rep_.length < 8
  · refine .inl ⟨.inl hlen, fun parsed => ?_⟩
    rw [debugString, parseInternalKey, if_pos hlen]
    rfl
  · obtain ⟨u, tag, rfl⟩ := exists_tag (Nat.not_lt.1 hlen)
    have hbad : Bad (u ++ encodeFixed64 tag) ↔
        ¬ (ValueType.ofByte (toByte (tag &&& 0xff))).Valid := by
      rw [Bad, getElem_tag, ValueType.valid_iff, ValueType.toNat_ofByte, not_le]
      simp only [hlen, false_or, Option.some.injEq, exists_eq_left']
      rfl
    by_cases hvalid : (ValueType.ofByte (toByte (tag &&& 0xff))).Valid
    · refine .inr ⟨fun h => hbad.1 h hvalid,
        ⟨u, tag >>> 8, .ofByte (toByte (tag &&& 0xff))⟩, ?_, fun parsed => ?_⟩
      · have htag := tag.isLt
        have hs : (tag >>> 8).toNat ≤ kMaxSequenceNumber.toNat := by
          rw [toNat_shiftRight_8, toNat_kMaxSequenceNumber]
          omega
        rw [appendInternalKey_eq hs hvalid, tagOf_parts hvalid, List.nil_append]
      · rw [debugString, parseInternalKey_eq, ok_bind, decide_eq_true hvalid]
        rfl
    · refine .inl ⟨hbad.2 hvalid, fun parsed => ?_⟩
      rw [debugString, parseInternalKey_eq, ok_bind, decide_eq_false hvalid]
      rfl

/-- Two keys have one text exactly where they are the same, or where both are bad and escaped
alike. -/
theorem InternalKey.debugString_eq_iff (rep_ rep_' : Bytes) (parsed parsed' : ParsedInternalKey) :
    ∃ a b, debugString rep_ parsed = .ok a ∧ debugString rep_' parsed' = .ok b ∧
      (a = b ↔ rep_ = rep_' ∨ Bad rep_ ∧ Bad rep_' ∧ escapeString rep_ = escapeString rep_') := by
  rcases debugString_cases rep_ with ⟨hbad, ha⟩ | ⟨hgood, k, hk, ha⟩
  · rcases debugString_cases rep_' with ⟨hbad', hb⟩ | ⟨hgood', k', -, hb⟩
    · refine ⟨_, _, ha parsed, hb parsed', ?_⟩
      rw [List.append_cancel_left_eq]
      constructor
      · exact fun h => .inr ⟨hbad, hbad', h⟩
      · rintro (rfl | ⟨-, -, h⟩)
        · rfl
        · exact h
    · refine ⟨_, _, ha parsed, hb parsed', iff_of_false (fun h => ?_) ?_⟩
      · cases congrArg List.head? h
      · rintro (rfl | ⟨-, hno, -⟩)
        · exact hgood' hbad
        · exact hgood' hno
  · rcases debugString_cases rep_' with ⟨hbad', hb⟩ | ⟨hgood', k', hk', hb⟩
    · refine ⟨_, _, ha parsed, hb parsed', iff_of_false (fun h => ?_) ?_⟩
      · cases congrArg List.head? h
      · rintro (rfl | ⟨hno, -, -⟩)
        · exact hgood hbad'
        · exact hgood hno
    · refine ⟨_, _, ha parsed, hb parsed', ?_⟩
      constructor
      · intro h
        obtain rfl := ParsedInternalKey.debugString_inj.1 h
        exact .inl (Except.ok.inj (hk.symm.trans hk'))
      · rintro (rfl | ⟨hno, -, -⟩)
        · exact Except.ok.inj ((ha parsed).symm.trans (hb parsed))
        · exact absurd hno hgood

end Leveldb
