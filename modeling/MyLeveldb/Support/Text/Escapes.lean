import Mathlib.Data.List.Infix
import Mathlib.Tactic.Common

/-!
# Support — Text — Escapes

Texts in which the letters that are not plain are written as a mark and a word of a fixed length.
The mark is plain, and is not escaped itself, so that a text can look like the escape of another.

* `encode_decode`: every plain text is the escape of what it decodes to.
* `decode_encode_iff`: a text is decoded again exactly where it has no escape in it already.
-/

/-- How letters are escaped; `unword` finds the letter a word is for. -/
structure Escaping (α : Type) where
  plain : α → Bool
  mark : α
  width : Nat
  word : α → List α
  unword : List α → Option α
  mark_plain : plain mark
  word_plain : ∀ c, ¬ plain c → ∀ x ∈ word c, plain x ∧ x ≠ mark
  length_word : ∀ c, ¬ plain c → (word c).length = width
  unword_eq_some : ∀ w c, unword w = some c ↔ ¬ plain c ∧ w = word c

namespace Escaping

variable {α : Type} {e : Escaping α} {a c : α} {t v w : List α}

def letter (e : Escaping α) (c : α) : List α := if e.plain c then [c] else e.mark :: e.word c

def encode (e : Escaping α) (v : List α) : List α := v.flatMap e.letter

/-- There is no escape in the text. -/
def Clean (e : Escaping α) (v : List α) : Prop := ∀ c, ¬ e.plain c → ¬ e.mark :: e.word c <:+: v

/-- The next letter of `t` is not the mark of an escape. -/
def Bare (e : Escaping α) (a : α) (t : List α) : Prop :=
  a = e.mark → ∀ c, ¬ e.plain c → ¬ e.word c <+: t

/-- Reading `t` from the left, with every escape replaced, gives `v`. -/
inductive Reads (e : Escaping α) : List α → List α → Prop where
  | nil : Reads e [] []
  | word {c : α} {t v : List α} (hc : ¬ e.plain c) (h : Reads e t v) :
      Reads e (e.mark :: (e.word c ++ t)) (c :: v)
  | bare {a : α} {t v : List α} (ha : e.Bare a t) (h : Reads e t v) : Reads e (a :: t) (a :: v)

section

variable [DecidableEq α]

/-- The decoder; `skip` letters belong to the last escape. -/
def decodeFrom (e : Escaping α) : Nat → List α → List α
  | _, [] => []
  | skip + 1, _ :: t => decodeFrom e skip t
  | 0, a :: t =>
      if a = e.mark then
        match e.unword (t.take e.width) with
        | some c => c :: decodeFrom e e.width t
        | none   => a :: decodeFrom e 0 t
      else a :: decodeFrom e 0 t

def decode (e : Escaping α) (t : List α) : List α := e.decodeFrom 0 t

theorem decodeFrom_eq (k : Nat) : e.decodeFrom k t = e.decode (t.drop k) := by
  induction t generalizing k with
  | nil => cases k <;> rfl
  | cons a t ih =>
      cases k with
      | zero => rfl
      | succ k => exact ih k

omit [DecidableEq α] in
theorem unword_take (hc : ¬ e.plain c) : e.unword (t.take e.width) = some c ↔ e.word c <+: t := by
  rw [e.unword_eq_some, List.prefix_iff_eq_take, e.length_word c hc]
  exact ⟨fun h => h.2.symm, fun h => ⟨hc, h.symm⟩⟩

theorem decode_word (hc : ¬ e.plain c) :
    e.decode (e.mark :: (e.word c ++ t)) = c :: e.decode t := by
  have hword := (unword_take (t := e.word c ++ t) hc).2 (List.prefix_append _ _)
  rw [decode, decodeFrom, if_pos rfl, hword]
  simp only
  rw [decodeFrom_eq, ← e.length_word c hc, List.drop_left]

theorem decode_bare (ha : e.Bare a t) : e.decode (a :: t) = a :: e.decode t := by
  rw [decode, decodeFrom]
  split_ifs with hmark
  · cases hword : e.unword (t.take e.width) with
    | none => rfl
    | some c =>
        have hc := ((e.unword_eq_some _ c).1 hword).1
        exact absurd ((unword_take hc).1 hword) (ha hmark c hc)
  · rfl

/-- The decoder reads. -/
theorem reads_iff : e.Reads t v ↔ e.decode t = v := by
  constructor
  · intro h
    induction h with
    | nil => rfl
    | word hc h ih => rw [decode_word hc, ih]
    | bare ha h ih => rw [decode_bare ha, ih]
  · rintro rfl
    induction hn : t.length using Nat.strong_induction_on generalizing t with
    | _ n ih =>
        cases t with
        | nil => exact .nil
        | cons a t =>
            rw [List.length_cons] at hn
            by_cases ha : e.Bare a t
            · rw [decode_bare ha]
              exact .bare ha (ih t.length (by omega) rfl)
            · simp only [Bare, not_forall, not_not] at ha
              obtain ⟨rfl, c, hc, t, rfl⟩ := ha
              rw [List.length_append] at hn
              rw [decode_word hc]
              exact .word hc (ih t.length (by omega) rfl)

end

/-! ### What is read -/

theorem encode_plain : ∀ x ∈ e.encode v, e.plain x := by
  intro x hx
  obtain ⟨c, -, hx⟩ := List.mem_flatMap.1 hx
  unfold letter at hx
  split_ifs at hx with hc
  · rwa [List.mem_singleton.1 hx]
  · rcases List.mem_cons.1 hx with rfl | hx
    · exact e.mark_plain
    · exact (e.word_plain c hc x hx).1

/-- A plain text is the escape of what is read. -/
theorem Reads.encode_eq (h : e.Reads t v) (ht : ∀ x ∈ t, e.plain x) : e.encode v = t := by
  induction h with
  | nil => rfl
  | word hc h ih =>
      have hrest := ih fun x hx => ht x (List.mem_cons_of_mem _ (List.mem_append_right _ hx))
      rw [encode, List.flatMap_cons, ← encode, hrest, letter, if_neg hc, List.cons_append]
  | bare ha h ih =>
      obtain ⟨hplain, ht⟩ := List.forall_mem_cons.1 ht
      rw [encode, List.flatMap_cons, ← encode, ih ht, letter, if_pos hplain, List.singleton_append]

/-- Letters that belong to a word are read where they stand. -/
theorem Reads.prefix_of (h : e.Reads t v) (hw : ∀ x ∈ w, e.plain x ∧ x ≠ e.mark) (hwv : w <+: v) :
    w <+: t := by
  induction w generalizing t v with
  | nil => exact List.nil_prefix
  | cons x w ih =>
      obtain ⟨hx, hw⟩ := List.forall_mem_cons.1 hw
      cases h with
      | nil => exact absurd (List.prefix_nil.1 hwv) (List.cons_ne_nil x w)
      | word hc h =>
          obtain ⟨rfl, -⟩ := List.cons_prefix_cons.1 hwv
          exact absurd hx.1 hc
      | bare ha h =>
          obtain ⟨rfl, hrest⟩ := List.cons_prefix_cons.1 hwv
          exact List.cons_prefix_cons.2 ⟨rfl, ih h hw hrest⟩

theorem Reads.clean (h : e.Reads t v) : e.Clean v := by
  induction h with
  | nil => exact fun c hc h => absurd (List.infix_nil.1 h) (List.cons_ne_nil _ _)
  | word hc h ih =>
      intro d hd hinfix
      rcases List.infix_cons_iff.1 hinfix with hpre | hinfix
      · obtain ⟨rfl, -⟩ := List.cons_prefix_cons.1 hpre
        exact hc e.mark_plain
      · exact ih d hd hinfix
  | bare ha h ih =>
      intro d hd hinfix
      rcases List.infix_cons_iff.1 hinfix with hpre | hinfix
      · obtain ⟨hmark, hpre⟩ := List.cons_prefix_cons.1 hpre
        exact ha hmark.symm d hd (h.prefix_of (e.word_plain d hd) hpre)
      · exact ih d hd hinfix

/-! ### What is escaped -/

theorem encode_prefix_of (hw : ∀ x ∈ w, e.plain x ∧ x ≠ e.mark) (h : w <+: e.encode v) :
    w <+: v := by
  induction w generalizing v with
  | nil => exact List.nil_prefix
  | cons x w ih =>
      obtain ⟨hx, hw⟩ := List.forall_mem_cons.1 hw
      cases v with
      | nil => exact absurd (List.prefix_nil.1 h) (List.cons_ne_nil x w)
      | cons c v =>
          rw [encode, List.flatMap_cons, letter] at h
          split_ifs at h with hc
          · obtain ⟨rfl, hrest⟩ := List.cons_prefix_cons.1 h
            exact List.cons_prefix_cons.2 ⟨rfl, ih hw hrest⟩
          · exact absurd (List.cons_prefix_cons.1 h).1 hx.2

theorem reads_encode (hv : e.Clean v) : e.Reads (e.encode v) v := by
  induction v with
  | nil => exact .nil
  | cons c v ih =>
      have hrest := ih fun d hd h => hv d hd (List.infix_cons h)
      rw [encode, List.flatMap_cons, ← encode, letter]
      split_ifs with hc
      · refine .bare (fun hmark d hd h => ?_) hrest
        have hpre := encode_prefix_of (e.word_plain d hd) h
        exact hv d hd (List.cons_prefix_cons.2 ⟨hmark.symm, hpre⟩).isInfix
      · exact .word hc hrest

section

variable [DecidableEq α]

theorem encode_decode (ht : ∀ x ∈ t, e.plain x) : e.encode (e.decode t) = t :=
  (reads_iff.2 rfl).encode_eq ht

theorem clean_decode : e.Clean (e.decode t) := (reads_iff.2 rfl).clean

theorem decode_encode_iff : e.decode (e.encode v) = v ↔ e.Clean v := by
  constructor
  · intro h
    rw [← h]
    exact clean_decode
  · exact fun hv => reads_iff.1 (reads_encode hv)

end

end Escaping
