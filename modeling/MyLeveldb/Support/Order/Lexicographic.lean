import Mathlib.Data.List.Lex
import MyLeveldb.Support.Order.ThreeWay

/-!
# Support — Order — Lexicographic

Lists over a linear order, compared lexicographically, a proper prefix first: `ofLT` on lists.

`Parts xs ys p`: the lists run together for `p` and part there, at the end of one of them or at two
different elements.  Any two lists part (`exists_parts`), they differ for the first time at one
place only (`differ_unique`), and the comparator looks at nothing but the elements there
(`ofLT_append`, `ofLT_cons`).

* `ofLT_append_self`: a proper prefix is before the whole.
* `exists_append_of_replicate_le`: a list that is not before a run of the greatest element starts
  with that run.
-/

namespace ThreeWay

universe u

variable {α : Type u} {p q xs ys : List α} {x y : α}

/-- Where `xs` and `ys` part: after `p`. -/
inductive Parts : List α → List α → List α → Prop where
  | left (p ys : List α) : Parts p (p ++ ys) p
  | right (p : List α) (x : α) (xs : List α) : Parts (p ++ x :: xs) p p
  | differ (p : List α) {x y : α} (h : x ≠ y) (xs ys : List α) :
      Parts (p ++ x :: xs) (p ++ y :: ys) p

theorem Parts.cons (h : Parts xs ys p) (x : α) : Parts (x :: xs) (x :: ys) (x :: p) := by
  cases h with
  | left p ys => exact .left (x :: p) ys
  | right p y xs => exact .right (x :: p) y xs
  | differ p h xs ys => exact .differ (x :: p) h xs ys

theorem exists_parts : ∀ xs ys : List α, ∃ p, Parts xs ys p
  | [], ys => ⟨[], .left [] ys⟩
  | x :: xs, [] => ⟨[], .right [] x xs⟩
  | x :: xs, y :: ys => by
      by_cases h : x = y
      · obtain ⟨p, hp⟩ := exists_parts xs ys
        exact ⟨x :: p, h ▸ hp.cons x⟩
      · exact ⟨[], .differ [] h xs ys⟩

/-- Two lists differ at one place for the first time. -/
theorem differ_unique {p' xs' ys' : List α} {x' y' : α} (hxs : p ++ x :: xs = p' ++ x' :: xs')
    (hys : p ++ y :: ys = p' ++ y' :: ys') (h : x ≠ y) (h' : x' ≠ y') :
    p = p' ∧ x = x' ∧ xs = xs' ∧ y = y' := by
  induction p generalizing p' with
  | nil =>
      cases p' with
      | nil =>
          obtain ⟨rfl, rfl⟩ := List.cons.inj hxs
          exact ⟨rfl, rfl, rfl, (List.cons.inj hys).1⟩
      | cons z p' => exact absurd ((List.cons.inj hxs).1.trans (List.cons.inj hys).1.symm) h
  | cons z p ih =>
      cases p' with
      | nil => exact absurd ((List.cons.inj hxs).1.symm.trans (List.cons.inj hys).1) h'
      | cons z' p' =>
          obtain ⟨rfl, hxs'⟩ := List.cons.inj hxs
          obtain ⟨rfl, hrest⟩ := ih hxs' (List.cons.inj hys).2
          exact ⟨rfl, hrest⟩

/-- A list is a run of `t`, followed by nothing or by another element. -/
theorem exists_run [DecidableEq α] (t : α) :
    ∀ xs : List α, ∃ n, xs = List.replicate n t ∨
      ∃ x ys, x ≠ t ∧ xs = List.replicate n t ++ x :: ys
  | [] => ⟨0, .inl rfl⟩
  | x :: xs => by
      by_cases h : x = t
      · obtain ⟨n, rfl | ⟨y, ys, hy, rfl⟩⟩ := exists_run t xs
        · exact ⟨n + 1, .inl (h ▸ rfl)⟩
        · exact ⟨n + 1, .inr ⟨y, ys, hy, h ▸ rfl⟩⟩
      · exact ⟨0, .inr ⟨x, xs, h, rfl⟩⟩

/-! ### The comparator -/

section Compare

variable [LinearOrder α]

theorem ofLT_cons (x y : α) (xs ys : List α) :
    ofLT (x :: xs) (y :: ys) = if x < y then -1 else if y < x then 1 else ofLT xs ys := by
  simp only [ofLT, List.cons_lt_cons_iff]
  by_cases h₁ : x < y
  · simp [h₁]
  · by_cases h₂ : y < x
    · simp [h₁, h₂, h₂.ne']
    · obtain rfl : x = y := le_antisymm (not_lt.mp h₂) (not_lt.mp h₁)
      simp only [lt_irrefl, true_and, false_or, if_false]
      split_ifs <;> rfl

/-- What two lists start with together does not matter. -/
theorem ofLT_append (p xs ys : List α) : ofLT (p ++ xs) (p ++ ys) = ofLT xs ys := by
  induction p with
  | nil => rfl
  | cons z p ih => rw [List.cons_append, List.cons_append, ofLT_cons, ih, if_neg, if_neg] <;> simp

/-- A proper prefix is before the whole. -/
theorem ofLT_append_self (p : List α) (x : α) (xs : List α) : ofLT p (p ++ x :: xs) < 0 := by
  have := ofLT_append p [] (x :: xs)
  rw [List.append_nil] at this
  rw [this]
  exact ofLT_neg.mpr (List.nil_lt_cons x xs)

/-- A list that is not before a run of `t` starts with it, if none of its elements is above `t`. -/
theorem exists_append_of_replicate_le {t : α} {n : Nat} (ht : ∀ y ∈ ys, y ≤ t)
    (h : ofLT (List.replicate n t ++ xs) ys ≤ 0) :
    ∃ zs, ys = List.replicate n t ++ zs ∧ ofLT xs zs ≤ 0 := by
  induction n generalizing ys with
  | zero => exact ⟨ys, rfl, h⟩
  | succ n ih =>
      cases ys with
      | nil => exact absurd (ofLT_le.mp h) (not_le.mpr (List.nil_lt_cons t _))
      | cons y ys =>
          have hle : y ≤ t := ht y List.mem_cons_self
          rw [List.replicate_succ, List.cons_append, ofLT_cons, if_neg (not_lt.mpr hle)] at h
          obtain rfl : y = t := by
            by_contra hne
            rw [if_pos (lt_of_le_of_ne hle hne)] at h
            omega
          rw [if_neg (lt_irrefl y)] at h
          obtain ⟨zs, rfl, hzs⟩ := ih (fun z hz => ht z (List.mem_cons_of_mem y hz)) h
          exact ⟨zs, rfl, hzs⟩

end Compare

end ThreeWay
