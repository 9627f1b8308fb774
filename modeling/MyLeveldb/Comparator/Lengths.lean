import MyLeveldb.Comparator.Bytewise

/-!
# Comparator — Lengths

`Slice::compare` on slices of every length.  The shorter length goes through an `int` on its way to
`memcmp` (`throughInt`): from `2^31` bytes on it comes out as another number, too small or too
large.

* Where it is too small, a difference past it is not seen, and the lengths decide.
* Where it is too large, the end of the shorter slice is not seen: `memcmp` reads on past it.

`slice_compare_lengths`: the result is the lexicographic one exactly where neither does any harm.
-/

namespace Leveldb

open ThreeWay

/-- The low 32 bits of a length, sign-extended to 64. -/
def throughInt (n : Nat) : Nat :=
  if n % 2 ^ 32 < 2 ^ 31 then n % 2 ^ 32 else n % 2 ^ 32 + (2 ^ 64 - 2 ^ 32)

theorem sizeOfInt_intOfSize_eq (n : Nat) : sizeOfInt (intOfSize n) = throughInt n := by
  have hmod : intOfSize n = if (n : Int) % 2 ^ 32 < 2 ^ 31 then (n : Int) % 2 ^ 32
      else (n : Int) % 2 ^ 32 - 2 ^ 32 := rfl
  rw [sizeOfInt, hmod, throughInt]
  split_ifs <;> omega

/-- `a == b`. -/
def Slice.equal (a b : Bytes) : Except Fault Bool :=
  if a.length = b.length then do
    let r ← memcmp a.length a b
    .ok (r = 0)
  else .ok false

variable {a b p xs ys : Bytes} {x y : UInt8} {n : Nat}

/-! ### `memcmp` -/

theorem memcmp_swap (n : Nat) (a b : Bytes) : memcmp n b a = (memcmp n a b).map (- ·) := by
  induction n generalizing a b with
  | zero => rfl
  | succ n ih =>
      cases a with
      | nil => cases b <;> rfl
      | cons x a =>
          cases b with
          | nil => rfl
          | cons y b =>
              rw [memcmp, memcmp]
              by_cases hne : x = y
              · subst hne
                simp only [UInt8.lt_irrefl, if_false]
                exact ih a b
              · rcases UInt8.lt_or_lt_of_ne hne with h | h
                · rw [if_neg (UInt8.lt_asymm h), if_pos h, if_pos h]
                  rfl
                · rw [if_pos h, if_neg (UInt8.lt_asymm h), if_pos h]
                  rfl

/-- The first difference decides, if it is among the bytes that are compared. -/
theorem memcmp_differ (h : x ≠ y) (n : Nat) : memcmp n (p ++ x :: xs) (p ++ y :: ys) =
    .ok (if n ≤ p.length then 0 else if x < y then -1 else 1) := by
  induction p generalizing n with
  | nil =>
      cases n with
      | zero => rfl
      | succ n =>
          have hlong : ¬ n + 1 ≤ ([] : Bytes).length := Nat.not_succ_le_zero n
          rw [List.nil_append, List.nil_append, memcmp, if_neg hlong]
          rcases UInt8.lt_or_lt_of_ne h with hlt | hlt
          · rw [if_pos hlt, if_pos hlt]
          · rw [if_neg (UInt8.lt_asymm hlt), if_pos hlt, if_neg (UInt8.lt_asymm hlt)]
  | cons z p ih =>
      cases n with
      | zero => rfl
      | succ n =>
          rw [List.cons_append, List.cons_append, memcmp, if_neg (UInt8.lt_irrefl z),
            if_neg (UInt8.lt_irrefl z), ih]
          simp only [List.length_cons, Nat.add_le_add_iff_right]

/-- The length `memcmp` is called with. -/
def compared (a b : Bytes) : Nat := throughInt (min a.length b.length)

/-- What `memcmp` returns, or where that is 0, how the lengths compare. -/
def byLength (a b : Bytes) (r : Int) : Int := if r = 0 then ofLT a.length b.length else r

theorem byLength_zero (a b : Bytes) : byLength a b 0 = ofLT a.length b.length := if_pos rfl

theorem byLength_of_ne {r : Int} (a b : Bytes) (h : r ≠ 0) : byLength a b r = r := if_neg h

/-- `compare`: the lengths decide where `memcmp` does not. -/
theorem compare_eq_memcmp (a b : Bytes) : bytewiseComparator a b =
    (memcmp (compared a b) a b).map (byLength a b) := by
  have hmin : (if a.length < b.length then a.length else b.length) = min a.length b.length := by
    split_ifs <;> omega
  rw [bytewiseComparator, Slice.compare, hmin, sizeOfInt_intOfSize_eq, compared]
  cases memcmp (throughInt (min a.length b.length)) a b with
  | error f => rfl
  | ok r =>
      show _ = Except.ok (byLength a b r)
      rw [ok_bind]
      by_cases h₀ : r = 0
      · subst h₀
        rw [byLength_zero, if_pos rfl, ofLT]
        split_ifs <;> rfl
      · rw [byLength_of_ne a b h₀, if_neg h₀]

theorem compared_comm (a b : Bytes) : compared b a = compared a b := by
  rw [compared, compared, Nat.min_comm]

theorem ofLT_swap (m n : Nat) : ofLT n m = -ofLT m n := by
  unfold ofLT
  split_ifs <;> omega

/-- Right or wrong, `compare` is antisymmetric. -/
theorem compare_swap (a b : Bytes) :
    bytewiseComparator b a = (bytewiseComparator a b).map (- ·) := by
  rw [compare_eq_memcmp, compare_eq_memcmp, compared_comm, memcmp_swap]
  cases memcmp (compared a b) a b with
  | error f => rfl
  | ok r =>
      refine congrArg Except.ok ?_
      show byLength b a (-r) = -byLength a b r
      by_cases h₀ : r = 0
      · subst h₀
        rw [neg_zero, byLength_zero, byLength_zero, ofLT_swap]
      · rw [byLength_of_ne a b h₀, byLength_of_ne b a (neg_ne_zero.mpr h₀)]

/-! ### Where the sign is right -/

/-- The result has the sign of the lexicographic order. -/
def SignRight (a b : Bytes) : Prop :=
  ∃ r, bytewiseComparator a b = .ok r ∧ r.sign = (bytewiseOrder a b).sign

theorem signRight_iff {r : Int} (h : bytewiseComparator a b = .ok r) :
    SignRight a b ↔ r.sign = (bytewiseOrder a b).sign := by
  constructor
  · rintro ⟨r', h', hsign⟩
    rw [h] at h'
    cases h'
    exact hsign
  · exact fun hsign => ⟨r, h, hsign⟩

theorem SignRight.swap (h : SignRight a b) : SignRight b a := by
  obtain ⟨r, hrun, hsign⟩ := h
  refine ⟨-r, by rw [compare_swap, hrun]; rfl, ?_⟩
  rw [Int.sign_neg, hsign, isStrict_bytewiseOrder.sign_flip b a]

theorem bytewiseOrder_differ (h : x ≠ y) :
    bytewiseOrder (p ++ x :: xs) (p ++ y :: ys) = if x < y then -1 else 1 := by
  rw [bytewiseOrder_append, bytewiseOrder_cons]
  rcases UInt8.lt_or_lt_of_ne h with hlt | hlt
  · rw [if_pos hlt, if_pos hlt]
  · rw [if_neg (UInt8.lt_asymm hlt), if_pos hlt, if_neg (UInt8.lt_asymm hlt)]

/-- Where two strings differ, the first difference is seen, or the lengths say the same. -/
theorem signRight_differ (h : x ≠ y) (ha : a = p ++ x :: xs) (hb : b = p ++ y :: ys) :
    SignRight a b ↔ p.length < compared a b ∨
      x < y ∧ a.length < b.length ∨ y < x ∧ b.length < a.length := by
  have hrun := compare_eq_memcmp a b
  have hcmp : memcmp (compared a b) a b = .ok _ := ha ▸ hb ▸ memcmp_differ h _
  have horder : bytewiseOrder a b = if x < y then -1 else 1 := ha ▸ hb ▸ bytewiseOrder_differ h
  rw [hcmp] at hrun
  rw [signRight_iff hrun, horder]
  by_cases hseen : compared a b ≤ p.length
  · rw [if_pos hseen, byLength_zero]
    rcases UInt8.lt_or_lt_of_ne h with hlt | hlt
    · rw [if_pos hlt]
      show Int.sign _ = -1 ↔ _
      rw [Int.sign_eq_neg_one_iff_neg, ofLT_neg]
      constructor
      · exact fun hl => .inr (.inl ⟨hlt, hl⟩)
      · rintro (hk | ⟨-, hl⟩ | ⟨hgt, -⟩)
        · omega
        · exact hl
        · exact absurd hgt (UInt8.lt_asymm hlt)
    · rw [if_neg (UInt8.lt_asymm hlt)]
      show Int.sign _ = 1 ↔ _
      rw [Int.sign_eq_one_iff_pos, ofLT_pos]
      constructor
      · exact fun hl => .inr (.inr ⟨hlt, hl⟩)
      · rintro (hk | ⟨hgt, -⟩ | ⟨-, hl⟩)
        · omega
        · exact absurd hgt (UInt8.lt_asymm hlt)
        · exact hl
  · rw [if_neg hseen]
    refine iff_of_true ?_ (.inl (Nat.not_le.mp hseen))
    by_cases hlt : x < y
    · rw [if_pos hlt]
      rfl
    · rw [if_neg hlt]
      rfl

/-- Where one string starts with the other, the end of the shorter one is seen. -/
theorem signRight_append (p xs : Bytes) :
    SignRight (p ++ xs) p ↔ throughInt p.length ≤ p.length := by
  have hcompared : compared (p ++ xs) p = throughInt p.length := by
    rw [compared, List.length_append, Nat.min_eq_right (Nat.le_add_right _ _)]
  have hrun := compare_eq_memcmp (p ++ xs) p
  rw [hcompared, memcmp_append_self] at hrun
  by_cases hk : throughInt p.length ≤ p.length
  · rw [if_pos hk] at hrun
    rw [signRight_iff hrun, byLength_zero]
    refine iff_of_true ?_ hk
    cases xs with
    | nil => rw [List.append_nil, isStrict_bytewiseOrder.self p, ofLT_tie.mpr rfl]
    | cons x xs =>
        have hlen : p.length < (p ++ x :: xs).length := by simp
        have hafter := (isStrict_bytewiseOrder.flip _ _).mp (bytewiseOrder_append_self p x xs)
        rw [Int.sign_eq_one_of_pos hafter, Int.sign_eq_one_of_pos (ofLT_pos.mpr hlen)]
  · rw [if_neg hk] at hrun
    refine iff_of_false ?_ hk
    rintro ⟨r, hrun', -⟩
    rw [hrun] at hrun'
    cases hrun'

/-! ### All lengths -/

/-- No difference is passed over that the lengths do not make up for, and no end is. -/
structure Right (a b : Bytes) : Prop where
  differ : ∀ p x y xs ys, a = p ++ x :: xs → b = p ++ y :: ys → x ≠ y →
    p.length < compared a b ∨ x < y ∧ a.length < b.length ∨ y < x ∧ b.length < a.length
  starts : a <+: b ∨ b <+: a → compared a b ≤ min a.length b.length

theorem not_starts_of_differ (h : x ≠ y) : ¬ (p ++ x :: xs <+: p ++ y :: ys) := by
  intro hp
  obtain ⟨zs, hzs⟩ := (List.prefix_append_right_inj p).mp hp
  exact h (List.cons.inj hzs).1

theorem Right.swap (h : Right a b) : Right b a := by
  refine ⟨fun p x y xs ys hb ha hne => ?_, fun hp => ?_⟩
  · rw [compared_comm]
    rcases h.differ p y x ys xs ha hb hne.symm with hseen | hlt | hlt
    · exact .inl hseen
    · exact .inr (.inr hlt)
    · exact .inr (.inl hlt)
  · rw [compared_comm, Nat.min_comm]
    exact h.starts hp.symm

/-- Where one string starts with the other, there is no first difference. -/
theorem right_prefix (p xs : Bytes) : Right (p ++ xs) p ↔ throughInt p.length ≤ p.length := by
  have hmin : min (p ++ xs).length p.length = p.length := by
    rw [List.length_append, Nat.min_eq_right (Nat.le_add_right _ _)]
  have hcompared : compared (p ++ xs) p = throughInt p.length := by rw [compared, hmin]
  constructor
  · intro h
    have hle := h.starts (.inr (List.prefix_append p xs))
    rwa [hcompared, hmin] at hle
  · intro hle
    refine ⟨fun q x y ys zs ha hb hne => ?_, fun _ => by rwa [hcompared, hmin]⟩
    have hp : p <+: p ++ xs := List.prefix_append p xs
    rw [ha, hb] at hp
    exact absurd hp (not_starts_of_differ hne.symm)

theorem signRight_iff_right (a b : Bytes) : SignRight a b ↔ Right a b := by
  obtain ⟨p, hparts⟩ := exists_parts a b
  cases hparts with
  | left _ ys =>
      have hright := signRight_append a ys
      rw [← right_prefix a ys] at hright
      exact ⟨fun h => (hright.mp h.swap).swap, fun h => (hright.mpr h.swap).swap⟩
  | right _ x xs => rw [signRight_append, right_prefix]
  | differ _ hne xs ys =>
      rw [signRight_differ hne rfl rfl]
      constructor
      · intro h
        refine ⟨fun q x' y' xs' ys' ha hb hne' => ?_, fun hp => ?_⟩
        · obtain ⟨rfl, rfl, -, rfl⟩ := differ_unique ha hb hne hne'
          exact h
        · rcases hp with hp | hp
          · exact absurd hp (not_starts_of_differ hne)
          · exact absurd hp (not_starts_of_differ hne.symm)
      · exact fun h => h.differ _ _ _ _ _ rfl rfl hne

/-- Below `2^31` bytes the length comes through. -/
theorem right_of_lt (h : min a.length b.length < 2 ^ 31) : Right a b :=
  (signRight_iff_right a b).mp ⟨_, compare_eq h, rfl⟩

/-- `==` compares all bytes. -/
theorem equal_eq (a b : Bytes) : Slice.equal a b = .ok (decide (a = b)) := by
  unfold Slice.equal
  split_ifs with hlen
  · obtain ⟨p, hparts⟩ := exists_parts a b
    cases hparts with
    | left _ ys =>
        obtain rfl : ys = [] := by simpa using hlen
        have hself := memcmp_append_self a [] a.length
        rw [if_pos (Nat.le_refl _), List.append_nil] at hself
        rw [List.append_nil, hself, ok_bind, decide_eq_true rfl, decide_eq_true rfl]
    | right _ x xs => simp at hlen
    | @differ _ x y hne xs ys =>
        have hdiff : ¬ p ++ x :: xs = p ++ y :: ys := fun h =>
          hne (List.cons.inj (List.append_cancel_left h)).1
        have hlong : ¬ (p ++ x :: xs).length ≤ p.length := by simp
        rw [memcmp_differ hne, if_neg hlong, ok_bind, decide_eq_false hdiff]
        split_ifs <;> rfl
  · have hne : a ≠ b := fun h => hlen (congrArg List.length h)
    rw [decide_eq_false hne]

/-- `compare` as the lexicographic order has it, and `==` with it. -/
structure Lexicographic (a b : Bytes) : Prop where
  sign : SignRight a b
  swapped : ∃ r r', bytewiseComparator a b = .ok r ∧ bytewiseComparator b a = .ok r' ∧
    r'.sign = -r.sign
  equal : bytewiseComparator a b = .ok 0 ↔ Slice.equal a b = .ok true

theorem lexicographic_of_signRight (h : SignRight a b) : Lexicographic a b := by
  obtain ⟨r, hrun, hsign⟩ := id h
  refine ⟨h, ⟨r, -r, hrun, by rw [compare_swap, hrun]; rfl, Int.sign_neg r⟩, ?_⟩
  have hzero : r = 0 ↔ a = b := by
    rw [← Int.sign_eq_zero_iff_zero, hsign, Int.sign_eq_zero_iff_zero]
    constructor
    · exact isStrict_bytewiseOrder.eq_of_tie a b
    · rintro rfl
      exact isStrict_bytewiseOrder.self a
  rw [hrun, equal_eq, Except.ok.injEq, hzero, Except.ok.injEq, decide_eq_true_iff]

/-- `compare` puts `a` before `b`, or finds them equal. -/
def NotAfter (a b : Bytes) : Prop := ∃ r, bytewiseComparator a b = .ok r ∧ r ≤ 0

theorem notAfter_iff (h : SignRight a b) : NotAfter a b ↔ bytewiseOrder a b ≤ 0 := by
  obtain ⟨r, hrun, hsign⟩ := h
  have hle : r ≤ 0 ↔ bytewiseOrder a b ≤ 0 := by
    rw [← Int.sign_nonpos_iff, hsign, Int.sign_nonpos_iff]
  constructor
  · rintro ⟨r', hrun', hr'⟩
    rw [hrun] at hrun'
    cases hrun'
    exact hle.mp hr'
  · exact fun h₀ => ⟨r, hrun, hle.mpr h₀⟩

/-- **When `Slice::compare` is the lexicographic order**, for every length. -/
theorem slice_compare_lengths (a b : Bytes) :
    (Lexicographic a b ↔ Right a b) ∧
      ∀ c, Right a b → Right b c → Right a c → NotAfter a b → NotAfter b c → NotAfter a c := by
  constructor
  · rw [← signRight_iff_right]
    exact ⟨Lexicographic.sign, lexicographic_of_signRight⟩
  · intro c hab hbc hac
    rw [← signRight_iff_right] at hab hbc hac
    rw [notAfter_iff hab, notAfter_iff hbc, notAfter_iff hac]
    exact isStrict_bytewiseOrder.trans a b c

theorem slice_compare_lengths_short : NotAfter [97] [99] :=
  (slice_compare_lengths [97] [98]).2 [99] (right_of_lt (by decide)) (right_of_lt (by decide))
    (right_of_lt (by decide)) ⟨-1, by decide, by decide⟩ ⟨-1, by decide, by decide⟩

/-- Of `2^32` bytes none are compared. -/
theorem slice_compare_lengths_not :
    ¬ Lexicographic (List.replicate (2 ^ 32) 1) (List.replicate (2 ^ 32) 2) := by
  intro h
  obtain ⟨n, hn⟩ : ∃ n, 2 ^ 32 = n + 1 := ⟨2 ^ 32 - 1, by decide⟩
  have hcompared : compared (List.replicate (2 ^ 32) 1) (List.replicate (2 ^ 32) 2) = 0 := by
    rw [compared, List.length_replicate, List.length_replicate]
    decide
  have hsign := h.sign
  rw [hn] at hsign hcompared
  have hdiffer := (signRight_differ (show (1 : UInt8) ≠ 2 by decide)
    (show List.replicate (n + 1) 1 = [] ++ 1 :: List.replicate n 1 from rfl)
    (show List.replicate (n + 1) 2 = [] ++ 2 :: List.replicate n 2 from rfl)).mp hsign
  simp only [hcompared, List.length_replicate, Nat.lt_irrefl, and_false, or_false] at hdiffer
  exact absurd hdiffer (Nat.not_lt_zero _)

end Leveldb
