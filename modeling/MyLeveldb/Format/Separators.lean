import MyLeveldb.Comparator.Separators
import MyLeveldb.Format.Order

/-!
# Format — Separators

`InternalKeyComparator::findShortestSeparator` and `findShortSuccessor`: they shorten the user key
and put the greatest tag after what is left of it.

The separator is kept only if the user comparator puts `start` before it.  That is asked of all of
`start`, the tag included, where its user key is meant; `findShortSuccessor` asks it of the user
key.  Over the bytewise comparator the difference is a safeguard: it turns away what
`BytewiseComparatorImpl` has cut too short (`internal_separator_bytewise`).  Over a comparator that
puts a longer string before its prefix, `start` itself is taken for a separator, and an `assert`
fails: `internal_separator`.
-/

namespace Leveldb

open ThreeWay

namespace InternalKeyComparator

/-- `start` after `findShortestSeparator(start, limit)`. -/
def findShortestSeparator (user_comparator_ : Comparator) (start limit : Bytes) :
    Except Fault Bytes := do
  let user_start ← extractUserKey start
  let user_limit ← extractUserKey limit
  let tmp ← user_comparator_.findShortestSeparator user_start user_limit
  -- all of `start`, not `user_start`
  let r ← user_comparator_.compare start tmp
  if r < 0 then
    let tag ← packSequenceAndType kMaxSequenceNumber kValueTypeForSeek
    let tmp := putFixed64 tmp tag
    let c₁ ← compare user_comparator_.compare start tmp
    assertion (c₁ < 0)
    let c₂ ← compare user_comparator_.compare tmp limit
    assertion (c₂ < 0)
    .ok tmp
  else .ok start

/-- `key` after `findShortSuccessor(key)`. -/
def findShortSuccessor (user_comparator_ : Comparator) (key : Bytes) : Except Fault Bytes := do
  let user_key ← extractUserKey key
  let tmp ← user_comparator_.findShortSuccessor user_key
  let r ← user_comparator_.compare user_key tmp
  if r < 0 then
    let tag ← packSequenceAndType kMaxSequenceNumber kValueTypeForSeek
    let tmp := putFixed64 tmp tag
    let c ← compare user_comparator_.compare key tmp
    assertion (c < 0)
    .ok tmp
  else .ok key

end InternalKeyComparator

/-! ### The greatest tag -/

/-- `packSequenceAndType(kMaxSequenceNumber, kValueTypeForSeek)`. -/
def maxTag : U64 := tagOf kMaxSequenceNumber kValueTypeForSeek

theorem packMaxTag : packSequenceAndType kMaxSequenceNumber kValueTypeForSeek = .ok maxTag :=
  packSequenceAndType_eq (Nat.le_refl _) (.inr rfl)

variable {k l p : ParsedInternalKey} {b r start limit : Bytes}

/-- No key has a greater tag, and one key has it. -/
theorem tag_le_maxTag (hs : k.sequence.toNat ≤ kMaxSequenceNumber.toNat) (ht : k.type.Valid) :
    (tagOf k.sequence k.type).toNat ≤ maxTag.toNat ∧
      ((tagOf k.sequence k.type).toNat = maxTag.toNat ↔
        k.sequence = kMaxSequenceNumber ∧ k.type = .kTypeValue) := by
  have hmax : maxTag.toNat = 256 * kMaxSequenceNumber.toNat + 1 := by decide
  have htype := ValueType.valid_iff.mp ht
  rw [toNat_tagOf hs ht, hmax]
  refine ⟨by omega, fun h => ?_, ?_⟩
  · have hval : k.type.toNat = 1 := by omega
    refine ⟨BitVec.eq_of_toNat_eq (by omega), ?_⟩
    rcases ht with ht | ht
    · rw [ht] at hval
      cases hval
    · exact ht
  · rintro ⟨hseq, hval⟩
    rw [hseq, hval]
    rfl

/-! ### One call -/

section Call

variable {user : Comparator} {u v tmp : Bytes} {s t : U64} {c : Int}

/-- A separator that the user comparator does not put after `start` is not kept. -/
theorem separator_kept (hsep : user.findShortestSeparator u v = .ok tmp)
    (hguard : user.compare (u ++ encodeFixed64 s) tmp = .ok c) (hc : 0 ≤ c) :
    InternalKeyComparator.findShortestSeparator user (u ++ encodeFixed64 s) (v ++ encodeFixed64 t) =
      .ok (u ++ encodeFixed64 s) := by
  simp only [InternalKeyComparator.findShortestSeparator, extractUserKey_eq, ok_bind, hsep, hguard]
  rw [if_neg (Int.not_lt.mpr hc)]

/-- One that it puts after `start` is kept with the greatest tag, if both `assert`s hold. -/
theorem separator_swapped {c₁ c₂ : Int} (hsep : user.findShortestSeparator u v = .ok tmp)
    (hguard : user.compare (u ++ encodeFixed64 s) tmp = .ok c) (hc : c < 0)
    (h₁ : InternalKeyComparator.compare user.compare (u ++ encodeFixed64 s)
      (tmp ++ encodeFixed64 maxTag) = .ok c₁)
    (h₂ : InternalKeyComparator.compare user.compare (tmp ++ encodeFixed64 maxTag)
      (v ++ encodeFixed64 t) = .ok c₂) :
    InternalKeyComparator.findShortestSeparator user (u ++ encodeFixed64 s) (v ++ encodeFixed64 t) =
      if c₁ < 0 ∧ c₂ < 0 then .ok (tmp ++ encodeFixed64 maxTag) else .error .assertion := by
  simp only [InternalKeyComparator.findShortestSeparator, extractUserKey_eq, ok_bind, hsep, hguard,
    if_pos hc, packMaxTag, putFixed64, h₁, h₂]
  by_cases hc₁ : c₁ < 0
  · rw [assertion_of hc₁, ok_bind]
    by_cases hc₂ : c₂ < 0
    · rw [assertion_of hc₂, ok_bind, if_pos ⟨hc₁, hc₂⟩]
    · rw [assertion_not hc₂, error_bind, if_neg fun h => hc₂ h.2]
  · rw [assertion_not hc₁, error_bind, if_neg fun h => hc₁ h.1]

end Call

/-! ### Any user comparator -/

/-- What a user comparator's `findShortestSeparator` leaves: a string between the bounds, where
there is room for one, and else `start`. -/
structure SeparatorContract (cmp : Bytes → Bytes → Int) (sep : Bytes → Bytes → Bytes) : Prop where
  between : ∀ x y, cmp x y < 0 → cmp x (sep x y) ≤ 0 ∧ cmp (sep x y) y < 0
  same : ∀ x y, ¬ cmp x y < 0 → sep x y = x

/-- `start` after `findShortestSeparator(start, limit)` is between the bounds, and no `assert`
fails. -/
def InternalSeparates (user : Comparator) (start limit : Bytes) : Prop :=
  ∃ r, InternalKeyComparator.findShortestSeparator user start limit = .ok r ∧
    (∃ c, InternalKeyComparator.compare user.compare start r = .ok c ∧ c ≤ 0) ∧
    ∃ c, InternalKeyComparator.compare user.compare r limit = .ok c ∧ c < 0

section User

variable {cmp : Bytes → Bytes → Int} {sep : Bytes → Bytes → Bytes}
  {succ : Bytes → Except Fault Bytes} {u v : Bytes} {s t : U64}

/-- The user comparator of the functions `cmp`, `sep` and `succ`. -/
def Comparator.ofTotal (cmp : Bytes → Bytes → Int) (sep : Bytes → Bytes → Bytes)
    (succ : Bytes → Except Fault Bytes) : Comparator :=
  { compare := .ofInt cmp, findShortestSeparator := fun x y => .ok (sep x y)
    findShortSuccessor := succ }

theorem compare_ofTotal (u v : Bytes) (s t : U64) :
    InternalKeyComparator.compare (Comparator.ofTotal cmp sep succ).compare (u ++ encodeFixed64 s)
      (v ++ encodeFixed64 t) = .ok (if cmp u v = 0 then ofLT s.toNat t.toNat else cmp u v) :=
  compare_key (.ofInt cmp) u v s t

theorem separates_kept (hc : IsStrict cmp) (hguard : 0 ≤ cmp (u ++ encodeFixed64 s) (sep u v))
    (hlt : (if cmp u v = 0 then ofLT s.toNat t.toNat else cmp u v) < 0) :
    InternalSeparates (.ofTotal cmp sep succ) (u ++ encodeFixed64 s) (v ++ encodeFixed64 t) := by
  refine ⟨_, separator_kept rfl rfl hguard, ⟨_, compare_ofTotal u u s s, ?_⟩,
    _, compare_ofTotal u v s t, hlt⟩
  rw [if_pos (hc.self u)]
  exact ofLT_le.mpr (le_refl _)

theorem separates_swapped (hguard : cmp (u ++ encodeFixed64 s) (sep u v) < 0) :
    InternalSeparates (.ofTotal cmp sep succ) (u ++ encodeFixed64 s) (v ++ encodeFixed64 t) ↔
      (if cmp u (sep u v) = 0 then ofLT s.toNat maxTag.toNat else cmp u (sep u v)) < 0 ∧
        (if cmp (sep u v) v = 0 then ofLT maxTag.toNat t.toNat else cmp (sep u v) v) < 0 := by
  have hsep : (Comparator.ofTotal cmp sep succ).findShortestSeparator u v = .ok (sep u v) := rfl
  have hrun := separator_swapped (t := t) hsep rfl hguard
    (compare_ofTotal u (sep u v) s maxTag) (compare_ofTotal (sep u v) v maxTag t)
  constructor
  · rintro ⟨r, hr, -⟩
    by_contra hneg
    rw [hrun, if_neg hneg] at hr
    cases hr
  · intro hpos
    rw [if_pos hpos] at hrun
    exact ⟨_, hrun, ⟨_, compare_ofTotal u (sep u v) s maxTag, hpos.1.le⟩,
      _, compare_ofTotal (sep u v) v maxTag t, hpos.2⟩

theorem separates_iff (hc : IsStrict cmp) (hsep : SeparatorContract cmp sep)
    (hs : s.toNat ≤ maxTag.toNat) (ht : t.toNat ≤ maxTag.toNat)
    (hlt : (if cmp u v = 0 then ofLT s.toNat t.toNat else cmp u v) < 0) :
    InternalSeparates (.ofTotal cmp sep succ) (u ++ encodeFixed64 s) (v ++ encodeFixed64 t) ↔
      0 ≤ cmp (u ++ encodeFixed64 s) u ∨
        (u ≠ v ∧ ¬ (sep u v = u ∧ s.toNat = maxTag.toNat)) := by
  by_cases hguard : 0 ≤ cmp (u ++ encodeFixed64 s) (sep u v)
  · -- `start` stays as it is
    refine iff_of_true (separates_kept hc hguard hlt) ?_
    by_cases hsame : sep u v = u
    · rw [hsame] at hguard
      exact .inl hguard
    · refine .inr ⟨?_, fun h => hsame h.1⟩
      rintro rfl
      exact hsame (hsep.same u u (by rw [hc.self]; exact lt_irrefl 0))
  rw [separates_swapped (Int.not_le.mp hguard)]
  by_cases huv : cmp u v < 0
  · obtain ⟨hlow, hhigh⟩ := hsep.between u v huv
    have hne : u ≠ v := by
      rintro rfl
      exact absurd (hc.self u) huv.ne
    rw [if_neg hhigh.ne]
    by_cases hsame : sep u v = u
    · rw [hsame] at hguard hhigh ⊢
      rw [if_pos (hc.self u), ofLT_neg]
      constructor
      · rintro ⟨hmax, -⟩
        exact .inr ⟨hne, fun h => hmax.ne h.2⟩
      · rintro (h | ⟨-, hmax⟩)
        · exact absurd h hguard
        · exact ⟨lt_of_le_of_ne hs fun h => hmax ⟨rfl, h⟩, hhigh⟩
    · have hbefore : cmp u (sep u v) < 0 :=
        lt_of_le_of_ne hlow fun h => hsame (hc.eq_of_tie _ _ h).symm
      rw [if_neg hbefore.ne]
      exact iff_of_true ⟨hbefore, hhigh⟩ (.inr ⟨hne, fun h => hsame h.1⟩)
  · -- one user key: nothing is after `start` with the greatest tag and before `limit`
    have htie : cmp u v = 0 := by
      by_contra hne
      rw [if_neg hne] at hlt
      exact huv hlt
    obtain rfl := hc.eq_of_tie u v htie
    have hsame := hsep.same u u huv
    rw [hsame] at hguard ⊢
    refine iff_of_false (fun h => ?_) (fun h => ?_)
    · have hmax := h.2
      rw [if_pos (hc.self u), ofLT_neg] at hmax
      omega
    · rcases h with h | h
      · exact hguard h
      · exact h.1 rfl

/-- **When an internal separator is sound.**  `start` is not before its own user key, or the user
keys differ and either the user separator changes the one of `start` or the tag of `start` is not
the greatest. -/
theorem internal_separator (cmp : Bytes → Bytes → Int) (hc : IsStrict cmp)
    (sep : Bytes → Bytes → Bytes) (hsep : SeparatorContract cmp sep)
    (succ : Bytes → Except Fault Bytes) (k l : ParsedInternalKey) (start limit : Bytes)
    (hk : appendInternalKey [] k = .ok start) (hl : appendInternalKey [] l = .ok limit)
    (hlt : ∃ c, InternalKeyComparator.compare (.ofInt cmp) start limit = .ok c ∧ c < 0) :
    InternalSeparates (.ofTotal cmp sep succ) start limit ↔
      0 ≤ cmp start k.user_key ∨ (k.user_key ≠ l.user_key ∧
        ¬ (sep k.user_key l.user_key = k.user_key ∧ k.sequence = kMaxSequenceNumber ∧
          k.type = .kTypeValue)) := by
  obtain ⟨hks, hkt, rfl⟩ := appendInternalKey_ok hk
  obtain ⟨hls, hlv, rfl⟩ := appendInternalKey_ok hl
  obtain ⟨hkle, hkmax⟩ := tag_le_maxTag hks hkt
  obtain ⟨hlle, -⟩ := tag_le_maxTag hls hlv
  obtain ⟨c, hcompare, hneg⟩ := hlt
  rw [compare_key] at hcompare
  obtain rfl := Except.ok.inj hcompare
  rw [← hkmax]
  exact separates_iff hc hsep hkle hlle hneg

/-- A user separator that changes nothing keeps its contract. -/
theorem contract_same {cmp : Bytes → Bytes → Int} (hc : IsStrict cmp) :
    SeparatorContract cmp fun x _ => x :=
  ⟨fun x _ h => ⟨(hc.self x).le, h⟩, fun _ _ _ => rfl⟩

theorem internal_separator_distinct :
    InternalSeparates (.ofTotal bytewiseOrder (fun x _ => x) .ok)
        [97, 1, 1, 0, 0, 0, 0, 0, 0] [98, 1, 2, 0, 0, 0, 0, 0, 0] ↔
      0 ≤ bytewiseOrder [97, 1, 1, 0, 0, 0, 0, 0, 0] [97] ∨
        (([97] : Bytes) ≠ [98] ∧ ¬ (([97] : Bytes) = [97] ∧ (1 : U64) = kMaxSequenceNumber ∧
          ValueType.kTypeValue = .kTypeValue)) :=
  internal_separator bytewiseOrder isStrict_bytewiseOrder _ (contract_same isStrict_bytewiseOrder)
    _ ⟨[97], 1, .kTypeValue⟩ ⟨[98], 2, .kTypeValue⟩ _ _ (by decide) (by decide)
    ⟨-1, by decide, by decide⟩

/-- The reverse bytewise order puts a key before its own user key: of two versions of `k`, no
separator is found and an `assert` fails. -/
theorem internal_separator_reverse :
    IsStrict (fun a b => bytewiseOrder b a) ∧
      SeparatorContract (fun a b => bytewiseOrder b a) (fun x _ => x) ∧
      InternalKeyComparator.compare (.ofInt fun a b => bytewiseOrder b a)
        [107, 1, 1, 0, 0, 0, 0, 0, 0] [107, 1, 2, 0, 0, 0, 0, 0, 0] = .ok (-1) ∧
      ¬ InternalSeparates (.ofTotal (fun a b => bytewiseOrder b a) (fun x _ => x) .ok)
        [107, 1, 1, 0, 0, 0, 0, 0, 0] [107, 1, 2, 0, 0, 0, 0, 0, 0] := by
  have hc := isStrict_bytewiseOrder.swap
  refine ⟨hc, contract_same hc, by decide, ?_⟩
  rintro ⟨r, hrun, -⟩
  have hfault : InternalKeyComparator.findShortestSeparator
      (.ofTotal (fun a b => bytewiseOrder b a) (fun x _ => x) .ok)
      [107, 1, 1, 0, 0, 0, 0, 0, 0] [107, 1, 2, 0, 0, 0, 0, 0, 0] = .error .assertion := by
    decide
  rw [hfault] at hrun
  cases hrun

end User

/-! ### The bytewise comparator -/

section Bytewise

open BytewiseComparatorImpl

variable {u v xs ys : Bytes} {x y : UInt8} {s t : U64}

/-- With no room for a separator `start` stays; its comparison with its own user key reads as many
bytes as `min_len` says. -/
theorem internal_of_no_room (h : ¬ HasRoom u v) (s t : U64) :
    InternalKeyComparator.findShortestSeparator bytewise (u ++ encodeFixed64 s)
      (v ++ encodeFixed64 t) =
      if sizeOfInt (intOfSize u.length) ≤ u.length then .ok (u ++ encodeFixed64 s)
      else .error .wild := by
  obtain ⟨b, bs, hb⟩ : ∃ b bs, encodeFixed64 s = b :: bs :=
    List.exists_cons_of_length_pos (by rw [length_encodeFixed64]; decide)
  have hsep : bytewise.findShortestSeparator u v = .ok u := separator_of_no_room h
  have hguard : bytewise.compare (u ++ encodeFixed64 s) u =
      if sizeOfInt (intOfSize u.length) ≤ u.length then .ok 1 else .error .wild := by
    rw [hb]
    exact compare_append_self u b bs
  by_cases hlen : sizeOfInt (intOfSize u.length) ≤ u.length
  · rw [if_pos hlen] at hguard ⊢
    exact separator_kept hsep hguard Int.one_nonneg
  · rw [if_neg hlen] at hguard ⊢
    rw [InternalKeyComparator.findShortestSeparator, extractUserKey_eq, ok_bind, extractUserKey_eq,
      ok_bind, hsep, ok_bind, hguard, error_bind]

theorem length_raised_lt (p xs : Bytes) (x : UInt8) : (raised p x xs).length < 2 ^ 31 := by
  rw [raised, length_resize]
  exact (Nat.succ_le_of_lt x.toNat_lt).trans_lt (by decide)

/-- The raised user key, with any tag, is between `start` and `limit`, with any tags. -/
theorem compare_raised (p xs ys : Bytes) (h : x.toNat + 1 < y.toNat) (hle : p.length ≤ x.toNat)
    (s t w : U64) :
    (∃ c, InternalKeyComparator.compare bytewiseComparator (p ++ x :: xs ++ encodeFixed64 s)
      (raised p x xs ++ encodeFixed64 w) = .ok c ∧ c < 0) ∧
    ∃ c, InternalKeyComparator.compare bytewiseComparator (raised p x xs ++ encodeFixed64 w)
      (p ++ y :: ys ++ encodeFixed64 t) = .ok c ∧ c < 0 := by
  have hshort := length_raised_lt p xs x
  have hlow := start_before_raised xs xs h hle
  have hhigh : bytewiseOrder (raised p x xs) (p ++ y :: ys) < 0 := raised_before_limit xs ys h
  exact ⟨⟨_, compare_key_decided (compare_eq (min_lt_of_right_lt hshort)) hlow.ne s w, hlow⟩,
    ⟨_, compare_key_decided (compare_eq (min_lt_of_left_lt hshort)) hhigh.ne w t, hhigh⟩⟩

/-- Room for a separator: `start` stays if the raised byte is cut off, and else makes way for the
raised user key. -/
theorem internal_of_room (p xs ys : Bytes) (h : x.toNat + 1 < y.toNat) (s t : U64) :
    InternalKeyComparator.findShortestSeparator bytewise (p ++ x :: xs ++ encodeFixed64 s)
      (p ++ y :: ys ++ encodeFixed64 t) =
      if x.toNat < p.length then .ok (p ++ x :: xs ++ encodeFixed64 s)
      else .ok (raised p x xs ++ encodeFixed64 maxTag) := by
  have hsep : bytewise.findShortestSeparator (p ++ x :: xs) (p ++ y :: ys) =
      .ok (raised p x xs) := separator_of_room h p xs ys
  have hguard : bytewise.compare (p ++ x :: xs ++ encodeFixed64 s) (raised p x xs) =
      .ok (bytewiseOrder (p ++ x :: xs ++ encodeFixed64 s) (raised p x xs)) :=
    compare_eq (min_lt_of_right_lt (length_raised_lt p xs x))
  have hjoin : p ++ x :: xs ++ encodeFixed64 s = p ++ x :: (xs ++ encodeFixed64 s) := by simp
  split_ifs with hcut
  · refine separator_kept hsep hguard ?_
    rw [hjoin]
    exact ((isStrict_bytewiseOrder.flip _ _).mp (raised_before xs hcut x _)).le
  · have hle := Nat.not_lt.mp hcut
    obtain ⟨⟨c₁, h₁, hc₁⟩, c₂, h₂, hc₂⟩ := compare_raised p xs ys h hle s t maxTag
    have hneg : bytewiseOrder (p ++ x :: xs ++ encodeFixed64 s) (raised p x xs) < 0 := by
      rw [hjoin]
      exact start_before_raised _ xs h hle
    rw [separator_swapped hsep hguard hneg h₁ h₂, if_pos ⟨hc₁, hc₂⟩]

/-- `parseInternalKey` accepts `b`. -/
def Parses (b : Bytes) : Prop := ∀ result, ∃ p, parseInternalKey b result = .ok (true, p)

theorem parses_tagOf (hs : s.toNat ≤ kMaxSequenceNumber.toNat) {t : ValueType} (ht : t.Valid)
    (u : Bytes) : Parses (u ++ encodeFixed64 (tagOf s t)) := fun result =>
  ⟨_, by rw [parseInternalKey_eq, (parts_tagOf hs ht).2, decide_eq_true ht]⟩

theorem Parses.exists_tag (h : Parses b) : ∃ u tag, b = u ++ encodeFixed64 tag := by
  obtain ⟨p, hp⟩ := h ⟨[], 0, .kTypeDeletion⟩
  refine Leveldb.exists_tag ?_
  by_contra hlen
  rw [parseInternalKey] at hp
  simp only [if_pos (Nat.not_le.mp hlen)] at hp
  cases hp

theorem compare_bytewise_key (h : min u.length v.length < 2 ^ 31) (s t : U64) :
    InternalKeyComparator.compare bytewiseComparator (u ++ encodeFixed64 s)
      (v ++ encodeFixed64 t) =
      .ok (if bytewiseOrder u v = 0 then ofLT s.toNat t.toNat else bytewiseOrder u v) := by
  rw [compare_key, compare_eq h, ok_bind]

theorem compare_bytewise_self (h : u.length < 2 ^ 31) (s : U64) :
    InternalKeyComparator.compare bytewiseComparator (u ++ encodeFixed64 s)
      (u ++ encodeFixed64 s) = .ok 0 := by
  rw [compare_bytewise_key (min_lt_of_left_lt h), if_pos (isStrict_bytewiseOrder.self u),
    ofLT_tie.mpr rfl]

/-- `start` after the call is between the bounds and parses; where it is not before `limit`, it
stays. -/
def InternalSeparated (start limit : Bytes) : Prop :=
  ∃ c r, InternalKeyComparator.compare bytewiseComparator start limit = .ok c ∧
    InternalKeyComparator.findShortestSeparator bytewise start limit = .ok r ∧
    (c < 0 → (∃ c₁, InternalKeyComparator.compare bytewiseComparator start r = .ok c₁ ∧ c₁ ≤ 0) ∧
      (∃ c₂, InternalKeyComparator.compare bytewiseComparator r limit = .ok c₂ ∧ c₂ < 0) ∧
      Parses r) ∧
    (0 ≤ c → r = start)

theorem separated_of_same {c : Int} (hu : u.length < 2 ^ 31)
    (hparses : Parses (u ++ encodeFixed64 s))
    (hc : InternalKeyComparator.compare bytewiseComparator (u ++ encodeFixed64 s) limit = .ok c)
    (hrun : InternalKeyComparator.findShortestSeparator bytewise (u ++ encodeFixed64 s) limit =
      .ok (u ++ encodeFixed64 s)) : InternalSeparated (u ++ encodeFixed64 s) limit :=
  ⟨c, _, hc, hrun, fun h => ⟨⟨0, compare_bytewise_self hu s, le_refl 0⟩, ⟨c, hc, h⟩, hparses⟩,
    fun _ => rfl⟩

/-- **Over the bytewise comparator the internal separator is sound.** -/
theorem internal_separator_bytewise (start limit : Bytes) (hs : Parses start) (hl : Parses limit)
    (hlen : start.length < 2 ^ 31) : InternalSeparated start limit := by
  obtain ⟨u, s, rfl⟩ := hs.exists_tag
  obtain ⟨v, t, rfl⟩ := hl.exists_tag
  have hu : u.length < 2 ^ 31 := by
    rw [length_key] at hlen
    omega
  have hcompare := compare_bytewise_key (min_lt_of_left_lt hu) s t (v := v)
  by_cases hroom : HasRoom u v
  · obtain ⟨p, x, y, xs, ys, rfl, rfl, hxy⟩ := hroom
    have hrun := internal_of_room p xs ys hxy s t
    by_cases hcut : x.toNat < p.length
    · rw [if_pos hcut] at hrun
      exact separated_of_same hu hs hcompare hrun
    · rw [if_neg hcut] at hrun
      have hle := Nat.not_lt.mp hcut
      have hneg := order_differ p xs ys (Nat.lt_of_succ_lt hxy)
      obtain ⟨⟨c₁, h₁, hc₁⟩, hc₂⟩ := compare_raised p xs ys hxy hle s t maxTag
      rw [if_neg hneg.ne] at hcompare
      exact ⟨_, _, hcompare, hrun, fun _ => ⟨⟨c₁, h₁, hc₁.le⟩, hc₂,
        parses_tagOf (Nat.le_refl _) (.inr rfl) _⟩, fun h => absurd hneg (Int.not_lt.mpr h)⟩
  · have hrun := internal_of_no_room hroom s t
    rw [sizeOfInt_intOfSize hu, if_pos (Nat.le_refl _)] at hrun
    exact separated_of_same hu hs hcompare hrun

theorem internal_separator_bytewise_near :
    InternalSeparated ([97] ++ encodeFixed64 (tagOf 1 .kTypeValue))
      ([99] ++ encodeFixed64 (tagOf 2 .kTypeDeletion)) :=
  internal_separator_bytewise _ _ (parses_tagOf (by decide) (by decide) [97])
    (parses_tagOf (by decide) (by decide) [99]) (by decide)

/-! ### How short a separator is -/

/-- `start` after the call is as it was, or cut after the first difference of the user keys with
the byte there raised and the greatest tag, and no longer than it was. -/
def InternalShortens (k l : ParsedInternalKey) (start limit : Bytes) : Prop :=
  ∃ r, InternalKeyComparator.findShortestSeparator bytewise start limit = .ok r ∧
    r.length ≤ start.length ∧
    (r = start ∨ ∃ p x y xs ys, k.user_key = p ++ x :: xs ∧ l.user_key = p ++ y :: ys ∧ x ≠ y ∧
      appendInternalKey [] ⟨p ++ [x + 1], kMaxSequenceNumber, kValueTypeForSeek⟩ = .ok r)

theorem append_maxTag (u : Bytes) :
    appendInternalKey [] ⟨u, kMaxSequenceNumber, kValueTypeForSeek⟩ =
      .ok (u ++ encodeFixed64 maxTag) :=
  appendInternalKey_eq (Nat.le_refl _) (.inr rfl) [] u

theorem userKey_inj (h : u ++ encodeFixed64 s = v ++ encodeFixed64 t) : u = v :=
  (List.append_inj' h (by rw [length_encodeFixed64, length_encodeFixed64])).1

/-- Where there is room: a byte that is raised is no more than its index. -/
theorem internalShortens_of_room (p xs ys : Bytes) (h : x.toNat + 1 < y.toNat)
    {us vs : U64} {ut vt : ValueType} :
    InternalShortens ⟨p ++ x :: xs, us, ut⟩ ⟨p ++ y :: ys, vs, vt⟩
      (p ++ x :: xs ++ encodeFixed64 s) (p ++ y :: ys ++ encodeFixed64 t) ↔
      x.toNat ≤ p.length := by
  have hrun := internal_of_room p xs ys h s t
  constructor
  · rintro ⟨r, hr, -, hform⟩
    by_contra hlong
    rw [if_neg (by omega)] at hrun
    obtain rfl := Except.ok.inj (hrun.symm.trans hr)
    rcases hform with hsame | ⟨p', x', y', xs', ys', hu, hv, hne, happend⟩
    · exact raised_ne xs h (userKey_inj hsame)
    · obtain ⟨rfl, rfl, -⟩ := differ_unique hu hv (ne_of_room h) hne
      rw [append_maxTag] at happend
      have hraised := raised_eq_iff.mp (userKey_inj (Except.ok.inj happend)).symm
      omega
  · intro hle
    by_cases hcut : x.toNat < p.length
    · rw [if_pos hcut] at hrun
      exact ⟨_, hrun, Nat.le_refl _, .inl rfl⟩
    · have hraised : raised p x xs = p ++ [x + 1] := raised_eq_iff.mpr (by omega)
      rw [if_neg hcut, hraised] at hrun
      refine ⟨_, hrun, ?_, .inr ⟨p, x, y, xs, ys, rfl, rfl, ne_of_room h, append_maxTag _⟩⟩
      simp

/-- **When separators shorten.**  A byte that is raised is its index.  Between internal keys it may
be less than its index, for the separator is then not kept; where no byte is raised, the length of
the user key of `start` must survive its conversion to `int`. -/
theorem separators_shorten (user_start user_limit : Bytes) (k l : ParsedInternalKey)
    (start limit : Bytes) (hk : appendInternalKey [] k = .ok start)
    (hl : appendInternalKey [] l = .ok limit) :
    (Shortens user_start user_limit ↔
      ∀ p x y xs ys, user_start = p ++ x :: xs → user_limit = p ++ y :: ys →
        x.toNat + 1 < y.toNat → x.toNat = p.length) ∧
    (InternalShortens k l start limit ↔
      (∀ p x y xs ys, k.user_key = p ++ x :: xs → l.user_key = p ++ y :: ys →
        x.toNat + 1 < y.toNat → x.toNat ≤ p.length) ∧
      (HasRoom k.user_key l.user_key ∨
        sizeOfInt (intOfSize k.user_key.length) ≤ k.user_key.length)) := by
  refine ⟨shortens_iff user_start user_limit, ?_⟩
  obtain ⟨-, -, rfl⟩ := appendInternalKey_ok hk
  obtain ⟨-, -, rfl⟩ := appendInternalKey_ok hl
  obtain ⟨u, us, ut⟩ := k
  obtain ⟨v, vs, vt⟩ := l
  by_cases hroom : HasRoom u v
  · obtain ⟨p, x, y, xs, ys, rfl, rfl, hxy⟩ := id hroom
    rw [internalShortens_of_room p xs ys hxy]
    refine ⟨fun hle => ⟨fun p' x' y' xs' ys' hu hv hxy' => ?_, .inl hroom⟩, fun h =>
      h.1 p x y xs ys rfl rfl hxy⟩
    obtain ⟨rfl, rfl, -⟩ := differ_unique hu hv (ne_of_room hxy) (ne_of_room hxy')
    exact hle
  · have hrun := internal_of_no_room hroom (tagOf us ut) (tagOf vs vt)
    have hvacuous : ∀ p x y xs ys, u = p ++ x :: xs → v = p ++ y :: ys →
        x.toNat + 1 < y.toNat → x.toNat ≤ p.length := fun p x y xs ys hu hv hxy =>
      absurd ⟨p, x, y, xs, ys, hu, hv, hxy⟩ hroom
    constructor
    · rintro ⟨r, hr, -⟩
      refine ⟨hvacuous, .inr ?_⟩
      by_contra hlen
      rw [if_neg hlen] at hrun
      rw [hrun] at hr
      cases hr
    · rintro ⟨-, hlen⟩
      rw [if_pos (hlen.resolve_left hroom)] at hrun
      exact ⟨_, hrun, Nat.le_refl _, .inl rfl⟩

theorem separators_shorten_near :
    (Shortens [0] [4] ↔ ∀ p x y xs ys, ([0] : Bytes) = p ++ x :: xs → ([4] : Bytes) = p ++ y :: ys →
      x.toNat + 1 < y.toNat → x.toNat = p.length) ∧
    (InternalShortens ⟨[0], 1, .kTypeValue⟩ ⟨[4], 2, .kTypeValue⟩
        ([0] ++ encodeFixed64 (tagOf 1 .kTypeValue)) ([4] ++ encodeFixed64 (tagOf 2 .kTypeValue)) ↔
      (∀ p x y xs ys, ([0] : Bytes) = p ++ x :: xs → ([4] : Bytes) = p ++ y :: ys →
        x.toNat + 1 < y.toNat → x.toNat ≤ p.length) ∧
      (HasRoom [0] [4] ∨ sizeOfInt (intOfSize ([0] : Bytes).length) ≤ ([0] : Bytes).length)) :=
  separators_shorten [0] [4] ⟨[0], 1, .kTypeValue⟩ ⟨[4], 2, .kTypeValue⟩ _ _
    (appendInternalKey_eq (by decide) (by decide) [] [0])
    (appendInternalKey_eq (by decide) (by decide) [] [4])

/-- `f` at index 0, before `h`, has the value 102: the separator of `foo` and `hello` gets 103
bytes, and so does the internal one. -/
theorem separators_shorten_foo :
    ¬ Shortens [102, 111, 111] [104, 101, 108, 108, 111] ∧
      ¬ InternalShortens ⟨[102, 111, 111], 100, .kTypeValue⟩
        ⟨[104, 101, 108, 108, 111], 200, .kTypeValue⟩
        ([102, 111, 111] ++ encodeFixed64 (tagOf 100 .kTypeValue))
        ([104, 101, 108, 108, 111] ++ encodeFixed64 (tagOf 200 .kTypeValue)) := by
  constructor
  · intro h
    have := (shortens_iff _ _).mp h [] 102 104 [111, 111] [101, 108, 108, 111] rfl rfl (by decide)
    exact absurd this (by decide)
  · intro h
    have := (internalShortens_of_room [] [111, 111] [101, 108, 108, 111] (x := 102) (y := 104)
      (by decide)).mp h
    exact absurd this (by decide)

/-! ### The successor -/

/-- `key` after the call parses and is not before what it was, nor longer; it is what it was if and
only if no byte of the user key can be raised. -/
structure InternalSuccessor (k : ParsedInternalKey) (key r : Bytes) : Prop where
  parses : Parses r
  not_before : ∃ c, InternalKeyComparator.compare bytewiseComparator key r = .ok c ∧ c ≤ 0
  length_le : r.length ≤ key.length
  same_iff : r = key ↔ ∀ b ∈ k.user_key, b = 0xff

/-- **The short successor.**  Of a user key it is a shortest string that is not before it, and of an
internal key one that parses. -/
theorem short_successor :
    (∀ key, ∃ r, BytewiseComparatorImpl.findShortSuccessor key = .ok r ∧ ShortSuccessor key r) ∧
    ∀ (k : ParsedInternalKey) (key : Bytes), appendInternalKey [] k = .ok key →
      k.user_key.length < 2 ^ 31 →
      ∃ r, InternalKeyComparator.findShortSuccessor bytewise key = .ok r ∧
        InternalSuccessor k key r := by
  refine ⟨successor_spec, fun k key hk hlen => ?_⟩
  obtain ⟨hs, ht, rfl⟩ := appendInternalKey_ok hk
  obtain ⟨tmp, hrun, hsucc⟩ := successor_spec k.user_key
  have hlong : tmp.length ≤ k.user_key.length :=
    hsucc.shortest _ (isStrict_bytewiseOrder.self _).le
  have hguard : bytewise.compare k.user_key tmp = .ok (bytewiseOrder k.user_key tmp) :=
    compare_eq (min_lt_of_left_lt hlen)
  have hsucc' : bytewise.findShortSuccessor k.user_key = .ok tmp := hrun
  by_cases hsame : tmp = k.user_key
  · refine ⟨_, ?_, parses_tagOf hs ht _, ⟨0, compare_bytewise_self hlen _, le_refl 0⟩, le_refl _,
      iff_of_true rfl (hsucc.same_iff.mp hsame)⟩
    rw [hsame] at hguard hsucc'
    rw [InternalKeyComparator.findShortSuccessor, extractUserKey_eq, ok_bind, hsucc', ok_bind,
      hguard, ok_bind, isStrict_bytewiseOrder.self, if_neg (lt_irrefl 0)]
  · have hneg : bytewiseOrder k.user_key tmp < 0 := lt_of_le_of_ne hsucc.not_before fun h =>
      hsame (isStrict_bytewiseOrder.eq_of_tie _ _ h).symm
    have hcompare := compare_key_decided hguard hneg.ne (tagOf k.sequence k.type) maxTag
    refine ⟨tmp ++ encodeFixed64 maxTag, ?_, parses_tagOf (le_refl _) (.inr rfl) _,
      ⟨_, hcompare, hneg.le⟩, ?_, iff_of_false ?_ ?_⟩
    · rw [InternalKeyComparator.findShortSuccessor, extractUserKey_eq, ok_bind, hsucc', ok_bind,
        hguard, ok_bind, if_pos hneg, packMaxTag, ok_bind, putFixed64]
      show (do
        let c ← InternalKeyComparator.compare bytewise.compare _ (tmp ++ encodeFixed64 maxTag)
        assertion (c < 0)
        Except.ok (tmp ++ encodeFixed64 maxTag)) = _
      rw [hcompare, ok_bind, assertion_of hneg, ok_bind]
    · rw [length_key, length_key]
      exact Nat.add_le_add_right hlong 8
    · exact fun h => hsame (userKey_inj h)
    · exact fun h => hsame (hsucc.same_iff.mpr h)

theorem short_successor_foo :
    ∃ r, InternalKeyComparator.findShortSuccessor bytewise
        ([102, 111, 111] ++ encodeFixed64 (tagOf 100 .kTypeValue)) = .ok r ∧
      InternalSuccessor ⟨[102, 111, 111], 100, .kTypeValue⟩
        ([102, 111, 111] ++ encodeFixed64 (tagOf 100 .kTypeValue)) r :=
  short_successor.2 ⟨[102, 111, 111], 100, .kTypeValue⟩ _
    (appendInternalKey_eq (by decide) (by decide) [] [102, 111, 111]) (by decide)

end Bytewise

end Leveldb
