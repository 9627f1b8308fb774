import MyLeveldb.Format.Order

/-!
# Format — Versions

A set of internal keys over the bytewise comparator, seen as versions of user keys, and a seek for
the internal key of `LookupKey(u, s)`.  The comparator puts the versions of one user key in the
order of their sequence numbers, the oldest first, and the key sought is the version `s` itself,
of type `kValueTypeForSeek`: the seek passes all older versions.

`seek_newest`: it finds the newest version visible at `s` only if that is the version sought, or
if there is no version of `u` at all.
-/

namespace Leveldb

open ThreeWay

variable {E : List ParsedInternalKey} {k e : ParsedInternalKey} {u v : Bytes} {s : U64}

/-- A key the database can hold. -/
structure ParsedInternalKey.WellFormed (k : ParsedInternalKey) : Prop where
  sequence_le : k.sequence.toNat ≤ kMaxSequenceNumber.toNat
  type_valid : k.type.Valid
  short : k.user_key.length < 2 ^ 31

/-- The comparison of `k`, encoded, with an internal key. -/
def ParsedInternalKey.compareTo (k : ParsedInternalKey) (t : Bytes) : Except Fault Int := do
  let b ← appendInternalKey [] k
  InternalKeyComparator.compare bytewiseComparator b t

/-- `e` is the least of the keys `E` that are not less than `t`. -/
structure Seeks (E : List ParsedInternalKey) (t : Bytes) (e : ParsedInternalKey) : Prop where
  mem : e ∈ E
  not_less : ∃ c, e.compareTo t = .ok c ∧ 0 ≤ c
  least : ∀ k ∈ E, (∃ c, k.compareTo t = .ok c ∧ 0 ≤ c) →
    ∃ b c, appendInternalKey [] e = .ok b ∧ k.compareTo b = .ok c ∧ 0 ≤ c

/-- A seek for `LookupKey(u, s)` finds the newest version of `u` at `s`, and no version of `u`
where there is none. -/
def FindsNewest (E : List ParsedInternalKey) (u : Bytes) (s : U64) : Prop :=
  ∃ key, LookupKey.new u s = .ok key ∧
    (∀ v ∈ E, v.user_key = u → v.sequence.toNat ≤ s.toNat →
      ∃ e, Seeks E key.internal_key e ∧ e.user_key = u ∧ e.sequence.toNat ≤ s.toNat ∧
        ∀ w ∈ E, w.user_key = u → w.sequence.toNat ≤ s.toNat →
          w.sequence.toNat ≤ e.sequence.toNat) ∧
    ((∀ v ∈ E, v.user_key = u → ¬ v.sequence.toNat ≤ s.toNat) →
      ∀ e, Seeks E key.internal_key e → e.user_key ≠ u)

/-! ### The order of versions -/

/-- A user key and a number: the user keys bytewise, ties broken by the numbers. -/
def rankOrder (p q : Bytes × Nat) : Int :=
  if bytewiseOrder p.1 q.1 = 0 then ofLT p.2 q.2 else bytewiseOrder p.1 q.1

theorem isPreorder_rankOrder : IsPreorder rankOrder :=
  (isStrict_bytewiseOrder.toIsPreorder.comap Prod.fst).thenBy
    (isStrict_ofLT.toIsPreorder.comap Prod.snd)

theorem rankOrder_same {m n : Nat} : 0 ≤ rankOrder (u, m) (u, n) ↔ n ≤ m := by
  rw [rankOrder, if_pos (isStrict_bytewiseOrder.self u), ← not_lt, ofLT_neg, not_lt]

theorem bytewise_of_rankOrder {p q : Bytes × Nat} (h : 0 ≤ rankOrder p q) :
    0 ≤ bytewiseOrder p.1 q.1 := by
  unfold rankOrder at h
  split_ifs at h with h₀
  · exact h₀.ge
  · exact h

/-- Between two keys of `u` there are keys of `u` only. -/
theorem rankOrder_between {m n n' : Nat} (h₁ : 0 ≤ rankOrder (v, m) (u, n))
    (h₂ : 0 ≤ rankOrder (u, n') (v, m)) : v = u := by
  have h₁ := bytewise_of_rankOrder h₁
  have h₂ := (isStrict_bytewiseOrder.flip_le v u).mpr (bytewise_of_rankOrder h₂)
  exact isStrict_bytewiseOrder.eq_of_tie v u (le_antisymm h₂ h₁)

namespace ParsedInternalKey

/-- The user key and the tag, as a number. -/
def rank (k : ParsedInternalKey) : Bytes × Nat :=
  (k.user_key, 256 * k.sequence.toNat + k.type.toNat)

theorem WellFormed.encode_eq (h : k.WellFormed) :
    appendInternalKey [] k = .ok (k.user_key ++ encodeFixed64 (tagOf k.sequence k.type)) :=
  appendInternalKey_eq h.sequence_le h.type_valid [] k.user_key

theorem WellFormed.compareTo_eq (h : k.WellFormed) (v : Bytes) (t : U64) :
    k.compareTo (v ++ encodeFixed64 t) = .ok (rankOrder k.rank (v, t.toNat)) := by
  have hmin : min k.user_key.length v.length < 2 ^ 31 := min_lt_of_left_lt h.short
  rw [compareTo, h.encode_eq, ok_bind, compare_key, compare_eq hmin, ok_bind,
    toNat_tagOf h.sequence_le h.type_valid]
  rfl

/-- The comparison of two keys. -/
theorem WellFormed.compareTo_key (hk : k.WellFormed) (he : e.WellFormed) :
    k.compareTo (e.user_key ++ encodeFixed64 (tagOf e.sequence e.type)) =
      .ok (rankOrder k.rank e.rank) := by
  rw [hk.compareTo_eq, toNat_tagOf he.sequence_le he.type_valid]
  rfl

end ParsedInternalKey

/-- A seek, in terms of ranks. -/
theorem seeks_iff (hE : ∀ k ∈ E, k.WellFormed) (v : Bytes) (t : U64) :
    Seeks E (v ++ encodeFixed64 t) e ↔
      e ∈ E ∧ 0 ≤ rankOrder e.rank (v, t.toNat) ∧
        ∀ k ∈ E, 0 ≤ rankOrder k.rank (v, t.toNat) → 0 ≤ rankOrder k.rank e.rank := by
  constructor
  · rintro ⟨he, ⟨c, hc, hpos⟩, hleast⟩
    rw [(hE e he).compareTo_eq] at hc
    cases hc
    refine ⟨he, hpos, fun k hk hkt => ?_⟩
    obtain ⟨b, c, hb, hc, hpos⟩ := hleast k hk ⟨_, (hE k hk).compareTo_eq v t, hkt⟩
    rw [(hE e he).encode_eq] at hb
    cases hb
    rw [(hE k hk).compareTo_key (hE e he)] at hc
    cases hc
    exact hpos
  · rintro ⟨he, hpos, hleast⟩
    refine ⟨he, ⟨_, (hE e he).compareTo_eq v t, hpos⟩, fun k hk hkt => ?_⟩
    obtain ⟨c, hc, hcpos⟩ := hkt
    rw [(hE k hk).compareTo_eq] at hc
    cases hc
    exact ⟨_, _, (hE e he).encode_eq, (hE k hk).compareTo_key (hE e he), hleast k hk hcpos⟩

/-- A visible version at or after the one sought is that version. -/
theorem eq_of_visible (he : e.WellFormed) (hu : e.user_key = u)
    (hs : e.sequence.toNat ≤ s.toNat) (hpos : 0 ≤ rankOrder e.rank (u, 256 * s.toNat + 1)) :
    e = ⟨u, s, .kTypeValue⟩ := by
  have htype := ValueType.valid_iff.mp he.type_valid
  rw [ParsedInternalKey.rank, hu, rankOrder_same] at hpos
  have hseq : e.sequence = s := BitVec.eq_of_toNat_eq (by omega)
  have hval : e.type = .kTypeValue := by
    rcases he.type_valid with h | h
    · rw [h, hseq] at hpos
      simp [ValueType.toNat] at hpos
    · exact h
  rw [← hu, ← hseq, ← hval]

/-- Where a version is at or after `t`, the first key there is a version of the same user key. -/
theorem exists_first_version {t : Nat} (he : e ∈ E) (hpast : 0 ≤ rankOrder e.rank (e.user_key, t)) :
    ∃ k ∈ E, 0 ≤ rankOrder k.rank (e.user_key, t) ∧
      (∀ k' ∈ E, 0 ≤ rankOrder k'.rank (e.user_key, t) → 0 ≤ rankOrder k'.rank k.rank) ∧
      k.user_key = e.user_key := by
  obtain ⟨k, ⟨hk, hpos⟩, hmin⟩ := (isPreorder_rankOrder.comap ParsedInternalKey.rank).exists_isLeast
    (show ∃ k ∈ E, 0 ≤ rankOrder k.rank (e.user_key, t) from ⟨e, he, hpast⟩)
  have hleast : ∀ k' ∈ E, 0 ≤ rankOrder k'.rank (e.user_key, t) → 0 ≤ rankOrder k'.rank k.rank :=
    fun k' hk' hkt => (isPreorder_rankOrder.flip_le k.rank k'.rank).mp (hmin k' ⟨hk', hkt⟩)
  exact ⟨k, hk, hpos, hleast, rankOrder_between hpos (hleast e he hpast)⟩

/-- **Where a seek finds the newest visible version.** -/
theorem seek_newest (E : List ParsedInternalKey) (hE : ∀ k ∈ E, k.WellFormed) (u : Bytes)
    (s : U64) (hs : s.toNat ≤ kMaxSequenceNumber.toNat) :
    FindsNewest E u s ↔ ⟨u, s, .kTypeValue⟩ ∈ E ∨ ∀ v ∈ E, v.user_key ≠ u := by
  obtain ⟨key, hkey, hinternal, -⟩ := lookupKey_eq hs u
  have htag : (tagOf s kValueTypeForSeek).toNat = 256 * s.toNat + 1 := toNat_tagOf hs (.inr rfl)
  have hseek : ∀ e, Seeks E key.internal_key e ↔ _ := fun e => by
    rw [hinternal, seeks_iff hE, htag]
  constructor
  · rintro ⟨key', hkey', hsome, hnone⟩
    obtain rfl : key = key' := Except.ok.inj (hkey.symm.trans hkey')
    by_contra hcon
    obtain ⟨hmem, v, hv, rfl⟩ : ⟨u, s, .kTypeValue⟩ ∉ E ∧ ∃ v ∈ E, v.user_key = u := by
      simpa [not_or] using hcon
    by_cases hvis : ∃ v' ∈ E, v'.user_key = v.user_key ∧ v'.sequence.toNat ≤ s.toNat
    · -- the seek ends at or after the version sought, so at that version
      obtain ⟨v', hv', hvu, hvs⟩ := hvis
      obtain ⟨e, he, heu, hes, -⟩ := hsome v' hv' hvu hvs
      obtain ⟨heE, hpos, -⟩ := (hseek e).mp he
      exact hmem (eq_of_visible (hE e heE) heu hes hpos ▸ heE)
    · -- the seek ends at a version of `u` that is not visible
      have hlate : ∀ v' ∈ E, v'.user_key = v.user_key → ¬ v'.sequence.toNat ≤ s.toNat :=
        fun v' hv' hvu hvs => hvis ⟨v', hv', hvu, hvs⟩
      have hpast : 0 ≤ rankOrder v.rank (v.user_key, 256 * s.toNat + 1) := by
        have := hlate v hv rfl
        rw [ParsedInternalKey.rank, rankOrder_same]
        omega
      obtain ⟨e, heE, hpos, hleast, heu⟩ := exists_first_version hv hpast
      exact hnone hlate e ((hseek e).mpr ⟨heE, hpos, hleast⟩) heu
  · rintro (hmem | hno)
    · refine ⟨key, hkey, fun _ _ _ _ => ?_, fun h => absurd (Nat.le_refl _) (h _ hmem rfl)⟩
      refine ⟨_, (hseek _).mpr ⟨hmem, ?_, fun k _ hkt => hkt⟩, rfl, Nat.le_refl _,
        fun w _ _ hw => hw⟩
      exact rankOrder_same.mpr (Nat.le_refl _)
    · exact ⟨key, hkey, fun v hv hvu => absurd hvu (hno v hv), fun _ e he => hno e he.mem⟩

theorem seek_newest_exact :
    FindsNewest [⟨[107], 3, .kTypeValue⟩, ⟨[107], 5, .kTypeDeletion⟩] [107] 3 ↔
      ⟨[107], 3, .kTypeValue⟩ ∈
        [(⟨[107], 3, .kTypeValue⟩ : ParsedInternalKey), ⟨[107], 5, .kTypeDeletion⟩] ∨
      ∀ v ∈ [(⟨[107], 3, .kTypeValue⟩ : ParsedInternalKey), ⟨[107], 5, .kTypeDeletion⟩],
        v.user_key ≠ [107] :=
  seek_newest _ (by
    intro k hk
    rcases List.mem_pair.mp hk with rfl | rfl
    · exact ⟨by decide, by decide, by simp⟩
    · exact ⟨by decide, by decide, by simp⟩) [107] 3 (by decide)

/-- Version 1 of a key is visible at snapshot 2, and a seek for snapshot 2 does not find it. -/
theorem seek_newest_misses : ¬ FindsNewest [⟨[107], 1, .kTypeValue⟩] [107] 2 := by
  have hwf : ∀ k ∈ [(⟨[107], 1, .kTypeValue⟩ : ParsedInternalKey)], k.WellFormed := by
    intro k hk
    obtain rfl := List.mem_singleton.mp hk
    exact ⟨by decide, by decide, by simp⟩
  rintro ⟨key, hkey, hsome, -⟩
  obtain ⟨key', hkey', hinternal, -⟩ := lookupKey_eq (s := 2) (by decide) [107]
  obtain rfl : key' = key := Except.ok.inj (hkey'.symm.trans hkey)
  obtain ⟨e, he, -⟩ := hsome _ (List.mem_singleton.mpr rfl) rfl (by decide)
  rw [hinternal, seeks_iff hwf] at he
  obtain ⟨hmem, hpos, -⟩ := he
  obtain rfl := List.mem_singleton.mp hmem
  exact absurd (rankOrder_same.mp hpos) (by decide)

end Leveldb
