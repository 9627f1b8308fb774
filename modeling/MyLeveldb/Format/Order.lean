import MyLeveldb.Comparator.Bytewise
import MyLeveldb.Format.Keys
import MyLeveldb.Support.Order.ThreeWay

/-!
# Format — Order

`InternalKeyComparator::compare` on byte strings of at least 8 bytes (`InternalBytes`): the user
keys first, ties broken by the tags, the lower one first.

* `compare_key`: the comparison of two keys, each a user key with a tag.
* `compare_internalOrder`: it is `internalOrder`, the user order with its ties broken.
* `internalKeyComparator_preorder`: it is a total preorder if the user order is.
-/

namespace Leveldb

open ThreeWay

/-- The comparison of two keys, over any user comparator. -/
theorem compare_key (user : Compare Bytes) (u v : Bytes) (s t : U64) :
    InternalKeyComparator.compare user (u ++ encodeFixed64 s) (v ++ encodeFixed64 t) =
      user u v >>= fun r => .ok (if r = 0 then ofLT s.toNat t.toNat else r) := by
  simp only [InternalKeyComparator.compare, extractUserKey_eq, decodeTag_eq, ok_bind]
  cases user u v with
  | error f => rfl
  | ok r =>
      simp only [ok_bind, ofLT, gt_iff_lt]
      split_ifs with h₀ h₁ h₂
      · rfl
      · rfl
      · rw [h₀]
      · rfl

/-- User keys that do not tie decide. -/
theorem compare_key_decided {user : Compare Bytes} {u v : Bytes} {r : Int} (h : user u v = .ok r)
    (hr : r ≠ 0) (s t : U64) :
    InternalKeyComparator.compare user (u ++ encodeFixed64 s) (v ++ encodeFixed64 t) = .ok r := by
  rw [compare_key, h, ok_bind, if_neg hr]

/-- A byte string the code takes for an internal key. -/
abbrev InternalBytes := { b : Bytes // 8 ≤ b.length }

namespace InternalBytes

def userKey (a : InternalBytes) : Bytes := a.1.take (a.1.length - 8)

def trailer (a : InternalBytes) : Bytes := a.1.drop (a.1.length - 8)

theorem length_trailer (a : InternalBytes) : a.trailer.length = 8 := by
  have := a.2
  rw [trailer, List.length_drop]
  omega

theorem userKey_append_trailer (a : InternalBytes) : a.userKey ++ a.trailer = a.1 :=
  List.take_append_drop _ _

/-- The user key is before the whole key. -/
theorem userKey_before (a : InternalBytes) : bytewiseOrder a.userKey a.1 < 0 := by
  obtain ⟨b, bs, hb⟩ := List.exists_cons_of_length_pos (l := a.trailer) (by
    rw [a.length_trailer]
    decide)
  have := bytewiseOrder_append_self a.userKey b bs
  rwa [← hb, a.userKey_append_trailer] at this

end InternalBytes

/-- The order of the user keys, ties broken by the trailers. -/
def internalOrder (user : Bytes → Bytes → Int) (a b : InternalBytes) : Int :=
  if user a.userKey b.userKey = 0 then
    ofLT (LittleEndian.value a.trailer) (LittleEndian.value b.trailer)
  else user a.userKey b.userKey

theorem compare_of_user {compare : Compare Bytes} {user : Bytes → Bytes → Int}
    {a b : InternalBytes} (h : compare a.userKey b.userKey = .ok (user a.userKey b.userKey)) :
    InternalKeyComparator.compare compare a.1 b.1 = .ok (internalOrder user a b) := by
  obtain ⟨s, hs⟩ := exists_encodeFixed64 a.length_trailer
  obtain ⟨t, ht⟩ := exists_encodeFixed64 b.length_trailer
  have hvalue : ∀ v : U64, LittleEndian.value (encodeFixed64 v) = v.toNat := fun v =>
    (LittleEndian.value_bytes 8 v.toNat).trans (Nat.mod_eq_of_lt v.isLt)
  rw [← a.userKey_append_trailer, ← b.userKey_append_trailer, internalOrder, hs, ht, compare_key,
    h, ok_bind, hvalue, hvalue]

theorem compare_internalOrder (user : Bytes → Bytes → Int) (a b : InternalBytes) :
    InternalKeyComparator.compare (.ofInt user) a.1 b.1 = .ok (internalOrder user a b) :=
  compare_of_user rfl

/-- Over the bytewise comparator, where one of the keys is not too long for it. -/
theorem compare_bytewise {a b : InternalBytes} (h : min a.1.length b.1.length < 2 ^ 31) :
    InternalKeyComparator.compare bytewiseComparator a.1 b.1 =
      .ok (internalOrder bytewiseOrder a b) := by
  have hle : ∀ c : InternalBytes, c.userKey.length ≤ c.1.length := fun c =>
    (List.take_sublist _ _).length_le
  exact compare_of_user (compare_eq ((min_le_min (hle a) (hle b)).trans_lt h))

theorem isPreorder_internalOrder {user : Bytes → Bytes → Int} (hu : IsPreorder user) :
    IsPreorder (internalOrder user) :=
  (hu.comap InternalBytes.userKey).thenBy
    (isStrict_ofLT.toIsPreorder.comap fun a : InternalBytes => LittleEndian.value a.trailer)

theorem internalOrder_tie {user : Bytes → Bytes → Int} {a b : InternalBytes} :
    internalOrder user a b = 0 ↔ user a.userKey b.userKey = 0 ∧ a.trailer = b.trailer := by
  have hlen : a.trailer.length = b.trailer.length := a.length_trailer.trans b.length_trailer.symm
  unfold internalOrder
  split_ifs with h
  · rw [ofLT_tie]
    exact ⟨fun hv => ⟨h, LittleEndian.value_inj hlen hv⟩, fun hv => by rw [hv.2]⟩
  · exact ⟨fun h₀ => absurd h₀ h, fun h₀ => absurd h₀.1 h⟩

theorem isStrict_internalOrder {user : Bytes → Bytes → Int} (hu : IsStrict user) :
    IsStrict (internalOrder user) :=
  { isPreorder_internalOrder hu.toIsPreorder with
    eq_of_tie := fun a b htie => by
      obtain ⟨hu₀, htrailer⟩ := internalOrder_tie.mp htie
      apply Subtype.ext
      rw [← a.userKey_append_trailer, ← b.userKey_append_trailer, hu.eq_of_tie _ _ hu₀, htrailer] }

/-- **`InternalKeyComparator` preserves total preorders.** -/
theorem internalKeyComparator_preorder (user : Bytes → Bytes → Int) (hu : IsPreorder user) :
    ∃ cmp : InternalBytes → InternalBytes → Int,
      (∀ a b, InternalKeyComparator.compare (.ofInt user) a.1 b.1 = .ok (cmp a b)) ∧
      (∀ a b, (cmp a b).sign = -(cmp b a).sign) ∧
      (∀ a b c, (cmp a b ≤ 0 → cmp b c ≤ 0 → cmp a c ≤ 0) ∧
        (cmp a b < 0 → cmp b c ≤ 0 → cmp a c < 0) ∧ (cmp a b ≤ 0 → cmp b c < 0 → cmp a c < 0) ∧
        (cmp a b = 0 → cmp b c = 0 → cmp a c = 0)) ∧
      (∀ a b, user a.userKey b.userKey ≠ 0 →
        (cmp a b).sign = (user a.userKey b.userKey).sign) ∧
      (∀ a b, cmp a b = 0 ↔ user a.userKey b.userKey = 0 ∧ a.trailer = b.trailer) ∧
      ((∀ x y, user x y = 0 → x = y) → ∀ a b, cmp a b = 0 → a = b) := by
  have h := isPreorder_internalOrder hu
  refine ⟨internalOrder user, compare_internalOrder user, h.sign_flip, fun a b c =>
    ⟨h.trans a b c, h.lt_of_lt_of_le, h.lt_of_le_of_lt, h.tie_trans⟩, fun a b hne => ?_,
    fun a b => internalOrder_tie, fun hstrict a b htie => ?_⟩
  · rw [internalOrder, if_neg hne]
  · exact (isStrict_internalOrder ⟨hu, hstrict⟩).eq_of_tie a b htie

/-- A user order that ties strings of the same length. -/
theorem internalKeyComparator_preorder_length :
    ∃ cmp : InternalBytes → InternalBytes → Int,
      (∀ a b, InternalKeyComparator.compare
        (.ofInt fun x y => ofLT x.length y.length) a.1 b.1 = .ok (cmp a b)) ∧
      ∀ a b, (cmp a b).sign = -(cmp b a).sign := by
  obtain ⟨cmp, hcmp, hsign, -⟩ := internalKeyComparator_preorder (fun x y => ofLT x.length y.length)
    (isStrict_ofLT.toIsPreorder.comap List.length)
  exact ⟨cmp, hcmp, hsign⟩

end Leveldb
