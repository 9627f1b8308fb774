import MyLeveldb.Comparator.Bytewise

/-!
# Comparator — Separators

`comparator.h`, and what `BytewiseComparatorImpl` does to shorten keys.

`findShortestSeparator` raises the byte at the first difference of `start` and `limit`, if there is
room for that below `limit`, and cuts the result to a length: one more than the *value* of that
byte, where one more than its *index* is meant.  Where the value is the lower one, the cut takes
the raised byte away.

* `raised p x xs`: what it leaves of `p ++ x :: xs`, where the first difference is after `p`.
* `separator_of_room`, `separator_of_no_room`: what it leaves, with no condition on the lengths.
* `bytewise_separator`: when that lies between `start` and `limit`.
* `shortens_iff`: when it is `start` cut after the raised byte.
* `successor_spec`: `findShortSuccessor` leaves a shortest string that is not before `key`.
-/

namespace Leveldb

open ThreeWay

/-- `Comparator`: what `compare` returns, and what the other two leave in their first argument. -/
structure Comparator where
  compare : Compare Bytes
  findShortestSeparator : Bytes → Bytes → Except Fault Bytes
  findShortSuccessor : Bytes → Except Fault Bytes

/-- `s.resize(n)`. -/
def resize (s : Bytes) (n : Nat) : Bytes := s.take n ++ List.replicate (n - s.length) 0

namespace BytewiseComparatorImpl

/-- `while ((diff_index < min_length) && ...) ++diff_index`, with `n` bytes left to `min_length`. -/
def diffLoop (start limit : Bytes) : Nat → Nat → Nat
  | 0, diff_index => diff_index
  | n + 1, diff_index =>
      if start[diff_index]? = limit[diff_index]? then diffLoop start limit n (diff_index + 1)
      else diff_index

/-- `start` after `findShortestSeparator(start, limit)`. -/
def findShortestSeparator (start limit : Bytes) : Except Fault Bytes :=
  let min_length := min start.length limit.length
  let diff_index := diffLoop start limit min_length 0
  match start[diff_index]?, limit[diff_index]? with
  | some diff_byte, some limit_byte =>
      if diff_byte.toNat < 0xff ∧ diff_byte.toNat + 1 < limit_byte.toNat then do
        let start := start.set diff_index (diff_byte + 1)
        -- the value of the byte, not its index
        let start := resize start (diff_byte.toNat + 1)
        let r ← bytewiseComparator start limit
        assertion (r < 0)
        .ok start
      else .ok start
  -- `diff_index` is `min_length`
  | _, _ => .ok start

/-- `for (size_t i = 0; i < n; ++i)` of `findShortSuccessor`, with `n` bytes left. -/
def successorLoop (key : Bytes) : Nat → Nat → Bytes
  | 0, _ => key
  | n + 1, i =>
      match key[i]? with
      | some byte =>
          if byte ≠ 0xff then resize (key.set i (byte + 1)) (i + 1)
          else successorLoop key n (i + 1)
      | none => key

/-- `key` after `findShortSuccessor(key)`. -/
def findShortSuccessor (key : Bytes) : Except Fault Bytes := .ok (successorLoop key key.length 0)

end BytewiseComparatorImpl

/-- `*bytewiseComparator()`. -/
def bytewise : Comparator where
  compare := bytewiseComparator
  findShortestSeparator := BytewiseComparatorImpl.findShortestSeparator
  findShortSuccessor := BytewiseComparatorImpl.findShortSuccessor

namespace BytewiseComparatorImpl

variable {start limit p q s l xs ys : Bytes} {x y : UInt8}

/-! ### The separator -/

theorem length_resize (s : Bytes) (n : Nat) : (resize s n).length = n := by
  rw [resize, List.length_append, List.length_take, List.length_replicate]
  omega

/-- The loop ends after the `k` bytes the strings agree on from `i`. -/
theorem diffLoop_eq {k n i : Nat} (hk : k ≤ n) (hagree : ∀ j, j < k → s[i + j]? = l[i + j]?)
    (hstop : k = n ∨ s[i + k]? ≠ l[i + k]?) : diffLoop s l n i = i + k := by
  induction k generalizing n i with
  | zero =>
      cases n with
      | zero => rfl
      | succ n => exact if_neg (hstop.resolve_left (Nat.succ_ne_zero n).symm)
  | succ k ih =>
      obtain ⟨n, rfl⟩ : ∃ m, n = m + 1 := ⟨n - 1, by omega⟩
      have hadd : ∀ j, i + 1 + j = i + (j + 1) := fun j => by omega
      have hfirst : s[i]? = l[i]? := hagree 0 k.succ_pos
      rw [diffLoop, if_pos hfirst, ih (Nat.le_of_succ_le_succ hk), hadd]
      · intro j hj
        rw [hadd]
        exact hagree (j + 1) (Nat.succ_lt_succ hj)
      · rw [hadd]
        exact hstop.imp_left Nat.succ.inj

/-- Strings agree on what they start with together. -/
theorem agree_append (p xs ys : Bytes) :
    ∀ j, j < p.length → (p ++ xs)[0 + j]? = (p ++ ys)[0 + j]? := by
  intro j hj
  rw [Nat.zero_add, List.getElem?_append_left hj, List.getElem?_append_left hj]

/-- The string the separator makes of `p ++ x :: xs`. -/
def raised (p : Bytes) (x : UInt8) (xs : Bytes) : Bytes :=
  resize (p ++ (x + 1) :: xs) (x.toNat + 1)

/-- The cut takes the raised byte away… -/
theorem raised_of_lt (xs : Bytes) (h : x.toNat < p.length) :
    raised p x xs = p.take (x.toNat + 1) := by
  have hle : x.toNat + 1 - (p ++ (x + 1) :: xs).length = 0 := by
    rw [List.length_append]
    omega
  rw [raised, resize, hle, List.take_append_of_le_length h, List.replicate_zero, List.append_nil]

/-- …or leaves it and some bytes after it. -/
theorem raised_of_le (xs : Bytes) (h : p.length ≤ x.toNat) :
    ∃ zs, raised p x xs = p ++ (x + 1) :: zs ∧ zs.length = x.toNat - p.length := by
  obtain ⟨k, hk⟩ : ∃ k, x.toNat + 1 = p.length + (k + 1) := ⟨x.toNat - p.length, by omega⟩
  refine ⟨xs.take k ++ List.replicate (k - xs.length) 0, ?_, ?_⟩
  · have hrest : p.length + (k + 1) - (p ++ (x + 1) :: xs).length = k - xs.length := by
      rw [List.length_append, List.length_cons]
      omega
    rw [raised, resize, hk, hrest, List.take_length_add_append, List.take_succ_cons,
      List.append_assoc, List.cons_append]
  · rw [List.length_append, List.length_take, List.length_replicate]
    omega

/-- A byte that can be raised stays in its place in the order. -/
theorem toNat_succ (h : x.toNat + 1 < y.toNat) : (x + 1).toNat = x.toNat + 1 := by
  have := y.toNat_lt
  rw [UInt8.toNat_add, UInt8.toNat_one, Nat.mod_eq_of_lt (by omega)]

theorem order_differ (p : Bytes) (xs ys : Bytes) (h : x.toNat < y.toNat) :
    bytewiseOrder (p ++ x :: xs) (p ++ y :: ys) < 0 := by
  rw [bytewiseOrder_append, bytewiseOrder_cons, if_pos (UInt8.lt_iff_toNat_lt.mpr h)]
  decide

/-- What is left of `p` alone is before every string that goes on after it. -/
theorem raised_before (xs : Bytes) (h : x.toNat < p.length) (z : UInt8) (zs : Bytes) :
    bytewiseOrder (raised p x xs) (p ++ z :: zs) < 0 := by
  obtain ⟨w, ws, hw⟩ : ∃ w ws, p.drop (x.toNat + 1) ++ z :: zs = w :: ws :=
    List.exists_cons_of_ne_nil (by simp)
  have := bytewiseOrder_append_self (p.take (x.toNat + 1)) w ws
  rwa [← hw, ← List.append_assoc, List.take_append_drop, ← raised_of_lt xs h] at this

/-- Whatever the cut leaves is below the limit. -/
theorem raised_before_limit (xs ys : Bytes) (h : x.toNat + 1 < y.toNat) :
    bytewiseOrder (raised p x xs) (p ++ y :: ys) < 0 := by
  rcases Nat.lt_or_ge x.toNat p.length with hlt | hge
  · exact raised_before xs hlt y ys
  · obtain ⟨zs, hzs, -⟩ := raised_of_le xs hge
    rw [hzs]
    exact order_differ p zs ys (by rwa [toNat_succ h])

theorem start_before_raised (ws xs : Bytes) (h : x.toNat + 1 < y.toNat)
    (hle : p.length ≤ x.toNat) : bytewiseOrder (p ++ x :: ws) (raised p x xs) < 0 := by
  obtain ⟨zs, hzs, -⟩ := raised_of_le xs hle
  rw [hzs]
  refine order_differ p ws zs ?_
  rw [toNat_succ h]
  exact Nat.lt_succ_self _

theorem separator_of_differ (h : x ≠ y) (p xs ys : Bytes) :
    findShortestSeparator (p ++ x :: xs) (p ++ y :: ys) =
      if x.toNat + 1 < y.toNat then .ok (raised p x xs) else .ok (p ++ x :: xs) := by
  have hat : ∀ z zs, (p ++ z :: zs)[0 + p.length]? = some z := fun z zs => by simp
  have hloop : diffLoop (p ++ x :: xs) (p ++ y :: ys)
      (min (p ++ x :: xs).length (p ++ y :: ys).length) 0 = 0 + p.length := by
    refine diffLoop_eq (by simp) (agree_append p _ _) (.inr ?_)
    rw [hat, hat]
    simpa using h
  simp only [findShortestSeparator, hloop, hat]
  rw [Nat.zero_add, List.set_append_right _ _ (Nat.le_refl _), Nat.sub_self, List.set_cons_zero]
  by_cases hroom : x.toNat + 1 < y.toNat
  · have hlen : (raised p x xs).length ≤ 2 ^ 8 := by
      rw [raised, length_resize]
      exact x.toNat_lt
    have hcompare := compare_eq (a := raised p x xs) (b := p ++ y :: ys)
      ((Nat.min_le_left _ _).trans_lt (hlen.trans_lt (by decide)))
    have hlt : x.toNat < 0xff := by
      have := y.toNat_lt
      omega
    rw [if_pos ⟨hlt, hroom⟩, if_pos hroom, ← raised, hcompare, ok_bind,
      assertion_of (raised_before_limit xs ys hroom), ok_bind]
  · rw [if_neg fun h => hroom h.2, if_neg hroom]

theorem separator_of_starts (h : s <+: l ∨ l <+: s) : findShortestSeparator s l = .ok s := by
  obtain ⟨p, xs, ys, rfl, rfl, hend⟩ :
      ∃ p xs ys, s = p ++ xs ∧ l = p ++ ys ∧ (xs = [] ∨ ys = []) := by
    rcases h with ⟨ys, rfl⟩ | ⟨xs, rfl⟩
    · exact ⟨s, [], ys, (List.append_nil s).symm, rfl, .inl rfl⟩
    · exact ⟨l, xs, [], rfl, (List.append_nil l).symm, .inr rfl⟩
  have hmin : min (p ++ xs).length (p ++ ys).length = p.length := by
    rcases hend with rfl | rfl <;> simp
  have hloop : diffLoop (p ++ xs) (p ++ ys) (min (p ++ xs).length (p ++ ys).length) 0 =
      p.length := by
    rw [diffLoop_eq hmin.ge (agree_append p xs ys) (.inl hmin.symm), Nat.zero_add]
  have hnone : (p ++ [])[p.length]? = none := by simp
  simp only [findShortestSeparator, hloop]
  rcases hend with rfl | rfl
  · rw [hnone]
  · rw [hnone]
    cases (p ++ xs)[p.length]? <;> rfl

/-- The separator changes a string at one place only. -/
theorem separator_eq_or (start limit : Bytes) :
    findShortestSeparator start limit = .ok start ∨
      ∃ p x y xs ys, start = p ++ x :: xs ∧ limit = p ++ y :: ys ∧ x.toNat + 1 < y.toNat ∧
        findShortestSeparator start limit = .ok (raised p x xs) := by
  obtain ⟨p, hp⟩ := exists_parts start limit
  cases hp with
  | left _ ys => exact .inl (separator_of_starts (.inl ⟨ys, rfl⟩))
  | right _ x xs => exact .inl (separator_of_starts (.inr ⟨x :: xs, rfl⟩))
  | @differ _ x y h xs ys =>
      have heq := separator_of_differ h p xs ys
      by_cases hroom : x.toNat + 1 < y.toNat
      · rw [if_pos hroom] at heq
        exact .inr ⟨p, x, y, xs, ys, rfl, rfl, hroom, heq⟩
      · rw [if_neg hroom] at heq
        exact .inl heq

theorem ne_of_room (h : x.toNat + 1 < y.toNat) : x ≠ y := by
  rintro rfl
  omega

theorem separator_of_room (h : x.toNat + 1 < y.toNat) (p xs ys : Bytes) :
    findShortestSeparator (p ++ x :: xs) (p ++ y :: ys) = .ok (raised p x xs) := by
  rw [separator_of_differ (ne_of_room h), if_pos h]

/-- The byte at the first difference can be raised and stay below the limit. -/
def HasRoom (start limit : Bytes) : Prop :=
  ∃ p x y xs ys, start = p ++ x :: xs ∧ limit = p ++ y :: ys ∧ x.toNat + 1 < y.toNat

theorem separator_of_no_room {start limit : Bytes} (h : ¬ HasRoom start limit) :
    findShortestSeparator start limit = .ok start :=
  (separator_eq_or start limit).resolve_right fun ⟨p, x, y, xs, ys, hs, hl, hroom, _⟩ =>
    h ⟨p, x, y, xs, ys, hs, hl, hroom⟩

/-- Two strings that differ do not go on one after the other. -/
theorem not_starts (h : x ≠ y) (p xs ys : Bytes) :
    ¬ (p ++ x :: xs <+: p ++ y :: ys ∨ p ++ y :: ys <+: p ++ x :: xs) := by
  simp [List.prefix_append_right_inj, List.cons_prefix_cons, h, h.symm]

/-- `start` after the call is between the bounds, or as it was. -/
def Separates (start limit : Bytes) : Prop :=
  ∃ r, findShortestSeparator start limit = .ok r ∧
    (bytewiseOrder start limit < 0 → bytewiseOrder start r ≤ 0 ∧ bytewiseOrder r limit < 0) ∧
    (0 ≤ bytewiseOrder start limit ∨ start <+: limit ∨ limit <+: start → r = start)

/-- **When the separator is between its bounds.**  A byte that is raised is no less than its
index. -/
theorem bytewise_separator (start limit : Bytes) :
    Separates start limit ↔ ∀ p x y xs ys, start = p ++ x :: xs → limit = p ++ y :: ys →
      x.toNat + 1 < y.toNat → p.length ≤ x.toNat := by
  constructor
  · rintro ⟨r, hrun, hbetween, -⟩ p x y xs ys rfl rfl hroom
    by_contra hlt
    rw [separator_of_room hroom] at hrun
    obtain rfl := Except.ok.inj hrun
    have hle := (hbetween (order_differ p xs ys (Nat.lt_of_succ_lt hroom))).1
    have hafter := raised_before xs (Nat.not_le.mp hlt) x xs
    exact absurd ((isStrict_bytewiseOrder.flip _ _).mp hafter) (Int.not_lt.mpr hle)
  · intro hcut
    rcases separator_eq_or start limit with hrun | ⟨p, x, y, xs, ys, rfl, rfl, hroom, hrun⟩
    · exact ⟨start, hrun, fun hlt => ⟨(isStrict_bytewiseOrder.self start).le, hlt⟩, fun _ => rfl⟩
    · have hle := hcut p x y xs ys rfl rfl hroom
      refine ⟨_, hrun, fun _ => ⟨(start_before_raised xs xs hroom hle).le,
        raised_before_limit xs ys hroom⟩, fun h => ?_⟩
      rcases h with hge | hprefix
      · exact absurd (order_differ p xs ys (Nat.lt_of_succ_lt hroom)) (Int.not_lt.mpr hge)
      · exact absurd hprefix (not_starts (ne_of_room hroom) p xs ys)

/-- The differing byte 0, at index 1, is cut off. -/
theorem bytewise_separator_cut : ¬ Separates [5, 0] [5, 2] := by
  rintro ⟨r, hrun, hbetween, -⟩
  have hcut : findShortestSeparator [5, 0] [5, 2] = .ok [5] := by decide
  obtain rfl : [5] = r := Except.ok.inj (hcut.symm.trans hrun)
  exact absurd (hbetween (by decide)).1 (by decide)

/-- `start` after the call is as it was, or cut after the first difference with the byte there
raised, and no longer than it was. -/
def Shortens (start limit : Bytes) : Prop :=
  ∃ r, findShortestSeparator start limit = .ok r ∧ r.length ≤ start.length ∧
    (r ≠ start → ∃ p x y xs ys, start = p ++ x :: xs ∧ limit = p ++ y :: ys ∧ x ≠ y ∧
      r = p ++ [x + 1])

theorem raised_eq_iff : raised p x xs = p ++ [x + 1] ↔ x.toNat = p.length := by
  constructor
  · intro h
    have := congrArg List.length h
    rw [raised, length_resize, List.length_append, List.length_singleton] at this
    omega
  · intro h
    obtain ⟨zs, hzs, hlen⟩ := raised_of_le xs h.ge
    rw [hzs, List.length_eq_zero_iff.mp (hlen.trans (by omega))]

theorem raised_ne (xs : Bytes) (h : x.toNat + 1 < y.toNat) : raised p x xs ≠ p ++ x :: xs := by
  intro heq
  rcases Nat.lt_or_ge x.toNat p.length with hlt | hge
  · have hbefore := raised_before xs hlt x xs
    rw [heq, isStrict_bytewiseOrder.self] at hbefore
    exact absurd hbefore (lt_irrefl 0)
  · have hbefore := start_before_raised xs xs h hge
    rw [heq, isStrict_bytewiseOrder.self] at hbefore
    exact absurd hbefore (lt_irrefl 0)

/-- When the separator shortens: a byte that is raised is its index. -/
theorem shortens_iff (start limit : Bytes) :
    Shortens start limit ↔ ∀ p x y xs ys, start = p ++ x :: xs → limit = p ++ y :: ys →
      x.toNat + 1 < y.toNat → x.toNat = p.length := by
  constructor
  · rintro ⟨r, hrun, -, hcut⟩ p x y xs ys rfl rfl hroom
    rw [separator_of_room hroom] at hrun
    obtain rfl := Except.ok.inj hrun
    obtain ⟨p', x', y', xs', ys', hs, hl, hne, hr⟩ := hcut (raised_ne xs hroom)
    obtain ⟨rfl, rfl, -⟩ := differ_unique hs hl (ne_of_room hroom) hne
    exact raised_eq_iff.mp hr
  · intro hindex
    rcases separator_eq_or start limit with hrun | ⟨p, x, y, xs, ys, rfl, rfl, hroom, hrun⟩
    · exact ⟨start, hrun, Nat.le_refl _, fun h => absurd rfl h⟩
    · have hraised : raised p x xs = p ++ [x + 1] :=
        raised_eq_iff.mpr (hindex p x y xs ys rfl rfl hroom)
      rw [hraised] at hrun
      exact ⟨_, hrun, by simp, fun _ => ⟨p, x, y, xs, ys, rfl, rfl, ne_of_room hroom, rfl⟩⟩

/-! ### The successor -/

/-- The loop passes the bytes `0xff`. -/
theorem successorLoop_run {k : Nat} :
    ∀ {n i : Nat}, (∀ j, j < k → s[i + j]? = some 0xff) →
      successorLoop s (k + n) i = successorLoop s n (i + k) := by
  induction k with
  | zero => intro n i _; rw [Nat.zero_add, Nat.add_zero]
  | succ k ih =>
      intro n i h
      have hadd : ∀ j, i + 1 + j = i + (j + 1) := fun j => by omega
      have hfirst : s[i]? = some 0xff := h 0 k.succ_pos
      have hnext : successorLoop s (k + 1 + n) i = successorLoop s (k + n) (i + 1) := by
        rw [Nat.add_right_comm, successorLoop, hfirst]
        rfl
      rw [hnext, ih, hadd]
      intro j hj
      rw [hadd]
      exact h (j + 1) (Nat.succ_lt_succ hj)

theorem successor_of_run (k : Nat) :
    findShortSuccessor (List.replicate k 0xff) = .ok (List.replicate k 0xff) := by
  have hrun := successorLoop_run (s := List.replicate k 0xff) (k := k) (n := 0) (i := 0)
    fun j hj => by rw [Nat.zero_add, List.getElem?_replicate, if_pos hj]
  rw [findShortSuccessor, List.length_replicate]
  exact congrArg Except.ok hrun

theorem successor_of_byte (h : x ≠ 0xff) (k : Nat) (xs : Bytes) :
    findShortSuccessor (List.replicate k 0xff ++ x :: xs) =
      .ok (List.replicate k 0xff ++ [x + 1]) := by
  have hrun := successorLoop_run (s := List.replicate k 0xff ++ x :: xs) (k := k)
    (n := xs.length + 1) (i := 0) fun j hj => by
      rw [Nat.zero_add, List.getElem?_append_left (by simpa using hj), List.getElem?_replicate,
        if_pos hj]
  have hat : (List.replicate k 0xff ++ x :: xs)[0 + k]? = some x := by simp
  have hset : (List.replicate k 0xff ++ x :: xs).set (0 + k) (x + 1) =
      List.replicate k 0xff ++ (x + 1) :: xs := by simp
  rw [findShortSuccessor, List.length_append, List.length_replicate, List.length_cons, hrun,
    successorLoop, hat]
  simp only [if_pos h, hset]
  refine congrArg Except.ok ?_
  simp [resize, List.take_append]

/-- A string that is not before a run of `0xff` is as long; if more follows the run, longer. -/
theorem length_of_run {k : Nat} {b : Bytes} (xs : Bytes)
    (h : bytewiseOrder (List.replicate k 0xff ++ xs) b ≤ 0) :
    k ≤ b.length ∧ (xs ≠ [] → k < b.length) := by
  have hmax : ∀ n ∈ b.map UInt8.toNat, n ≤ 255 := by
    intro n hn
    obtain ⟨c, -, rfl⟩ := List.mem_map.mp hn
    exact Nat.le_of_lt_succ c.toNat_lt
  rw [bytewiseOrder, List.map_append, List.map_replicate] at h
  obtain ⟨zs, hzs, hle⟩ := exists_append_of_replicate_le hmax h
  have hlen := congrArg List.length hzs
  rw [List.length_map, List.length_append, List.length_replicate] at hlen
  refine ⟨by omega, fun hne => ?_⟩
  have hpos : 0 < zs.length := by
    by_contra hnil
    obtain rfl : zs = [] := List.length_eq_zero_iff.mp (by omega)
    obtain ⟨y, ys, hy⟩ := List.exists_cons_of_ne_nil hne
    rw [hy, List.map_cons] at hle
    exact absurd (ofLT_le.mp hle) (not_le.mpr (List.nil_lt_cons _ _))
  omega

/-- `key` after the call is a shortest string that is not before it. -/
structure ShortSuccessor (key r : Bytes) : Prop where
  not_before : bytewiseOrder key r ≤ 0
  shortest : ∀ b, bytewiseOrder key b ≤ 0 → r.length ≤ b.length
  same_iff : r = key ↔ ∀ c ∈ key, c = 0xff

theorem successor_spec (key : Bytes) :
    ∃ r, findShortSuccessor key = .ok r ∧ ShortSuccessor key r := by
  obtain ⟨k, rfl | ⟨x, xs, hx, rfl⟩⟩ := exists_run (0xff : UInt8) key
  · refine ⟨_, successor_of_run k, (isStrict_bytewiseOrder.self _).le, fun b hb => ?_, ?_⟩
    · rw [List.length_replicate]
      exact (length_of_run [] (by rwa [List.append_nil])).1
    · simp
  · have hlt : x.toNat < (x + 1).toNat := by
      have hne : x.toNat ≠ 0xff := fun h => hx (UInt8.toNat_inj.mp h)
      have := x.toNat_lt
      rw [UInt8.toNat_add, UInt8.toNat_one, Nat.mod_eq_of_lt (by omega)]
      exact Nat.lt_succ_self _
    have hbefore := order_differ (List.replicate k 0xff) xs [] hlt
    refine ⟨_, successor_of_byte hx k xs, hbefore.le, fun b hb => ?_, ?_⟩
    · rw [List.length_append, List.length_replicate, List.length_singleton]
      exact (length_of_run _ hb).2 (by simp)
    · constructor
      · intro heq
        rw [heq, isStrict_bytewiseOrder.self] at hbefore
        exact absurd hbefore (lt_irrefl 0)
      · intro hall
        exact absurd (hall x (by simp)) hx

end BytewiseComparatorImpl

end Leveldb
