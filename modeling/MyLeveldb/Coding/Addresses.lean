import MyLeveldb.Coding.Loads

/-!
# Coding — Addresses

The two forms of `getLengthPrefixedSlice`, with the addresses of their bytes.  Addresses and sizes
are words of `w` bits, `w` at least the width of the length; `NULL` is 0.

The pointer form returns `NULL` where `p + len > limit`, the form for slices `false` where fewer
than `len` bytes are left.  The sum is reduced mod `2^w`, so that a length that passes the end of
the address space passes the first test and not the second: `length_prefixed_forms`.
-/

namespace Leveldb

/-- `const char*`. -/
abbrev Pointer (w : Nat) := BitVec w

/-- A `Slice` by the address of its bytes. -/
structure SliceAt (w : Nat) where
  data_ : Pointer w
  size_ : BitVec w
  deriving DecidableEq, Repr

variable {w : Nat}

section

variable (mem : Pointer w → UInt8)

/-- The bytes at `p`, `p + 1` and so on. -/
def loadsAt (p : Pointer w) : Load := fun i => .ok (mem (p + BitVec.ofNat w i))

/-- The bytes of `[p, limit)`. -/
def bytesIn (p limit : Pointer w) : Bytes :=
  (List.range (limit - p).toNat).map fun i => mem (p + BitVec.ofNat w i)

/-- `getVarint32Ptr(p, limit, &value)`: the pointer it returns, and `*value`. -/
def getVarint32PtrAt (p limit : Pointer w) (value : U32) : Except Fault (Pointer w × U32) := do
  match ← getVarint32PtrLoads (loadsAt mem p) (limit - p).toNat with
  | none        => .ok (0, value)
  | some (i, v) => .ok (p + BitVec.ofNat w i, v)

/-- `getLengthPrefixedSlice(p, limit, result)`: the pointer it returns, and `*result`. -/
def getLengthPrefixedSlicePtr (p limit : Pointer w) (result : SliceAt w) :
    Except Fault (Pointer w × SliceAt w) := do
  let (p, len) ← getVarint32PtrAt mem p limit 0
  if p = 0 then .ok (0, result)
  else if p + len.setWidth w > limit then .ok (0, result)
  else
    let result := { data_ := p, size_ := len.setWidth w }
    .ok (p + len.setWidth w, result)

/-- `getVarint32(input, value)`: what it returns, `*input` and `*value`. -/
def getVarint32At (input : SliceAt w) (value : U32) : Except Fault (Bool × SliceAt w × U32) := do
  let p := input.data_
  let limit := p + input.size_
  let (q, value) ← getVarint32PtrAt mem p limit value
  if q = 0 then .ok (false, input, value)
  else .ok (true, { data_ := q, size_ := limit - q }, value)

/-- `remove_prefix(n)`. -/
def SliceAt.removePrefix (s : SliceAt w) (n : BitVec w) : Except Fault (SliceAt w) := do
  assertion (n ≤ s.size_)
  .ok { data_ := s.data_ + n, size_ := s.size_ - n }

/-- `getLengthPrefixedSlice(input, result)`: what it returns, `*input` and `*result`. -/
def getLengthPrefixedSliceAt (input result : SliceAt w) :
    Except Fault (Bool × SliceAt w × SliceAt w) := do
  let (ok, input, len) ← getVarint32At mem input 0
  if ok ∧ input.size_ ≥ len.setWidth w then
    let result := { data_ := input.data_, size_ := len.setWidth w }
    let input ← input.removePrefix (len.setWidth w)
    .ok (true, input, result)
  else .ok (false, input, result)

end

/-! ### The decoder at an address -/

variable {mem : Pointer w → UInt8} {p limit : Pointer w} {code rest : Bytes}

theorem length_bytesIn (mem : Pointer w → UInt8) (p limit : Pointer w) :
    (bytesIn mem p limit).length = (limit - p).toNat := by
  rw [bytesIn, List.length_map, List.length_range]

theorem returns_loadsAt (mem : Pointer w → UInt8) (p limit : Pointer w) :
    Returns (loadsAt mem p) 0 (bytesIn mem p limit) := by
  intro j c hj
  rw [bytesIn, List.getElem?_map, Option.map_eq_some_iff] at hj
  obtain ⟨i, hi, rfl⟩ := hj
  obtain ⟨-, rfl⟩ := List.getElem?_eq_some_iff.mp hi
  rw [Nat.zero_add, List.getElem_range, loadsAt]

theorem getVarint32PtrAt_none (value : U32)
    (h : Base128.takeCode 5 (bytesIn mem p limit) = none) :
    getVarint32PtrAt mem p limit value = .ok (0, value) := by
  have hrun := getVarint32PtrLoads_eq (returns_loadsAt mem p limit)
  rw [getVarint32Ptr_eq, h, length_bytesIn] at hrun
  rw [getVarint32PtrAt, hrun]
  rfl

/-- The pointer after a code, and its number. -/
theorem getVarint32PtrAt_some (value : U32) (hp : p ≤ limit)
    (h : Base128.takeCode 5 (bytesIn mem p limit) = some (code, rest)) :
    ∃ q, getVarint32PtrAt mem p limit value = .ok (q, BitVec.ofNat 32 (Base128.value code)) ∧
      p < q ∧ q.toNat + rest.length = limit.toNat := by
  have hrun := getVarint32PtrLoads_eq (returns_loadsAt mem p limit)
  rw [getVarint32Ptr_eq, h, length_bytesIn] at hrun
  have hlen := congrArg List.length (Base128.takeCode_append_eq h)
  rw [List.length_append, length_bytesIn, BitVec.toNat_sub_of_le hp] at hlen
  have hpos := Base128.length_takeCode_pos h
  have hple : p.toNat ≤ limit.toNat := hp
  have hlimit := limit.isLt
  refine ⟨p + BitVec.ofNat w ((limit - p).toNat - rest.length), ?_, ?_⟩
  · rw [getVarint32PtrAt, hrun]
    rfl
  · have hcode : (limit - p).toNat - rest.length = code.length := by
      rw [BitVec.toNat_sub_of_le hp]
      omega
    have hq : (p + BitVec.ofNat w code.length).toNat = p.toNat + code.length := by
      rw [BitVec.toNat_add, BitVec.toNat_ofNat, Nat.add_mod_mod, Nat.mod_eq_of_lt (by omega)]
    rw [hcode, BitVec.lt_def, hq]
    omega

/-! ### The two forms -/

/-- The two forms read the same, or both nothing. -/
def FormsAgree (mem : Pointer w → UInt8) (p limit : Pointer w) (result result' : SliceAt w) :
    Prop :=
  ∃ q r ok input' r', getLengthPrefixedSlicePtr mem p limit result = .ok (q, r) ∧
    getLengthPrefixedSliceAt mem { data_ := p, size_ := limit - p } result' = .ok (ok, input', r') ∧
    (q ≠ 0 ↔ ok = true) ∧
    (ok = true → r = r' ∧ p ≤ r.data_ ∧ r.data_.toNat + r.size_.toNat ≤ limit.toNat ∧
      q = input'.data_)

/-- There is a length, and as many bytes after it would pass the end of the address space. -/
def Wraps (mem : Pointer w → UInt8) (p limit : Pointer w) : Prop :=
  ∃ code rest, Base128.takeCode 5 (bytesIn mem p limit) = some (code, rest) ∧
    2 ^ w < limit.toNat - rest.length + Base128.value code % 2 ^ 32

variable {result result' : SliceAt w}

theorem formsAgree_iff {q : Pointer w} {r input' r' : SliceAt w} {ok : Bool}
    (hptr : getLengthPrefixedSlicePtr mem p limit result = .ok (q, r))
    (hslice : getLengthPrefixedSliceAt mem { data_ := p, size_ := limit - p } result' =
      .ok (ok, input', r')) :
    FormsAgree mem p limit result result' ↔ (q ≠ 0 ↔ ok = true) ∧
      (ok = true → r = r' ∧ p ≤ r.data_ ∧ r.data_.toNat + r.size_.toNat ≤ limit.toNat ∧
        q = input'.data_) := by
  constructor
  · rintro ⟨q₁, r₁, ok₁, input₁, r₁', hptr₁, hslice₁, hagree⟩
    rw [hptr] at hptr₁
    rw [hslice] at hslice₁
    cases hptr₁
    cases hslice₁
    exact hagree
  · exact fun hagree => ⟨q, r, ok, input', r', hptr, hslice, hagree⟩

theorem start_add_size (p limit : Pointer w) : p + (limit - p) = limit := by
  rw [BitVec.add_comm, BitVec.sub_add_cancel]

/-- Where there is no length, both forms fail. -/
theorem formsAgree_none (result result' : SliceAt w)
    (h : Base128.takeCode 5 (bytesIn mem p limit) = none) :
    FormsAgree mem p limit result result' := by
  have hrun : getVarint32PtrAt mem p limit 0 = .ok (0, 0) := getVarint32PtrAt_none 0 h
  have hptr : getLengthPrefixedSlicePtr mem p limit result = .ok (0, result) := by
    rw [getLengthPrefixedSlicePtr, hrun, ok_bind]
    exact if_pos rfl
  have hslice : getLengthPrefixedSliceAt mem { data_ := p, size_ := limit - p } result' =
      .ok (false, { data_ := p, size_ := limit - p }, result') := by
    rw [getLengthPrefixedSliceAt, getVarint32At]
    simp only [start_add_size, hrun, ok_bind]
    rfl
  exact (formsAgree_iff hptr hslice).mpr ⟨⟨fun hne => absurd rfl hne, nofun⟩, nofun⟩

/-- The pointer form, after the length. -/
theorem getLengthPrefixedSlicePtr_eq {q : Pointer w} {len : U32} (hq : q ≠ 0)
    (hrun : getVarint32PtrAt mem p limit 0 = .ok (q, len)) (result : SliceAt w) :
    getLengthPrefixedSlicePtr mem p limit result =
      if q + len.setWidth w > limit then .ok (0, result)
      else .ok (q + len.setWidth w, { data_ := q, size_ := len.setWidth w }) := by
  rw [getLengthPrefixedSlicePtr, hrun, ok_bind]
  exact if_neg hq

/-- The form for slices, after the length. -/
theorem getLengthPrefixedSliceAt_eq {q : Pointer w} {len : U32} (hq : q ≠ 0)
    (hrun : getVarint32PtrAt mem p limit 0 = .ok (q, len)) (result : SliceAt w) :
    getLengthPrefixedSliceAt mem { data_ := p, size_ := limit - p } result =
      if limit - q ≥ len.setWidth w then
        .ok (true, { data_ := q + len.setWidth w, size_ := limit - q - len.setWidth w },
          { data_ := q, size_ := len.setWidth w })
      else .ok (false, { data_ := q, size_ := limit - q }, result) := by
  rw [getLengthPrefixedSliceAt, getVarint32At]
  simp only [start_add_size, hrun, ok_bind, if_neg hq, true_and]
  split_ifs with hfits
  · rw [SliceAt.removePrefix, assertion_of hfits]
    rfl
  · rfl

/-- A sum is `NULL` where it comes to 0 mod `2^w`. -/
theorem add_eq_null (q len : BitVec w) : q + len = 0 ↔ (q.toNat + len.toNat) % 2 ^ w = 0 := by
  rw [← BitVec.toNat_inj, BitVec.toNat_add]
  exact Iff.rfl

/-- The two tests on a length at `q` part where the sum wraps around, but not to 0. -/
theorem formsAgree_at {q len : BitVec w} (hpq : p < q) (hqlimit : q ≤ limit)
    (hptr : getLengthPrefixedSlicePtr mem p limit result =
      if q + len > limit then .ok (0, result) else .ok (q + len, { data_ := q, size_ := len }))
    (hslice : getLengthPrefixedSliceAt mem { data_ := p, size_ := limit - p } result' =
      if limit - q ≥ len then
        .ok (true, { data_ := q + len, size_ := limit - q - len }, { data_ := q, size_ := len })
      else .ok (false, { data_ := q, size_ := limit - q }, result')) :
    FormsAgree mem p limit result result' ↔ q.toNat + len.toNat ≤ 2 ^ w := by
  have hlimit := limit.isLt
  have hlen := len.isLt
  have hpos : p.toNat < q.toNat := hpq
  have hle : q.toNat ≤ limit.toNat := hqlimit
  have hge : limit - q ≥ len ↔ q.toNat + len.toNat ≤ limit.toNat := by
    rw [ge_iff_le, BitVec.le_def, BitVec.toNat_sub_of_le hqlimit, Nat.le_sub_iff_add_le' hle]
  have hgt : q + len > limit ↔ limit.toNat < (q.toNat + len.toNat) % 2 ^ w := by
    rw [gt_iff_lt, BitVec.lt_def, BitVec.toNat_add]
  have hnull := add_eq_null q len
  by_cases hfits : q.toNat + len.toNat ≤ limit.toNat
  · -- the bytes are there, and the sum is an address of the buffer
    rw [Nat.mod_eq_of_lt (hfits.trans_lt hlimit)] at hgt hnull
    rw [if_neg (mt hgt.mp (Nat.not_lt.mpr hfits))] at hptr
    rw [if_pos (hge.mpr hfits)] at hslice
    have hne : q + len ≠ 0 := mt hnull.mp (by omega)
    rw [formsAgree_iff hptr hslice]
    exact iff_of_true ⟨iff_of_true hne rfl, fun _ => ⟨rfl, BitVec.le_of_lt hpq, hfits, rfl⟩⟩
      (hfits.trans hlimit.le)
  · rw [if_neg (mt hge.mp hfits)] at hslice
    rcases Nat.lt_trichotomy (q.toNat + len.toNat) (2 ^ w) with hlt | heq | hlt
    · rw [Nat.mod_eq_of_lt hlt] at hgt
      rw [if_pos (hgt.mpr (Nat.not_le.mp hfits))] at hptr
      rw [formsAgree_iff hptr hslice]
      exact iff_of_true ⟨iff_of_false (fun hne => hne rfl) nofun, nofun⟩ hlt.le
    · -- the sum is `NULL`
      rw [heq, Nat.mod_self] at hgt hnull
      rw [if_neg (mt hgt.mp (Nat.not_lt_zero _))] at hptr
      rw [formsAgree_iff hptr hslice]
      exact iff_of_true ⟨iff_of_false (fun hne => hne (hnull.mpr rfl)) nofun, nofun⟩ heq.le
    · -- the sum is below the buffer's end, and not `NULL`
      rw [Nat.mod_eq_sub_mod hlt.le, Nat.mod_eq_of_lt (by omega)] at hgt hnull
      rw [if_neg (mt hgt.mp (by omega))] at hptr
      have hne : q + len ≠ 0 := mt hnull.mp (by omega)
      rw [formsAgree_iff hptr hslice]
      refine iff_of_false (fun hagree => ?_) (Nat.not_le.mpr hlt)
      exact absurd (hagree.1.mp hne) nofun

/-- Where there is a length, the forms part with the two tests on it. -/
theorem formsAgree_some (hw : 32 ≤ w) (hp : p ≤ limit) (result result' : SliceAt w)
    (h : Base128.takeCode 5 (bytesIn mem p limit) = some (code, rest)) :
    FormsAgree mem p limit result result' ↔
      limit.toNat - rest.length + Base128.value code % 2 ^ 32 ≤ 2 ^ w := by
  obtain ⟨q, hrun, hpq, hrest⟩ := getVarint32PtrAt_some 0 hp h
  have hq : q ≠ 0 := by
    rintro rfl
    exact absurd hpq BitVec.not_lt_zero
  have hqlimit : q ≤ limit := Nat.le.intro hrest
  have hstart : limit.toNat - rest.length = q.toNat := (Nat.eq_sub_of_add_eq hrest).symm
  have hlen : ((BitVec.ofNat 32 (Base128.value code)).setWidth w).toNat =
      Base128.value code % 2 ^ 32 := by
    have hmod := Nat.mod_lt (Base128.value code) (show 0 < 2 ^ 32 by decide)
    have hpow : 2 ^ 32 ≤ 2 ^ w := Nat.pow_le_pow_right (by decide) hw
    rw [BitVec.toNat_setWidth, BitVec.toNat_ofNat, Nat.mod_eq_of_lt (hmod.trans_le hpow)]
  rw [hstart, ← hlen]
  exact formsAgree_at hpq hqlimit (getLengthPrefixedSlicePtr_eq hq hrun result)
    (getLengthPrefixedSliceAt_eq hq hrun result')

/-- **When the two forms of `getLengthPrefixedSlice` agree.** -/
theorem length_prefixed_forms (hw : 32 ≤ w) (mem : Pointer w → UInt8) (p limit : Pointer w)
    (hp : p ≤ limit) (result result' : SliceAt w) :
    FormsAgree mem p limit result result' ↔ ¬ Wraps mem p limit := by
  cases htake : Base128.takeCode 5 (bytesIn mem p limit) with
  | none =>
      refine iff_of_true (formsAgree_none result result' htake) ?_
      rintro ⟨code, rest, h, -⟩
      rw [htake] at h
      cases h
  | some r =>
      rw [formsAgree_some hw hp result result' htake, ← Nat.not_lt, not_iff_not]
      constructor
      · exact fun hlt => ⟨_, _, htake, hlt⟩
      · rintro ⟨code, rest, h, hlt⟩
        rw [htake] at h
        cases h
        exact hlt

/-- On Win32, `a` with its length before it. -/
theorem length_prefixed_forms_win32 :
    FormsAgree (fun a : Pointer 32 => if a = 0x1000 then 1 else 97) 0x1000 0x1002
      ⟨0, 0⟩ ⟨0, 0⟩ := by
  refine (length_prefixed_forms (by decide) _ _ _ (by decide) _ _).mpr ?_
  rintro ⟨code, rest, htake, hlt⟩
  have hbytes : Base128.takeCode 5
      (bytesIn (fun a : Pointer 32 => if a = 0x1000 then 1 else 97) 0x1000 0x1002) =
      some ([1], [97]) := by decide +kernel
  rw [hbytes] at htake
  cases htake
  exact absurd hlt (by decide)

/-- On Win32, a length of `2 ^ 32 - 1` at the end of a buffer. -/
theorem length_prefixed_forms_not :
    ¬ FormsAgree (fun a : Pointer 32 => if a = 0x1004 then 0x0f else 0xff) 0x1000 0x1005
      ⟨0, 0⟩ ⟨0, 0⟩ := by
  have hptr : getLengthPrefixedSlicePtr
      (fun a : Pointer 32 => if a = 0x1004 then 0x0f else 0xff) 0x1000 0x1005 ⟨0, 0⟩ =
      .ok (0x1004, ⟨0x1005, 0xffffffff⟩) := by decide +kernel
  have hslice : getLengthPrefixedSliceAt
      (fun a : Pointer 32 => if a = 0x1004 then 0x0f else 0xff) ⟨0x1000, 0x1005 - 0x1000⟩ ⟨0, 0⟩ =
      .ok (false, ⟨0x1005, 0⟩, ⟨0, 0⟩) := by decide +kernel
  rw [formsAgree_iff hptr hslice]
  intro hagree
  exact absurd (hagree.1.mp (by decide)) nofun

end Leveldb
