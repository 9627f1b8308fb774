import MyLeveldb.Coding.Words

/-!
# Coding — Loads

`getVarint32Ptr` and `getVarint32PtrFallback` with each of their loads in view: `load i` is
`*(p + i)`, which may fail.  The lists of `Coding — Definitions` hold all bytes from `p` to `limit`,
loaded or not.

* `getVarint32PtrLoads_of_some`, `getVarint32PtrLoads_of_none`: both decoders agree where the list
  is what the loads return.
* `getVarint32PtrLoads_eq`: so they do where no load fails.
* `getVarint32PtrLoads_encode`: no byte after a varint is loaded, however far `limit` is.
-/

namespace Leveldb

/-- The byte `*(p + i)`. -/
abbrev Load := Nat → Except Fault UInt8

/-- The loop of `getVarint32PtrFallback`, where `p` has come `i` bytes and `n` are left to `limit`;
it returns how far `p` has come in the end. -/
def getVarint32LoopLoads (load : Load) : Nat → Nat → Nat → U32 → Except Fault (Option (Nat × U32))
  | 0, _, _, _ => .ok none
  | n + 1, i, shift, result =>
      if shift ≤ 28 then do
        let b ← load i
        let byte := ofByte 32 b
        if byte &&& 128 ≠ 0 then
          getVarint32LoopLoads load n (i + 1) (shift + 7) (result ||| ((byte &&& 127) <<< shift))
        else .ok (some (i + 1, result ||| (byte <<< shift)))
      else .ok none

def getVarint32PtrFallbackLoads (load : Load) (n : Nat) : Except Fault (Option (Nat × U32)) :=
  getVarint32LoopLoads load n 0 0 0

/-- `getVarint32Ptr(p, p + n, value)`. -/
def getVarint32PtrLoads (load : Load) : Nat → Except Fault (Option (Nat × U32))
  | 0 => getVarint32PtrFallbackLoads load 0
  | n + 1 => do
      let result := ofByte 32 (← load 0)
      if result &&& 128 = 0 then .ok (some (1, result))
      else getVarint32PtrFallbackLoads load (n + 1)

/-- The loads from `i` on return `bs`. -/
def Returns (load : Load) (i : Nat) (bs : Bytes) : Prop :=
  ∀ j c, bs[j]? = some c → load (i + j) = .ok c

variable {load : Load} {i n shift : Nat} {b : UInt8} {bs rest : Bytes} {result v : U32} {f : Fault}

theorem Returns.head (h : Returns load i (b :: bs)) : load i = .ok b := h 0 b rfl

theorem Returns.tail (h : Returns load i (b :: bs)) : Returns load (i + 1) bs := fun j c hj => by
  have hload := h (j + 1) c (by rwa [List.getElem?_cons_succ])
  rwa [Nat.add_right_comm, Nat.add_assoc]

theorem Returns.left {cs : Bytes} (h : Returns load i (bs ++ cs)) : Returns load i bs :=
  fun j c hj => by
    have hlt : j < bs.length := (List.getElem?_eq_some_iff.mp hj).1
    exact h j c (by rwa [List.getElem?_append_left hlt])

/-! ### Loops -/

/-- A varint among the bytes that load is found, and nothing after it is loaded. -/
theorem loopLoads_of_some (h : Returns load i bs) (hn : bs.length ≤ n)
    (hsome : getVarintLoop 32 28 bs shift result = some (rest, v)) :
    rest.length ≤ bs.length ∧ getVarint32LoopLoads load n i shift result =
      .ok (some (i + (bs.length - rest.length), v)) := by
  induction bs generalizing i n shift result with
  | nil => cases hsome
  | cons b bs ih =>
      obtain ⟨n, rfl⟩ : ∃ m, n = m + 1 := ⟨n - 1, by rw [List.length_cons] at hn; omega⟩
      rw [getVarintLoop] at hsome
      rw [getVarint32LoopLoads, h.head, ok_bind]
      by_cases hshift : shift ≤ 28
      · rw [if_pos hshift] at hsome ⊢
        by_cases hmore : ofByte 32 b &&& 128 ≠ 0
        · rw [if_pos hmore] at hsome ⊢
          obtain ⟨hle, hloop⟩ := ih h.tail (Nat.le_of_succ_le_succ hn) hsome
          have hoff : i + 1 + (bs.length - rest.length) = i + (bs.length + 1 - rest.length) := by
            omega
          exact ⟨hle.trans (Nat.le_succ _), by rw [hloop, hoff, List.length_cons]⟩
        · rw [if_neg hmore] at hsome ⊢
          obtain ⟨rfl, rfl⟩ := Prod.mk.inj (Option.some.inj hsome)
          exact ⟨Nat.le_succ _, by rw [List.length_cons, Nat.add_sub_cancel_left]⟩
      · rw [if_neg hshift] at hsome
        cases hsome

/-- With no varint among the bytes that load, none is found. -/
theorem loopLoads_of_none (h : Returns load i bs)
    (hend : bs.length = n ∨ bs.length < n ∧ load (i + bs.length) = .error f)
    (hnone : getVarintLoop 32 28 bs shift result = none) :
    getVarint32LoopLoads load n i shift result = .ok none ∨
      getVarint32LoopLoads load n i shift result = .error f := by
  induction bs generalizing i n shift result with
  | nil =>
      rcases hend with rfl | ⟨hlt, hload⟩
      · exact .inl rfl
      · obtain ⟨n, rfl⟩ : ∃ m, n = m + 1 := ⟨n - 1, by rw [List.length_nil] at hlt; omega⟩
        rw [List.length_nil, Nat.add_zero] at hload
        rw [getVarint32LoopLoads, hload, error_bind]
        split_ifs
        · exact .inr rfl
        · exact .inl rfl
  | cons b bs ih =>
      obtain ⟨n, rfl⟩ : ∃ m, n = m + 1 := ⟨n - 1, by rw [List.length_cons] at hend; omega⟩
      rw [getVarintLoop] at hnone
      rw [getVarint32LoopLoads, h.head, ok_bind]
      by_cases hshift : shift ≤ 28
      · rw [if_pos hshift] at hnone ⊢
        by_cases hmore : ofByte 32 b &&& 128 ≠ 0
        · rw [if_pos hmore] at hnone ⊢
          refine ih h.tail ?_ hnone
          rw [List.length_cons, ← Nat.add_assoc, Nat.add_right_comm] at hend
          exact hend.imp Nat.succ.inj (And.imp_left Nat.lt_of_succ_lt_succ)
        · rw [if_neg hmore] at hnone
          cases hnone
      · exact .inl (if_neg hshift)

/-! ### The decoder -/

theorem getVarint32PtrLoads_of_some (h : Returns load 0 bs) (hn : bs.length ≤ n)
    (hsome : getVarint32Ptr bs = some (rest, v)) :
    getVarint32PtrLoads load n = .ok (some (bs.length - rest.length, v)) := by
  cases bs with
  | nil => cases hsome
  | cons b bs =>
      obtain ⟨n, rfl⟩ : ∃ m, n = m + 1 := ⟨n - 1, by rw [List.length_cons] at hn; omega⟩
      rw [getVarint32Ptr] at hsome
      rw [getVarint32PtrLoads, h.head, ok_bind]
      by_cases hlast : ofByte 32 b &&& 128 = 0
      · simp only [if_pos hlast, Option.some.injEq, Prod.mk.injEq] at hsome
        obtain ⟨rfl, rfl⟩ := hsome
        rw [if_pos hlast, List.length_cons, Nat.add_sub_cancel_left]
      · rw [if_neg hlast] at hsome ⊢
        have hloop := (loopLoads_of_some h hn hsome).2
        rwa [Nat.zero_add] at hloop

theorem getVarint32PtrLoads_of_none (h : Returns load 0 bs)
    (hend : bs.length = n ∨ bs.length < n ∧ load bs.length = .error f)
    (hnone : getVarint32Ptr bs = none) :
    getVarint32PtrLoads load n = .ok none ∨ getVarint32PtrLoads load n = .error f := by
  cases bs with
  | nil =>
      rcases hend with rfl | ⟨hlt, hload⟩
      · exact .inl rfl
      · obtain ⟨n, rfl⟩ : ∃ m, n = m + 1 := ⟨n - 1, by rw [List.length_nil] at hlt; omega⟩
        rw [List.length_nil] at hload
        rw [getVarint32PtrLoads, hload]
        exact .inr rfl
  | cons b bs =>
      obtain ⟨n, rfl⟩ : ∃ m, n = m + 1 := ⟨n - 1, by rw [List.length_cons] at hend; omega⟩
      rw [getVarint32Ptr] at hnone
      rw [getVarint32PtrLoads, h.head, ok_bind]
      by_cases hlast : ofByte 32 b &&& 128 = 0
      · simp only [if_pos hlast] at hnone
        cases hnone
      · rw [if_neg hlast] at hnone ⊢
        exact loopLoads_of_none h (by rwa [Nat.zero_add]) hnone

/-- Where all bytes up to `limit` load, the decoder computes what it does on their list. -/
theorem getVarint32PtrLoads_eq (h : Returns load 0 bs) : getVarint32PtrLoads load bs.length =
    .ok ((getVarint32Ptr bs).map fun r => (bs.length - r.1.length, r.2)) := by
  cases hptr : getVarint32Ptr bs with
  | none =>
      -- any fault would do for the one that does not come
      rcases getVarint32PtrLoads_of_none (f := .wild) h (.inl rfl) hptr with hrun | hwild
      · exact hrun
      · rcases getVarint32PtrLoads_of_none (f := .fuel) h (.inl rfl) hptr with hrun | hfuel
        · exact hrun
        · rw [hwild] at hfuel
          cases hfuel
  | some r => exact getVarint32PtrLoads_of_some h (Nat.le_refl _) hptr

/-- The decoder loads the bytes of a varint and no others. -/
theorem getVarint32PtrLoads_encode (h : Returns load 0 (encodeVarint32 v))
    (hn : (encodeVarint32 v).length ≤ n) :
    getVarint32PtrLoads load n = .ok (some ((encodeVarint32 v).length, v)) := by
  have hsome := getVarint32Ptr_encode v []
  rw [List.append_nil] at hsome
  exact getVarint32PtrLoads_of_some h hn hsome

end Leveldb
