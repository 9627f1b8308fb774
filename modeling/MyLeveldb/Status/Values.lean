import MyLeveldb.Status.Variables
import MyLeveldb.Support.Machines.Lockstep

/-!
# Status — Values

The reference keeps a code and a text for each variable, and `none` for `OK`.  `Packed a r` says
that the array `a` holds the report `r`, at the offsets that the constructor, `copyState` and
`toString` each compute for themselves; `Stands` relates a variable to its value and to the array
it owns, which no other variable does (`Represents`).

* `rep_new`, `rep_copy`, `rep_delete`: the three things that happen to an array.  `operator=` is
  the third and then the second (`rep_assign`).
* `status_values`: in every program, with any number of variables constructed, copied, assigned and
  destroyed in any order, each variable answers as its value does.
-/

namespace Leveldb.Status.Var

open Objects (Heap Allocator Owned Represents)
open Flat (Memory bytesAt)
open Lockstep

variable {h h' : Heap CharArray} {a b : CharArray} {p : Nat} {bs cs : Bytes} {i j : Nat}

/-! ### The reference -/

/-- What a status other than `OK` says. -/
structure Report where
  code : Code
  text : Bytes
  deriving DecidableEq, Repr

/-- The text of `Status(code, msg, msg2)`. -/
def message (msg msg2 : Bytes) : Bytes :=
  if msg2 = [] then msg else msg ++ (ascii ":" ++ ascii " " ++ msg2)

/-- What `toString()` puts before the text. -/
def Code.label : Code → Bytes
  | .kOk              => ascii "OK"
  | .kNotFound        => ascii "NotFound: "
  | .kCorruption      => ascii "Corruption: "
  | .kNotSupported    => ascii "Not implemented: "
  | .kInvalidArgument => ascii "Invalid argument: "
  | .kIOError         => ascii "IO error: "

/-- The value of a status; `none` is `OK`. -/
abbrev Value := Option Report

namespace Value

def code : Value → Code
  | none   => .kOk
  | some r => r.code

def toString : Value → Bytes
  | none   => Code.label .kOk
  | some r => Code.label r.code ++ r.text

/-- Exactly the predicate of the code holds. -/
def answers (v : Value) : Observation where
  ok := v.code = .kOk
  isNotFound := v.code = .kNotFound
  isCorruption := v.code = .kCorruption
  isNotSupported := v.code = .kNotSupported
  isInvalidArgument := v.code = .kInvalidArgument
  isIOError := v.code = .kIOError
  toString := v.toString

end Value

abbrev Ref := Nat → Option Value

namespace Ref

def init : Ref := fun _ => none

def step (t : Ref) : Op → Ref × Option Observation
  | .ok i                  => (Function.update t i (some none), none)
  | .error i code msg msg2 =>
      (Function.update t i (some (some ⟨code, message msg msg2⟩)), none)
  | .copy i j | .assign i j => (Function.update t i (t j), none)
  | .destroy i             => (Function.update t i none, none)
  | .observe i             => (t, (t i).map Value.answers)

/-- A variable is used from its construction to its destruction, and a status is made of an error
code and of messages whose lengths can be counted in a `uint32_t`. -/
def Pre (t : Ref) : Op → Prop
  | .ok i                    => t i = none
  | .error i code msg msg2   =>
      t i = none ∧ code ≠ .kOk ∧ msg.length + msg2.length + 7 < 2 ^ 32
  | .copy i j                => t i = none ∧ (t j).isSome
  | .assign i j              => (t i).isSome ∧ (t j).isSome
  | .destroy i | .observe i  => (t i).isSome

end Ref

/-! ### Packed reports -/

/-- The array's `char`s: the length of the text, the code, and the text. -/
def Report.packed (r : Report) : Bytes :=
  LittleEndian.bytes 4 r.text.length ++ ([UInt8.ofNat r.code.toNat] ++ r.text)

/-- The array `a` holds `r`. -/
structure Packed (a : CharArray) (r : Report) : Prop where
  code_ne : r.code ≠ .kOk
  fits : r.text.length + 5 < 2 ^ 32
  size : a.size = r.text.length + 5
  chars : bytesAt a.bytes 0 (r.text.length + 5) = r.packed

theorem length_packed (r : Report) : r.packed.length = r.text.length + 5 := by
  rw [Report.packed, List.length_append, List.length_append, LittleEndian.length_bytes,
    List.length_singleton]
  omega

namespace Packed

variable {r : Report}

/-- The three parts, at their offsets. -/
theorem parts (hp : Packed a r) : bytesAt a.bytes 0 4 = LittleEndian.bytes 4 r.text.length ∧
    bytesAt a.bytes 4 1 = [UInt8.ofNat r.code.toNat] ∧
    bytesAt a.bytes 5 r.text.length = r.text := by
  have hchars := hp.chars
  rw [show r.text.length + 5 = 4 + (1 + r.text.length) by omega, Flat.bytesAt_add,
    Flat.bytesAt_add] at hchars
  obtain ⟨hword, hrest⟩ := List.append_inj hchars (by simp)
  obtain ⟨hcode, htext⟩ := List.append_inj hrest (by simp)
  exact ⟨hword, hcode, htext⟩

theorem load_word (hp : Packed a r) (ha : h.read p = some a) :
    load p 0 4 h = .ok (LittleEndian.bytes 4 r.text.length) := by
  have hle : 0 + 4 ≤ a.size := by
    rw [hp.size]
    omega
  rw [load, ha, pointee_some, ok_bind, CharArray.load, if_pos hle, hp.parts.1]

theorem load_code (hp : Packed a r) (ha : h.read p = some a) :
    load p 4 1 h = .ok [UInt8.ofNat r.code.toNat] := by
  have hle : 4 + 1 ≤ a.size := by
    rw [hp.size]
    omega
  rw [load, ha, pointee_some, ok_bind, CharArray.load, if_pos hle, hp.parts.2.1]

theorem load_text (hp : Packed a r) (ha : h.read p = some a) :
    load p 5 r.text.length h = .ok r.text := by
  have hle : 5 + r.text.length ≤ a.size := by
    rw [hp.size]
    omega
  rw [load, ha, pointee_some, ok_bind, CharArray.load, if_pos hle, hp.parts.2.2]

/-- The length, as it is read back. -/
theorem word_value (hp : Packed a r) :
    LittleEndian.value (LittleEndian.bytes 4 r.text.length) = r.text.length := by
  have := hp.fits
  rw [LittleEndian.value_bytes, Nat.mod_eq_of_lt]
  omega

end Packed

/-- A length that a `uint32_t` holds. -/
theorem toNat_length (bs : Bytes) (hlt : bs.length < 2 ^ 32) :
    (BitVec.ofNat 32 bs.length).toNat = bs.length := by
  rw [BitVec.toNat_ofNat, Nat.mod_eq_of_lt hlt]

theorem code_value (k : Code) : LittleEndian.value [UInt8.ofNat k.toNat] = k.toNat := by
  cases k <;> rfl

theorem typeOf_toNat (k : Code) : typeOf k.toNat = Code.label k := by
  cases k <;> rfl

theorem toNat_inj (k k' : Code) : k.toNat = k'.toNat ↔ k = k' := by
  cases k <;> cases k' <;> decide

/-! ### What a variable stands for -/

/-- A variable whose arrays are at `ps`, with its value. -/
inductive Stands (h : Heap CharArray) :
    Option (Option Nat) → Option Value → List Nat → Prop where
  | gone : Stands h none none []
  | ok : Stands h (some none) (some none) []
  | error {p : Nat} {a : CharArray} {r : Report} :
      h.read p = some a → Packed a r → Stands h (some (some p)) (some (some r)) [p]

theorem stands_local : Objects.Local Stands := by
  intro h h' x y ps hs hr
  cases hs with
  | gone => exact .gone
  | ok => exact .ok
  | @error p a r ha hp => exact .error ((hr p List.mem_cons_self).trans ha) hp

abbrev Rep (s : State) (t : Ref) : Prop := Represents Stands s.heap s.vars t

theorem rep_init : Rep State.init Ref.init :=
  ⟨fun _ => [], .empty Nat, fun _ => .gone⟩

theorem code_ok {v : Option Nat} {w : Value} {ps : List Nat} (hs : Stands h (some v) (some w) ps) :
    code h v = .ok w.code.toNat := by
  cases hs with
  | ok => rfl
  | @error p a r ha hp =>
      rw [code, hp.load_code ha, ok_bind, code_value]
      rfl

theorem toString_ok {v : Option Nat} {w : Value} {ps : List Nat}
    (hs : Stands h (some v) (some w) ps) : toString h v = .ok w.toString := by
  cases hs with
  | ok => rfl
  | @error p a r ha hp =>
      have hcode : code h (some p) = .ok r.code.toNat := code_ok (.error ha hp)
      have hfits := hp.fits
      have hlen := toNat_length r.text (by omega)
      simp only [toString, hcode, ok_bind, hp.load_word ha, hp.word_value, hlen, hp.load_text ha,
        typeOf_toNat, Value.toString]

/-- A variable answers as its value does. -/
theorem observe_ok {v : Option Nat} {w : Value} {ps : List Nat}
    (hs : Stands h (some v) (some w) ps) : observe h v = .ok w.answers := by
  have his : ∀ k, isCode h v k = .ok (decide (w.code = k)) := by
    intro k
    simp only [isCode, code_ok hs, ok_bind, toNat_inj]
  have hok : ok v = decide (w.code = .kOk) := by
    cases hs with
    | ok => rfl
    | error ha hp => exact (decide_eq_false hp.code_ne).symm
  simp only [observe, isNotFound, isCorruption, isNotSupported, isInvalidArgument, isIOError, his,
    ok_bind, toString_ok hs, hok]
  rfl

/-! ### New arrays -/

section

variable (new_ : Allocator) (memory : Nat → Memory)

/-- `h'` is `h` with a new array of `n` `char`s at `p`, the first of which are `cs`. -/
def Filled (h h' : Heap CharArray) (p n : Nat) (cs : Bytes) : Prop :=
  ∃ a, a.size = n ∧ bytesAt a.bytes 0 cs.length = cs ∧
    ∀ q, h'.read q = if q = p then some a else h.read q

theorem filled_newArray (size : U32) (h : Heap CharArray) :
    Filled h (newArray new_ memory size h).2 (h.address new_) size.toNat [] :=
  ⟨_, rfl, rfl, fun q => Objects.read_create new_ h _ q⟩

/-- A `memcpy` to where the last one ended. -/
theorem Filled.memcpy {h₀ : Heap CharArray} {n : Nat} (hf : Filled h₀ h p n cs) (off : Nat)
    (bs : Bytes) (hoff : off = cs.length) (hn : cs.length + bs.length ≤ n) :
    ∃ h', memcpy p off bs h = .ok h' ∧ Filled h₀ h' p n (cs ++ bs) := by
  obtain ⟨a, hsize, hchars, hread⟩ := hf
  have ha : h.read p = some a := (hread p).trans (if_pos rfl)
  have hstore : a.store off bs = .ok { a with bytes := Flat.write a.bytes off bs } := by
    rw [CharArray.store, if_pos (by omega)]
  obtain ⟨h', hwrite, hread'⟩ :=
    Objects.write_spec { a with bytes := Flat.write a.bytes off bs } ha
  refine ⟨h', ?_, { a with bytes := Flat.write a.bytes off bs }, hsize, ?_, fun q => ?_⟩
  · rw [Var.memcpy, ha, pointee_some, ok_bind, hstore, ok_bind, hwrite, pointee_some]
  · rw [hoff, List.length_append]
    simpa using Flat.bytesAt_write_append bs hchars
  · rw [hread', hread]
    by_cases hq : q = p
    · rw [if_pos hq, if_pos hq]
    · rw [if_neg hq, if_neg hq, if_neg hq]

/-- The old arrays are still there. -/
theorem Filled.read_old {h₀ : Heap CharArray} {n q : Nat} (hf : Filled h₀ h p n cs)
    (hq : q ≠ p) : h.read q = h₀.read q := by
  obtain ⟨a, -, -, hread⟩ := hf
  rw [hread, if_neg hq]

/-- An array that has been filled with a report. -/
theorem Filled.packed {h₀ : Heap CharArray} {r : Report} (hcode : r.code ≠ .kOk)
    (hfits : r.text.length + 5 < 2 ^ 32) (hf : Filled h₀ h p (r.text.length + 5) r.packed) :
    ∃ a, h.read p = some a ∧ Packed a r ∧ ∀ q, h.read q = if q = p then some a else h₀.read q := by
  obtain ⟨a, hsize, hchars, hread⟩ := hf
  rw [length_packed] at hchars
  exact ⟨a, (hread p).trans (if_pos rfl), ⟨hcode, hfits, hsize, hchars⟩, hread⟩

theorem copyState_spec {r : Report} (ha : h.read p = some a) (hp : Packed a r) :
    ∃ h', copyState new_ memory p h = .ok (h.address new_, h') ∧
      Filled h h' (h.address new_) (r.text.length + 5) r.packed := by
  have hfits := hp.fits
  have hsize : (BitVec.ofNat 32 r.text.length + 5).toNat = r.text.length + 5 := by
    have hlen := toNat_length r.text (by omega)
    rw [BitVec.toNat_add_of_lt (show _ + 5 < _ by omega), hlen]
    rfl
  have hnew := filled_newArray new_ memory (BitVec.ofNat 32 r.text.length + 5) h
  rw [hsize] at hnew
  -- the array that is copied is still where it was
  have hne : p ≠ h.address new_ := by
    rintro rfl
    rw [Objects.read_address] at ha
    cases ha
  have hload : load p 0 (r.text.length + 5)
      (newArray new_ memory (BitVec.ofNat 32 r.text.length + 5) h).2 = .ok r.packed := by
    rw [load, hnew.read_old hne, ha, pointee_some, ok_bind, CharArray.load,
      if_pos (by rw [hp.size]; omega), hp.chars]
  obtain ⟨h', hrun, hf⟩ := hnew.memcpy 0 r.packed rfl (by rw [length_packed]; simp)
  refine ⟨h', ?_, hf⟩
  have hresult : (newArray new_ memory (BitVec.ofNat 32 r.text.length + 5) h).1 =
      h.address new_ := rfl
  simp only [copyState, hp.load_word ha, hp.word_value, ok_bind, hsize, hresult, hload, hrun]

theorem length_message (msg msg2 : Bytes) : (message msg msg2).length =
    msg.length + if msg2 = [] then 0 else msg2.length + 2 := by
  rw [message]
  split_ifs
  · rfl
  · rw [List.length_append, List.length_append, List.length_append]
    show msg.length + (1 + 1 + msg2.length) = _
    omega

/-- The length word, the code and the first message. -/
theorem fill_head (h : Heap CharArray) (size : U32) (c : UInt8) (msg : Bytes)
    (hsize : size.toNat + 5 < 2 ^ 32) (hmsg : msg.length ≤ size.toNat) :
    ∃ h₁ h₂ h₃,
      memcpy (h.address new_) 0 (LittleEndian.bytes 4 size.toNat)
        (newArray new_ memory (size + 5) h).2 = .ok h₁ ∧
      memcpy (h.address new_) 4 [c] h₁ = .ok h₂ ∧ memcpy (h.address new_) 5 msg h₂ = .ok h₃ ∧
      Filled h h₃ (h.address new_) (size.toNat + 5)
        (LittleEndian.bytes 4 size.toNat ++ ([c] ++ msg)) := by
  have hnew := filled_newArray new_ memory (size + 5) h
  rw [BitVec.toNat_add_of_lt (y := 5) hsize] at hnew
  obtain ⟨h₁, hrun₁, hf₁⟩ := hnew.memcpy 0 (LittleEndian.bytes 4 size.toNat) rfl
    (by simp)
  obtain ⟨h₂, hrun₂, hf₂⟩ := hf₁.memcpy 4 [c] (by simp) (by simp)
  obtain ⟨h₃, hrun₃, hf₃⟩ := hf₂.memcpy 5 msg (by simp) (by simp; omega)
  exact ⟨h₁, h₂, h₃, hrun₁, hrun₂, hrun₃, by simpa using hf₃⟩

/-- The separator and the second message. -/
theorem Filled.tail {h₀ : Heap CharArray} {n : Nat} (hf : Filled h₀ h p n cs) (off : Nat)
    (msg2 : Bytes) (hoff : off = cs.length) (hn : cs.length + (msg2.length + 2) ≤ n) :
    ∃ h₁ h₂ h₃, Var.memcpy p off (ascii ":") h = .ok h₁ ∧
      Var.memcpy p (off + 1) (ascii " ") h₁ = .ok h₂ ∧
      Var.memcpy p (off + 2) msg2 h₂ = .ok h₃ ∧
      Filled h₀ h₃ p n (cs ++ (ascii ":" ++ ascii " " ++ msg2)) := by
  have hcolon : (ascii ":").length = 1 := rfl
  have hspace : (ascii " ").length = 1 := rfl
  obtain ⟨h₁, hrun₁, hf₁⟩ := hf.memcpy off (ascii ":") hoff (by omega)
  obtain ⟨h₂, hrun₂, hf₂⟩ := hf₁.memcpy (off + 1) (ascii " ") (by simp; omega) (by simp; omega)
  obtain ⟨h₃, hrun₃, hf₃⟩ := hf₂.memcpy (off + 2) msg2 (by simp; omega) (by simp; omega)
  exact ⟨h₁, h₂, h₃, hrun₁, hrun₂, hrun₃, by simpa using hf₃⟩

/-- `len2` is 0 where there is no second message, and only there. -/
theorem length_ne_zero {msg2 : Bytes} (hlt : msg2.length < 2 ^ 32) :
    BitVec.ofNat 32 msg2.length ≠ 0 ↔ msg2 ≠ [] := by
  refine not_congr ⟨fun hzero => ?_, fun hnil => by rw [hnil]; rfl⟩
  have hlen := toNat_length msg2 hlt
  rw [hzero] at hlen
  exact List.length_eq_zero_iff.mp hlen.symm

/-- `size` of the constructor. -/
theorem size_toNat {msg msg2 : Bytes} (hfits : msg.length + msg2.length + 7 < 2 ^ 32) :
    (BitVec.ofNat 32 msg.length + if BitVec.ofNat 32 msg2.length ≠ 0 then
      BitVec.ofNat 32 msg2.length + 2 else (0 : U32)).toNat = (message msg msg2).length := by
  have hlen1 := toNat_length msg (by omega)
  have hlen2 := toNat_length msg2 (by omega)
  rw [length_message]
  by_cases hmsg2 : msg2 = []
  · subst hmsg2
    have hlt : (BitVec.ofNat 32 msg.length).toNat + (0 : U32).toNat < 2 ^ 32 := by
      rw [hlen1]
      show msg.length + 0 < 2 ^ 32
      omega
    rw [if_neg (fun hne => hne rfl), if_pos rfl, BitVec.toNat_add_of_lt hlt, hlen1]
    rfl
  · have hlt2 : (BitVec.ofNat 32 msg2.length).toNat + (2 : U32).toNat < 2 ^ 32 := by
      rw [hlen2]
      show msg2.length + 2 < 2 ^ 32
      omega
    have hsum : (BitVec.ofNat 32 msg2.length + 2).toNat = msg2.length + 2 := by
      rw [BitVec.toNat_add_of_lt hlt2, hlen2]
      rfl
    rw [if_pos ((length_ne_zero (by omega)).mpr hmsg2), if_neg hmsg2,
      BitVec.toNat_add_of_lt (by rw [hlen1, hsum]; omega), hlen1, hsum]

theorem message_fits {msg msg2 : Bytes} (hfits : msg.length + msg2.length + 7 < 2 ^ 32) :
    (message msg msg2).length + 5 < 2 ^ 32 := by
  rw [length_message]
  split_ifs <;> omega

theorem new_spec {code : Code} {msg msg2 : Bytes} (h : Heap CharArray) (hcode : code ≠ .kOk)
    (hfits : msg.length + msg2.length + 7 < 2 ^ 32) :
    ∃ h', new new_ memory code msg msg2 h = .ok (h.address new_, h') ∧
      Filled h h' (h.address new_) ((message msg msg2).length + 5)
        (Report.packed ⟨code, message msg msg2⟩) := by
  have hresult : ∀ size, (newArray new_ memory size h).1 = h.address new_ := fun _ => rfl
  have hlen1 := toNat_length msg (by omega)
  have hlen2 := toNat_length msg2 (by omega)
  have hsize := size_toNat hfits
  have hmessage := length_message msg msg2
  have hbound := message_fits hfits
  have hoffset : ∀ k : U32, k.toNat ≤ 7 →
      (BitVec.ofNat 32 msg.length + k).toNat = msg.length + k.toNat := by
    intro k hk
    rw [BitVec.toNat_add_of_lt (by rw [hlen1]; omega), hlen1]
  simp only [new, assertion_of hcode, ok_bind, hresult, hlen1, hlen2, List.take_length,
    hoffset 5 (by decide), hoffset 6 (by decide), hoffset 7 (by decide)]
  generalize BitVec.ofNat 32 msg.length + _ = size at hsize ⊢
  obtain ⟨h₁, h₂, h₃, hrun₁, hrun₂, hrun₃, hf⟩ := fill_head new_ memory h size
    (UInt8.ofNat code.toNat) msg (by rw [hsize]; exact hbound) (by rw [hsize, hmessage]; omega)
  rw [hrun₁, ok_bind, hrun₂, ok_bind, hrun₃, ok_bind]
  rw [hsize] at hf
  by_cases hmsg2 : msg2 = []
  · refine ⟨h₃, if_neg fun hne => (length_ne_zero (by omega)).mp hne hmsg2, ?_⟩
    rwa [message, if_pos hmsg2] at hf ⊢
  · -- the separator and the second message
    rw [if_neg hmsg2] at hmessage
    obtain ⟨h₄, h₅, h₆, hrun₄, hrun₅, hrun₆, hf⟩ :=
      hf.tail (msg.length + 5) msg2 (by simp; omega) (by simp; omega)
    refine ⟨h₆, ?_, ?_⟩
    · rw [if_pos ((length_ne_zero (by omega)).mpr hmsg2)]
      show (memcpy _ (msg.length + 5) _ h₃ >>= _) = _
      rw [hrun₄, ok_bind]
      show (memcpy _ (msg.length + 5 + 1) _ h₄ >>= _) = _
      rw [hrun₅, ok_bind]
      show (memcpy _ (msg.length + 5 + 2) _ h₅ >>= _) = _
      rw [hrun₆, ok_bind]
    · have htext : message msg msg2 = msg ++ (ascii ":" ++ ascii " " ++ msg2) := if_neg hmsg2
      have hpacked : Report.packed ⟨code, message msg msg2⟩ =
          LittleEndian.bytes 4 (message msg msg2).length ++ ([UInt8.ofNat code.toNat] ++ msg) ++
            (ascii ":" ++ ascii " " ++ msg2) := by
        simp only [Report.packed, htext, List.append_assoc]
      rw [hpacked]
      exact hf

/-- The array the constructor makes holds what `Status.new` says it does. -/
theorem new_agrees {code : Code} {msg msg2 : Bytes} (h : Heap CharArray) (hcode : code ≠ .kOk)
    (hfits : msg.length + msg2.length + 7 < 2 ^ 32) :
    ∃ p h' a, new new_ memory code msg msg2 h = .ok (p, h') ∧ h'.read p = some a ∧
      Status.new code msg msg2 = .ok { state_ := some (bytesAt a.bytes 0 a.size) } := by
  obtain ⟨h', hrun, hf⟩ := new_spec new_ memory h hcode hfits
  have hlen1 := toNat_length msg (by omega)
  have hlen2 := toNat_length msg2 (by omega)
  have hsize := size_toNat hfits
  obtain ⟨a, ha, hp, -⟩ :=
    Filled.packed (r := ⟨code, message msg msg2⟩) hcode (message_fits hfits) hf
  refine ⟨_, h', a, hrun, ha, ?_⟩
  rw [hp.size, hp.chars]
  have htext : (msg ++ if BitVec.ofNat 32 msg2.length ≠ 0 then [58, 32] ++ msg2 else []) =
      message msg msg2 := by
    by_cases hmsg2 : msg2 = []
    · rw [if_neg fun hne => (length_ne_zero (by omega)).mp hne hmsg2, message, if_pos hmsg2,
        List.append_nil]
    · rw [if_pos ((length_ne_zero (by omega)).mpr hmsg2), message, if_neg hmsg2]
      rfl
  have hpacked := length_packed ⟨code, message msg msg2⟩
  rw [Report.packed, ← List.append_assoc] at hpacked
  simp only [Status.new, assertion_of hcode, ok_bind, hlen1, hlen2, List.take_length]
  generalize BitVec.ofNat 32 msg.length + _ = size at hsize ⊢
  have hsize5 : (size + 5).toNat = (message msg msg2).length + 5 := by
    rw [BitVec.toNat_add_of_lt (y := 5) (hsize ▸ message_fits hfits), hsize]
    rfl
  rw [htext, hsize, hsize5, if_pos hpacked.le, Report.packed, List.append_assoc]

/-- The public constructors of errors, with the codes they are for. -/
def factories :
    List (Code × (Bytes → Bytes → Heap CharArray → Except Fault (Nat × Heap CharArray))) :=
  [(.kNotFound, notFound new_ memory), (.kCorruption, corruption new_ memory),
    (.kNotSupported, notSupported new_ memory), (.kInvalidArgument, invalidArgument new_ memory),
    (.kIOError, IOError new_ memory)]

theorem factory_eq {code : Code}
    {make : Bytes → Bytes → Heap CharArray → Except Fault (Nat × Heap CharArray)}
    (hmem : (code, make) ∈ factories new_ memory) :
    code ≠ .kOk ∧ make = new new_ memory code := by
  simp only [factories, List.mem_cons, Prod.mk.injEq, List.not_mem_nil, or_false] at hmem
  rcases hmem with ⟨rfl, rfl⟩ | ⟨rfl, rfl⟩ | ⟨rfl, rfl⟩ | ⟨rfl, rfl⟩ | ⟨rfl, rfl⟩ <;>
    exact ⟨Code.noConfusion, rfl⟩

/-- What each of them makes has the predicate of its own code and no other, and both messages. -/
theorem factory_answers {code : Code} {msg msg2 : Bytes}
    {make : Bytes → Bytes → Heap CharArray → Except Fault (Nat × Heap CharArray)}
    (hmem : (code, make) ∈ factories new_ memory) (h : Heap CharArray)
    (hfits : msg.length + msg2.length + 7 < 2 ^ 32) :
    ∃ p h', make msg msg2 h = .ok (p, h') ∧
      observe h' (some p) = .ok (Value.answers (some ⟨code, message msg msg2⟩)) := by
  obtain ⟨hcode, rfl⟩ := factory_eq new_ memory hmem
  obtain ⟨h', hrun, hf⟩ := new_spec new_ memory h hcode hfits
  obtain ⟨a, ha, hp, -⟩ :=
    Filled.packed (r := ⟨code, message msg msg2⟩) hcode (message_fits hfits) hf
  exact ⟨_, h', hrun, observe_ok (.error ha hp)⟩

/-! ### What happens to a variable -/

variable {s : State} {t : Ref}

theorem Stands.gone_inv {life : Option Value} {ps : List Nat} (hs : Stands h none life ps) :
    life = none ∧ ps = [] := by
  cases hs
  exact ⟨rfl, rfl⟩

/-- A variable begins to own a new array, which holds `r`. -/
theorem rep_fill {r : Report} (hr : Rep s t) (hi : s.vars i = none) (hcode : r.code ≠ .kOk)
    (hfits : r.text.length + 5 < 2 ^ 32)
    (hf : Filled s.heap h' (s.heap.address new_) (r.text.length + 5) r.packed) :
    Rep (s.set i (some (some (s.heap.address new_))) h')
      (Function.update t i (some (some r))) := by
  obtain ⟨own, ho, hs⟩ := hr
  obtain ⟨a, ha, hp, hread⟩ := hf.packed hcode hfits
  have hown : own i = [] := (hi ▸ hs i).gone_inv.2
  have ho' := ho.created new_ i hread
  rw [hown] at ho'
  refine Represents.set stands_local hs ho' (.error ha hp) fun j _ q hq => ?_
  show h'.read q = s.heap.read q
  rw [hread, if_neg (ho.ne_address new_ hq)]

theorem rep_new {code : Code} {msg msg2 : Bytes} (hr : Rep s t) (hi : s.vars i = none)
    (hcode : code ≠ .kOk) (hfits : msg.length + msg2.length + 7 < 2 ^ 32) :
    ∃ p h', new new_ memory code msg msg2 s.heap = .ok (p, h') ∧
      Rep (s.set i (some (some p)) h')
        (Function.update t i (some (some ⟨code, message msg msg2⟩))) := by
  obtain ⟨h', hrun, hf⟩ := new_spec new_ memory s.heap hcode hfits
  exact ⟨_, h', hrun, rep_fill new_ hr hi hcode (message_fits hfits) hf⟩

theorem rep_copy {w : Option Nat} (hr : Rep s t) (hi : s.vars i = none)
    (hj : s.vars j = some w) :
    ∃ v h', copy new_ memory w s.heap = .ok (v, h') ∧
      Rep (s.set i (some v) h') (Function.update t i (t j)) := by
  obtain ⟨own, ho, hs⟩ := id hr
  have hown : own i = [] := (hi ▸ hs i).gone_inv.2
  have hsj := hs j
  rw [hj] at hsj
  generalize t j = life, own j = ps at hsj ⊢
  cases hsj with
  | ok => exact ⟨none, s.heap, rfl, Represents.set_same stands_local ho hs (hown ▸ .ok)⟩
  | @error p a r ha hp =>
      obtain ⟨h', hrun, hf⟩ := copyState_spec new_ memory ha hp
      refine ⟨_, h', ?_, rep_fill new_ hr hi hp.code_ne hp.fits hf⟩
      rw [copy, hrun, ok_bind]

theorem rep_delete {v : Option Nat} (hr : Rep s t) (hv : s.vars i = some v) :
    ∃ h', deleteArray v s.heap = .ok h' ∧ Rep (s.set i none h') (Function.update t i none) := by
  obtain ⟨own, ho, hs⟩ := hr
  have hsi := hs i
  rw [hv] at hsi
  generalize hps : own i = ps at hsi
  generalize t i = life at hsi
  cases hsi with
  | ok => exact ⟨s.heap, rfl, Represents.set_same stands_local ho hs (hps ▸ .gone)⟩
  | @error p a r ha hp =>
      obtain ⟨h', hdelete, hread⟩ := Objects.delete_spec ha
      have hmem : p ∈ own i := hps ▸ List.mem_cons_self
      refine ⟨h', ?_, Represents.set stands_local hs (ho.delete hps hread) .gone
        fun j hj q hq => ?_⟩
      · rw [deleteArray, hdelete, pointee_some]
      · show h'.read q = s.heap.read q
        rw [hread, if_neg (ho.ne_of_ne hq hmem hj)]

/-- An assignment from another variable deletes one array and copies the other, whose owner the
variable has never been. -/
theorem rep_assign {v w : Option Nat} (hr : Rep s t) (hi : s.vars i = some v)
    (hj : s.vars j = some w) :
    ∃ s', assign new_ memory i j v w s = .ok s' ∧ Rep s' (Function.update t i (t j)) := by
  by_cases hij : i = j
  · subst hij
    refine ⟨s, if_neg (fun hne => hne rfl), ?_⟩
    rw [Function.update_eq_self]
    exact hr
  · obtain ⟨h₁, hdelete, hr₁⟩ := rep_delete hr hi
    have hi₁ : (s.set i none h₁).vars i = none := Function.update_self _ _ _
    have hj₁ : (s.set i none h₁).vars j = some w := by
      show Function.update s.vars i none j = some w
      rw [Function.update_of_ne (Ne.symm hij), hj]
    obtain ⟨v', h₂, hcopy, hr₂⟩ := rep_copy new_ memory hr₁ hi₁ hj₁
    rw [Function.update_of_ne (Ne.symm hij), Function.update_idem] at hr₂
    have hset : (s.set i none h₁).set i (some v') h₂ = s.set i (some v') h₂ := by
      simp only [State.set, Function.update_idem]
    refine ⟨s.set i (some v') h₂, ?_, hset ▸ hr₂⟩
    have hcopy : copy new_ memory w h₁ = .ok (v', h₂) := hcopy
    rw [assign, if_pos hij, hdelete, ok_bind, hcopy, ok_bind]

/-- A variable that has a value is an object that answers as it does. -/
theorem rep_observe {w : Value} (hr : Rep s t) (hi : t i = some w) :
    ∃ v, s.vars i = some v ∧ observe s.heap v = .ok w.answers := by
  obtain ⟨own, -, hs⟩ := hr
  have hsi := hs i
  rw [hi] at hsi
  cases hv : s.vars i with
  | none =>
      rw [hv] at hsi
      cases hsi
  | some v =>
      rw [hv] at hsi
      exact ⟨v, rfl, observe_ok hsi⟩

theorem rep_live (hr : Rep s t) (hi : (t i).isSome) : ∃ v, s.vars i = some v := by
  obtain ⟨w, hw⟩ := Option.isSome_iff_exists.mp hi
  obtain ⟨v, hv, -⟩ := rep_observe hr hw
  exact ⟨v, hv⟩

theorem rep_gone (hr : Rep s t) (hi : t i = none) : s.vars i = none := by
  obtain ⟨own, -, hs⟩ := hr
  have hsi := hs i
  rw [hi] at hsi
  cases hv : s.vars i with
  | none => rfl
  | some v =>
      rw [hv] at hsi
      cases hsi

theorem step_follows (op : Op) (hr : Rep s t) (hp : Ref.Pre t op) :
    ∃ s', step new_ memory s op = .ok (s', (Ref.step t op).2) ∧ Rep s' (Ref.step t op).1 := by
  cases op with
  | ok i =>
      have hi : s.vars i = none := rep_gone hr hp
      obtain ⟨own, ho, hs⟩ := hr
      have hown : own i = [] := (hi ▸ hs i).gone_inv.2
      refine ⟨s.set i (some none) s.heap, ?_,
        Represents.set_same stands_local ho hs (hown ▸ .ok)⟩
      simp only [step, hi]
      rfl
  | error i code msg msg2 =>
      obtain ⟨hgone, hcode, hfits⟩ := hp
      have hi := rep_gone hr hgone
      obtain ⟨p, h', hrun, hr'⟩ := rep_new new_ memory hr hi hcode hfits
      refine ⟨_, ?_, hr'⟩
      simp only [step, hi, hrun, ok_bind]
      rfl
  | copy i j =>
      obtain ⟨hgone, hlive⟩ := hp
      have hi := rep_gone hr hgone
      obtain ⟨v, hj⟩ := rep_live hr hlive
      obtain ⟨v', h', hrun, hr'⟩ := rep_copy new_ memory hr hi hj
      refine ⟨_, ?_, hr'⟩
      simp only [step, hi, hj, hrun, ok_bind]
      rfl
  | assign i j =>
      obtain ⟨hlive, hlive'⟩ := hp
      obtain ⟨v, hi⟩ := rep_live hr hlive
      obtain ⟨v', hj⟩ := rep_live hr hlive'
      obtain ⟨s', hrun, hr'⟩ := rep_assign new_ memory hr hi hj
      refine ⟨s', ?_, hr'⟩
      simp only [step, hi, hj, hrun, ok_bind]
      rfl
  | destroy i =>
      obtain ⟨v, hi⟩ := rep_live hr hp
      obtain ⟨h', hrun, hr'⟩ := rep_delete hr hi
      refine ⟨_, ?_, hr'⟩
      simp only [step, hi, hrun, ok_bind]
      rfl
  | observe i =>
      obtain ⟨w, hw⟩ := Option.isSome_iff_exists.mp hp
      obtain ⟨v, hi, hrun⟩ := rep_observe hr hw
      refine ⟨s, ?_, hr⟩
      simp only [step, hi, hrun, ok_bind, Ref.step, hw, Option.map_some]

theorem Rep.eq_empty (hr : Rep s t) (hs : ∀ i, s.vars i = none) : s.heap.objects = ∅ := by
  obtain ⟨own, ho, hstands⟩ := hr
  exact ho.eq_empty fun i => (hs i ▸ hstands i).gone_inv.2

/-- **A status has value semantics.**  In every program, with any number of variables, each
observation is that of the variable's value: an error's code and its full text, changed by what is
done to the variable itself and by nothing else.  So is every one that could be made at the end,
where nothing is left of the variables that are gone. -/
theorem status_values (ops : List Op) (hops : Admissible Ref.Pre Ref.step Ref.init ops) :
    ∃ s, run (step new_ memory) State.init ops = .ok (s, (runRef Ref.step Ref.init ops).2) ∧
      (∀ i w, (runRef Ref.step Ref.init ops).1 i = some w →
        ∃ v, s.vars i = some v ∧ observe s.heap v = .ok w.answers) ∧
      (∀ i, (runRef Ref.step Ref.init ops).1 i = none → s.vars i = none) ∧
      ((∀ i, s.vars i = none) → s.heap.objects = ∅) := by
  obtain ⟨s, hrun, hr⟩ := run_follows
    (fun s t op => step_follows (s := s) (t := t) new_ memory op) ops State.init Ref.init rep_init
    hops
  exact ⟨s, hrun, fun i w hw => rep_observe hr hw, fun i hi => rep_gone hr hi, hr.eq_empty⟩

end

/-- An error with a zero byte in it, copied over itself, over `OK`, and outlived by its copy. -/
theorem status_values_three :
    let ops : List Op := [.error 0 .kIOError [97, 0, 98] [99], .ok 1, .copy 2 1, .assign 1 0,
      .assign 0 0, .assign 0 2, .observe 0, .observe 1, .destroy 0, .destroy 2, .observe 1,
      .destroy 1]
    ∃ s, run (step Objects.firstFit fun _ _ => 7) State.init ops =
        .ok (s, (runRef Ref.step Ref.init ops).2) ∧
      (∀ i w, (runRef Ref.step Ref.init ops).1 i = some w →
        ∃ v, s.vars i = some v ∧ observe s.heap v = .ok w.answers) ∧
      (∀ i, (runRef Ref.step Ref.init ops).1 i = none → s.vars i = none) ∧
      ((∀ i, s.vars i = none) → s.heap.objects = ∅) :=
  status_values Objects.firstFit _ _ (by
    simp [Admissible, Ref.Pre, Ref.step, Ref.init])

end Leveldb.Status.Var
