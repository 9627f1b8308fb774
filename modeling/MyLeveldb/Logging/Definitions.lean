import MyLeveldb.Coding.Definitions
import MyLeveldb.Format.Definitions
import MyLeveldb.Status.Variables

/-!
# Logging — Definitions

`logging.cc`, and the two `debugString()` of `dbformat.cpp`: texts for people to read.

`snprintf` leaves at most `size - 1` characters in a buffer.  None of the texts has a NUL, so that
what `append(buf)` takes from the buffer is all of it.
-/

namespace Leveldb

open Status (ascii)

/-- What `snprintf(buf, size, ...)` leaves of a text in `buf`. -/
def snprintf (size : Nat) (text : Bytes) : Bytes := text.take (size - 1)

/-- The digits of a number in base `b`. -/
def digits (b n : Nat) : Bytes := (Nat.toDigits b n).map fun c => UInt8.ofNat c.toNat

/-- The digits, with zeros before them if they are fewer than `width`. -/
def zeroPadded (b width n : Nat) : Bytes :=
  List.replicate (width - (digits b n).length) 48 ++ digits b n

/-! ### Printing -/

/-- `*str` after `AppendNumberTo(str, num)`. -/
def appendNumberTo (str : Bytes) (num : U64) : Bytes := str ++ snprintf 30 (digits 10 num.toNat)

def numberToString (num : U64) : Bytes := appendNumberTo [] num

/-- `c >= ' ' && c <= '~'`. -/
def isPrintable (c : UInt8) : Bool := 32 ≤ c.toNat ∧ c.toNat ≤ 126

/-- What the loop of `AppendEscapedStringTo` appends for one character. -/
def escapeChar (c : UInt8) : Bytes :=
  if isPrintable c then [c] else snprintf 10 (ascii "\\x" ++ zeroPadded 16 2 c.toNat)

/-- `*str` after `AppendEscapedStringTo(str, value)`. -/
def appendEscapedStringTo (str value : Bytes) : Bytes :=
  value.foldl (fun str c => str ++ escapeChar c) str

def escapeString (value : Bytes) : Bytes := appendEscapedStringTo [] value

/-- `ParsedInternalKey::debugString()`. -/
def ParsedInternalKey.debugString (k : ParsedInternalKey) : Bytes :=
  ascii "'" ++ k.user_key ++ snprintf 50 (ascii "' @ " ++ digits 10 k.sequence.toNat ++
    ascii " : " ++ digits 10 k.type.toNat)

/-- `InternalKey::debugString()`; `parsed` is what is in the local variable before. -/
def InternalKey.debugString (rep_ : Bytes) (parsed : ParsedInternalKey) : Except Fault Bytes := do
  let (ok, parsed) ← parseInternalKey rep_ parsed
  .ok (if ok then parsed.debugString else ascii "(bad)" ++ escapeString rep_)

/-! ### Reading -/

/-- What `ConsumeChar(in, c)` returns, and `*in` after it. -/
def consumeChar (input : Bytes) (c : UInt8) : Bool × Bytes :=
  match input with
  | []          => (false, [])
  | d :: input' => if d = c then (true, input') else (false, input)

/-- `c >= '0' && c <= '9'`. -/
def isDigit (c : UInt8) : Bool := 48 ≤ c.toNat ∧ c.toNat ≤ 57

/-- `~static_cast<uint64_t>(0)`. -/
def kMaxUint64 : U64 := ~~~0

/-- The loop of `ConsumeDecimalNumber`: `*in` after it, and `v` and `digits`, or `none` where it
returns, on overflow. -/
def consumeDigits : Bytes → U64 → BitVec 32 → Bytes × Option (U64 × BitVec 32)
  | [], v, digits => ([], some (v, digits))
  | c :: input, v, digits =>
      if isDigit c then
        let delta := c.toNat - 48
        if (kMaxUint64 / 10).toNat < v.toNat ∨
            v = kMaxUint64 / 10 ∧ (kMaxUint64 % 10).toNat < delta then (c :: input, none)
        else consumeDigits input (v * 10 + BitVec.ofNat 64 delta) (digits + 1)
      else (c :: input, some (v, digits))

/-- `ConsumeDecimalNumber(in, val)`. -/
def consumeDecimalNumber (input : Bytes) (val : U64) : Got U64 :=
  match consumeDigits input 0 0 with
  | (input, none)             => { ok := false, input := input, value := val }
  | (input, some (v, digits)) => { ok := decide (0 < digits.toInt), input := input, value := v }

end Leveldb
