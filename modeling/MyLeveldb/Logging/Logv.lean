import MyLeveldb.Logging.Texts

/-!
# Logging — Logv

`WinLogger::Logv`: a line with the time, the thread and a message, made in a buffer of 500
characters or, if they are too few, in one of 30000.

A pass keeps the characters from `base` on, and `p`, an offset from `base`.  What `vsnprintf` makes
of the format and the arguments is a parameter: a text, or `none` where it fails.
-/

namespace Leveldb.WinLogger

open Status (ascii)

structure SYSTEMTIME where
  wYear : BitVec 16
  wMonth : BitVec 16
  wDay : BitVec 16
  wHour : BitVec 16
  wMinute : BitVec 16
  wSecond : BitVec 16
  wMilliseconds : BitVec 16
  deriving DecidableEq, Repr

/-- `"%04d/%02d/%02d-%02d:%02d:%02d.%03d %llx "`. -/
def header (st : SYSTEMTIME) (thread_id : U32) : Bytes :=
  zeroPadded 10 4 st.wYear.toNat ++ ascii "/" ++ zeroPadded 10 2 st.wMonth.toNat ++ ascii "/" ++
    zeroPadded 10 2 st.wDay.toNat ++ ascii "-" ++ zeroPadded 10 2 st.wHour.toNat ++ ascii ":" ++
    zeroPadded 10 2 st.wMinute.toNat ++ ascii ":" ++ zeroPadded 10 2 st.wSecond.toNat ++
    ascii "." ++ zeroPadded 10 3 st.wMilliseconds.toNat ++ ascii " " ++
    digits 16 thread_id.toNat ++ ascii " "

/-- What `_snprintf_s(p, size, _TRUNCATE, ...)` returns for a text. -/
def snprintf_s (size : Nat) (text : Bytes) : Int := if text.length < size then text.length else -1

/-- What `vsnprintf(p, size, ...)` returns, and puts at `p`. -/
def vsnprintf (size : Nat) : Option Bytes → Int × Bytes
  | some text => (text.length, snprintf size text)
  | none      => (-1, [])

/-- How a pass ends. -/
inductive Pass where
  /-- `continue` -/
  | again
  /-- `fwrite` of these characters -/
  | written (line : Bytes)
  deriving DecidableEq, Repr

/-- The characters from `base` to `p`, after `if (p == base || p[-1] != '\n') { *p++ = '\n'; }`. -/
def addNewline (buf : Bytes) (p : Nat) : Bytes :=
  if p = 0 ∨ (buf.take p).getLast? ≠ some 10 then buf.take p ++ [10] else buf.take p

/-- The body of the loop. -/
def pass (iter bufsize : Nat) (st : SYSTEMTIME) (thread_id : U32) (message : Option Bytes) :
    Except Fault Pass := do
  let text := header st thread_id
  let p := snprintf_s bufsize text
  -- before `base` there is nothing to write to
  if p < 0 then .error .wild
  else
    let printed := vsnprintf (bufsize - p.toNat) message
    let (buf, p) := if p < bufsize then (text ++ printed.2, p + printed.1) else (text, p)
    if p < 0 then .error .wild
    else if bufsize ≤ p ∧ iter = 0 then .ok .again
    else
      let p := if bufsize ≤ p then bufsize - 1 else p.toNat
      let line := addNewline buf p
      assertion (line.length ≤ bufsize)
      .ok (.written line)

/-- `for (int iter = 0; iter < 2; iter++)`: what is written to `file_`; `now` is what `GetLocalTime`
says in each pass. -/
def logv (now : Nat → SYSTEMTIME) (thread_id : U32) (message : Option Bytes) :
    Except Fault Bytes := do
  match ← pass 0 500 (now 0) thread_id message with
  | .written line => .ok line
  | .again =>
      match ← pass 1 30000 (now 1) thread_id message with
      | .written line => .ok line
      | .again        => .ok []

/-! ### The header -/

theorem length_zeroPadded_le {width n : Nat} (hn : n < 10 ^ 5) (hw : width ≤ 5) :
    (zeroPadded 10 width n).length ≤ 5 := by
  have hlen := length_digits_le (k := 5) (by decide) hn
  rw [zeroPadded, List.length_append, List.length_replicate]
  omega

theorem length_header_lt (st : SYSTEMTIME) (thread_id : U32) :
    (header st thread_id).length < 60 := by
  have hword : ∀ (x : BitVec 16) (width : Nat), width ≤ 5 →
      (zeroPadded 10 width x.toNat).length ≤ 5 := by
    intro x width hw
    have hx := x.isLt
    exact length_zeroPadded_le (by omega) hw
  have hthread : (digits 16 thread_id.toNat).length ≤ 8 := by
    have ht := thread_id.isLt
    rw [digits_eq (by decide), List.length_map]
    exact Numerals.length_numeral_le (by decide) (by decide) (by omega)
  have hchar : ∀ s, s ∈ ["/", "-", ":", ".", " "] → (ascii s).length = 1 := by decide
  have hyear := hword st.wYear 4 (by decide)
  have hmonth := hword st.wMonth 2 (by decide)
  have hday := hword st.wDay 2 (by decide)
  have hhour := hword st.wHour 2 (by decide)
  have hminute := hword st.wMinute 2 (by decide)
  have hsecond := hword st.wSecond 2 (by decide)
  have hmilli := hword st.wMilliseconds 3 (by decide)
  simp only [header, List.length_append, hchar "/" (by decide), hchar "-" (by decide),
    hchar ":" (by decide), hchar "." (by decide), hchar " " (by decide)]
  omega

/-! ### A line -/

/-- The text, ended by a newline. -/
def line (text : Bytes) : Bytes := if text.getLast? = some 10 then text else text ++ [10]

theorem addNewline_eq (buf : Bytes) (p : Nat) : addNewline buf p = line (buf.take p) := by
  rcases Nat.eq_zero_or_pos p with rfl | hp
  · rfl
  · simp only [addNewline, line, hp.ne', false_or]
    split_ifs <;> simp_all

theorem getLast_line (text : Bytes) : (line text).getLast? = some 10 := by
  rw [line]
  split_ifs with h
  · exact h
  · exact List.getLast?_concat

theorem length_line_le (text : Bytes) : (line text).length ≤ text.length + 1 := by
  rw [line]
  split_ifs
  · omega
  · rw [List.length_append, List.length_singleton]

variable {iter bufsize : Nat} {st : SYSTEMTIME} {thread_id : U32} {text : Bytes}

theorem snprintf_s_header (hbuf : 60 ≤ bufsize) :
    snprintf_s bufsize (header st thread_id) = (header st thread_id).length :=
  if_pos ((length_header_lt st thread_id).trans_le hbuf)

/-- The message fits in the buffer, with the NUL that the newline replaces. -/
theorem pass_fits (hbuf : 60 ≤ bufsize)
    (hfits : (header st thread_id ++ text).length < bufsize) :
    pass iter bufsize st thread_id (some text) =
      .ok (.written (line (header st thread_id ++ text))) := by
  rw [List.length_append] at hfits
  have htext : text.take (bufsize - (header st thread_id).length - 1) = text :=
    List.take_of_length_le (by omega)
  have hall : (header st thread_id ++ text).take ((header st thread_id).length + text.length) =
      header st thread_id ++ text := List.take_of_length_le (by rw [List.length_append])
  have hline := length_line_le (header st thread_id ++ text)
  rw [List.length_append] at hline
  have hp : ¬ (bufsize : Int) ≤ (header st thread_id).length + text.length := by omega
  have hpos : ¬ ((header st thread_id).length + text.length : Int) < 0 := by omega
  have hnat : ((header st thread_id).length + text.length : Int).toNat =
      (header st thread_id).length + text.length := by omega
  have hhead : ((header st thread_id).length : Int) < bufsize := by omega
  have hzero : ¬ ((header st thread_id).length : Int) < 0 := by omega
  simp only [pass, snprintf_s_header hbuf, vsnprintf, snprintf, if_neg hzero, if_pos hhead,
    Int.toNat_natCast, htext, if_neg hpos, hp, false_and, if_false, hnat, addNewline_eq, hall]
  rw [assertion_of (by omega)]
  rfl

/-- The message does not fit: the first pass is given up, the second one writes what there is room
for. -/
theorem pass_truncates (hbuf : 60 ≤ bufsize)
    (hlong : bufsize ≤ (header st thread_id ++ text).length) :
    pass iter bufsize st thread_id (some text) = if iter = 0 then .ok .again else
      .ok (.written (line ((header st thread_id ++ text).take (bufsize - 1)))) := by
  have hheader := length_header_lt st thread_id
  rw [List.length_append] at hlong
  have hcut : (header st thread_id ++ text.take (bufsize - (header st thread_id).length - 1)).take
      (bufsize - 1) = (header st thread_id ++ text).take (bufsize - 1) := by
    have hmin : min (bufsize - 1 - (header st thread_id).length)
        (bufsize - (header st thread_id).length - 1) =
          bufsize - 1 - (header st thread_id).length := by
      omega
    rw [List.take_append, List.take_append, List.take_take, hmin]
  have hline := length_line_le ((header st thread_id ++ text).take (bufsize - 1))
  rw [List.length_take, List.length_append] at hline
  have hp : (bufsize : Int) ≤ (header st thread_id).length + text.length := by omega
  have hpos : ¬ ((header st thread_id).length + text.length : Int) < 0 := by omega
  have hhead : ((header st thread_id).length : Int) < bufsize := by omega
  have hzero : ¬ ((header st thread_id).length : Int) < 0 := by omega
  simp only [pass, snprintf_s_header hbuf, vsnprintf, snprintf, if_neg hzero, if_pos hhead,
    Int.toNat_natCast, if_neg hpos, hp, true_and, if_true, addNewline_eq, hcut]
  split_ifs
  · rfl
  · rw [assertion_of (by omega)]
    rfl

/-- `vsnprintf` fails: `p` goes back over the blank, and the newline takes its place. -/
theorem pass_error (hbuf : 60 ≤ bufsize) :
    pass iter bufsize st thread_id none = .ok (.written (line (header st thread_id).dropLast)) := by
  have hheader := length_header_lt st thread_id
  have hblank : (ascii " ").length = 1 := rfl
  have hne : 0 < (header st thread_id).length := by
    rw [header, List.length_append, hblank]
    omega
  have hline := length_line_le (header st thread_id).dropLast
  rw [List.length_dropLast] at hline
  have hp : ¬ (bufsize : Int) ≤ (header st thread_id).length + -1 := by omega
  have hpos : ¬ ((header st thread_id).length + -1 : Int) < 0 := by omega
  have hnat :
      ((header st thread_id).length + -1 : Int).toNat = (header st thread_id).length - 1 := by
    omega
  have hhead : ((header st thread_id).length : Int) < bufsize := by omega
  have hzero : ¬ ((header st thread_id).length : Int) < 0 := by omega
  simp only [pass, snprintf_s_header hbuf, vsnprintf, if_neg hzero, if_pos hhead, if_neg hpos, hp,
    false_and, if_false, hnat, addNewline_eq, List.append_nil, ← List.dropLast_eq_take]
  rw [assertion_of (by omega)]
  rfl

/-! ### Both passes -/

/-- The pass that writes: the first one where header and message fit in the small buffer. -/
def lastPass (now : Nat → SYSTEMTIME) (thread_id : U32) (text : Bytes) : Nat :=
  if (header (now 0) thread_id ++ text).length < 500 then 0 else 1

/-- `Logv` writes one line, ended by a newline, of at most 30000 characters: the header and the
message, as if there were one buffer of 30000 characters, with the time of the pass that wrote it;
where `vsnprintf` fails, the header. -/
theorem logv_writes_line (now : Nat → SYSTEMTIME) (thread_id : U32) (message : Option Bytes) :
    ∃ out, logv now thread_id message = .ok out ∧ out.getLast? = some 10 ∧ out.length ≤ 30000 ∧
      (message = none → out = line (header (now 0) thread_id).dropLast) ∧
      ∀ text, message = some text → out =
        line ((header (now (lastPass now thread_id text)) thread_id ++ text).take 29999) := by
  have hline : ∀ text : Bytes, (line (text.take 29999)).length ≤ 30000 := by
    intro text
    have hlen := length_line_le (text.take 29999)
    rw [List.length_take] at hlen
    omega
  cases message with
  | none =>
      have hheader := length_header_lt (now 0) thread_id
      have hlen := length_line_le (header (now 0) thread_id).dropLast
      rw [List.length_dropLast] at hlen
      refine ⟨line (header (now 0) thread_id).dropLast, ?_, getLast_line _, by omega, fun _ => rfl,
        fun text h => by cases h⟩
      rw [logv, pass_error (by decide)]
      rfl
  | some text =>
      by_cases hfits : (header (now 0) thread_id ++ text).length < 500
      · have htake : (header (now 0) thread_id ++ text).take 29999 =
            header (now 0) thread_id ++ text := List.take_of_length_le (by omega)
        refine ⟨line ((header (now 0) thread_id ++ text).take 29999), ?_, getLast_line _, hline _,
          fun h => absurd h (Option.some_ne_none text), fun text' h => ?_⟩
        · rw [logv, pass_fits (by decide) hfits, htake]
          rfl
        · obtain rfl := Option.some.inj h
          rw [lastPass, if_pos hfits]
      · refine ⟨line ((header (now 1) thread_id ++ text).take 29999), ?_, getLast_line _, hline _,
          fun h => absurd h (Option.some_ne_none text), fun text' h => ?_⟩
        · rw [logv, pass_truncates (by decide) (Nat.not_lt.1 hfits), if_pos rfl, ok_bind]
          by_cases hfits' : (header (now 1) thread_id ++ text).length < 30000
          · have htake : (header (now 1) thread_id ++ text).take 29999 =
                header (now 1) thread_id ++ text := List.take_of_length_le (by omega)
            rw [pass_fits (by decide) hfits', htake]
            rfl
          · rw [pass_truncates (by decide) (Nat.not_lt.1 hfits'), if_neg one_ne_zero]
            rfl
        · obtain rfl := Option.some.inj h
          rw [lastPass, if_neg hfits]

end Leveldb.WinLogger
