import Solidbits.File.Lemmas
import Solidbits.Lib.Run
import Solidbits.Stdio.View

namespace Solidbits

open Transition

section Defs

-- A call of read_from or write_to on one descriptor.
inductive Transfer where
  | read (size : Nat) (offset : Int)
  | write (buf : Bytes) (offset : Int)

structure TransferCall where
  choice : Choice
  transfer : Transfer

def TransferCall.size (call : TransferCall) : Nat :=
  match call.transfer with
  | .read size _ => size
  | .write buf _ => buf.length

def TransferCall.seekFails (call : TransferCall) : Bool :=
  match call.transfer with
  | .read _ offset => call.choice.seekFails || offset < 0
  | .write _ offset => call.choice.seekFails || offset < 0

-- Bytes that were written and still wait in the buffer.
def Store.pending (st : Store) (slot : Slot) : Bool :=
  match st.fs.file (st.descs slot).fd with
  | none => false
  | some file => !file.pending.isEmpty

-- The seek of the call fails to flush what is pending, or its fread or fwrite is
-- made and fails.
def TransferCall.faults (slot : Slot) (st : Store) (call : TransferCall) : Bool :=
  (call.choice.seekFails && st.pending slot) ||
    match call.transfer with
    | .read _ _ => call.choice.ioFails
    | .write _ _ => !call.seekFails && call.choice.ioFails

-- The result of the call: the number of bytes, with 0 for a failure.
def Store.transferred (slot : Slot) (st : Store) (call : TransferCall) : Nat :=
  match call.transfer with
  | .read size offset => (readFrom call.choice slot size offset st).1.r
  | .write buf offset => (writeTo call.choice slot buf offset st).1

def Store.transfer (slot : Slot) (st : Store) (call : TransferCall) : Store :=
  match call.transfer with
  | .read size offset => (readFrom call.choice slot size offset st).2
  | .write buf offset => (writeTo call.choice slot buf offset st).2

-- What the file of the descriptor holds, with the writes that are pending.
def Store.shown (st : Store) (slot : Slot) : Bytes :=
  match st.fs.file (st.descs slot).fd with
  | none => []
  | some file => file.applied (st.fs.content file.path)

-- The call has a reason of its own to fail: its seek, read or write fails, or it
-- is a read at or behind the end of the file.
def OwnFault (slot : Slot) (st : Store) (call : TransferCall) : Prop :=
  call.seekFails = true ∨ call.choice.ioFails = true ∨
    match call.transfer with
    | .read _ offset => ((st.shown slot).length : Int) ≤ offset
    | .write _ _ => False

-- A call that is asked for something fails only for a reason of its own.
def Honest (slot : Slot) (st : Store) (call : TransferCall) : Prop :=
  0 < call.size → st.transferred slot call = 0 → OwnFault slot st call

-- The FILE object of the descriptor, with its error indicator.
def Indicates (slot : Slot) (st : Store) (err : Bool) : Prop :=
  ∃ n file, (st.descs slot).fd = some n ∧ st.fs.files n = some file ∧ file.err = err

end Defs

section Stdio

variable {fs : Fs} {n got : Nat} {file : File}

theorem ferror_of_files (hf : fs.files n = some file) : fs.ferror (some n) = file.err := by
  have hfile : fs.file (some n) = some file := hf
  simp only [Fs.ferror, hfile]

theorem files_setFile (fs : Fs) (n : Nat) (file : Option File) : (fs.setFile (some n) file).files n = file :=
  Function.update_self _ _ _

-- A seek that fails sets the error indicator if it loses something pending.
theorem fseek_fails (hf : fs.files n = some file) {fails : Bool} {offset : Int}
    (h : (fails || offset < 0) = true) :
    ∃ sought, fs.fseek fails (some n) offset = (true, sought) ∧
      ∃ file', sought.files n = some file' ∧ file'.err = (file.err || (fails && !file.pending.isEmpty)) := by
  have hfile : fs.file (some n) = some file := hf
  obtain ⟨file', hf', _, _, _, herr⟩ := fflush_file hfile fails
  refine ⟨fs.fflush fails (some n), ?_, file', hf', herr⟩
  cases fails with
  | true => simp only [Fs.fseek, hfile, ite_true]
  | false =>
      have hneg : offset < 0 := by simpa using h
      simp only [Fs.fseek, hfile, hneg, ite_true, Bool.false_eq_true, ite_false]

-- After a seek the FILE object has the same error indicator.
theorem fseek_open (hf : fs.files n = some file) {fails : Bool} {offset : Int}
    (h : (fails || offset < 0) = false) :
    ∃ sought, fs.fseek fails (some n) offset = (false, sought) ∧
      sought.files n = some { file with pending := [], pos := offset.toNat } ∧
      sought.content file.path = file.applied (fs.content file.path) := by
  obtain ⟨rfl, hpos⟩ : fails = false ∧ 0 ≤ offset := by simpa using h
  obtain ⟨k, rfl⟩ := Int.eq_ofNat_of_zero_le hpos
  refine ⟨_, fseek_ok hf k, files_setFile _ _ _, ?_⟩
  show ((fs.fflush false (some n)).disk file.path).getD [] = _
  rw [fflush_disk hf, Function.update_self]
  rfl

theorem fread_open (hf : fs.files n = some file) (fails : Bool) (size : Nat) :
    ∃ data fs', fs.fread fails got (some n) size = (data, fs') ∧
      (fails = false → data = Padded.slice (file.applied (fs.content file.path)) file.pos size) ∧
      ∃ file', fs'.files n = some file' ∧ file'.err = (file.err || fails) := by
  have hmine : (fs.fflush false (some n)).file (some n) = some { file with pending := [] } := by
    show (fs.fflush false (some n)).files n = _
    rw [fflush_files hf, Function.update_self]
  have hcontent : (fs.fflush false (some n)).content file.path = file.applied (fs.content file.path) := by
    show ((fs.fflush false (some n)).disk file.path).getD [] = _
    rw [fflush_disk hf, Function.update_self]
    rfl
  simp only [Fs.fread, hmine, hcontent]
  refine ⟨_, _, rfl, ?_, _, files_setFile _ _ _, rfl⟩
  rintro rfl
  rfl

theorem fwrite_open (hf : fs.files n = some file) (fails : Bool) (buf : Bytes) :
    ∃ r fs', fs.fwrite fails got (some n) buf = (r, fs') ∧ (fails = false → r = buf.length) ∧
      ∃ file', fs'.files n = some file' ∧ file'.err = (file.err || fails) := by
  have hfile : fs.file (some n) = some file := hf
  cases fails with
  | true =>
      simp only [Fs.fwrite, hfile, ite_true]
      generalize min got (buf.length - buf.length % BLOCK_SIZE) = direct
      obtain ⟨passed, hpassed, _⟩ := pass_file hfile (buf.take direct)
      refine ⟨_, _, rfl, fun he => Bool.noConfusion he, { passed with err := true }, ?_, (Bool.or_true _).symm⟩
      simp only [Fs.setErr, hpassed]
      exact files_setFile _ _ _
  | false =>
      obtain ⟨fs', file', hw, hmine, _, herr⟩ := fwrite_file hfile got buf
      exact ⟨_, fs', hw, fun _ => rfl, file', hmine, herr.trans (Bool.or_false _).symm⟩

end Stdio

section Calls

variable {slot : Slot} {st : Store} {err : Bool}

theorem pending_of_open {n : Nat} {file : File} (hfd : (st.descs slot).fd = some n)
    (hf : st.fs.files n = some file) : st.pending slot = !file.pending.isEmpty := by
  have hfile : st.fs.file (st.descs slot).fd = some file := by rw [hfd]; exact hf
  simp only [Store.pending, hfile]

-- A read leaves the indicator set if it was set, the flush in its seek loses
-- something or the fread fails, and then reports 0.
theorem readFrom_indicates (h : Indicates slot st err) (choice : Choice) (size : Nat) (offset : Int) :
    let faults := (choice.seekFails && st.pending slot) || choice.ioFails
    Indicates slot (readFrom choice slot size offset st).2 (err || faults) ∧
      ((err || faults) = true → (readFrom choice slot size offset st).1.r = 0) ∧
      ((err || choice.ioFails) = false → (choice.seekFails || offset < 0) = false →
        (readFrom choice slot size offset st).1 = Received.all (Padded.slice (st.shown slot) offset.toNat size)) := by
  obtain ⟨n, file, hfd, hf, rfl⟩ := h
  have hpending := pending_of_open hfd hf
  have hsought : ∃ sought file', (st.fs.fseek choice.seekFails (some n) offset).2 = sought ∧
      sought.files n = some file' ∧ file'.err = (file.err || (choice.seekFails && st.pending slot)) ∧
      ((choice.seekFails || offset < 0) = false →
        file'.pos = offset.toNat ∧ file'.applied (sought.content file'.path) = st.shown slot) := by
    cases hseek : (choice.seekFails || offset < 0 : Bool) with
    | true =>
        obtain ⟨sought, hs, file', hf', he⟩ := fseek_fails hf hseek
        exact ⟨sought, file', by rw [hs], hf', by rw [he, hpending], nofun⟩
    | false =>
        obtain ⟨sought, hs, hf', hcontent⟩ := fseek_open hf hseek
        refine ⟨sought, _, by rw [hs], hf', ?_, fun _ => ⟨rfl, ?_⟩⟩
        · rw [(Bool.or_eq_false_iff.mp hseek).1, Bool.false_and, Bool.or_false]
        · have hfile : st.fs.file (st.descs slot).fd = some file := by rw [hfd]; exact hf
          simp only [Store.shown, hfile]
          rw [applied_nil rfl]
          exact hcontent
  obtain ⟨sought, file', hs, hf', he, hread⟩ := hsought
  obtain ⟨data, fs', hr, hdata, file'', hf'', he''⟩ := @fread_open _ _ choice.ioBytes _ hf' choice.ioFails size
  rw [he, Bool.or_assoc] at he''
  have hcall : readFrom choice slot size offset st =
      (if file''.err then ⟨0, data⟩ else Received.all data, { st with fs := fs' }) := by
    simp only [readFrom, hfd, hs, hr, ferror_of_files hf'']
    cases file''.err <;> rfl
  rw [hcall]
  refine ⟨⟨n, file'', hfd, hf'', he''⟩, fun hset => ?_, fun hclear hseek => ?_⟩
  · rw [if_pos (he''.trans hset)]
  · obtain ⟨herr, hio⟩ := Bool.or_eq_false_iff.mp hclear
    obtain ⟨hpos, hshown⟩ := hread hseek
    have hunset : file''.err = false := by
      rw [he'', herr, hio, (Bool.or_eq_false_iff.mp hseek).1]
      rfl
    rw [hunset, hdata hio, hpos, hshown]
    rfl

-- So does a write, unless its seek fails without losing anything.
theorem writeTo_indicates (h : Indicates slot st err) (choice : Choice) (buf : Bytes) (offset : Int) :
    let made := !(choice.seekFails || offset < 0)
    let faults := (choice.seekFails && st.pending slot) || (made && choice.ioFails)
    Indicates slot (writeTo choice slot buf offset st).2 (err || faults) ∧
      (err = true → (writeTo choice slot buf offset st).1 = 0) ∧
      ((err || choice.ioFails) = false → made = true → (writeTo choice slot buf offset st).1 = buf.length) := by
  obtain ⟨n, file, hfd, hf, rfl⟩ := h
  have hpending := pending_of_open hfd hf
  cases hseek : (choice.seekFails || offset < 0 : Bool) with
  | true =>
      obtain ⟨sought, hs, file', hf', he⟩ := fseek_fails hf hseek
      have hcall : writeTo choice slot buf offset st = (0, { st with fs := sought }) := by
        simp only [writeTo, hfd, hs]
      rw [hcall]
      refine ⟨⟨n, file', hfd, hf', ?_⟩, fun _ => rfl, nofun⟩
      rw [he, hpending, Bool.not_true, Bool.false_and, Bool.or_false]
  | false =>
      obtain ⟨sought, hs, hf', _⟩ := fseek_open hf hseek
      obtain ⟨r, fs', hw, hr, file', hf'', he⟩ := @fwrite_open _ _ choice.ioBytes _ hf' choice.ioFails buf
      have hflag : fs'.ferror (some n) = (file.err || choice.ioFails) := by rw [ferror_of_files hf'', he]
      have hcall : (writeTo choice slot buf offset st).1 = (if file.err || choice.ioFails then 0 else buf.length) ∧
          ((writeTo choice slot buf offset st).2.descs slot).fd = some n ∧
          (writeTo choice slot buf offset st).2.fs = fs' := by
        simp only [writeTo, hfd, hs, hw, hflag]
        cases hset : (file.err || choice.ioFails) with
        | true => exact ⟨rfl, hfd, rfl⟩
        | false =>
            have hio : choice.ioFails = false := (Bool.or_eq_false_iff.mp hset).2
            simp only [Bool.false_eq_true, ite_false, hr hio]
            split
            · exact ⟨rfl, by rw [setDesc_self], rfl⟩
            · exact ⟨rfl, hfd, rfl⟩
      obtain ⟨hresult, hfd', hfs'⟩ := hcall
      refine ⟨⟨n, file', hfd', by rw [hfs']; exact hf'', ?_⟩, fun hset => ?_, fun hclear _ => ?_⟩
      · rw [he, (Bool.or_eq_false_iff.mp hseek).1]
        rfl
      · rw [hresult, hset]
        rfl
      · rw [hresult, hclear]
        rfl

theorem Indicates.step (h : Indicates slot st err) (call : TransferCall) :
    Indicates slot (st.transfer slot call) (err || call.faults slot st) := by
  obtain ⟨choice, transfer⟩ := call
  cases transfer with
  | read size offset => exact (readFrom_indicates h choice size offset).1
  | write buf offset => exact (writeTo_indicates h choice buf offset).1

-- With the indicator set every call reports a failure; without it a call does
-- so only for a reason of its own.
theorem honest_iff (h : Indicates slot st err) (call : TransferCall) :
    Honest slot st call ↔ (err = true → 0 < call.size → OwnFault slot st call) := by
  obtain ⟨choice, transfer⟩ := call
  cases err with
  | true =>
      have hzero : st.transferred slot ⟨choice, transfer⟩ = 0 := by
        cases transfer with
        | read size offset => exact (readFrom_indicates h choice size offset).2.1 rfl
        | write buf offset => exact (writeTo_indicates h choice buf offset).2.1 rfl
      exact ⟨fun hhonest _ hpos => hhonest hpos hzero, fun hown hpos _ => hown rfl hpos⟩
  | false =>
      refine iff_of_true (fun hpos hzero => ?_) nofun
      by_contra hown
      simp only [OwnFault, not_or, Bool.not_eq_true] at hown
      obtain ⟨hseek, hio, hend⟩ := hown
      have hclear : (false || choice.ioFails) = false := hio
      cases transfer with
      | read size offset =>
          have hread := (readFrom_indicates h choice size offset).2.2 hclear hseek
          have hlength : _ = (Padded.slice (st.shown slot) offset.toNat size).length := congrArg Received.r hread
          have hnone : (readFrom choice slot size offset st).1.r = 0 := hzero
          have hsize : 0 < size := hpos
          have hbefore : ¬((st.shown slot).length : Int) ≤ offset := hend
          have hstart : 0 ≤ offset := by simpa using (Bool.or_eq_false_iff.mp hseek).2
          rw [hnone, Padded.slice_length] at hlength
          omega
      | write buf offset =>
          have hwrite := (writeTo_indicates h choice buf offset).2.2 hclear (by rw [← Bool.not_false]; exact congrArg _ hseek)
          have hnone : (writeTo choice slot buf offset st).1 = 0 := hzero
          have hsize : 0 < buf.length := hpos
          omega

-- The indicator is clear as long as no call faults.
theorem Indicates.run (h : Indicates slot st err) (calls : List TransferCall) :
    ∃ err', Indicates slot (run (Store.transfer slot) st calls) err' ∧
      (err' = false ↔ err = false ∧
        AllSteps (Store.transfer slot) (fun st call => call.faults slot st = false) st calls) := by
  induction calls generalizing st err with
  | nil => exact ⟨err, h, (and_iff_left trivial).symm⟩
  | cons call calls ih =>
      obtain ⟨err', hafter, herr⟩ := ih (h.step call)
      refine ⟨err', hafter, ?_⟩
      rw [herr, Bool.or_eq_false_iff, and_assoc]
      exact Iff.rfl

-- Every call of a sequence on a freshly opened descriptor is honest, exactly if
-- no call that would succeed on its own comes after one whose flush, fread or
-- fwrite failed.
theorem honest_calls_iff (calls : List TransferCall) (hopen : Indicates slot st false) :
    AllSteps (Store.transfer slot) (Honest slot) st calls ↔
      ∀ before failed between call after, calls = (before ++ failed :: between) ++ call :: after →
        failed.faults slot (run (Store.transfer slot) st before) = true → 0 < call.size →
        OwnFault slot (run (Store.transfer slot) st (before ++ failed :: between)) call := by
  rw [allSteps_iff_before]
  constructor
  · intro hhonest before failed between call after he hfault
    obtain ⟨err, hindicates, herr⟩ := hopen.run (before ++ failed :: between)
    rw [allSteps_iff_before] at herr
    refine (honest_iff hindicates call).mp (hhonest _ call after he) ?_
    by_contra hclear
    have hnone := (herr.mp (Bool.eq_false_iff.mpr hclear)).2 before failed between rfl
    cases hfault.symm.trans hnone
  · intro hown earlier call after he
    obtain ⟨err, hindicates, herr⟩ := hopen.run earlier
    refine (honest_iff hindicates call).mpr fun hset => ?_
    have hfaulty : ¬AllSteps (Store.transfer slot) (fun st call => call.faults slot st = false) st earlier := by
      intro hnone
      cases hset.symm.trans (herr.mpr ⟨rfl, hnone⟩)
    rw [allSteps_iff_before] at hfaulty
    push Not at hfaulty
    obtain ⟨before, failed, between, rfl, hfault⟩ := hfaulty
    exact hown before failed between call after he (Bool.eq_true_of_not_eq_false hfault)

-- A write, another one whose seek fails to flush the first, and a third call.
def afterLoss (third : Transfer) : List TransferCall :=
  [⟨{}, .write [128] 0⟩, ⟨{ seekFails := true }, .write [128] 0⟩, ⟨{}, third⟩]

-- The first byte is lost, so that a read has reached the end of the file.
theorem honest_calls_new_file :
    let st := (prepareHashed {} 1 0 (initFile fun _ => none)).2
    TransferCall.faults 0 (st.transfer 0 ⟨{}, .write [128] 0⟩) ⟨{ seekFails := true }, .write [128] 0⟩ = true ∧
      AllSteps (Store.transfer 0) (Honest 0) st (afterLoss (.read 1 0)) := by
  intro st
  have hopen : Indicates 0 st false := ⟨0, { path := 1 }, by decide +kernel, by decide +kernel, rfl⟩
  have hnone : TransferCall.faults 0 st ⟨{}, .write [128] 0⟩ = false := by decide +kernel
  have hempty : (((st.transfer 0 ⟨{}, .write [128] 0⟩).transfer 0
      ⟨{ seekFails := true }, .write [128] 0⟩).shown 0).length = 0 := by decide +kernel
  refine ⟨by decide +kernel, (honest_calls_iff _ hopen).mpr fun before failed between call after he hfault _ => ?_⟩
  have hlength := congrArg List.length he
  simp only [afterLoss, List.length_append, List.length_cons, List.length_nil] at hlength
  rcases before with _ | ⟨first, _ | ⟨second, before⟩⟩
  · obtain ⟨rfl, _⟩ := List.cons.inj he
    cases hfault.symm.trans hnone
  · obtain rfl := List.length_eq_zero_iff.mp (by simp at hlength; omega : between.length = 0)
    obtain ⟨rfl, hrest⟩ := List.cons.inj he
    obtain ⟨rfl, hlast⟩ := List.cons.inj hrest
    obtain ⟨rfl, _⟩ := List.cons.inj hlast
    exact Or.inr (Or.inr (Int.ofNat_le.mpr hempty.le))
  · simp only [List.length_cons] at hlength
    omega

-- A third write fails at nothing and reports a failure, too.
theorem failed_write_sticks :
    let st := (prepareHashed {} 1 0 (initFile fun _ => none)).2
    Indicates 0 st false ∧ ¬AllSteps (Store.transfer 0) (Honest 0) st (afterLoss (.write [128] 0)) := by
  intro st
  refine ⟨⟨0, { path := 1 }, by decide +kernel, by decide +kernel, rfl⟩, ?_⟩
  rintro ⟨_, _, hthird, _⟩
  have hzero : (((st.transfer 0 ⟨{}, .write [128] 0⟩).transfer 0
      ⟨{ seekFails := true }, .write [128] 0⟩).transferred 0 ⟨{}, .write [128] 0⟩) = 0 := by decide +kernel
  rcases hthird (by decide) hzero with h | h | h
  · cases h
  · cases h
  · exact h

end Calls

end Solidbits
