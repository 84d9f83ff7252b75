import Solidbits.File.Sound
import Solidbits.File.Refill
import Solidbits.Cmd

namespace Solidbits

section Files

variable {fs fs' : Fs} {m : Contents} {path hash : UInt64}

theorem content_setFile (fs : Fs) (fp : FilePtr) (file : Option File) (path : UInt64) :
    (fs.setFile fp file).content path = fs.content path := by
  cases fp <;> rfl

theorem fflush_shut {fp : FilePtr} (hf : fs.file fp = none) (fails : Bool) : fs.fflush fails fp = fs := by
  simp only [Fs.fflush, hf]

-- What is flushed is what was shown.
theorem Shows.flushed (h : Shows fs m) {n : Nat} {file : File} (hf : fs.files n = some file) :
    (fs.fflush false (some n)).content file.path = (m file.path).getD [] := by
  rw [Fs.content, fflush_disk hf, Function.update_self, h.opened n file hf]

-- A flush brings its file up to what it shows, and a flush that fails does not
-- change it.
theorem Shows.fflush_content (h : Shows fs m) (fails : Bool) (fp : FilePtr) (path : UInt64) :
    (fs.fflush fails fp).content path = fs.content path ∨ (fs.fflush fails fp).content path = (m path).getD [] := by
  cases hf : fs.file fp with
  | none => exact Or.inl (by rw [fflush_shut hf])
  | some file =>
      cases fails with
      | true =>
          simp only [Fs.fflush, hf, ite_true]
          exact Or.inl (content_setFile _ _ _ _)
      | false =>
          cases fp with
          | none => cases hf
          | some n =>
              by_cases hp : path = file.path
              · exact Or.inr (hp ▸ h.flushed hf)
              · rw [Fs.content, fflush_disk hf, Function.update_of_ne hp]
                exact Or.inl rfl

-- Nothing is left to flush.
theorem fflush_idle {fp : FilePtr} (hidle : ∀ file, fs.file fp = some file → file.pending = []) (path : UInt64) :
    (fs.fflush false fp).content path = fs.content path := by
  cases hf : fs.file fp with
  | none => rw [fflush_shut hf]
  | some file =>
      simp only [Fs.fflush, hf, applied_nil (hidle file hf), Bool.false_eq_true, ite_false, content_setFile]
      show (Function.update fs.disk file.path (some (fs.content file.path)) path).getD [] = fs.content path
      by_cases hp : path = file.path
      · rw [hp, Function.update_self]
        rfl
      · rw [Function.update_of_ne hp]
        rfl

theorem fflush_leaves_idle (fs : Fs) (fails : Bool) (fp : FilePtr) :
    ∀ file, (fs.fflush fails fp).file fp = some file → file.pending = [] := by
  intro file hfile
  cases hf : fs.file fp with
  | none =>
      rw [fflush_shut hf, hf] at hfile
      cases hfile
  | some before =>
      obtain ⟨after, hafter, _, _, hpending, _⟩ := fflush_file hf fails
      rw [← Option.some.inj (hafter.symm.trans hfile)]
      exact hpending

-- A seek of an open FILE object flushes it, and then may set its position.
theorem fseek_cases {fp : FilePtr} {file : File} (hf : fs.file fp = some file) (fails : Bool) (offset : Int) :
    (fs.fseek fails fp offset).2 = fs.fflush fails fp ∨
      ∃ flushed, (fs.fflush fails fp).file fp = some flushed ∧
        (fs.fseek fails fp offset).2 = (fs.fflush fails fp).setFile fp (some { flushed with pos := offset.toNat }) := by
  obtain ⟨flushed, hflushed, _⟩ := fflush_file hf fails
  cases fails with
  | true =>
      left
      simp only [Fs.fseek, hf, ite_true]
  | false =>
      simp only [Fs.fseek, hf, hflushed, Bool.false_eq_true, ite_false]
      split
      · exact Or.inl rfl
      · exact Or.inr ⟨flushed, rfl, rfl⟩

theorem fseek_content (fs : Fs) (fails : Bool) (fp : FilePtr) (offset : Int) (path : UInt64) :
    (fs.fseek fails fp offset).2.content path = (fs.fflush fails fp).content path := by
  cases hf : fs.file fp with
  | none =>
      rw [fflush_shut hf]
      simp only [Fs.fseek, hf]
  | some file =>
      rcases fseek_cases hf fails offset with he | ⟨flushed, _, he⟩
      · rw [he]
      · rw [he, content_setFile]

theorem fseek_leaves_idle (fs : Fs) (fails : Bool) (fp : FilePtr) (offset : Int) :
    ∀ file, (fs.fseek fails fp offset).2.file fp = some file → file.pending = [] := by
  have hidle := fflush_leaves_idle fs fails fp
  intro file hfile
  cases hf : fs.file fp with
  | none =>
      simp only [Fs.fseek, hf] at hfile
      cases hfile
  | some before =>
      rcases fseek_cases hf fails offset with he | ⟨flushed, hflushed, he⟩
      · rw [he] at hfile
        exact hidle file hfile
      · rw [he, file_setFile hflushed] at hfile
        rw [← Option.some.inj hfile]
        exact hidle flushed hflushed

theorem fread_content (fs : Fs) (fails : Bool) (got : Nat) (fp : FilePtr) (size : Nat) (path : UInt64) :
    (fs.fread fails got fp size).2.content path = (fs.fflush false fp).content path := by
  unfold Fs.fread
  split
  · rename_i hf
    cases hfile : fs.file fp with
    | none => rw [fflush_shut hfile]
    | some file =>
        obtain ⟨flushed, hflushed, _⟩ := fflush_file hfile false
        cases hf.symm.trans hflushed
  · exact content_setFile _ _ _ _

theorem buffer_content (fs : Fs) (fp : FilePtr) (bytes : Bytes) (path : UInt64) :
    (fs.buffer fp bytes).content path = fs.content path := by
  unfold Fs.buffer
  split
  · rfl
  · split
    · rfl
    · exact content_setFile _ _ _ _

theorem setErr_content (fs : Fs) (fp : FilePtr) (path : UInt64) : (fs.setErr fp).content path = fs.content path := by
  unfold Fs.setErr
  split
  · rfl
  · exact content_setFile _ _ _ _

-- What fits into the buffer is held back.
theorem fwrite_content (fs : Fs) (fails : Bool) (got : Nat) (fp : FilePtr) {buf : Bytes}
    (hshort : buf.length < BLOCK_SIZE) (path : UInt64) :
    (fs.fwrite fails got fp buf).2.content path = fs.content path := by
  unfold Fs.fwrite
  split
  · rfl
  · simp only [Nat.mod_eq_of_lt hshort, Nat.sub_self, Nat.min_zero, ite_self, List.take_zero, Fs.pass, ite_true]
    split
    · exact setErr_content _ _ _
    · exact buffer_content _ _ _ _

theorem fclose_content (fs : Fs) (fp : FilePtr) (path : UInt64) :
    (fs.fclose fp).content path = (fs.fflush false fp).content path :=
  content_setFile _ _ _ _

-- A file that is opened without being truncated stays, and a new one is empty.
theorem Opens.content {mode length : Nat} {fd : FilePtr} (h : Opens fs hash mode fd length fs') (hmode : mode < 2)
    (path : UInt64) : fs'.content path = fs.content path := by
  cases h with
  | existing hdisk _ => rfl
  | truncated hdisk htwo => omega
  | created hdisk _ =>
      simp only [Fs.content, Fs.fopenWrite]
      by_cases hp : path = hash
      · rw [hp, Function.update_self, hdisk]
        rfl
      · rw [Function.update_of_ne hp]

end Files

section Store

variable {st : Store} {m : Contents}

theorem trails_slot (h : Shows st.fs m) (choice : Choice) (path : UInt64) :
    (getAvalibleSlot choice st).2.fs.content path = st.fs.content path ∨
      (getAvalibleSlot choice st).2.fs.content path = (m path).getD [] := by
  rcases getAvalibleSlot_cases choice st with ⟨slot, _, hg⟩ | ⟨_, hg⟩ | ⟨victim, _, hg⟩
  · exact Or.inl (by rw [hg])
  · exact Or.inl (by rw [hg])
  · rw [hg, evict_fs, closeFile, fclose_content, fflush_idle (fflush_leaves_idle _ _ _)]
    exact h.fflush_content _ _ path

theorem trails_prepareFile (h : Shows st.fs m) (choice : Choice) (key : Bytes) {mode : Nat} (hmode : mode < 2)
    (path : UInt64) : (prepareFile choice key mode st).2.fs.content path = st.fs.content path ∨
      (prepareFile choice key mode st).2.fs.content path = (m path).getD [] := by
  have hslot := trails_slot h choice path
  have hopened : (openFile choice (xxh64 key 0) mode st).2.fs.content path =
      (getAvalibleSlot choice st).2.fs.content path := by
    rcases openFile_cases choice (xxh64 key 0) (Nat.le_of_lt hmode) st with
      ⟨error, ho⟩ | ⟨ho, _⟩ | ⟨fd, length, fs, hopens, _, ho⟩
    · rw [ho]
    · rw [ho, place_fs]
    · rw [ho, place_fs]
      exact hopens.content hmode path
  rw [prepareFile]
  rcases prepareHashed_cases choice (xxh64 key 0) mode st with
    ⟨slot, _, hp⟩ | ⟨last, depth, _, ⟨error, st', ho, hp⟩ | ⟨new, st', ho, hp⟩⟩
  · exact Or.inl (by rw [hp]; rfl)
  · rw [ho] at hopened
    rw [hp, show st'.fs.content path = _ from hopened]
    exact hslot
  · rw [ho] at hopened
    rw [hp, link_fs, show (st'.setDesc new (stamp choice (xxh64 key 0) (st'.descs new))).fs.content path = _
      from hopened]
    exact hslot

-- A write is held back, but what was held back before it is flushed.
theorem writeTo_content (choice : Choice) (dt : Slot) {buf : Bytes} (hshort : buf.length < BLOCK_SIZE) (offset : Int)
    (path : UInt64) : (writeTo choice dt buf offset st).2.fs.content path =
      (st.fs.fflush choice.seekFails (st.descs dt).fd).content path := by
  have hsought := fseek_content st.fs choice.seekFails (st.descs dt).fd offset path
  simp only [writeTo]
  split
  · rename_i fs hseek
    rw [hseek] at hsought
    exact hsought
  · rename_i fs hseek
    rw [hseek] at hsought
    have hwritten := (fwrite_content fs choice.ioFails choice.ioBytes (st.descs dt).fd hshort path).trans hsought
    split
    · exact hwritten
    · split
      · exact hwritten
      · exact hwritten

theorem readFrom_content (choice : Choice) (dt : Slot) (size : Nat) (offset : Int) (path : UInt64) :
    (readFrom choice dt size offset st).2.fs.content path =
      (st.fs.fflush choice.seekFails (st.descs dt).fd).content path := by
  have hread : ((st.fs.fseek choice.seekFails (st.descs dt).fd offset).2.fread choice.ioFails choice.ioBytes
      (st.descs dt).fd size).2.content path = (st.fs.fflush choice.seekFails (st.descs dt).fd).content path := by
    rw [fread_content, fflush_idle (fseek_leaves_idle _ _ _ _), fseek_content]
  unfold readFrom
  simp only
  split
  · exact hread
  · exact hread

-- No file is emptied, and what is written fits into the buffer.
def Act.Keeps : Act → Prop
  | .prepareFile _ mode => mode < 2
  | .writeTo _ buf _ => buf.length < BLOCK_SIZE
  | _ => True

-- An action leaves every file on disk, or brings it up to what was shown before
-- the action, whatever fails.
theorem execAct_trails (h : Shows st.fs m) (choice : Choice) {action : Act} (hkeeps : action.Keeps) (path : UInt64) :
    (execAct choice action st).2.fs.content path = st.fs.content path ∨
      (execAct choice action st).2.fs.content path = (m path).getD [] := by
  cases action with
  | prepareFile key mode => exact trails_prepareFile h choice key hkeeps path
  | releaseDesc dt => exact Or.inl rfl
  | descLength dt => exact Or.inl rfl
  | readFrom dt size offset =>
      simp only [execAct, readFrom_content]
      exact h.fflush_content _ _ path
  | writeTo dt buf offset =>
      simp only [execAct, writeTo_content choice dt hkeeps]
      exact h.fflush_content _ _ path
  | posixMemalign => exact Or.inl rfl
  | reply text len => exact Or.inl rfl

-- A write brings its file up to what was shown before it.
theorem Sound.write_flushes (h : Sound st m) {dt : Slot} (hl : st.live dt) {choice : Choice}
    (hseek : choice.seekFails = false) {buf : Bytes} (hshort : buf.length < BLOCK_SIZE) (offset : Int) :
    (Solidbits.writeTo choice dt buf offset st).2.fs.content (st.hashOf dt) = (m (st.hashOf dt)).getD [] := by
  obtain ⟨n, hfd, hnames⟩ := h.opened dt hl
  obtain ⟨file, hf, hpath, _⟩ := files_of_names hnames
  rw [writeTo_content choice dt hshort, hseek, hfd, ← hpath]
  exact h.shown.flushed hf

end Store

end Solidbits
