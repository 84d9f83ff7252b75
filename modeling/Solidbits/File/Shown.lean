import Solidbits.File.Faults

namespace Solidbits

section Stdio

variable {fs : Fs} {n : Nat} {file : File}

-- What a FILE object shows of its file.
def Fs.shown (fs : Fs) (n : Nat) : Bytes :=
  match fs.files n with
  | none => []
  | some file => file.applied (fs.content file.path)

theorem shown_of_files (hf : fs.files n = some file) : fs.shown n = file.applied (fs.content file.path) := by
  simp only [Fs.shown, hf]

theorem store_shown {st : Store} {slot : Slot} (hfd : (st.descs slot).fd = some n) :
    st.shown slot = st.fs.shown n := by
  simp only [Store.shown, hfd]
  rfl

-- Only what is pending counts, not where the FILE object stands.
theorem shown_setFile (hf : fs.files n = some file) {file' : File} (hpath : file'.path = file.path)
    (hpending : file'.pending = file.pending) : (fs.setFile (some n) (some file')).shown n = fs.shown n := by
  rw [shown_of_files (files_setFile fs n (some file')), shown_of_files hf]
  simp only [File.applied, hpath, hpending]
  rfl

theorem shown_fflush (fs : Fs) (n : Nat) : (fs.fflush false (some n)).shown n = fs.shown n := by
  cases hf : fs.files n with
  | none =>
      have hfile : fs.file (some n) = none := hf
      simp only [Fs.fflush, hfile]
  | some file =>
      have hmine : (fs.fflush false (some n)).files n = some { file with pending := [] } := by
        rw [fflush_files hf, Function.update_self]
      rw [shown_of_files hmine, applied_nil rfl, Fs.content, fflush_disk hf, Function.update_self, shown_of_files hf]
      rfl

-- A seek that fails changes nothing if there is nothing to flush.
theorem shown_fseek (fs : Fs) {fails : Bool} (n : Nat) (offset : Int)
    (hkeeps : fails = true → ∀ file, fs.files n = some file → file.pending = []) :
    (fs.fseek fails (some n) offset).2.shown n = fs.shown n := by
  unfold Fs.fseek
  split
  · rfl
  · rename_i file hf
    split
    · rename_i hfails
      have hlost : fs.fflush true (some n) = fs.setFile (some n) (some file.lost) := by
        simp only [Fs.fflush, hf, ite_true]
      rw [hlost]
      exact shown_setFile hf rfl (hkeeps hfails file hf).symm
    · split
      · exact shown_fflush fs n
      · split
        · rfl
        · rename_i file' hf'
          exact Eq.trans (shown_setFile hf' (by rfl) (by rfl)) (shown_fflush fs n)

theorem shown_fread (fs : Fs) (fails : Bool) (got n size : Nat) :
    (fs.fread fails got (some n) size).2.shown n = fs.shown n := by
  unfold Fs.fread
  split
  · rfl
  · rename_i file hf
    exact Eq.trans (shown_setFile hf (by rfl) (by rfl)) (shown_fflush fs n)

theorem shown_buffer (hf : fs.files n = some file) (bytes : Bytes) :
    (fs.buffer (some n) bytes).shown n = Padded.overwrite (fs.shown n) file.pos bytes := by
  obtain ⟨file', hbuffer, hbuffered⟩ := buffer_eq hf bytes
  rw [hbuffer, shown_of_files (files_setFile fs n _), shown_of_files hf, hbuffered.path]
  exact hbuffered.applied _

theorem shown_pass (hf : fs.files n = some file) (bytes : Bytes) :
    (fs.pass (some n) bytes).shown n = Padded.overwrite (fs.shown n) file.pos bytes := by
  unfold Fs.pass
  split
  · rename_i hnothing
    rw [Padded.overwrite, if_pos hnothing]
  · rw [shown_fflush, shown_buffer hf]

theorem shown_setErr (fs : Fs) (n : Nat) : (fs.setErr (some n)).shown n = fs.shown n := by
  unfold Fs.setErr
  split
  · rfl
  · rename_i file hf
    exact shown_setFile hf (by rfl) (by rfl)

theorem shown_fwrite (hf : fs.files n = some file) (got : Nat) (buf : Bytes) :
    (fs.fwrite false got (some n) buf).2.shown n = Padded.overwrite (fs.shown n) file.pos buf := by
  have hfile : fs.file (some n) = some file := hf
  simp only [Fs.fwrite, hfile, Bool.false_eq_true, ite_false]
  generalize buf.length - buf.length % BLOCK_SIZE = blocks
  obtain ⟨passed, hpassed, hpos, _⟩ := pass_file hfile (buf.take blocks)
  rw [shown_buffer hpassed, shown_pass hf, hpos, Padded.overwrite_append, List.take_append_drop]

-- What fits into the buffer leaves the file as it is when it fails.
theorem shown_fwrite_fails (hf : fs.files n = some file) (got : Nat) {buf : Bytes} (hshort : buf.length < BLOCK_SIZE) :
    (fs.fwrite true got (some n) buf).2.shown n = fs.shown n := by
  have hfile : fs.file (some n) = some file := hf
  simp only [Fs.fwrite, hfile, ite_true, Nat.mod_eq_of_lt hshort, Nat.sub_self, Nat.min_zero, List.take_zero,
    Fs.pass]
  exact shown_setErr fs n

end Stdio

section Access

variable {slot : Slot} {st : Store} {content : Bytes} {length : Nat} {err : Bool}

-- An open descriptor: what its file holds, the length it records and the error
-- indicator of its FILE object.
structure Stream (slot : Slot) (st : Store) (content : Bytes) (length : Nat) (err : Bool) : Prop where
  opened : Indicates slot st err
  shown : st.shown slot = content
  length : (st.descs slot).length = length

-- The seek of an access does not fail to flush something.
def Flushes (slot : Slot) (st : Store) (choice : Choice) : Prop := choice.seekFails = true → st.pending slot = false

instance (slot : Slot) (st : Store) (choice : Choice) : Decidable (Flushes slot st choice) :=
  inferInstanceAs (Decidable (_ → _))

theorem Flushes.keeps {choice : Choice} (h : Flushes slot st choice) {n : Nat} (hfd : (st.descs slot).fd = some n)
    (hseek : choice.seekFails = true) : ∀ file, st.fs.files n = some file → file.pending = [] := by
  intro file hf
  have hpending := h hseek
  rw [pending_of_open hfd hf, Bool.not_eq_false'] at hpending
  exact List.isEmpty_iff.mp hpending

theorem Flushes.loses_nothing {choice : Choice} (h : Flushes slot st choice) :
    (choice.seekFails && st.pending slot) = false := by
  cases hseek : choice.seekFails with
  | true => rw [h hseek]; rfl
  | false => rfl

theorem Stream.readFrom (h : Stream slot st content length err) {choice : Choice} (hflushes : Flushes slot st choice)
    (size : Nat) (offset : Int) :
    Stream slot (readFrom choice slot size offset st).2 content length (err || choice.ioFails) := by
  have hopened := (readFrom_indicates h.opened choice size offset).1
  rw [hflushes.loses_nothing, Bool.false_or] at hopened
  have hdescs : (Solidbits.readFrom choice slot size offset st).2.descs = st.descs := by
    simp only [Solidbits.readFrom]
    split <;> rfl
  obtain ⟨n, file, hfd, hf, _⟩ := h.opened
  refine ⟨hopened, ?_, ?_⟩
  · rw [store_shown (by rw [hdescs]; exact hfd), ← h.shown, store_shown hfd]
    have hshown := (shown_fread (st.fs.fseek choice.seekFails (some n) offset).2 choice.ioFails choice.ioBytes n
      size).trans (shown_fseek st.fs n offset (hflushes.keeps hfd))
    simp only [Solidbits.readFrom, hfd]
    split
    · exact hshown
    · exact hshown
  · rw [hdescs]
    exact h.length

theorem Stream.read_byte (h : Stream slot st content length false) {offset : Nat} (hlt : offset < content.length) :
    (Solidbits.readFrom {} slot 1 offset st).1 = Received.all [Padded.get content offset] := by
  have hread := (readFrom_indicates h.opened {} 1 offset).2.2 rfl (by simp)
  rw [hread, h.shown, Int.toNat_natCast, Padded.slice, List.drop_eq_getElem_cons hlt, Padded.get_of_lt hlt]
  rfl

-- A write that does not happen leaves the file and the length as they are.
theorem Stream.writeTo_fails (h : Stream slot st content length err) {choice : Choice}
    (hflushes : Flushes slot st choice) {buf : Bytes} (hshort : buf.length < BLOCK_SIZE) (offset : Nat)
    (hfails : choice.seekFails = true ∨ choice.ioFails = true) :
    (Solidbits.writeTo choice slot buf offset st).1 = 0 ∧
      Stream slot (Solidbits.writeTo choice slot buf offset st).2 content length (err || !choice.seekFails) := by
  obtain ⟨n, file, hfd, hf, rfl⟩ := h.opened
  cases hseek : choice.seekFails with
  | true =>
      obtain ⟨sought, hs, file', hf', herr⟩ := @fseek_fails _ _ _ hf true offset rfl
      have hempty := hflushes.keeps hfd hseek
      rw [hempty file hf] at herr
      have hshown := @shown_fseek st.fs true n offset fun _ => hempty
      rw [hs] at hshown
      have hcall : Solidbits.writeTo choice slot buf offset st = (0, { st with fs := sought }) := by
        simp only [Solidbits.writeTo, hfd, hseek, hs]
      rw [hcall]
      refine ⟨rfl, ⟨n, file', hfd, hf', herr⟩, ?_, h.length⟩
      rw [← h.shown, store_shown hfd]
      exact Eq.trans (store_shown hfd) hshown
  | false =>
      have hio : choice.ioFails = true := by simpa [hseek] using hfails
      obtain ⟨sought, hs, hf', _⟩ := fseek_open hf (show (false || decide ((offset : Int) < 0)) = false by simp)
      have hshown := @shown_fseek st.fs false n offset fun he => Bool.noConfusion he
      rw [hs] at hshown
      obtain ⟨r, fs', hw, _, file', hf'', herr⟩ := @fwrite_open _ _ choice.ioBytes _ hf' true buf
      have hshown' := shown_fwrite_fails hf' choice.ioBytes hshort
      rw [hw] at hshown'
      rw [Bool.or_true] at herr
      have hflag : fs'.ferror (some n) = true := (ferror_of_files hf'').trans herr
      have hcall : Solidbits.writeTo choice slot buf offset st = (0, { st with fs := fs' }) := by
        simp only [Solidbits.writeTo, hfd, hseek, hs, hio, hw, hflag, ite_true]
      rw [hcall]
      refine ⟨rfl, ⟨n, file', hfd, hf'', herr.trans (Bool.or_true _).symm⟩, ?_, h.length⟩
      rw [← h.shown, store_shown hfd]
      exact Eq.trans (store_shown hfd) (hshown'.trans hshown)

-- A write that happens is reported, and its length recorded, only while the
-- error indicator is clear.
theorem Stream.writeTo (h : Stream slot st content length err) {choice : Choice} (buf : Bytes) (offset : Nat)
    (hseek : choice.seekFails = false) (hio : choice.ioFails = false) :
    (Solidbits.writeTo choice slot buf offset st).1 = (if err then 0 else buf.length) ∧
      Stream slot (Solidbits.writeTo choice slot buf offset st).2 (Padded.overwrite content offset buf)
        (if err then length else max length (offset + buf.length)) err := by
  obtain ⟨n, file, hfd, hf, rfl⟩ := h.opened
  obtain ⟨sought, hs, hf', _⟩ := fseek_open hf (show (false || decide ((offset : Int) < 0)) = false by simp)
  have hshown := @shown_fseek st.fs false n offset fun he => Bool.noConfusion he
  rw [hs] at hshown
  have hopen : sought.file (some n) = some { file with pending := [], pos := offset } := hf'
  obtain ⟨fs', file', hw, hmine, hpos, herr'⟩ := fwrite_file hopen choice.ioBytes buf
  have hshown' := shown_fwrite hf' choice.ioBytes buf
  rw [hw, hshown, ← store_shown hfd, h.shown] at hshown'
  have hf'' : fs'.files n = some file' := hmine
  cases herr : file.err with
  | true =>
      have hset : file'.err = true := herr'.trans herr
      have hcall : Solidbits.writeTo choice slot buf offset st = (0, { st with fs := fs' }) := by
        simp only [Solidbits.writeTo, hfd, hseek, hs, hio, hw, Fs.ferror, hmine, hset, ite_true]
      rw [hcall]
      exact ⟨rfl, ⟨n, file', hfd, hf'', hset⟩, Eq.trans (store_shown hfd) hshown', h.length⟩
  | false =>
      have hclear : file'.err = false := herr'.trans herr
      have hcall : Solidbits.writeTo choice slot buf offset st = (buf.length,
          if length < offset + buf.length then
            { st with fs := fs' }.setDesc slot { st.descs slot with length := offset + buf.length }
          else { st with fs := fs' }) := by
        simp only [Solidbits.writeTo, hfd, hseek, hs, hio, hw, Fs.ferror, Fs.ftell, hmine, hpos, hclear, h.length,
          Bool.false_eq_true, ite_false]
        split <;> rfl
      rw [hcall]
      refine ⟨rfl, ?_⟩
      simp only [Bool.false_eq_true, ite_false]
      split
      · rename_i hgrows
        rw [Nat.max_eq_right (Nat.le_of_lt hgrows)]
        have hfd' : (({ st with fs := fs' } : Store).setDesc slot
            { st.descs slot with length := offset + buf.length }).descs slot =
            { st.descs slot with length := offset + buf.length } := setDesc_self _ _ _
        exact ⟨⟨n, file', by rw [hfd']; exact hfd, hf'', hclear⟩,
          Eq.trans (store_shown (by rw [hfd']; exact hfd)) hshown', by rw [hfd']⟩
      · rename_i hfits
        rw [Nat.max_eq_left (Nat.not_lt.mp hfits)]
        exact ⟨⟨n, file', hfd, hf'', hclear⟩, Eq.trans (store_shown hfd) hshown', h.length⟩

end Access

end Solidbits
