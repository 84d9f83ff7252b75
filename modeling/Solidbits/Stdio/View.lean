import Solidbits.Stdio

namespace Solidbits

-- What the files of the data directory hold when every FILE object is flushed.
abbrev Contents := UInt64 → Option Bytes

section Positions

variable {fs : Fs} {fp : FilePtr} {file : File}

theorem file_setFile (hf : fs.file fp = some file) (fs' : Fs) (file' : File) :
    (fs'.setFile fp (some file')).file fp = some file' := by
  cases fp with
  | none => cases hf
  | some n => simp [Fs.file, Fs.setFile]

-- A flush leaves the position, and when it fails it loses what is pending.
theorem fflush_file (hf : fs.file fp = some file) (fails : Bool) :
    ∃ file', (fs.fflush fails fp).file fp = some file' ∧ file'.path = file.path ∧ file'.pos = file.pos ∧
      file'.pending = [] ∧ file'.err = (file.err || (fails && !file.pending.isEmpty)) := by
  simp only [Fs.fflush, hf]
  cases fails with
  | true => exact ⟨file.lost, file_setFile hf _ _, rfl, rfl, rfl, rfl⟩
  | false => exact ⟨_, file_setFile hf _ _, rfl, rfl, rfl, (Bool.or_false _).symm⟩

theorem buffer_file (hf : fs.file fp = some file) (bytes : Bytes) :
    ∃ file', (fs.buffer fp bytes).file fp = some file' ∧ file'.pos = file.pos + bytes.length ∧
      file'.err = file.err := by
  simp only [Fs.buffer, hf]
  split
  · rename_i hnothing
    exact ⟨file, hf, by rw [hnothing]; rfl, rfl⟩
  · exact ⟨_, file_setFile hf _ _, rfl, rfl⟩

theorem pass_file (hf : fs.file fp = some file) (bytes : Bytes) :
    ∃ file', (fs.pass fp bytes).file fp = some file' ∧ file'.pos = file.pos + bytes.length ∧
      file'.err = file.err := by
  unfold Fs.pass
  split
  · rename_i hnothing
    exact ⟨file, hf, by rw [hnothing]; rfl, rfl⟩
  · obtain ⟨buffered, hbuffered, hpos, herr⟩ := buffer_file hf bytes
    obtain ⟨file', hfile', _, hpos', _, herr'⟩ := fflush_file hbuffered false
    rw [Bool.false_and, Bool.or_false] at herr'
    exact ⟨file', hfile', hpos'.trans hpos, herr'.trans herr⟩

-- A write that does not fail.
theorem fwrite_file (hf : fs.file fp = some file) (got : Nat) (buf : Bytes) :
    ∃ fs' file', fs.fwrite false got fp buf = (buf.length, fs') ∧ fs'.file fp = some file' ∧
      file'.pos = file.pos + buf.length ∧ file'.err = file.err := by
  simp only [Fs.fwrite, hf, Bool.false_eq_true, ite_false]
  generalize buf.length - buf.length % BLOCK_SIZE = blocks
  obtain ⟨passed, hpassed, hpos, herr⟩ := pass_file hf (buf.take blocks)
  obtain ⟨file', hfile', hpos', herr'⟩ := buffer_file hpassed (buf.drop blocks)
  have hlength := congrArg List.length (List.take_append_drop blocks buf)
  rw [List.length_append] at hlength
  exact ⟨_, file', rfl, hfile', by omega, herr'.trans herr⟩

end Positions

section View

variable {fs fs' : Fs} {m : Contents} {n got : Nat} {file file' : File} {path : UInt64}

-- The path and the error indicator of every open FILE object.
def Fs.names (fs : Fs) (n : Nat) : Option (UInt64 × Bool) :=
  (fs.files n).map fun file => (file.path, file.err)

-- The files through the eyes of a process that opens no path twice.
structure Shows (fs : Fs) (m : Contents) : Prop where
  opened : ∀ n file, fs.files n = some file → m file.path = some (file.applied (fs.content file.path))
  exist : ∀ n file, fs.files n = some file → (fs.disk file.path).isSome
  closed : ∀ path, (∀ n file, fs.files n = some file → file.path ≠ path) → m path = fs.disk path
  apart : ∀ n n' file file', fs.files n = some file → fs.files n' = some file' →
    file.path = file'.path → n = n'
  fresh : ∀ n, fs.nextFile ≤ n → fs.files n = none

theorem names_of_files (h : fs.files n = some file) : fs.names n = some (file.path, file.err) := by
  simp [Fs.names, h]

theorem files_of_names {err : Bool} (h : fs.names n = some (path, err)) :
    ∃ file, fs.files n = some file ∧ file.path = path ∧ file.err = err := by
  obtain ⟨file, hfile, he⟩ := Option.map_eq_some_iff.mp h
  exact ⟨file, hfile, congrArg Prod.fst he, congrArg Prod.snd he⟩

theorem names_setFile (fs : Fs) (n : Nat) (file : Option File) :
    (fs.setFile (some n) file).names =
      Function.update fs.names n (file.map fun file => (file.path, file.err)) := by
  funext k
  by_cases hk : k = n
  · subst hk
    simp [Fs.names, Fs.setFile]
  · simp [Fs.names, Fs.setFile, hk]

theorem applied_nil (hp : file.pending = []) (content : Bytes) : file.applied content = content := by
  simp [File.applied, hp]

-- A file that is already seen through its FILE object is replaced by another
-- version of the same object.
theorem Shows.setFile (h : Shows fs m) (hf : fs.files n = some file) (hp : file'.path = file.path) :
    Shows (fs.setFile (some n) (some file'))
      (Function.update m file.path (some (file'.applied (fs.content file.path)))) := by
  have hother : ∀ k other, k ≠ n → fs.files k = some other → other.path ≠ file.path :=
    fun k other hk ho he => hk (h.apart k n other file ho hf he)
  have hfiles : ∀ k other, (fs.setFile (some n) (some file')).files k = some other →
      k = n ∧ other = file' ∨ k ≠ n ∧ fs.files k = some other := by
    intro k other ho
    simp only [Fs.setFile] at ho
    by_cases hk : k = n
    · subst hk
      rw [Function.update_self] at ho
      exact Or.inl ⟨rfl, (Option.some.inj ho).symm⟩
    · rw [Function.update_of_ne hk] at ho
      exact Or.inr ⟨hk, ho⟩
  constructor
  · intro k other ho
    rcases hfiles k other ho with ⟨rfl, rfl⟩ | ⟨hk, ho⟩
    · rw [hp, Function.update_self]
      rfl
    · rw [Function.update_of_ne (hother k other hk ho)]
      exact h.opened k other ho
  · intro k other ho
    rcases hfiles k other ho with ⟨rfl, rfl⟩ | ⟨hk, ho⟩
    · rw [hp]
      exact h.exist k file hf
    · exact h.exist k other ho
  · intro path hclosed
    have hne : path ≠ file.path := by
      rw [← hp]
      exact (hclosed n file' (by simp [Fs.setFile])).symm
    rw [Function.update_of_ne hne]
    apply h.closed path
    intro k other ho
    by_cases hk : k = n
    · subst hk
      rw [Option.some.inj (ho.symm.trans hf)]
      exact hne.symm
    · exact hclosed k other (by simpa [Fs.setFile, hk] using ho)
  · intro k k' other other' ho ho' he
    rcases hfiles k other ho with ⟨rfl, rfl⟩ | ⟨hk, hold⟩
    · rcases hfiles k' other' ho' with ⟨rfl, rfl⟩ | ⟨hk', hold'⟩
      · rfl
      · exact absurd (he.symm.trans hp) (hother k' other' hk' hold')
    · rcases hfiles k' other' ho' with ⟨rfl, rfl⟩ | ⟨hk', hold'⟩
      · exact absurd (he.trans hp) (hother k other hk hold)
      · exact h.apart k k' other other' hold hold' he
  · intro k hk
    have hkn : k ≠ n := by
      rintro rfl
      rw [h.fresh k hk] at hf
      cases hf
    simp only [Fs.setFile, Function.update_of_ne hkn]
    exact h.fresh k hk

-- A change of position or error indicator is not seen.
theorem Shows.setFile_same (h : Shows fs m) (hf : fs.files n = some file) (hp : file'.path = file.path)
    (hpending : file'.pending = file.pending) : Shows (fs.setFile (some n) (some file')) m := by
  have hset := h.setFile hf hp
  have happlied : file'.applied (fs.content file.path) = file.applied (fs.content file.path) := by
    simp only [File.applied, hpending]
  rwa [happlied, ← h.opened n file hf, Function.update_eq_self] at hset

theorem fflush_files (hf : fs.files n = some file) :
    (fs.fflush false (some n)).files = Function.update fs.files n (some { file with pending := [] }) := by
  have hfile : fs.file (some n) = some file := hf
  simp only [Fs.fflush, hfile]
  rfl

theorem fflush_disk (hf : fs.files n = some file) :
    (fs.fflush false (some n)).disk =
      Function.update fs.disk file.path (some (file.applied (fs.content file.path))) := by
  have hfile : fs.file (some n) = some file := hf
  simp only [Fs.fflush, hfile]
  rfl

theorem fflush_nextFile (fs : Fs) (fails : Bool) (n : Nat) :
    (fs.fflush fails (some n)).nextFile = fs.nextFile := by
  unfold Fs.fflush
  split
  · rfl
  · cases fails <;> rfl

theorem names_fflush (fs : Fs) (n : Nat) : (fs.fflush false (some n)).names = fs.names := by
  cases hf : fs.files n with
  | none =>
      have hfile : fs.file (some n) = none := hf
      simp only [Fs.fflush, hfile]
  | some file =>
      funext k
      simp only [Fs.names, fflush_files hf]
      by_cases hk : k = n
      · subst hk
        simp [hf]
      · rw [Function.update_of_ne hk]

-- Without failures no access changes a path or an error indicator.
theorem names_access {fp : FilePtr} (hf : fs.file fp = some file) (hp : file'.path = file.path)
    (he : file'.err = file.err) : (fs.setFile fp (some file')).names = fs.names := by
  cases fp with
  | none => cases hf
  | some n =>
      rw [names_setFile, Option.map_some, hp, he, ← names_of_files hf, Function.update_eq_self]

theorem names_flush (fs : Fs) (fp : FilePtr) : (fs.fflush false fp).names = fs.names := by
  cases fp with
  | none => rfl
  | some n => exact names_fflush fs n

theorem names_fseek (fs : Fs) (fp : FilePtr) (offset : Int) : (fs.fseek false fp offset).2.names = fs.names := by
  unfold Fs.fseek
  split
  · rfl
  · simp only [Bool.false_eq_true, ite_false]
    split
    · exact names_flush fs fp
    · split
      · rfl
      · rename_i flushed hf
        rw [← names_flush fs fp]
        exact names_access hf rfl rfl

theorem names_fread (fs : Fs) (got : Nat) (fp : FilePtr) (size : Nat) :
    (fs.fread false got fp size).2.names = fs.names := by
  unfold Fs.fread
  split
  · rfl
  · rename_i flushed hf
    rw [← names_flush fs fp]
    exact names_access hf rfl (Bool.or_false _)

theorem names_buffer (fs : Fs) (fp : FilePtr) (bytes : Bytes) : (fs.buffer fp bytes).names = fs.names := by
  unfold Fs.buffer
  split
  · rfl
  · rename_i flushed hf
    split
    · rfl
    · exact names_access hf rfl rfl

theorem names_pass (fs : Fs) (fp : FilePtr) (bytes : Bytes) : (fs.pass fp bytes).names = fs.names := by
  unfold Fs.pass
  split
  · rfl
  · rw [names_flush, names_buffer]

theorem names_fwrite (fs : Fs) (got : Nat) (fp : FilePtr) (buf : Bytes) :
    (fs.fwrite false got fp buf).2.names = fs.names := by
  unfold Fs.fwrite
  split
  · rfl
  · simp only [Bool.false_eq_true, ite_false]
    rw [names_buffer, names_pass]

-- Flushing moves what is pending into the file.
theorem Shows.fflush (h : Shows fs m) (hf : fs.files n = some file) : Shows (fs.fflush false (some n)) m := by
  have hfiles : ∀ k other, (fs.fflush false (some n)).files k = some other →
      k = n ∧ other = { file with pending := [] } ∨ k ≠ n ∧ fs.files k = some other := by
    intro k other ho
    rw [fflush_files hf] at ho
    by_cases hk : k = n
    · subst hk
      rw [Function.update_self] at ho
      exact Or.inl ⟨rfl, (Option.some.inj ho).symm⟩
    · rw [Function.update_of_ne hk] at ho
      exact Or.inr ⟨hk, ho⟩
  constructor
  · intro k other ho
    rcases hfiles k other ho with ⟨rfl, rfl⟩ | ⟨hk, ho⟩
    · rw [applied_nil rfl, Fs.content, fflush_disk hf, Function.update_self]
      exact h.opened k file hf
    · have hne : other.path ≠ file.path := fun he => hk (h.apart k n other file ho hf he)
      rw [Fs.content, fflush_disk hf, Function.update_of_ne hne]
      exact h.opened k other ho
  · intro k other ho
    rw [fflush_disk hf]
    rcases hfiles k other ho with ⟨rfl, rfl⟩ | ⟨hk, ho⟩
    · rw [Function.update_self]
      rfl
    · have hne : other.path ≠ file.path := fun he => hk (h.apart k n other file ho hf he)
      rw [Function.update_of_ne hne]
      exact h.exist k other ho
  · intro path hclosed
    have hne : path ≠ file.path :=
      (hclosed n { file with pending := [] } (by rw [fflush_files hf, Function.update_self])).symm
    rw [fflush_disk hf, Function.update_of_ne hne]
    apply h.closed path
    intro k other ho
    by_cases hk : k = n
    · subst hk
      rw [Option.some.inj (ho.symm.trans hf)]
      exact hne.symm
    · exact hclosed k other (by rwa [fflush_files hf, Function.update_of_ne hk])
  · intro k k' other other' ho ho' he
    rcases hfiles k other ho with ⟨rfl, rfl⟩ | ⟨_, hold⟩
    · rcases hfiles k' other' ho' with ⟨rfl, rfl⟩ | ⟨_, hold'⟩
      · rfl
      · exact h.apart k k' file other' hf hold' he
    · rcases hfiles k' other' ho' with ⟨rfl, rfl⟩ | ⟨_, hold'⟩
      · exact h.apart k k' other file hold hf he
      · exact h.apart k k' other other' hold hold' he
  · intro k hk
    rw [fflush_nextFile] at hk
    have hkn : k ≠ n := by
      rintro rfl
      rw [h.fresh k hk] at hf
      cases hf
    rw [fflush_files hf, Function.update_of_ne hkn]
    exact h.fresh k hk

-- Closing flushes first, so the path goes on to show the same.
theorem Shows.fclose (h : Shows fs m) (hf : fs.files n = some file) : Shows (fs.fclose (some n)) m := by
  have hflush := h.fflush hf
  have hmine : (fs.fflush false (some n)).files n = some { file with pending := [] } := by
    rw [fflush_files hf, Function.update_self]
  have hfiles : ∀ k other, (fs.fclose (some n)).files k = some other →
      k ≠ n ∧ (fs.fflush false (some n)).files k = some other := by
    intro k other ho
    simp only [Fs.fclose, Fs.setFile] at ho
    by_cases hk : k = n
    · subst hk
      rw [Function.update_self] at ho
      cases ho
    · rw [Function.update_of_ne hk] at ho
      exact ⟨hk, ho⟩
  constructor
  · exact fun k other ho => hflush.opened k other (hfiles k other ho).2
  · exact fun k other ho => hflush.exist k other (hfiles k other ho).2
  · intro path hclosed
    by_cases hp : path = file.path
    · rw [hp, hflush.opened n _ hmine, applied_nil rfl]
      show some (((fs.fflush false (some n)).disk file.path).getD []) = (fs.fflush false (some n)).disk file.path
      rw [fflush_disk hf, Function.update_self]
      rfl
    · apply hflush.closed path
      intro k other ho
      by_cases hk : k = n
      · subst hk
        rw [Option.some.inj (ho.symm.trans hmine)]
        exact Ne.symm hp
      · exact hclosed k other (by simpa [Fs.fclose, Fs.setFile, hk] using ho)
  · exact fun k k' other other' ho ho' =>
      hflush.apart k k' other other' (hfiles k other ho).2 (hfiles k' other' ho').2
  · intro k hk
    by_cases hkn : k = n
    · subst hkn
      simp [Fs.fclose, Fs.setFile]
    · simp only [Fs.fclose, Fs.setFile, Function.update_of_ne hkn]
      exact hflush.fresh k hk

theorem names_fclose (fs : Fs) (n : Nat) : (fs.fclose (some n)).names = Function.update fs.names n none := by
  rw [Fs.fclose, names_setFile, names_fflush]
  rfl

-- A new FILE object on a path that has none.
theorem Shows.fopen (h : Shows fs m) (hpath : ∀ n file, fs.files n = some file → file.path ≠ path)
    {content : Bytes} (hfiles : fs'.files = Function.update fs.files fs.nextFile (some { path := path }))
    (hdisk : fs'.disk = Function.update fs.disk path (some content))
    (hnext : fs'.nextFile = fs.nextFile + 1) :
    Shows fs' (Function.update m path (some content)) := by
  have hcases : ∀ k other, fs'.files k = some other →
      k = fs.nextFile ∧ other = { path := path } ∨ k ≠ fs.nextFile ∧ fs.files k = some other := by
    intro k other ho
    rw [hfiles] at ho
    by_cases hk : k = fs.nextFile
    · subst hk
      rw [Function.update_self] at ho
      exact Or.inl ⟨rfl, (Option.some.inj ho).symm⟩
    · rw [Function.update_of_ne hk] at ho
      exact Or.inr ⟨hk, ho⟩
  constructor
  · intro k other ho
    rcases hcases k other ho with ⟨rfl, rfl⟩ | ⟨hk, ho⟩
    · rw [applied_nil rfl, Fs.content, hdisk]
      simp
    · rw [Function.update_of_ne (hpath k other ho), Fs.content, hdisk,
        Function.update_of_ne (hpath k other ho)]
      exact h.opened k other ho
  · intro k other ho
    rw [hdisk]
    rcases hcases k other ho with ⟨rfl, rfl⟩ | ⟨hk, ho⟩
    · simp
    · rw [Function.update_of_ne (hpath k other ho)]
      exact h.exist k other ho
  · intro p hclosed
    have hp : p ≠ path := (hclosed fs.nextFile { path := path } (by simp [hfiles])).symm
    rw [hdisk, Function.update_of_ne hp, Function.update_of_ne hp]
    apply h.closed p
    intro k other ho
    have hk : k ≠ fs.nextFile := by
      rintro rfl
      rw [h.fresh _ (Nat.le_refl _)] at ho
      cases ho
    exact hclosed k other (by rwa [hfiles, Function.update_of_ne hk])
  · intro k k' other other' ho ho' he
    rcases hcases k other ho with ⟨rfl, rfl⟩ | ⟨_, hold⟩
    · rcases hcases k' other' ho' with ⟨rfl, rfl⟩ | ⟨_, hold'⟩
      · rfl
      · exact absurd he.symm (hpath k' other' hold')
    · rcases hcases k' other' ho' with ⟨rfl, rfl⟩ | ⟨_, hold'⟩
      · exact absurd he (hpath k other hold)
      · exact h.apart k k' other other' hold hold' he
  · intro k hk
    rw [hnext] at hk
    have hkn : k ≠ fs.nextFile := by omega
    rw [hfiles, Function.update_of_ne hkn]
    exact h.fresh k (by omega)

theorem ferror_of_names {err : Bool} (h : fs.names n = some (path, err)) : fs.ferror (some n) = err := by
  obtain ⟨file, hf, _, he⟩ := files_of_names h
  have hfile : fs.file (some n) = some file := hf
  simp only [Fs.ferror, hfile, he]

-- After a seek the FILE object stands at the offset with nothing pending.
theorem fseek_ok (hf : fs.files n = some file) (offset : Nat) :
    fs.fseek false (some n) offset = (false, (fs.fflush false (some n)).setFile (some n)
      (some { file with pending := [], pos := offset })) := by
  have hfile : fs.file (some n) = some file := hf
  have hflushed : (fs.fflush false (some n)).file (some n) = some { file with pending := [] } := by
    show (fs.fflush false (some n)).files n = _
    rw [fflush_files hf, Function.update_self]
  have hpos : ¬(offset : Int) < 0 := by omega
  simp only [Fs.fseek, hfile, hflushed, hpos, ite_false, Int.toNat_natCast]
  rfl

theorem Shows.fseek (h : Shows fs m) (hf : fs.files n = some file) (offset : Nat) :
    ∃ fs', fs.fseek false (some n) offset = (false, fs') ∧ Shows fs' m ∧ fs'.names = fs.names ∧
      fs'.files n = some { file with pending := [], pos := offset } := by
  have hmine : (fs.fflush false (some n)).files n = some { file with pending := [] } := by
    rw [fflush_files hf, Function.update_self]
  refine ⟨_, fseek_ok hf offset, (h.fflush hf).setFile_same hmine rfl rfl, ?_, ?_⟩
  · rw [names_setFile, names_fflush, Option.map_some, ← names_of_files hf, Function.update_eq_self]
  · simp [Fs.setFile]

theorem Shows.fread (h : Shows fs m) (hf : fs.files n = some file) (size : Nat) :
    ∃ fs', fs.fread false got (some n) size = (Padded.slice ((m file.path).getD []) file.pos size, fs') ∧
      Shows fs' m ∧ fs'.names = fs.names := by
  have hmine : (fs.fflush false (some n)).files n = some { file with pending := [] } := by
    rw [fflush_files hf, Function.update_self]
  have hfile : (fs.fflush false (some n)).file (some n) = some { file with pending := [] } := hmine
  have hcontent : (fs.fflush false (some n)).content file.path = (m file.path).getD [] := by
    rw [(h.fflush hf).opened n _ hmine, applied_nil rfl]
    rfl
  have hnames := names_fread fs got (some n) size
  simp only [Fs.fread, hfile, Bool.false_eq_true, ite_false, hcontent] at hnames ⊢
  exact ⟨_, rfl, (h.fflush hf).setFile_same hmine rfl rfl, hnames⟩

-- Some bytes have gone through a FILE object, and are shown there from its
-- position on.
structure Buffered (file : File) (bytes : Bytes) (file' : File) : Prop where
  path : file'.path = file.path
  err : file'.err = file.err
  pos : file'.pos = file.pos + bytes.length
  applied : ∀ content, file'.applied content = Padded.overwrite (file.applied content) file.pos bytes

theorem buffer_eq (hf : fs.files n = some file) (bytes : Bytes) :
    ∃ file', fs.buffer (some n) bytes = fs.setFile (some n) (some file') ∧ Buffered file bytes file' := by
  have hfile : fs.file (some n) = some file := hf
  simp only [Fs.buffer, hfile]
  split
  · rename_i hnothing
    refine ⟨file, ?_, rfl, rfl, by rw [hnothing]; rfl, fun content => by rw [Padded.overwrite, if_pos hnothing]⟩
    simp only [Fs.setFile, ← hf, Function.update_eq_self]
  · exact ⟨_, rfl, rfl, rfl, rfl, fun content => List.foldl_append⟩

theorem Shows.buffer (h : Shows fs m) (hf : fs.files n = some file) (bytes : Bytes) :
    ∃ file', (fs.buffer (some n) bytes).files n = some file' ∧ Buffered file bytes file' ∧
      Shows (fs.buffer (some n) bytes) (Function.update m file.path
        (some (Padded.overwrite ((m file.path).getD []) file.pos bytes))) := by
  obtain ⟨file', hbuffer, hbuffered⟩ := buffer_eq hf bytes
  refine ⟨file', by rw [hbuffer]; simp [Fs.setFile], hbuffered, ?_⟩
  rw [hbuffer, h.opened n file hf, Option.getD_some, ← hbuffered.applied]
  exact h.setFile hf hbuffered.path

theorem Shows.pass (h : Shows fs m) (hf : fs.files n = some file) (bytes : Bytes) :
    ∃ file', (fs.pass (some n) bytes).files n = some file' ∧ file'.path = file.path ∧
      file'.pos = file.pos + bytes.length ∧
      Shows (fs.pass (some n) bytes) (Function.update m file.path
        (some (Padded.overwrite ((m file.path).getD []) file.pos bytes))) := by
  unfold Fs.pass
  split
  · rename_i hnothing
    refine ⟨file, hf, rfl, by rw [hnothing]; rfl, ?_⟩
    rwa [Padded.overwrite, if_pos hnothing, h.opened n file hf, Option.getD_some, ← h.opened n file hf,
      Function.update_eq_self]
  · obtain ⟨file', hf', hbuffered, hshows⟩ := h.buffer hf bytes
    refine ⟨{ file' with pending := [] }, ?_, hbuffered.path, hbuffered.pos, hshows.fflush hf'⟩
    rw [fflush_files hf', Function.update_self]

-- What is passed on and what is buffered are parts of one write.
theorem Shows.fwrite (h : Shows fs m) (hf : fs.files n = some file) (buf : Bytes) :
    ∃ fs', fs.fwrite false got (some n) buf = (buf.length, fs') ∧
      Shows fs' (Function.update m file.path
        (some (Padded.overwrite ((m file.path).getD []) file.pos buf))) ∧
      fs'.names = fs.names ∧ fs'.ftell (some n) = file.pos + buf.length := by
  have hfile : fs.file (some n) = some file := hf
  have hnames := names_fwrite fs got (some n) buf
  simp only [Fs.fwrite, hfile, Bool.false_eq_true, ite_false] at hnames ⊢
  generalize buf.length - buf.length % BLOCK_SIZE = blocks at hnames ⊢
  obtain ⟨passed, hf', hpath, hpos, hpassed⟩ := h.pass hf (buf.take blocks)
  obtain ⟨file', hf'', hbuffered, hshows⟩ := hpassed.buffer hf' (buf.drop blocks)
  have hlength := congrArg List.length (List.take_append_drop blocks buf)
  rw [List.length_append] at hlength
  refine ⟨_, rfl, ?_, hnames, ?_⟩
  · rwa [hpath, hpos, Function.update_self, Function.update_idem, Option.getD_some, Padded.overwrite_append,
      List.take_append_drop] at hshows
  · have hfile' : Fs.file _ (some n) = some file' := hf''
    simp only [Fs.ftell, hfile', hbuffered.pos, hpos]
    omega

theorem Shows.fseek_negative (h : Shows fs m) (hf : fs.files n = some file) {offset : Int}
    (ho : offset < 0) : ∃ fs', fs.fseek false (some n) offset = (true, fs') ∧ Shows fs' m ∧
      fs'.names = fs.names := by
  have hfile : fs.file (some n) = some file := hf
  refine ⟨_, ?_, h.fflush hf, names_fflush fs n⟩
  simp only [Fs.fseek, hfile, ho, ite_true]
  rfl

-- A seek and a read see what the path shows.
theorem Shows.seekRead (h : Shows fs m) (hn : fs.names n = some (path, false)) (offset size : Nat) :
    ∃ fs', (fs.fseek false (some n) offset).2.fread false got (some n) size =
        (Padded.slice ((m path).getD []) offset size, fs') ∧
      Shows fs' m ∧ fs'.names = fs.names := by
  obtain ⟨file, hf, rfl, _⟩ := files_of_names hn
  obtain ⟨sought, hseek, hs, hnames, hmine⟩ := h.fseek hf offset
  obtain ⟨fs', hread, hs', hnames'⟩ := hs.fread hmine size
  rw [hseek]
  exact ⟨fs', hread, hs', hnames'.trans hnames⟩

-- A seek and a write change what the path shows, and nothing else.
theorem Shows.seekWrite (h : Shows fs m) (hn : fs.names n = some (path, false)) (offset : Nat)
    (buf : Bytes) :
    ∃ sought fs', fs.fseek false (some n) offset = (false, sought) ∧
      sought.fwrite false got (some n) buf = (buf.length, fs') ∧
      Shows fs' (Function.update m path (some (Padded.overwrite ((m path).getD []) offset buf))) ∧
      fs'.names = fs.names ∧ fs'.ftell (some n) = offset + buf.length := by
  obtain ⟨file, hf, rfl, _⟩ := files_of_names hn
  obtain ⟨sought, hseek, hs, hnames, hmine⟩ := h.fseek hf offset
  obtain ⟨fs', hwrite, hs', hnames', htell⟩ := hs.fwrite hmine buf
  exact ⟨sought, fs', hseek, hwrite, hs', hnames'.trans hnames, htell⟩

end View

end Solidbits
