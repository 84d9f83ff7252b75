import Solidbits.File.Lemmas
import Solidbits.Stdio.View

namespace Solidbits

section Files

variable {fs : Fs} {limit : Nat}

-- No pending write ends behind the limit, and no file is longer.
def File.Within (file : File) (limit : Nat) : Prop :=
  ∀ write ∈ file.pending, write.1 + write.2.length ≤ limit

structure Fs.Within (fs : Fs) (limit : Nat) : Prop where
  disk : ∀ path content, fs.disk path = some content → content.length ≤ limit
  files : ∀ n file, fs.files n = some file → file.Within limit

theorem Fs.Within.content (h : fs.Within limit) (path : UInt64) : (fs.content path).length ≤ limit := by
  unfold Fs.content
  cases hdisk : fs.disk path with
  | none => exact Nat.zero_le _
  | some content => exact h.disk path content hdisk

theorem File.Within.applied {file : File} (h : file.Within limit) {content : Bytes}
    (hcontent : content.length ≤ limit) : (file.applied content).length ≤ limit := by
  unfold File.Within at h
  unfold File.applied
  generalize file.pending = pending at h
  induction pending generalizing content with
  | nil => exact hcontent
  | cons write rest ih =>
      apply ih
      · have hwrite := h write List.mem_cons_self
        exact Nat.le_trans (Padded.overwrite_length_le content write.2 write.1) (Nat.max_le.mpr ⟨hcontent, hwrite⟩)
      · exact fun other hm => h other (List.mem_cons_of_mem write hm)

-- What a reader of the FILE object sees.
theorem Fs.Within.applied (h : fs.Within limit) {n : Nat} {file : File} (hf : fs.files n = some file) :
    (file.applied (fs.content file.path)).length ≤ limit :=
  (h.files n file hf).applied (h.content file.path)

theorem Fs.Within.file (h : fs.Within limit) {fp : FilePtr} {file : File} (hf : fs.file fp = some file) :
    file.Within limit := by
  cases fp with
  | none => cases hf
  | some n => exact h.files n file hf

theorem Fs.Within.setFile (h : fs.Within limit) (fp : FilePtr) {file : Option File}
    (hfile : ∀ f, file = some f → f.Within limit) : (fs.setFile fp file).Within limit := by
  cases fp with
  | none => exact h
  | some n =>
      refine ⟨h.disk, ?_⟩
      intro k other ho
      simp only [Fs.setFile] at ho
      by_cases hk : k = n
      · rw [hk, Function.update_self] at ho
        exact hfile other ho
      · rw [Function.update_of_ne hk] at ho
        exact h.files k other ho

theorem Fs.Within.putFile (h : fs.Within limit) (fp : FilePtr) {file : File} (hfile : file.Within limit) :
    (fs.setFile fp (some file)).Within limit := by
  apply h.setFile fp
  rintro f ⟨rfl⟩
  exact hfile

theorem Fs.Within.setDisk (h : fs.Within limit) (path : UInt64) {content : Bytes}
    (hcontent : content.length ≤ limit) :
    Fs.Within { fs with disk := Function.update fs.disk path (some content) } limit := by
  refine ⟨?_, h.files⟩
  intro other old hold
  by_cases ho : other = path
  · rw [ho] at hold
    simp only [Function.update_self, Option.some.injEq] at hold
    rwa [← hold]
  · simp only [Function.update_of_ne ho] at hold
    exact h.disk other old hold

theorem Fs.Within.fflush (h : fs.Within limit) (fails : Bool) (fp : FilePtr) :
    (fs.fflush fails fp).Within limit := by
  have hnothing : ∀ write ∈ ([] : List (Nat × Bytes)), write.1 + write.2.length ≤ limit :=
    fun write hm => absurd hm List.not_mem_nil
  unfold Fs.fflush
  split
  · exact h
  · rename_i file hf
    split
    · exact h.putFile fp hnothing
    · exact (h.setDisk file.path ((h.file hf).applied (h.content file.path))).putFile fp hnothing

theorem Fs.Within.fclose (h : fs.Within limit) (fp : FilePtr) : (fs.fclose fp).Within limit :=
  (h.fflush false fp).setFile fp nofun

theorem Fs.Within.closeFile (h : fs.Within limit) (fails : Bool) (desc : Desc) :
    (closeFile fails fs desc).Within limit :=
  (h.fflush fails desc.fd).fclose desc.fd

theorem Fs.Within.fseek (h : fs.Within limit) (fails : Bool) (fp : FilePtr) (offset : Int) :
    (fs.fseek fails fp offset).2.Within limit := by
  unfold Fs.fseek
  split
  · exact h
  · split
    · exact h.fflush true fp
    · split
      · exact h.fflush false fp
      · split
        · exact h
        · rename_i file hf
          have hfile := (h.fflush false fp).file hf
          apply (h.fflush false fp).putFile
          exact hfile

-- A seek that succeeds leaves the FILE object at the offset.
theorem fseek_pos {fails : Bool} {fp : FilePtr} {offset : Int} {fs' : Fs}
    (h : fs.fseek fails fp offset = (false, fs')) :
    ∃ file, fs'.file fp = some file ∧ file.pos = offset.toNat ∧ 0 ≤ offset := by
  unfold Fs.fseek at h
  split at h
  · cases h
  · split at h
    · cases h
    · split at h
      · cases h
      · rename_i hpos
        split at h
        · cases h
        · rename_i file hf
          obtain ⟨_, rfl⟩ := Prod.mk.inj h
          exact ⟨_, file_setFile hf _ _, rfl, Int.not_lt.mp hpos⟩

theorem Fs.Within.fread (h : fs.Within limit) (fails : Bool) (got : Nat) (fp : FilePtr) (size : Nat) :
    (fs.fread fails got fp size).2.Within limit := by
  unfold Fs.fread
  split
  · exact h
  · rename_i file hf
    have hfile := (h.fflush false fp).file hf
    apply (h.fflush false fp).putFile
    exact hfile

theorem Fs.Within.buffer (h : fs.Within limit) {fp : FilePtr} {file : File} (hf : fs.file fp = some file)
    {bytes : Bytes} (hfit : file.pos + bytes.length ≤ limit) : (fs.buffer fp bytes).Within limit := by
  simp only [Fs.buffer, hf]
  split
  · exact h
  · apply h.putFile fp
    intro write hm
    rcases List.mem_append.mp hm with hm | hm
    · exact h.file hf write hm
    · rw [List.mem_singleton.mp hm]
      exact hfit

theorem Fs.Within.pass (h : fs.Within limit) {fp : FilePtr} {file : File} (hf : fs.file fp = some file)
    {bytes : Bytes} (hfit : file.pos + bytes.length ≤ limit) : (fs.pass fp bytes).Within limit := by
  unfold Fs.pass
  split
  · exact h
  · exact (h.buffer hf hfit).fflush false fp

theorem Fs.Within.setErr (h : fs.Within limit) (fp : FilePtr) : (fs.setErr fp).Within limit := by
  unfold Fs.setErr
  split
  · exact h
  · rename_i file hf
    have hfile := h.file hf
    apply h.putFile fp
    exact hfile

-- A write from the position of the FILE object, and where it ends.
theorem Fs.Within.fwrite (h : fs.Within limit) (fails : Bool) (got : Nat) {fp : FilePtr} {file : File}
    (hf : fs.file fp = some file) {buf : Bytes} (hfit : file.pos + buf.length ≤ limit) :
    (fs.fwrite fails got fp buf).2.Within limit ∧ (fs.fwrite fails got fp buf).2.ftell fp ≤ limit := by
  simp only [Fs.fwrite, hf]
  have hparts : ∀ direct, (buf.take direct).length + (buf.drop direct).length = buf.length := by
    intro direct
    rw [← List.length_append, List.take_append_drop]
  generalize (if fails = true then min got (buf.length - buf.length % BLOCK_SIZE)
    else buf.length - buf.length % BLOCK_SIZE) = direct
  have hdirect := hparts direct
  obtain ⟨passed, hpassed, hpos, _⟩ := pass_file hf (buf.take direct)
  have hwithin := h.pass hf (by omega : file.pos + (buf.take direct).length ≤ limit)
  split
  · refine ⟨hwithin.setErr fp, ?_⟩
    simp only [Fs.setErr, hpassed, Fs.ftell, file_setFile hpassed]
    omega
  · obtain ⟨file', hfile', hpos', _⟩ := buffer_file hpassed (buf.drop direct)
    refine ⟨hwithin.buffer hpassed (by omega), ?_⟩
    simp only [Fs.ftell, hfile']
    omega

theorem Fs.Within.fopen (h : fs.Within limit) {hash : UInt64} {mode length : Nat} {fd : FilePtr} {fs' : Fs}
    (ho : Opens fs hash mode fd length fs') : fs'.Within limit ∧ length ≤ limit := by
  have hfiles : ∀ n file, Function.update fs.files fs.nextFile (some { path := hash }) n = some file →
      file.Within limit := by
    intro n file hf
    by_cases hn : n = fs.nextFile
    · rw [hn, Function.update_self] at hf
      rw [← Option.some.inj hf]
      exact fun write hm => absurd hm List.not_mem_nil
    · rw [Function.update_of_ne hn] at hf
      exact h.files n file hf
  cases ho with
  | existing hdisk hmode => exact ⟨⟨h.disk, hfiles⟩, h.disk _ _ hdisk⟩
  | truncated hdisk hmode => exact ⟨⟨(h.setDisk hash (Nat.zero_le _)).disk, hfiles⟩, h.disk _ _ hdisk⟩
  | created hdisk hmode => exact ⟨⟨(h.setDisk hash (Nat.zero_le _)).disk, hfiles⟩, Nat.zero_le _⟩

end Files

section Store

variable {st : Store} {limit : Nat}

-- The recorded lengths stay within the limit, too.
structure Store.Within (st : Store) (limit : Nat) : Prop where
  files : st.fs.Within limit
  lengths : ∀ slot, (st.descs slot).length ≤ limit

theorem Store.Within.setDesc (h : st.Within limit) (slot : Slot) {desc : Desc} (hdesc : desc.length ≤ limit) :
    (st.setDesc slot desc).Within limit := by
  refine ⟨h.files, ?_⟩
  intro other
  by_cases ho : other = slot
  · rwa [ho, setDesc_self]
  · rw [setDesc_of_ne _ _ ho]
    exact h.lengths other

theorem Store.Within.unlink (h : st.Within limit) (lowest : Slot) : (unlink st lowest).Within limit := by
  simp only [Solidbits.unlink]
  split
  · exact ⟨h.files, h.lengths⟩
  · have hhead : (st.setHead (bucketOf (st.descs lowest).hash) (st.descs lowest).next).Within limit :=
      ⟨h.files, h.lengths⟩
    rename_i next hprev hnext
    rw [hnext] at hhead
    apply hhead.setDesc
    exact h.lengths next
  · apply h.setDesc
    exact h.lengths _
  · apply h.setDesc
    exact h.lengths _

theorem Store.Within.getAvalibleSlot (h : st.Within limit) (choice : Choice) :
    (getAvalibleSlot choice st).2.Within limit := by
  rcases getAvalibleSlot_cases choice st with ⟨slot, _, hg⟩ | ⟨_, hg⟩ | ⟨victim, _, hg⟩
  · rw [hg]
    exact ⟨h.files, h.lengths⟩
  · rw [hg]
    exact ⟨h.files, h.lengths⟩
  · rw [hg]
    have hidx : Store.Within { st with idx := 0 } limit := ⟨h.files, h.lengths⟩
    have hunlink := hidx.unlink victim
    apply Store.Within.setDesc _ _ (Nat.zero_le _)
    exact ⟨hunlink.files.closeFile _ _, hunlink.lengths⟩

theorem Store.Within.place (h : st.Within limit) (fd : FilePtr) {length : Nat} {fs : Fs}
    (hlength : length ≤ limit) (hfs : fs.Within limit) : (st.place fd length fs).Within limit := by
  have hfiles : Store.Within { st with fs := fs } limit := ⟨hfs, h.lengths⟩
  apply hfiles.setDesc
  exact hlength

theorem Store.Within.link (h : st.Within limit) (bucket : Bucket) (last : Option Slot) (depth : Nat) (new : Slot) :
    (link st bucket last depth new).Within limit := by
  unfold Solidbits.link
  split
  · exact ⟨h.files, h.lengths⟩
  · split
    · exact h
    · rename_i tmp
      have hbefore : (st.setDesc tmp { st.descs tmp with next := some new }).Within limit :=
        h.setDesc tmp (h.lengths tmp)
      apply hbefore.setDesc
      exact hbefore.lengths new

theorem Store.Within.prepareHashed (h : st.Within limit) (choice : Choice) (hash : UInt64) {mode : Nat}
    (hmode : mode ≤ 2) : (prepareHashed choice hash mode st).2.Within limit := by
  have hslot := h.getAvalibleSlot choice
  have hopened : (openFile choice hash mode st).2.Within limit := by
    rcases openFile_cases choice hash hmode st with ⟨error, ho⟩ | ⟨ho, _⟩ | ⟨fd, length, fs, hopens, _, ho⟩
    · rw [ho]
      exact hslot
    · rw [ho]
      exact hslot.place none (hslot.lengths _) hslot.files
    · rw [ho]
      obtain ⟨hfs, hlength⟩ := hslot.files.fopen hopens
      exact hslot.place fd hlength hfs
  rcases prepareHashed_cases choice hash mode st with
    ⟨slot, _, hp⟩ | ⟨last, depth, _, ⟨error, st', ho, hp⟩ | ⟨new, st', ho, hp⟩⟩
  · rw [hp]
    apply h.setDesc
    exact h.lengths slot
  · rw [hp]
    rwa [ho] at hopened
  · rw [hp]
    rw [ho] at hopened
    apply Store.Within.link
    apply hopened.setDesc
    exact hopened.lengths new

theorem Store.Within.readFrom (h : st.Within limit) (choice : Choice) (dt : Slot) (size : Nat) (offset : Int) :
    (readFrom choice dt size offset st).2.Within limit := by
  have hread := (h.files.fseek choice.seekFails (st.descs dt).fd offset).fread choice.ioFails choice.ioBytes
    (st.descs dt).fd size
  simp only [Solidbits.readFrom]
  split
  · exact ⟨hread, h.lengths⟩
  · exact ⟨hread, h.lengths⟩

-- The end of a write is recorded if it lies behind the recorded length.
theorem Store.Within.writeTo (h : st.Within limit) (choice : Choice) (dt : Slot) {buf : Bytes} {offset : Int}
    (hfit : offset.toNat + buf.length ≤ limit) : (writeTo choice dt buf offset st).2.Within limit := by
  have hsought := h.files.fseek choice.seekFails (st.descs dt).fd offset
  simp only [Solidbits.writeTo]
  split
  · rename_i fs hs
    rw [hs] at hsought
    exact ⟨hsought, h.lengths⟩
  · rename_i fs hs
    rw [hs] at hsought
    obtain ⟨file, hf, hpos, _⟩ := fseek_pos hs
    obtain ⟨hwrite, htell⟩ := @Fs.Within.fwrite _ _ hsought choice.ioFails choice.ioBytes _ _ hf buf (by omega)
    have hstore : Store.Within
        { st with fs := (fs.fwrite choice.ioFails choice.ioBytes (st.descs dt).fd buf).2 } limit :=
      ⟨hwrite, h.lengths⟩
    split
    · exact hstore
    · split
      · exact hstore.setDesc dt htell
      · exact hstore

end Store

end Solidbits
