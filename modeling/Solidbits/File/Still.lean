import Solidbits.File.Refill

namespace Solidbits

section Files

variable {fs : Fs} {disk : UInt64 → Option Bytes}

-- Nothing has been written since the start, and nothing waits to be.
structure Fs.Still (fs : Fs) (disk : UInt64 → Option Bytes) : Prop where
  disk : fs.disk = disk
  files : ∀ n file, fs.files n = some file → file.pending = [] ∧ fs.disk file.path ≠ none

theorem Fs.Still.file (h : fs.Still disk) {fp : FilePtr} {file : File} (hf : fs.file fp = some file) :
    file.pending = [] ∧ fs.disk file.path ≠ none := by
  cases fp with
  | none => cases hf
  | some n => exact h.files n file hf

theorem lost_idle {file : File} (hpending : file.pending = []) : file.lost = file := by
  obtain ⟨path, pos, pending, err⟩ := file
  obtain rfl : pending = [] := hpending
  simp [File.lost]

-- There is nothing to flush, and nothing to lose.
theorem Fs.Still.fflush (h : fs.Still disk) (fails : Bool) (fp : FilePtr) : fs.fflush fails fp = fs := by
  cases hf : fs.file fp with
  | none => simp only [Fs.fflush, hf]
  | some file =>
      obtain ⟨hpending, hthere⟩ := h.file hf
      obtain ⟨content, hcontent⟩ := Option.ne_none_iff_exists'.mp hthere
      have hdisk : Function.update fs.disk file.path (some (file.applied (fs.content file.path))) = fs.disk := by
        rw [File.applied, hpending, List.foldl_nil, Fs.content, hcontent, Option.getD_some, ← hcontent]
        exact Function.update_eq_self _ _
      have hsame : ({ file with pending := [] } : File) = file := by rw [← hpending]
      have hput : fs.setFile fp (some file) = fs := by
        cases fp with
        | none => rfl
        | some n =>
            have hn : fs.files n = some file := hf
            rw [Fs.setFile, ← hn, Function.update_eq_self]
      simp only [Fs.fflush, hf, hdisk, hsame, lost_idle hpending]
      split
      · exact hput
      · exact hput

theorem Fs.Still.setFile (h : fs.Still disk) (fp : FilePtr) {file : Option File}
    (hfile : ∀ f, file = some f → f.pending = [] ∧ fs.disk f.path ≠ none) : (fs.setFile fp file).Still disk := by
  cases fp with
  | none => exact h
  | some n =>
      refine ⟨h.disk, fun k other ho => ?_⟩
      simp only [Fs.setFile] at ho
      by_cases hk : k = n
      · rw [hk, Function.update_self] at ho
        exact hfile other ho
      · rw [Function.update_of_ne hk] at ho
        exact h.files k other ho

theorem Fs.Still.closeFile (h : fs.Still disk) (fails : Bool) (desc : Desc) : (closeFile fails fs desc).Still disk := by
  rw [Solidbits.closeFile, h.fflush, Fs.fclose, h.fflush]
  exact h.setFile _ fun f hf => absurd hf (by simp)

theorem Fs.Still.fseek (h : fs.Still disk) (fails : Bool) (fp : FilePtr) (offset : Int) :
    (fs.fseek fails fp offset).2.Still disk := by
  cases hf : fs.file fp with
  | none =>
      simp only [Fs.fseek, hf]
      exact h
  | some file =>
      have hfile := h.file hf
      simp only [Fs.fseek, h.fflush, hf]
      split
      · exact h
      · split
        · exact h
        · refine h.setFile fp fun f hsame => ?_
          obtain rfl := Option.some.inj hsame
          exact hfile

theorem Fs.Still.fread (h : fs.Still disk) (fails : Bool) (got : Nat) (fp : FilePtr) (size : Nat) :
    (fs.fread fails got fp size).2.Still disk := by
  unfold Fs.fread
  rw [h.fflush]
  split
  · exact h
  · rename_i file hf
    have hfile := h.file hf
    refine h.setFile fp fun f hsame => ?_
    obtain rfl := Option.some.inj hsame
    exact hfile

-- A file is opened only if it is there.
theorem Fs.Still.opens (h : fs.Still disk) {hash : UInt64} {length : Nat} {fd : FilePtr} {fs' : Fs}
    (ho : Opens fs hash 1 fd length fs') : fs'.Still disk := by
  cases ho with
  | existing hdisk hmode =>
      refine ⟨h.disk, fun n file hf => ?_⟩
      simp only [Fs.fopenRead] at hf ⊢
      by_cases hn : n = fs.nextFile
      · rw [hn, Function.update_self] at hf
        obtain rfl := Option.some.inj hf
        exact ⟨rfl, hdisk ▸ Option.some_ne_none _⟩
      · rw [Function.update_of_ne hn] at hf
        exact h.files n file hf
  | truncated hdisk hmode => exact absurd hmode (by decide)
  | created hdisk hmode => exact absurd rfl hmode

end Files

section Store

variable {st : Store} {disk : UInt64 → Option Bytes}

theorem still_slot (h : st.fs.Still disk) (choice : Choice) : (getAvalibleSlot choice st).2.fs.Still disk := by
  rcases getAvalibleSlot_cases choice st with ⟨slot, _, hg⟩ | ⟨_, hg⟩ | ⟨victim, _, hg⟩
  · rw [hg]
    exact h
  · rw [hg]
    exact h
  · rw [hg, evict_fs]
    exact h.closeFile _ _

-- prepare_file for reading, whatever it evicts and however it fails.
theorem still_prepareFile (h : st.fs.Still disk) (choice : Choice) (key : Bytes) :
    (prepareFile choice key 1 st).2.fs.Still disk := by
  have hslot := still_slot h choice
  have hopened : (openFile choice (xxh64 key 0) 1 st).2.fs.Still disk := by
    rcases openFile_cases choice (xxh64 key 0) (by decide : 1 ≤ 2) st with
      ⟨error, ho⟩ | ⟨ho, _⟩ | ⟨fd, length, fs, hopens, _, ho⟩
    · rw [ho]
      exact hslot
    · rw [ho, place_fs]
      exact hslot
    · rw [ho, place_fs]
      exact hslot.opens hopens
  rw [prepareFile]
  rcases prepareHashed_cases choice (xxh64 key 0) 1 st with
    ⟨slot, _, hp⟩ | ⟨last, depth, _, ⟨error, st', ho, hp⟩ | ⟨new, st', ho, hp⟩⟩
  · rw [hp]
    exact h
  · rw [hp]
    rwa [ho] at hopened
  · rw [ho] at hopened
    rw [hp, link_fs]
    exact hopened

theorem still_readFrom (h : st.fs.Still disk) (choice : Choice) (dt : Slot) (size : Nat) (offset : Int) :
    (readFrom choice dt size offset st).2.fs.Still disk := by
  have hread := (h.fseek choice.seekFails (st.descs dt).fd offset).fread choice.ioFails choice.ioBytes
    (st.descs dt).fd size
  simp only [readFrom]
  split
  · exact hread
  · exact hread

theorem still_closeFiles (h : st.fs.Still disk) (fails : Slot → Bool) : (closeFiles fails st).fs.Still disk := by
  have hfold : ∀ (slots : List Slot) (fs : Fs), fs.Still disk →
      (slots.foldl (closeLive fails st) fs).Still disk := by
    intro slots
    induction slots with
    | nil => exact fun _ => id
    | cons slot slots ih =>
        intro fs hfs
        refine ih _ ?_
        unfold closeLive
        split
        · exact hfs.closeFile _ _
        · exact hfs
  simp only [closeFiles]
  exact hfold (List.finRange DESC_TABLE_SIZE) st.fs h

end Store

end Solidbits
