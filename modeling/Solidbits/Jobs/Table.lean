import Solidbits.File.Index
import Solidbits.Cmd

namespace Solidbits

section Files

variable {fs : Fs}

-- The path of every open FILE object.
def Fs.paths (fs : Fs) (n : Nat) : Option UInt64 := (fs.files n).map File.path

theorem paths_setFile {file : File} {n : Nat} (fs : Fs) (hpath : fs.paths n = some file.path) :
    (fs.setFile (some n) (some file)).paths = fs.paths := by
  funext k
  by_cases hk : k = n
  · subst hk
    simpa [Fs.paths, Fs.setFile] using hpath.symm
  · simp [Fs.paths, Fs.setFile, hk]

theorem paths_file {fp : FilePtr} {file : File} (h : fs.file fp = some file) :
    ∃ n, fp = some n ∧ fs.paths n = some file.path := by
  cases fp with
  | none => cases h
  | some n =>
      have hfile : fs.files n = some file := h
      exact ⟨n, rfl, by rw [Fs.paths, hfile]; rfl⟩

-- Reading and writing open and close nothing.
structure SameFiles (fs fs' : Fs) : Prop where
  paths : fs'.paths = fs.paths
  nextFile : fs'.nextFile = fs.nextFile

theorem SameFiles.refl (fs : Fs) : SameFiles fs fs := ⟨rfl, rfl⟩

theorem SameFiles.trans {fs' fs'' : Fs} (h : SameFiles fs fs') (h' : SameFiles fs' fs'') :
    SameFiles fs fs'' :=
  ⟨h'.paths.trans h.paths, h'.nextFile.trans h.nextFile⟩

theorem sameFiles_setFile {fp : FilePtr} {file file' : File} (h : fs.file fp = some file)
    (hpath : file'.path = file.path) : SameFiles fs (fs.setFile fp (some file')) := by
  obtain ⟨n, rfl, hn⟩ := paths_file h
  exact ⟨paths_setFile fs (hn.trans (congrArg some hpath.symm)), rfl⟩

theorem sameFiles_fflush (fs : Fs) (fails : Bool) (fp : FilePtr) : SameFiles fs (fs.fflush fails fp) := by
  unfold Fs.fflush
  split
  · exact SameFiles.refl fs
  · rename_i file hfile
    split
    · exact sameFiles_setFile hfile rfl
    · generalize Function.update fs.disk file.path _ = disk
      have hdisk : SameFiles fs { fs with disk := disk } := ⟨rfl, rfl⟩
      have hopen : Fs.file { fs with disk := disk } fp = some file := hfile
      exact hdisk.trans (sameFiles_setFile hopen rfl)

theorem sameFiles_fseek (fs : Fs) (fails : Bool) (fp : FilePtr) (offset : Int) :
    SameFiles fs (fs.fseek fails fp offset).2 := by
  unfold Fs.fseek
  split
  · exact SameFiles.refl fs
  · split
    · exact sameFiles_fflush fs true fp
    · split
      · exact sameFiles_fflush fs false fp
      · split
        · exact SameFiles.refl fs
        · rename_i file hfile
          exact (sameFiles_fflush fs false fp).trans (sameFiles_setFile hfile rfl)

theorem sameFiles_fread (fs : Fs) (fails : Bool) (got : Nat) (fp : FilePtr) (size : Nat) :
    SameFiles fs (fs.fread fails got fp size).2 := by
  unfold Fs.fread
  split
  · exact SameFiles.refl fs
  · rename_i file hfile
    exact (sameFiles_fflush fs false fp).trans (sameFiles_setFile hfile rfl)

theorem sameFiles_buffer (fs : Fs) (fp : FilePtr) (bytes : Bytes) : SameFiles fs (fs.buffer fp bytes) := by
  unfold Fs.buffer
  split
  · exact SameFiles.refl fs
  · rename_i file hfile
    split
    · exact SameFiles.refl fs
    · exact sameFiles_setFile hfile rfl

theorem sameFiles_pass (fs : Fs) (fp : FilePtr) (bytes : Bytes) : SameFiles fs (fs.pass fp bytes) := by
  unfold Fs.pass
  split
  · exact SameFiles.refl fs
  · exact (sameFiles_buffer fs fp bytes).trans (sameFiles_fflush _ false fp)

theorem sameFiles_setErr (fs : Fs) (fp : FilePtr) : SameFiles fs (fs.setErr fp) := by
  unfold Fs.setErr
  split
  · exact SameFiles.refl fs
  · rename_i file hfile
    exact sameFiles_setFile hfile rfl

theorem sameFiles_fwrite (fs : Fs) (fails : Bool) (got : Nat) (fp : FilePtr) (buf : Bytes) :
    SameFiles fs (fs.fwrite fails got fp buf).2 := by
  unfold Fs.fwrite
  split
  · exact SameFiles.refl fs
  · dsimp only
    generalize (if fails = true then min got (buf.length - buf.length % BLOCK_SIZE)
      else buf.length - buf.length % BLOCK_SIZE) = direct
    have hpass := sameFiles_pass fs fp (buf.take direct)
    split
    · exact hpass.trans (sameFiles_setErr _ fp)
    · exact hpass.trans (sameFiles_buffer _ fp _)

-- Closing a FILE object leaves the others open.
theorem closeFile_files (fails : Bool) (fs : Fs) (desc : Desc) :
    (closeFile fails fs desc).nextFile = fs.nextFile ∧
      ∀ k, desc.fd ≠ some k → (closeFile fails fs desc).paths k = fs.paths k := by
  have hflush := sameFiles_fflush (fs.fflush fails desc.fd) false desc.fd
  have hsame := (sameFiles_fflush fs fails desc.fd).trans hflush
  unfold closeFile Fs.fclose
  cases hfd : desc.fd with
  | none => exact ⟨rfl, fun _ _ => rfl⟩
  | some n =>
      rw [hfd] at hsame
      refine ⟨hsame.nextFile, fun k hk => ?_⟩
      have hkn : k ≠ n := fun he => hk (congrArg some he.symm)
      rw [← hsame.paths]
      simp [Fs.paths, Fs.setFile, hkn]

end Files

section Table

variable {st : Store}

-- What matters to whoever holds a descriptor: its hash, its FILE * and its
-- reference count.
def Desc.core (desc : Desc) : UInt64 × FilePtr × Int := (desc.hash, desc.fd, desc.refs)

def Store.core (st : Store) (slot : Slot) : UInt64 × FilePtr × Int := (st.descs slot).core

theorem closeFiles_core (fails : Slot → Bool) (st : Store) : (closeFiles fails st).core = st.core := by
  have hdescs : (closeFiles fails st).descs = st.descs := by rw [closeFiles]
  funext slot
  rw [Store.core, Store.core, hdescs]

theorem core_setDesc (st : Store) (slot : Slot) (desc : Desc) :
    (st.setDesc slot desc).core = Function.update st.core slot desc.core :=
  parts_setDesc Desc.core st slot desc

theorem core_setDesc_same (st : Store) (slot : Slot) {desc : Desc} (h : desc.core = st.core slot) :
    (st.setDesc slot desc).core = st.core :=
  @parts_setDesc_same _ Desc.core st slot desc h

theorem core_link (st : Store) (bucket : Bucket) (last : Option Slot) (depth : Nat) (new : Slot) :
    (link st bucket last depth new).core = st.core :=
  @parts_link _ Desc.core st (fun _ _ _ => rfl) bucket last depth new

theorem core_unlink (st : Store) (lowest : Slot) : (unlink st lowest).core = st.core :=
  @parts_unlink _ Desc.core st (fun _ _ _ => rfl) lowest

-- What get_avalible_slot does to the table: nothing, or it gives up an unpinned
-- descriptor and closes its file.
inductive Vacated (st mid : Store) : Prop
  | same (hcore : mid.core = st.core) (hfs : mid.fs = st.fs)
  | evicted (victim : Slot) (hrefs : (st.descs victim).refs = 0)
      (hcore : mid.core = Function.update st.core victim (0, none, 0))
      (hclosed : ∃ fails desc, desc.fd = (st.descs victim).fd ∧ mid.fs = closeFile fails st.fs desc)

theorem evict_vacated (fails : Bool) (idx : Slot) {victim : Slot} (hrefs : (st.descs victim).refs = 0) :
    Vacated st (evict fails { st with idx := idx } victim) := by
  have hcore := core_unlink { st with idx := idx } victim
  refine .evicted victim hrefs ?_ ⟨fails, (unlink { st with idx := idx } victim).descs victim, ?_, ?_⟩
  · rw [evict, core_setDesc]
    exact congrArg (Function.update · victim _) hcore
  · exact congrArg (·.2.1) (congrFun hcore victim)
  · show closeFile fails (unlink { st with idx := idx } victim).fs _ = _
    rw [unlink_fs]

theorem getAvalibleSlot_vacated (choice : Choice) (st : Store) :
    Vacated st (getAvalibleSlot choice st).2 := by
  rcases getAvalibleSlot_cases choice st with ⟨slot, _, hg⟩ | ⟨_, hg⟩ | ⟨victim, hs, hg⟩
  · rw [hg]
    exact .same rfl rfl
  · rw [hg]
    exact .same rfl rfl
  · rw [hg]
    have hvictim := scan_full (fun _ h => by cases h) hs
    exact evict_vacated _ 0 hvictim.1

theorem walk_hash {descs : Slot → Desc} {hash : UInt64} {fuel depth : Nat} {tmp slot : Slot}
    (h : walk descs hash fuel tmp depth = .found slot) : (descs slot).hash = hash := by
  induction fuel generalizing tmp depth with
  | zero => cases h
  | succ fuel ih =>
      unfold walk at h
      split at h
      · cases h
        assumption
      · split at h
        · exact ih h
        · cases h

-- A lookup finds a descriptor of the hash, however the chain is linked.
theorem lookup_hash {hash : UInt64} {slot : Slot} (h : lookup st hash = .found slot) :
    (st.descs slot).hash = hash := by
  unfold lookup at h
  split at h
  · cases h
  · exact walk_hash h

-- A call that misses the table and gets as far as fopen, for the descriptor
-- under the cursor.
def Store.Reopens (st : Store) (choice : Choice) (hash : UInt64) (mode : Nat) : Prop :=
  st.misses hash ∧ (getAvalibleSlot choice st).1.isSome = true ∧ Fopens choice hash mode (getAvalibleSlot choice st).2.fs

-- The ways prepare_file ends, for any table: a hit, a refusal, a failed fopen,
-- or a descriptor that is filled. `mid` is the table behind the scan.
inductive Granted (choice : Choice) (st mid : Store) (hash : UInt64) (mode : Nat) :
    Except OpenError Slot → Store → Prop
  | found (slot : Slot) (st' : Store) (hlookup : lookup st hash = .found slot)
      (hcore : st'.core = Function.update st.core slot (hash, (st.descs slot).fd, (st.descs slot).refs + 1))
      (hfs : st'.fs = st.fs) : Granted choice st mid hash mode (.ok slot) st'
  | refused (error : OpenError) (st' : Store) (hrefused : ¬st.Reopens choice hash mode) (hmiss : st.misses hash)
      (hcore : st'.core = mid.core) (hfs : st'.fs = mid.fs) : Granted choice st mid hash mode (.error error) st'
  | failed (st' : Store) (hreopens : st.Reopens choice hash mode)
      (hcore : st'.core = Function.update mid.core mid.idx ((mid.descs mid.idx).hash, none, (mid.descs mid.idx).refs))
      (hfs : st'.fs = mid.fs) : Granted choice st mid hash mode (.error .failed) st'
  | filled (st' : Store) (hreopens : st.Reopens choice hash mode) {fd : FilePtr} {length : Nat}
      (ho : Opens mid.fs hash mode fd length st'.fs)
      (hcore : st'.core = Function.update mid.core mid.idx (hash, fd, 1)) :
      Granted choice st mid hash mode (.ok mid.idx) st'

theorem core_place (st : Store) (fd : FilePtr) (length : Nat) (fs : Fs) :
    (st.place fd length fs).core =
      Function.update st.core st.idx ((st.descs st.idx).hash, fd, (st.descs st.idx).refs) := by
  rw [Store.place, core_setDesc]
  rfl

theorem prepareHashed_granted (choice : Choice) (hash : UInt64) {mode : Nat} (hmode : mode ≤ 2) (st : Store) :
    Granted choice st (getAvalibleSlot choice st).2 hash mode (prepareHashed choice hash mode st).1
      (prepareHashed choice hash mode st).2 := by
  cases hl : lookup st hash with
  | found slot =>
      simp only [prepareHashed, hl]
      refine .found slot _ hl ?_ rfl
      rw [core_setDesc, touch, Desc.core, lookup_hash hl]
  | absent last depth =>
      have hmiss : st.misses hash := misses_of_absent hl
      cases hslot : (getAvalibleSlot choice st).1 with
      | none =>
          have hpair : getAvalibleSlot choice st = (none, (getAvalibleSlot choice st).2) := Prod.ext hslot rfl
          have ho : openFile choice hash mode st = (.error .failed, (getAvalibleSlot choice st).2) := by
            rw [openFile, hpair]
          simp only [prepareHashed, hl, ho]
          refine .refused _ _ (fun h => ?_) hmiss rfl rfl
          simpa [hslot] using h.2.1
      | some slot =>
          have hpair : getAvalibleSlot choice st = (some slot, (getAvalibleSlot choice st).2) := Prod.ext hslot rfl
          have ho : openFile choice hash mode st = openPath choice hash mode (getAvalibleSlot choice st).2 := by
            rw [openFile, hpair]
          by_cases hfopens : Fopens choice hash mode (getAvalibleSlot choice st).2.fs
          · have hreopens : st.Reopens choice hash mode := ⟨hmiss, by rw [hslot]; rfl, hfopens⟩
            rcases openPath_fopens hmode hfopens with hfailed | ⟨fd, length, fs, hopens, hopened⟩
            · simp only [prepareHashed, hl, ho, hfailed]
              exact .failed _ hreopens (core_place _ _ _ _) rfl
            · simp only [prepareHashed, hl, ho, hopened]
              refine .filled _ hreopens (by rw [link_fs]; exact hopens) ?_
              rw [core_link, core_setDesc, core_place, Function.update_idem, stamp, place_self]
              rfl
          · obtain ⟨error, hrefused⟩ := openPath_refused hfopens
            simp only [prepareHashed, hl, ho, hrefused]
            exact .refused error _ (fun h => hfopens h.2.2) hmiss rfl rfl

end Table

end Solidbits
