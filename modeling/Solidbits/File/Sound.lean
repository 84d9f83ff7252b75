import Solidbits.File.Index
import Solidbits.Stdio.View

namespace Solidbits

open Chain

-- A choice without failures.
def onTime (scanUs stampUs : Nat) : Choice := { scanUs := scanUs, stampUs := stampUs }

section Soundness

-- The table and the FILE objects belong together: every live descriptor has a
-- FILE object of its own on its own path, stands alone in its bucket, and
-- records at least the length of what its path shows.
structure Sound (st : Store) (m : Contents) : Prop where
  shown : Shows st.fs m
  opened : ∀ slot, st.live slot →
    ∃ n, (st.descs slot).fd = some n ∧ st.fs.names n = some (st.hashOf slot, false)
  owned : ∀ n path err, st.fs.names n = some (path, err) →
    ∃ slot, st.live slot ∧ (st.descs slot).fd = some n
  bounded : ∀ slot, st.live slot → ((m (st.hashOf slot)).getD []).length ≤ (st.descs slot).length
  filed : ∀ bucket slot, st.xxtable bucket = some slot ↔
    st.live slot ∧ bucketOf (st.hashOf slot) = bucket
  alone : ∀ slot, st.nextOf slot = none ∧ st.prevOf slot = none

variable {st st' : Store} {m m' : Contents} {slot : Slot} {hash : UInt64}

theorem Sound.distinct (h : Sound st m) {other : Slot} (hl : st.live slot) (hlo : st.live other)
    (he : st.hashOf slot = st.hashOf other) : slot = other := by
  have hslot := (h.filed (bucketOf (st.hashOf other)) slot).mpr ⟨hl, by rw [he]⟩
  have hother := (h.filed (bucketOf (st.hashOf other)) other).mpr ⟨hlo, rfl⟩
  exact Option.some.inj (hslot.symm.trans hother)

theorem Sound.indexed (h : Sound st m) : Indexed st := by
  have hpath : ∀ bucket slot, st.xxtable bucket = some slot →
      Path st.nextOf (st.xxtable bucket) [slot] := fun _ slot hx => ⟨hx, (h.alone slot).1⟩
  constructor
  · intro bucket
    cases hx : st.xxtable bucket with
    | none => exact ⟨[], rfl⟩
    | some slot => exact ⟨[slot], rfl, (h.alone slot).1⟩
  · intro i j
    rw [(h.alone i).1, (h.alone j).2]
    exact ⟨nofun, nofun⟩
  · intro slot hl
    exact ⟨[slot], hpath _ slot ((h.filed _ slot).mpr ⟨hl, rfl⟩), List.mem_singleton_self slot⟩
  · exact fun i j hli hlj => h.distinct hli hlj

theorem Sound.lookup_found (h : Sound st m) (hl : lookup st hash = .found slot) :
    st.live slot ∧ st.hashOf slot = hash := by
  refine ⟨?_, h.indexed.hashOf_found hl⟩
  cases hx : st.xxtable (bucketOf hash) with
  | none =>
      rw [lookup_path (show Path st.nextOf _ [] from hx)] at hl
      cases hl
  | some head =>
      have hp : Path st.nextOf (st.xxtable (bucketOf hash)) [head] := ⟨hx, (h.alone head).1⟩
      rw [lookup_path hp] at hl
      split at hl
      · rename_i hf
        cases hl
        have hs := List.mem_singleton.mp (List.mem_of_find?_eq_some hf)
        rw [hs]
        exact ((h.filed _ head).mp hx).1
      · cases hl

theorem Sound.lookup_absent (h : Sound st m) (hm : st.misses hash) :
    ∃ last, lookup st hash = .absent last 0 := by
  cases hl : lookup st hash with
  | found slot => exact absurd hl (hm slot)
  | absent last depth =>
      have hdepth : depth = 0 := by
        cases hx : st.xxtable (bucketOf hash) with
        | none => exact (absent_path (show Path st.nextOf _ [] from hx) hl).2
        | some slot =>
            exact (absent_path (show Path st.nextOf _ [slot] from ⟨hx, (h.alone slot).1⟩) hl).2
      exact ⟨last, by rw [hdepth]⟩

theorem Sound.shown_of_live (h : Sound st m) (hl : st.live slot) : m (st.hashOf slot) ≠ none := by
  obtain ⟨n, _, hn⟩ := h.opened slot hl
  obtain ⟨file, hf, hp, _⟩ := files_of_names hn
  rw [← hp, h.shown.opened n file hf]
  exact nofun

-- A path is open exactly if a descriptor has its hash.
theorem Sound.not_open (h : Sound st m) (hm : ∀ slot, st.live slot → st.hashOf slot ≠ hash) (n : Nat)
    (file : File) (hf : st.fs.files n = some file) : file.path ≠ hash := by
  obtain ⟨slot, hl, hfd⟩ := h.owned n _ _ (names_of_files hf)
  obtain ⟨k, hk, hnames⟩ := h.opened slot hl
  cases Option.some.inj (hk.symm.trans hfd)
  rw [names_of_files hf] at hnames
  have hpath : file.path = st.hashOf slot := congrArg Prod.fst (Option.some.inj hnames)
  rw [hpath]
  exact hm slot hl

theorem Sound.disk_of_absent (h : Sound st m) (hm : ∀ slot, st.live slot → st.hashOf slot ≠ hash) :
    st.fs.disk hash = m hash :=
  (h.shown.closed hash (h.not_open hm)).symm

-- Changes that keep hashes, links and FILE objects where they are.
theorem Sound.congr (h : Sound st m) (hlinks : SameLinks st st')
    (hfd : ∀ slot, (st'.descs slot).fd = (st.descs slot).fd) (hshown : Shows st'.fs m')
    (hnames : st'.fs.names = st.fs.names)
    (hbounded : ∀ slot, st.live slot → ((m' (st.hashOf slot)).getD []).length ≤ (st'.descs slot).length) :
    Sound st' m' := by
  constructor
  · exact hshown
  · intro slot hl
    rw [hfd, hnames, hlinks.hash]
    exact h.opened slot (hlinks.live.mp hl)
  · intro n path err hn
    rw [hnames] at hn
    obtain ⟨slot, hl, hn⟩ := h.owned n path err hn
    exact ⟨slot, hlinks.live.mpr hl, by rw [hfd, hn]⟩
  · intro slot hl
    rw [hlinks.hash]
    exact hbounded slot (hlinks.live.mp hl)
  · intro bucket slot
    rw [hlinks.head, hlinks.live, hlinks.hash]
    exact h.filed bucket slot
  · intro slot
    rw [hlinks.next, hlinks.prev]
    exact h.alone slot

-- Bookkeeping in one descriptor that leaves all but its counters alone.
theorem Sound.bookkeep (h : Sound st m) {desc : Desc} (hh : desc.hash = st.hashOf slot)
    (hn : desc.next = st.nextOf slot) (hp : desc.prev = st.prevOf slot)
    (hfd : desc.fd = (st.descs slot).fd) (hlen : desc.length = (st.descs slot).length) :
    Sound (st.setDesc slot desc) m := by
  apply h.congr (SameLinks.setDesc hh hn hp) _ h.shown rfl
  · intro other hl
    by_cases ho : other = slot
    · subst ho
      rw [setDesc_self, hlen]
      exact h.bounded other hl
    · rw [setDesc_of_ne _ _ ho]
      exact h.bounded other hl
  · intro other
    by_cases ho : other = slot
    · rw [ho, setDesc_self, hfd]
    · rw [setDesc_of_ne _ _ ho]

end Soundness

section Accesses

-- After an access that recorded a new length.
def Store.wrote (st : Store) (fs : Fs) (slot : Slot) (length : Nat) : Store :=
  { st with fs := fs }.setDesc slot { st.descs slot with length := length }

theorem wrote_sameLinks (st : Store) (fs : Fs) (slot : Slot) (length : Nat) :
    SameLinks st (st.wrote fs slot length) := by
  have h : SameLinks st { st with fs := fs } := ⟨rfl, rfl, rfl, rfl⟩
  exact h.trans (SameLinks.setDesc rfl rfl rfl)

theorem wrote_self (st : Store) (fs : Fs) (slot : Slot) (length : Nat) :
    (st.wrote fs slot length).descs slot = { st.descs slot with length := length } :=
  setDesc_self _ _ _

theorem wrote_of_ne (st : Store) (fs : Fs) {slot other : Slot} (length : Nat) (h : other ≠ slot) :
    (st.wrote fs slot length).descs other = st.descs other :=
  setDesc_of_ne _ _ h

variable {st : Store} {m : Contents} {slot : Slot} {n : Nat} {path : UInt64} (scanUs stampUs : Nat)

-- Reading and writing through a descriptor whose FILE object is open.
theorem Shows.readFrom (h : Shows st.fs m) (hfd : (st.descs slot).fd = some n)
    (hn : st.fs.names n = some (path, false)) (size offset : Nat) :
    ∃ fs, readFrom (onTime scanUs stampUs) slot size offset st =
        (Received.all (Padded.slice ((m path).getD []) offset size), { st with fs := fs }) ∧
      Shows fs m ∧ fs.names = st.fs.names := by
  obtain ⟨fs, hread, hshown, hnames⟩ := @Shows.seekRead _ _ _ 0 _ h hn offset size
  have herr : fs.ferror (some n) = false := ferror_of_names (by rw [hnames, hn])
  refine ⟨fs, ?_, hshown, hnames⟩
  simp only [Solidbits.readFrom, hfd]
  rw [show (onTime scanUs stampUs).seekFails = false from rfl,
    show (onTime scanUs stampUs).ioFails = false from rfl, show (onTime scanUs stampUs).ioBytes = 0 from rfl]
  simp only [hread, herr]
  rfl

theorem Shows.writeTo (h : Shows st.fs m) (hfd : (st.descs slot).fd = some n)
    (hn : st.fs.names n = some (path, false)) (buf : Bytes) (offset : Nat) :
    ∃ fs, writeTo (onTime scanUs stampUs) slot buf offset st =
        (buf.length, st.wrote fs slot (max (st.descs slot).length (offset + buf.length))) ∧
      Shows fs (Function.update m path (some (Padded.overwrite ((m path).getD []) offset buf))) ∧
      fs.names = st.fs.names := by
  obtain ⟨sought, fs, hseek, hwrite, hshown, hnames, htell⟩ := @Shows.seekWrite _ _ _ 0 _ h hn offset buf
  have herr : fs.ferror (some n) = false := ferror_of_names (by rw [hnames, hn])
  refine ⟨fs, ?_, hshown, hnames⟩
  simp only [Solidbits.writeTo]
  rw [hfd, show (onTime scanUs stampUs).seekFails = false from rfl,
    show (onTime scanUs stampUs).ioFails = false from rfl, show (onTime scanUs stampUs).ioBytes = 0 from rfl]
  simp only [hseek, hwrite, herr, htell, Bool.false_eq_true, ite_false]
  by_cases hlen : (st.descs slot).length < offset + buf.length
  · rw [if_pos hlen, Nat.max_eq_right (Nat.le_of_lt hlen)]
    simp only [Store.wrote, hfd]
  · rw [if_neg hlen, Nat.max_eq_left (Nat.not_lt.mp hlen)]
    simp [Store.wrote, Store.setDesc]

-- A negative offset fails the seek: a write gives up, a read goes on at some
-- position.
theorem Shows.readFrom_negative (h : Shows st.fs m) (hfd : (st.descs slot).fd = some n)
    (hn : st.fs.names n = some (path, false)) (size : Nat) {offset : Int} (ho : offset < 0) :
    ∃ data fs, Solidbits.readFrom (onTime scanUs stampUs) slot size offset st =
        (data, { st with fs := fs }) ∧ Shows fs m ∧ fs.names = st.fs.names := by
  obtain ⟨file, hf, _, _⟩ := files_of_names hn
  obtain ⟨sought, hseek, hshown, hnames⟩ := h.fseek_negative hf ho
  rw [← hnames] at hn
  obtain ⟨file, hf, _, _⟩ := files_of_names hn
  obtain ⟨fs, hread, hshown, hnames'⟩ := @Shows.fread _ _ _ 0 _ hshown hf size
  have herr : fs.ferror (some n) = false := ferror_of_names (by rw [hnames', hn])
  refine ⟨Received.all (Padded.slice ((m file.path).getD []) file.pos size), fs, ?_, hshown, hnames'.trans hnames⟩
  simp only [Solidbits.readFrom, hfd]
  rw [show (onTime scanUs stampUs).seekFails = false from rfl,
    show (onTime scanUs stampUs).ioFails = false from rfl, show (onTime scanUs stampUs).ioBytes = 0 from rfl]
  simp only [hseek, hread, herr]
  rfl

theorem Shows.writeTo_negative (h : Shows st.fs m) (hfd : (st.descs slot).fd = some n)
    (hn : st.fs.names n = some (path, false)) (buf : Bytes) {offset : Int} (ho : offset < 0) :
    ∃ fs, Solidbits.writeTo (onTime scanUs stampUs) slot buf offset st = (0, { st with fs := fs }) ∧
      Shows fs m ∧ fs.names = st.fs.names := by
  obtain ⟨file, hf, _, _⟩ := files_of_names hn
  obtain ⟨fs, hseek, hshown, hnames⟩ := h.fseek_negative hf ho
  refine ⟨fs, ?_, hshown, hnames⟩
  simp only [Solidbits.writeTo, hfd]
  rw [show (onTime scanUs stampUs).seekFails = false from rfl]
  simp only [hseek]

theorem Sound.readFrom (h : Sound st m) (hl : st.live slot) (size offset : Nat) :
    ∃ fs, readFrom (onTime scanUs stampUs) slot size offset st =
        (Received.all (Padded.slice ((m (st.hashOf slot)).getD []) offset size), { st with fs := fs }) ∧
      Sound { st with fs := fs } m := by
  obtain ⟨n, hfd, hn⟩ := h.opened slot hl
  obtain ⟨fs, hread, hshown, hnames⟩ := h.shown.readFrom scanUs stampUs hfd hn size offset
  exact ⟨fs, hread, h.congr ⟨rfl, rfl, rfl, rfl⟩ (fun _ => rfl) hshown hnames h.bounded⟩

theorem Sound.writeTo (h : Sound st m) (hl : st.live slot) (buf : Bytes) (offset : Nat) :
    ∃ fs, writeTo (onTime scanUs stampUs) slot buf offset st =
        (buf.length, st.wrote fs slot (max (st.descs slot).length (offset + buf.length))) ∧
      Sound (st.wrote fs slot (max (st.descs slot).length (offset + buf.length)))
        (Function.update m (st.hashOf slot)
          (some (Padded.overwrite ((m (st.hashOf slot)).getD []) offset buf))) := by
  obtain ⟨n, hfd, hn⟩ := h.opened slot hl
  obtain ⟨fs, hwrite, hshown, hnames⟩ := h.shown.writeTo scanUs stampUs hfd hn buf offset
  refine ⟨fs, hwrite, ?_⟩
  apply h.congr (wrote_sameLinks st fs slot _) _ hshown hnames
  · intro other hlo
    by_cases ho : other = slot
    · subst ho
      have hold := h.bounded other hl
      have hnew := Padded.overwrite_length_le ((m (st.hashOf other)).getD []) buf offset
      rw [wrote_self, Function.update_self, Option.getD_some]
      simp only
      omega
    · have hhash : st.hashOf other ≠ st.hashOf slot := fun he => ho (h.distinct hlo hl he)
      rw [wrote_of_ne _ _ _ ho, Function.update_of_ne hhash]
      exact h.bounded other hlo
  · intro other
    by_cases ho : other = slot
    · rw [ho, wrote_self]
    · rw [wrote_of_ne _ _ _ ho]

theorem Sound.readFrom_negative (h : Sound st m) (hl : st.live slot) (size : Nat) {offset : Int}
    (ho : offset < 0) : ∃ data fs, Solidbits.readFrom (onTime scanUs stampUs) slot size offset st =
        (data, { st with fs := fs }) ∧ Sound { st with fs := fs } m := by
  obtain ⟨n, hfd, hn⟩ := h.opened slot hl
  obtain ⟨data, fs, hread, hshown, hnames⟩ := h.shown.readFrom_negative scanUs stampUs hfd hn size ho
  exact ⟨data, fs, hread, h.congr ⟨rfl, rfl, rfl, rfl⟩ (fun _ => rfl) hshown hnames h.bounded⟩

theorem Sound.writeTo_negative (h : Sound st m) (hl : st.live slot) (buf : Bytes) {offset : Int}
    (ho : offset < 0) : ∃ fs, Solidbits.writeTo (onTime scanUs stampUs) slot buf offset st =
        (0, { st with fs := fs }) ∧ Sound { st with fs := fs } m := by
  obtain ⟨n, hfd, hn⟩ := h.opened slot hl
  obtain ⟨fs, hwrite, hshown, hnames⟩ := h.shown.writeTo_negative scanUs stampUs hfd hn buf ho
  exact ⟨fs, hwrite, h.congr ⟨rfl, rfl, rfl, rfl⟩ (fun _ => rfl) hshown hnames h.bounded⟩

end Accesses

section Closing

variable {st : Store} {m : Contents} {fs : Fs}

-- Closing writes back what is pending; on a closed FILE object it does nothing.
theorem closeFile_shown (h : Shows fs m) {desc : Desc} {n : Nat} (hfd : desc.fd = some n) :
    Shows (closeFile false fs desc) m ∧ (closeFile false fs desc).names = Function.update fs.names n none := by
  unfold closeFile
  rw [hfd]
  refine ⟨?_, by rw [names_fclose, names_fflush]⟩
  cases hf : fs.files n with
  | some file =>
      have hflushed : (fs.fflush false (some n)).files n = some { file with pending := [] } := by
        rw [fflush_files hf, Function.update_self]
      exact (h.fflush hf).fclose hflushed
  | none =>
      have hfile : fs.file (some n) = none := hf
      have hsame : fs.setFile (some n) none = fs := by
        simp only [Fs.setFile, ← hf, Function.update_eq_self]
      simp only [Fs.fclose, Fs.fflush, hfile, hsame]
      exact h

theorem closeAll_shown (hfd : ∀ slot, st.live slot → ∃ n, (st.descs slot).fd = some n) (slots : List Slot)
    (h : Shows fs m) :
    Shows (slots.foldl (closeLive (fun _ => false) st) fs) m ∧ ∀ n name,
      (slots.foldl (closeLive (fun _ => false) st) fs).names n = some name →
        fs.names n = some name ∧ ∀ slot ∈ slots, st.live slot → (st.descs slot).fd ≠ some n := by
  induction slots generalizing fs with
  | nil => exact ⟨h, fun n name hn => ⟨hn, nofun⟩⟩
  | cons slot slots ih =>
      rw [List.foldl_cons]
      by_cases hl : st.live slot
      · obtain ⟨k, hk⟩ := hfd slot hl
        obtain ⟨hshown, hnames⟩ := closeFile_shown h hk
        rw [show closeLive (fun _ => false) st fs slot = closeFile false fs (st.descs slot) from if_pos hl]
        obtain ⟨hclosed, hrest⟩ := ih hshown
        refine ⟨hclosed, ?_⟩
        intro n name hn
        obtain ⟨hn, hslots⟩ := hrest n name hn
        rw [hnames] at hn
        have hnk : n ≠ k := by
          rintro rfl
          rw [Function.update_self] at hn
          cases hn
        rw [Function.update_of_ne hnk] at hn
        refine ⟨hn, ?_⟩
        intro other hm hlo
        rcases List.mem_cons.mp hm with rfl | hm
        · rw [hk]
          exact fun he => hnk (Option.some.inj he).symm
        · exact hslots other hm hlo
      · rw [show closeLive (fun _ => false) st fs slot = fs from if_neg hl]
        obtain ⟨hclosed, hrest⟩ := ih h
        refine ⟨hclosed, ?_⟩
        intro n name hn
        obtain ⟨hn, hslots⟩ := hrest n name hn
        refine ⟨hn, ?_⟩
        intro other hm hlo
        rcases List.mem_cons.mp hm with rfl | hm
        · exact absurd hlo hl
        · exact hslots other hm hlo

-- After close_files the data directory holds what the paths showed.
theorem Sound.closeFiles (h : Sound st m) : (closeFiles (fun _ => false) st).fs.disk = m := by
  have hfd : ∀ slot, st.live slot → ∃ n, (st.descs slot).fd = some n := by
    intro slot hl
    obtain ⟨n, hn, _⟩ := h.opened slot hl
    exact ⟨n, hn⟩
  obtain ⟨hshown, hclosed⟩ := closeAll_shown hfd (List.finRange DESC_TABLE_SIZE) h.shown
  change ((List.finRange DESC_TABLE_SIZE).foldl (closeLive (fun _ => false) st) st.fs).disk = m
  funext path
  refine (hshown.closed path ?_).symm
  intro n file hf
  obtain ⟨hn, hslots⟩ := hclosed n _ (names_of_files hf)
  obtain ⟨slot, hl, hslot⟩ := h.owned n _ _ hn
  exact absurd hslot (hslots slot (List.mem_finRange slot) hl)

theorem sound_initFile (disk : Contents) : Sound (initFile disk) disk := by
  constructor
  · exact ⟨nofun, nofun, fun _ _ => rfl, nofun, fun _ _ => rfl⟩
  · exact fun _ hl => absurd rfl hl
  · exact nofun
  · exact fun _ hl => absurd rfl hl
  · exact fun _ _ => ⟨nofun, fun hl => absurd rfl hl.1⟩
  · exact fun _ => ⟨rfl, rfl⟩

end Closing

section Openings

variable {st : Store} {m : Contents} {slot victim new : Slot} {hash : UInt64} {mode : Nat}

theorem evict_self (st : Store) (victim : Slot) : (evict false st victim).descs victim = {} :=
  setDesc_self _ _ _

theorem Sound.unlink (h : Sound st m) (victim : Slot) :
    unlink st victim = st.setHead (bucketOf (st.hashOf victim)) none := by
  have hn : (st.descs victim).next = none := (h.alone victim).1
  have hp : (st.descs victim).prev = none := (h.alone victim).2
  simp only [Solidbits.unlink, hn, hp]
  rfl

theorem Sound.evict_of_ne (h : Sound st m) (hne : slot ≠ victim) :
    (evict false st victim).descs slot = st.descs slot := by
  simp only [evict, h.unlink]
  exact setDesc_of_ne _ _ hne

theorem Sound.evict_live (h : Sound st m) : (evict false st victim).live slot ↔ slot ≠ victim ∧ st.live slot := by
  by_cases hs : slot = victim
  · subst hs
    simp [Store.live, evict_self]
  · simp [Store.live, h.evict_of_ne hs, hs]

theorem Sound.evict_hashOf (h : Sound st m) (hne : slot ≠ victim) :
    (evict false st victim).hashOf slot = st.hashOf slot := by
  simp only [Store.hashOf, h.evict_of_ne hne]

-- An evicted file is written back and closed; its bucket is empty.
theorem Sound.evict (h : Sound st m) (hl : st.live victim) : Sound (evict false st victim) m := by
  obtain ⟨n, hfd, hn⟩ := h.opened victim hl
  obtain ⟨file, hf, _, _⟩ := files_of_names hn
  have hfs : (Solidbits.evict false st victim).fs = (st.fs.fflush false (some n)).fclose (some n) := by
    simp only [Solidbits.evict, h.unlink, closeFile, setHead_fs, setHead_descs, hfd]
    rfl
  have hnames : (Solidbits.evict false st victim).fs.names = Function.update st.fs.names n none := by
    rw [hfs, names_fclose, names_fflush]
  have hx : (Solidbits.evict false st victim).xxtable =
      Function.update st.xxtable (bucketOf (st.hashOf victim)) none := by
    simp only [Solidbits.evict, h.unlink]
    rfl
  have hown : ∀ slot k, slot ≠ victim → st.live slot → (st.descs slot).fd = some k → k ≠ n := by
    rintro slot k hs hlive hk rfl
    obtain ⟨k', hk', hnames⟩ := h.opened slot hlive
    cases Option.some.inj (hk'.symm.trans hk)
    exact hs (h.distinct hlive hl (congrArg Prod.fst (Option.some.inj (hnames.symm.trans hn))))
  constructor
  · rw [hfs]
    have hflushed : (st.fs.fflush false (some n)).files n = some { file with pending := [] } := by
      rw [fflush_files hf, Function.update_self]
    exact (h.shown.fflush hf).fclose hflushed
  · intro slot hlive
    obtain ⟨hs, hlive⟩ := h.evict_live.mp hlive
    obtain ⟨k, hk, hkn⟩ := h.opened slot hlive
    refine ⟨k, by rw [h.evict_of_ne hs, hk], ?_⟩
    rw [hnames, Function.update_of_ne (hown slot k hs hlive hk), h.evict_hashOf hs, hkn]
  · intro k path err hk
    rw [hnames] at hk
    by_cases hkn : k = n
    · rw [hkn, Function.update_self] at hk
      cases hk
    · rw [Function.update_of_ne hkn] at hk
      obtain ⟨slot, hlive, hslot⟩ := h.owned k path err hk
      have hs : slot ≠ victim := by
        rintro rfl
        exact hkn (Option.some.inj (hslot.symm.trans hfd))
      exact ⟨slot, h.evict_live.mpr ⟨hs, hlive⟩, by rw [h.evict_of_ne hs, hslot]⟩
  · intro slot hlive
    obtain ⟨hs, hlive⟩ := h.evict_live.mp hlive
    rw [h.evict_hashOf hs, h.evict_of_ne hs]
    exact h.bounded slot hlive
  · intro bucket slot
    rw [hx]
    by_cases hb : bucket = bucketOf (st.hashOf victim)
    · rw [hb, Function.update_self]
      constructor
      · exact nofun
      · rintro ⟨hlive, he⟩
        obtain ⟨hs, hlive⟩ := h.evict_live.mp hlive
        rw [h.evict_hashOf hs] at he
        have hslot := (h.filed _ slot).mpr ⟨hlive, he⟩
        rw [(h.filed _ victim).mpr ⟨hl, rfl⟩] at hslot
        exact absurd (Option.some.inj hslot).symm hs
    · rw [Function.update_of_ne hb, h.filed bucket slot, h.evict_live]
      constructor
      · rintro ⟨hlive, he⟩
        have hs : slot ≠ victim := by
          rintro rfl
          exact hb he.symm
        exact ⟨⟨hs, hlive⟩, by rw [h.evict_hashOf hs, he]⟩
      · rintro ⟨⟨hs, hlive⟩, he⟩
        exact ⟨hlive, by rw [← h.evict_hashOf hs, he]⟩
  · intro slot
    by_cases hs : slot = victim
    · rw [hs, Store.nextOf, Store.prevOf, evict_self]
      exact ⟨rfl, rfl⟩
    · rw [Store.nextOf, Store.prevOf, h.evict_of_ne hs]
      exact h.alone slot

-- What a path shows, and the length that is recorded for it, once open_file
-- has opened it in a mode.
def Contents.opened (m : Contents) (hash : UInt64) (mode : Nat) : Contents :=
  if mode = 2 ∨ m hash = none then Function.update m hash (some []) else m

def Contents.length (m : Contents) (hash : UInt64) : Nat := ((m hash).getD []).length

theorem openPath_onTime (hash : UInt64) (scanUs stampUs : Nat) (hmode : mode ≤ 2) (st : Store) :
    (mode = 1 ∧ st.fs.disk hash = none ∧
      openPath (onTime scanUs stampUs) hash mode st = (.error .missing, st)) ∨
    ∃ fd length fs, Opens st.fs hash mode fd length fs ∧
      openPath (onTime scanUs stampUs) hash mode st = (.ok st.idx, st.place fd length fs) := by
  unfold openPath
  rw [show (onTime scanUs stampUs).pathFails = false from rfl,
    show (onTime scanUs stampUs).fopenFails = false from rfl]
  simp only [Bool.false_eq_true, ite_false]
  cases hdisk : st.fs.disk hash with
  | some content =>
      by_cases hread : mode < 2
      · simp only [hread, ite_true, setFd_setLength]
        exact Or.inr ⟨_, _, _, .existing hdisk hread, rfl⟩
      · have hwrite : mode = 2 := by omega
        simp only [hwrite, ite_true, setFd_setLength]
        exact Or.inr ⟨_, _, _, .truncated hdisk rfl, rfl⟩
  | none =>
      by_cases hmissing : mode = 1
      · rw [if_pos hmissing]
        exact Or.inl ⟨hmissing, rfl, rfl⟩
      · simp only [hmissing, ite_false, setFd_setLength]
        exact Or.inr ⟨_, _, _, .created hdisk hmissing, rfl⟩

theorem Opens.names {fs fs' : Fs} {fd : FilePtr} {length : Nat} (ho : Opens fs hash mode fd length fs') :
    fs'.names = Function.update fs.names fs.nextFile (some (hash, false)) := by
  obtain ⟨_, _, hfiles⟩ := ho.fresh
  funext k
  simp only [Fs.names, hfiles]
  by_cases hk : k = fs.nextFile
  · simp [hk]
  · simp [Fs.names, hk]

theorem Sound.opens (h : Sound st m) (hm : ∀ slot, st.live slot → st.hashOf slot ≠ hash)
    {fd : FilePtr} {length : Nat} {fs : Fs} (ho : Opens st.fs hash mode fd length fs) :
    Shows fs (m.opened hash mode) ∧ length = m.length hash := by
  have hdisk := h.disk_of_absent hm
  have hnot := h.not_open hm
  cases ho with
  | existing hcontent hread =>
      have hm := hdisk.symm.trans hcontent
      have hmode : ¬(mode = 2 ∨ m hash = none) := by
        rw [hm]
        rintro (hmode | hnone)
        · omega
        · cases hnone
      refine ⟨?_, by simp [Contents.length, hm]⟩
      rw [Contents.opened, if_neg hmode, ← Function.update_eq_self hash m, hm]
      exact h.shown.fopen hnot rfl (by rw [← hcontent, Function.update_eq_self]; rfl) rfl
  | truncated hcontent hmode =>
      have hm := hdisk.symm.trans hcontent
      refine ⟨?_, by simp [Contents.length, hm]⟩
      rw [Contents.opened, if_pos (Or.inl hmode)]
      exact h.shown.fopen hnot rfl rfl rfl
  | created hnone hmode =>
      have hm := hdisk.symm.trans hnone
      refine ⟨?_, by simp [Contents.length, hm]⟩
      rw [Contents.opened, if_pos (Or.inr hm)]
      exact h.shown.fopen hnot rfl rfl rfl

theorem opened_of_ne (m : Contents) (mode : Nat) {other : UInt64} (hne : other ≠ hash) :
    m.opened hash mode other = m other := by
  unfold Contents.opened
  split
  · exact Function.update_of_ne hne _ _
  · rfl

theorem opened_length_le (m : Contents) (hash : UInt64) (mode : Nat) :
    ((m.opened hash mode hash).getD []).length ≤ m.length hash := by
  unfold Contents.opened
  split
  · simp
  · exact Nat.le_refl _

-- A free descriptor becomes the descriptor of a hash that had none.
theorem Sound.create {st' : Store} {fs : Fs} {n : Nat} {m' : Contents} (h : Sound st m)
    (hm : ∀ slot, st.live slot → st.hashOf slot ≠ hash) (hfree : ¬st.live new) (hne : hash ≠ 0)
    (hempty : st.xxtable (bucketOf hash) = none) (hn : st.fs.names n = none)
    (hother : ∀ slot, slot ≠ new → st'.descs slot = st.descs slot) (hhash : st'.hashOf new = hash)
    (hfd : (st'.descs new).fd = some n) (hlen : ((m' hash).getD []).length ≤ (st'.descs new).length)
    (hnext : st'.nextOf new = none) (hprev : st'.prevOf new = none)
    (hx : st'.xxtable = Function.update st.xxtable (bucketOf hash) (some new)) (hfs : st'.fs = fs)
    (hshown : Shows fs m') (hnames : fs.names = Function.update st.fs.names n (some (hash, false)))
    (hm' : ∀ other, other ≠ hash → m' other = m other) : Sound st' m' := by
  have hkeep : ∀ slot, slot ≠ new → st'.hashOf slot = st.hashOf slot := by
    intro slot hs
    simp only [Store.hashOf, hother slot hs]
  have hlive : ∀ slot, slot ≠ new → (st'.live slot ↔ st.live slot) := by
    intro slot hs
    rw [live_iff_hashOf, live_iff_hashOf, hkeep slot hs]
  constructor
  · rw [hfs]
    exact hshown
  · intro slot hl
    rw [hfs, hnames]
    by_cases hs : slot = new
    · rw [hs, hhash]
      exact ⟨n, hfd, Function.update_self _ _ _⟩
    · obtain ⟨k, hk, hnk⟩ := h.opened slot ((hlive slot hs).mp hl)
      have hkn : k ≠ n := by
        rintro rfl
        rw [hn] at hnk
        cases hnk
      exact ⟨k, by rw [hother slot hs, hk], by rw [Function.update_of_ne hkn, hkeep slot hs, hnk]⟩
  · intro k path err hk
    rw [hfs, hnames] at hk
    by_cases hkn : k = n
    · rw [hkn]
      exact ⟨new, by rwa [live_iff_hashOf, hhash], hfd⟩
    · rw [Function.update_of_ne hkn] at hk
      obtain ⟨slot, hl, hslot⟩ := h.owned k path err hk
      have hs : slot ≠ new := by
        rintro rfl
        exact hfree hl
      exact ⟨slot, (hlive slot hs).mpr hl, by rw [hother slot hs, hslot]⟩
  · intro slot hl
    by_cases hs : slot = new
    · rw [hs, hhash]
      exact hlen
    · have hold := (hlive slot hs).mp hl
      rw [hkeep slot hs, hother slot hs, hm' _ (hm slot hold)]
      exact h.bounded slot hold
  · intro bucket slot
    rw [hx]
    by_cases hb : bucket = bucketOf hash
    · rw [hb, Function.update_self]
      constructor
      · rintro ⟨rfl⟩
        exact ⟨by rwa [live_iff_hashOf, hhash], by rw [hhash]⟩
      · rintro ⟨hl, he⟩
        by_cases hs : slot = new
        · rw [hs]
        · have hslot := (h.filed _ slot).mpr ⟨(hlive slot hs).mp hl, by rw [← hkeep slot hs, he]⟩
          rw [hempty] at hslot
          cases hslot
    · rw [Function.update_of_ne hb, h.filed bucket slot]
      by_cases hs : slot = new
      · rw [hs, hhash]
        exact ⟨fun hl => absurd hl.1 hfree, fun hl => absurd hl.2.symm hb⟩
      · rw [hlive slot hs, hkeep slot hs]
  · intro slot
    by_cases hs : slot = new
    · rw [hs]
      exact ⟨hnext, hprev⟩
    · simp only [Store.nextOf, Store.prevOf, hother slot hs]
      exact h.alone slot

end Openings

section Preparing

variable {st : Store} {m : Contents} {hash : UInt64} {mode scanUs stampUs : Nat}

-- A call that creates a descriptor must find a free one and an empty bucket,
-- for a hash that does not mark the descriptor as free.
def CalmOpen (choice : Choice) (st : Store) (hash : UInt64) (mode : Nat) : Prop :=
  st.misses hash → canOpen choice hash mode st.fs = true →
    hash ≠ 0 ∧ (∃ new, st.scanned choice = .free new) ∧ st.xxtable (bucketOf hash) = none

instance (st : Store) (hash : UInt64) : Decidable (st.misses hash) :=
  match h : lookup st hash with
  | .found slot => isFalse fun hm => hm slot h
  | .absent _ _ => isTrue (misses_of_absent h)

instance (found : Scan) : Decidable (∃ new, found = .free new) :=
  match found with
  | .free new => isTrue ⟨new, rfl⟩
  | .full _ => isFalse nofun

instance (choice : Choice) (st : Store) (hash : UInt64) (mode : Nat) :
    Decidable (CalmOpen choice st hash mode) :=
  inferInstanceAs (Decidable (_ → _ → _ ∧ _ ∧ _))

-- A descriptor that prepare_file has just created.
def Desc.fresh (hash : UInt64) (fd : FilePtr) (length stampUs : Nat) : Desc :=
  { hash := hash
    fd := fd
    length := length
    lastAccess := stampUs
    accessTimes := 1
    createdAt := stampUs
    refs := 1 }

-- The ways prepare_file ends when no call fails: it finds the descriptor,
-- creates one, misses the file, or finds every descriptor pinned.
inductive Prepared (st : Store) (m : Contents) (hash : UInt64) (mode scanUs stampUs : Nat) :
    Except OpenError Slot → Store → Prop
  | found (slot : Slot) (hl : st.live slot) (hh : st.hashOf slot = hash) :
      Prepared st m hash mode scanUs stampUs (.ok slot)
        (st.setDesc slot (touch (onTime scanUs stampUs) (st.descs slot)))
  | created (new : Slot) (st' : Store) (hm : ∀ slot, st.live slot → st.hashOf slot ≠ hash)
      (hmode : mode = 1 → m hash ≠ none) (hfree : ¬st.live new) (hl : st'.live new)
      (hs : Sound st' (m.opened hash mode))
      (hnew : ∃ fd, st'.descs new = Desc.fresh hash fd (m.length hash) stampUs)
      (hother : ∀ slot, slot ≠ new → st'.descs slot = st.descs slot) :
      Prepared st m hash mode scanUs stampUs (.ok new) st'
  | missing (st' : Store) (hm : ∀ slot, st.live slot → st.hashOf slot ≠ hash) (hnone : m hash = none)
      (hmode : mode = 1) (hs : Sound st' m)
      (hkept : ∀ slot, st'.descs slot = st.descs slot ∨
        st'.descs slot = {} ∧ st.live slot ∧ (st.descs slot).refs = 0) :
      Prepared st m hash mode scanUs stampUs (.error .missing) st'
  | full (hm : ∀ slot, st.live slot → st.hashOf slot ≠ hash)
      (hfull : st.scanned (onTime scanUs stampUs) = .full none) :
      Prepared st m hash mode scanUs stampUs (.error .failed) { st with idx := 0 }

theorem Sound.moveCursor (h : Sound st m) (slot : Slot) : Sound { st with idx := slot } m :=
  h.congr ⟨rfl, rfl, rfl, rfl⟩ (fun _ => rfl) h.shown rfl h.bounded

-- The descriptor that open_file filled, stamped and linked into its bucket.
variable (scanUs stampUs) in
theorem Sound.link (h : Sound st m) (hm : ∀ slot, st.live slot → st.hashOf slot ≠ hash)
    (hne : hash ≠ 0) (hempty : st.xxtable (bucketOf hash) = none) (hfree : ¬st.live st.idx)
    {fd : FilePtr} {length : Nat} {fs : Fs} (ho : Opens st.fs hash mode fd length fs) {st' : Store}
    (hst : st' = link ((st.place fd length fs).setDesc st.idx
      (stamp (onTime scanUs stampUs) hash ((st.place fd length fs).descs st.idx)))
      (bucketOf hash) none 0 st.idx) :
    Sound st' (m.opened hash mode) ∧
      st'.descs st.idx = Desc.fresh hash fd (m.length hash) stampUs ∧
      ∀ slot, slot ≠ st.idx → st'.descs slot = st.descs slot := by
  obtain ⟨hshown, hlen⟩ := h.opens hm ho
  obtain ⟨hfd, _, _⟩ := ho.fresh
  have hnext : (st.descs st.idx).next = none := (h.alone st.idx).1
  have hprev : (st.descs st.idx).prev = none := (h.alone st.idx).2
  have hnew : st'.descs st.idx = Desc.fresh hash fd (m.length hash) stampUs := by
    rw [hst]
    simp only [Solidbits.link, ite_true, setHead_descs, setDesc_self, place_self, stamp, hnext, hprev, hlen]
    rfl
  have hother : ∀ slot, slot ≠ st.idx → st'.descs slot = st.descs slot := by
    intro slot hs
    rw [hst]
    simp only [Solidbits.link, ite_true, setHead_descs, setDesc_of_ne _ _ hs, place_of_ne _ _ _ _ hs]
  refine ⟨?_, hnew, hother⟩
  refine h.create hm hfree hne hempty ?_ hother ?_ ?_ ?_ ?_ ?_ ?_ ?_ hshown ho.names ?_ (n := st.fs.nextFile)
  · simp only [Fs.names, h.shown.fresh _ (Nat.le_refl _), Option.map_none]
  · rw [Store.hashOf, hnew]
    rfl
  · rw [hnew]
    exact hfd
  · rw [hnew]
    exact opened_length_le m hash mode
  · rw [Store.nextOf, hnew]
    rfl
  · rw [Store.prevOf, hnew]
    rfl
  · rw [hst]
    rfl
  · rw [hst]
    rfl
  · exact fun other ho => opened_of_ne m mode ho

theorem Sound.prepare (h : Sound st m) (hmode : mode ≤ 2)
    (hcalm : CalmOpen (onTime scanUs stampUs) st hash mode) :
    Prepared st m hash mode scanUs stampUs (prepareHashed (onTime scanUs stampUs) hash mode st).1
      (prepareHashed (onTime scanUs stampUs) hash mode st).2 := by
  cases hl : lookup st hash with
  | found slot =>
      obtain ⟨hlive, hh⟩ := h.lookup_found hl
      simp only [prepareHashed, hl]
      exact .found slot hlive hh
  | absent last depth =>
      have hmiss := misses_of_absent hl
      have hm := h.indexed.absent hmiss
      obtain ⟨_, hl'⟩ := h.lookup_absent hmiss
      cases hl.symm.trans hl'
      have hdisk := h.disk_of_absent hm
      simp only [prepareHashed, hl, openFile]
      rcases getAvalibleSlot_cases (onTime scanUs stampUs) st with ⟨new, hs, hg⟩ | ⟨hs, hg⟩ | ⟨victim, hs, hg⟩
      · simp only [hg]
        have hmoved := h.moveCursor new
        rcases openPath_onTime hash scanUs stampUs hmode { st with idx := new } with
          ⟨hone, hnone, ho⟩ | ⟨fd, length, fs, hopens, ho⟩
        · simp only [ho]
          exact .missing _ hm (hdisk.symm.trans hnone) hone hmoved fun _ => Or.inl rfl
        · simp only [ho]
          have hfound : mode = 1 → m hash ≠ none := by
            rintro rfl hnone
            cases hopens with
            | existing hcontent => rw [← hdisk, hcontent] at hnone; cases hnone
            | truncated _ htwo => cases htwo
            | created _ hone => exact hone rfl
          have hcan : canOpen (onTime scanUs stampUs) hash mode st.fs = true := by
            unfold canOpen
            cases hd : st.fs.disk hash with
            | some content => simp [onTime]
            | none =>
                have hone : mode ≠ 1 := fun hone => hfound hone (hdisk.symm.trans hd)
                simp [onTime, hone]
          obtain ⟨hne, _, hempty⟩ := hcalm hmiss hcan
          have hfree : ¬st.live new := not_not.mpr (scan_free hs).1
          obtain ⟨hsound, hnew, hother⟩ := hmoved.link scanUs stampUs
            hm hne hempty hfree hopens rfl
          have hhash := congrArg Desc.hash hnew
          exact .created new _ hm hfound hfree (fun hzero => hne (hhash.symm.trans hzero)) hsound
            ⟨fd, hnew⟩ hother
      · simp only [hg]
        exact .full hm hs
      · rw [show (onTime scanUs stampUs).flushFails = false from rfl] at hg
        simp only [hg]
        have hvictim := scan_full (fun _ he => by cases he) hs
        have hvlive : st.live victim := hvictim.2
        have hevicted := (h.moveCursor 0).evict hvlive
        have hdisk' : (Solidbits.evict false { st with idx := 0 } victim).fs.disk hash = m hash := by
          apply hevicted.disk_of_absent
          intro slot hlive
          obtain ⟨hsv, hlive⟩ := (h.moveCursor 0).evict_live.mp hlive
          rw [(h.moveCursor 0).evict_hashOf hsv]
          exact hm slot hlive
        rcases openPath_onTime hash scanUs stampUs hmode
            (Solidbits.evict false { st with idx := 0 } victim) with
          ⟨hone, hnone, ho⟩ | ⟨fd, length, fs, hopens, ho⟩
        · simp only [ho]
          refine .missing _ hm (hdisk'.symm.trans hnone) hone hevicted ?_
          intro slot
          by_cases hsv : slot = victim
          · rw [hsv, evict_self]
            exact Or.inr ⟨rfl, hvlive, hvictim.1⟩
          · exact Or.inl ((h.moveCursor 0).evict_of_ne hsv)
        · -- A creating call would have found a free descriptor.
          have hcan : canOpen (onTime scanUs stampUs) hash mode st.fs = true := by
            unfold canOpen
            cases hd : st.fs.disk hash with
            | some content => simp [onTime]
            | none =>
                have hone : mode ≠ 1 := by
                  rintro rfl
                  rw [hdisk] at hd
                  rw [hd] at hdisk'
                  cases hopens with
                  | existing hcontent => rw [hcontent] at hdisk'; cases hdisk'
                  | truncated _ htwo => cases htwo
                  | created _ hone => exact hone rfl
                simp [onTime, hone]
          obtain ⟨_, ⟨new, hnew⟩, _⟩ := hcalm hmiss hcan
          cases hs.symm.trans hnew

end Preparing

end Solidbits
