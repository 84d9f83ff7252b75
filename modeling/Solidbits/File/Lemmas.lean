import Solidbits.File.Defs

namespace Solidbits

section Fields

variable (st : Store) (slot other : Slot) (desc : Desc) (bucket : Bucket) (head : Option Slot)

@[simp] theorem setDesc_descs : (st.setDesc slot desc).descs = Function.update st.descs slot desc := rfl
@[simp] theorem setDesc_xxtable : (st.setDesc slot desc).xxtable = st.xxtable := rfl
@[simp] theorem setDesc_idx : (st.setDesc slot desc).idx = st.idx := rfl
@[simp] theorem setDesc_fs : (st.setDesc slot desc).fs = st.fs := rfl
@[simp] theorem setFd_idx (fd : FilePtr) (fs : Fs) : (st.setFd fd fs).idx = st.idx := rfl
@[simp] theorem setLength_idx (length : Nat) : (st.setLength length).idx = st.idx := rfl
@[simp] theorem setHead_descs : (st.setHead bucket head).descs = st.descs := rfl
@[simp] theorem setHead_xxtable :
    (st.setHead bucket head).xxtable = Function.update st.xxtable bucket head := rfl
@[simp] theorem setHead_idx : (st.setHead bucket head).idx = st.idx := rfl
@[simp] theorem setHead_fs : (st.setHead bucket head).fs = st.fs := rfl

theorem setDesc_self : (st.setDesc slot desc).descs slot = desc := by simp

variable {slot other} in
theorem setDesc_of_ne (h : other ≠ slot) : (st.setDesc slot desc).descs other = st.descs other := by
  simp [h]

end Fields

section Parts

variable {α : Type} {part : Desc → α} {st : Store} {slot : Slot} {desc : Desc}

-- One part of every descriptor.
def Store.parts (st : Store) (part : Desc → α) (slot : Slot) : α := part (st.descs slot)

-- A part that says nothing about the chain of the descriptor, or nothing about
-- its file.
def Linkless (part : Desc → α) : Prop :=
  ∀ desc next prev, part { desc with next := next, prev := prev } = part desc

def Fileless (part : Desc → α) : Prop :=
  ∀ desc fd length, part { desc with fd := fd, length := length } = part desc

variable (part st slot desc) in
theorem parts_setDesc : (st.setDesc slot desc).parts part = Function.update (st.parts part) slot (part desc) := by
  funext i
  by_cases h : i = slot
  · subst h; simp [Store.parts]
  · simp [Store.parts, h]

theorem parts_setDesc_same (h : part desc = st.parts part slot) : (st.setDesc slot desc).parts part = st.parts part := by
  rw [parts_setDesc, h, Function.update_eq_self]

variable (st) in
theorem parts_unlink (h : Linkless part) (lowest : Slot) : (unlink st lowest).parts part = st.parts part := by
  simp only [unlink]
  split
  · rfl
  · exact parts_setDesc_same (h _ _ _)
  · exact parts_setDesc_same (h _ _ _)
  · exact parts_setDesc_same (h _ _ _)

variable (st) in
theorem parts_link (h : Linkless part) (bucket : Bucket) (last : Option Slot) (depth : Nat) (new : Slot) :
    (link st bucket last depth new).parts part = st.parts part := by
  unfold link
  split
  · rfl
  · split
    · rfl
    · rw [parts_setDesc_same (h _ _ _)]
      exact parts_setDesc_same (h _ _ _)

variable (st) in
theorem unlink_fs (lowest : Slot) : (unlink st lowest).fs = st.fs := by
  simp only [unlink]
  split <;> rfl

variable (st) in
theorem unlink_idx (lowest : Slot) : (unlink st lowest).idx = st.idx := by
  simp only [unlink]
  split <;> rfl

variable (st) in
theorem link_fs (bucket : Bucket) (last : Option Slot) (depth : Nat) (new : Slot) :
    (link st bucket last depth new).fs = st.fs := by
  unfold link
  split
  · rfl
  · split <;> rfl

variable (st) in
theorem link_idx (bucket : Bucket) (last : Option Slot) (depth : Nat) (new : Slot) :
    (link st bucket last depth new).idx = st.idx := by
  unfold link
  split
  · rfl
  · split <;> rfl

end Parts

section Links

-- The parts of the table that lookups follow.
def Store.hashOf (st : Store) (slot : Slot) : UInt64 := (st.descs slot).hash
def Store.nextOf (st : Store) (slot : Slot) : Option Slot := (st.descs slot).next
def Store.prevOf (st : Store) (slot : Slot) : Option Slot := (st.descs slot).prev
def Store.refsOf (st : Store) (slot : Slot) : Int := (st.descs slot).refs

variable (st : Store) (slot : Slot) (desc : Desc)

theorem hashOf_setDesc : (st.setDesc slot desc).hashOf = Function.update st.hashOf slot desc.hash :=
  parts_setDesc Desc.hash st slot desc

theorem nextOf_setDesc : (st.setDesc slot desc).nextOf = Function.update st.nextOf slot desc.next :=
  parts_setDesc Desc.next st slot desc

theorem prevOf_setDesc : (st.setDesc slot desc).prevOf = Function.update st.prevOf slot desc.prev :=
  parts_setDesc Desc.prev st slot desc

theorem refsOf_setDesc : (st.setDesc slot desc).refsOf = Function.update st.refsOf slot desc.refs :=
  parts_setDesc Desc.refs st slot desc

-- Updates that leave the links of every descriptor and every bucket alone.
structure SameLinks (st st' : Store) : Prop where
  hash : st'.hashOf = st.hashOf
  next : st'.nextOf = st.nextOf
  prev : st'.prevOf = st.prevOf
  head : st'.xxtable = st.xxtable

theorem SameLinks.refl (st : Store) : SameLinks st st := ⟨rfl, rfl, rfl, rfl⟩

theorem SameLinks.trans {st st' st'' : Store} (h : SameLinks st st') (h' : SameLinks st' st'') :
    SameLinks st st'' :=
  ⟨h'.hash.trans h.hash, h'.next.trans h.next, h'.prev.trans h.prev, h'.head.trans h.head⟩

theorem SameLinks.setDesc {st : Store} {slot : Slot} {desc : Desc}
    (hh : desc.hash = st.hashOf slot) (hn : desc.next = st.nextOf slot)
    (hp : desc.prev = st.prevOf slot) : SameLinks st (st.setDesc slot desc) := by
  refine ⟨?_, ?_, ?_, rfl⟩
  · rw [hashOf_setDesc, hh, Function.update_eq_self]
  · rw [nextOf_setDesc, hn, Function.update_eq_self]
  · rw [prevOf_setDesc, hp, Function.update_eq_self]

end Links

section Slots

variable {descs : Slot → Desc} {fuel i tmp : Nat} {lowest : Option Slot}

theorem scan_free {slot : Slot} (h : scan descs fuel i tmp lowest = .free slot) :
    (descs slot).hash = 0 ∧ i ≤ slot ∧ ∀ j : Slot, i ≤ j → j < slot → (descs j).hash ≠ 0 := by
  induction fuel generalizing i tmp lowest with
  | zero => simp [scan] at h
  | succ fuel ih =>
      simp only [scan] at h
      split at h
      · rename_i hi
        split at h
        · rename_i hfree
          cases h
          refine ⟨hfree, Nat.le_refl i, ?_⟩
          intro j hj hlt
          exact absurd (Fin.lt_def.mp hlt) (Nat.not_lt.mpr hj)
        · rename_i hlive
          have hnext : ∃ tmp' lowest', scan descs fuel (i + 1) tmp' lowest' = .free slot := by
            split at h
            · exact ⟨_, _, h⟩
            · exact ⟨_, _, h⟩
          obtain ⟨_, _, hnext⟩ := hnext
          obtain ⟨hfree, hle, hbefore⟩ := ih hnext
          refine ⟨hfree, by omega, ?_⟩
          intro j hj hlt
          by_cases he : j.val = i
          · have : j = ⟨i, hi⟩ := Fin.ext he
            rw [this]
            exact hlive
          · exact hbefore j (by omega) hlt
      · cases h

-- A victim is unpinned and occupied.
theorem scan_full {victim : Slot} (hl : ∀ slot, lowest = some slot →
      (descs slot).refs = 0 ∧ (descs slot).hash ≠ 0)
    (h : scan descs fuel i tmp lowest = .full (some victim)) :
    (descs victim).refs = 0 ∧ (descs victim).hash ≠ 0 := by
  induction fuel generalizing i tmp lowest with
  | zero =>
      cases h
      exact hl victim rfl
  | succ fuel ih =>
      simp only [scan] at h
      split at h
      · split at h
        · cases h
        · rename_i hlive
          split at h
          · rename_i hunpinned
            apply ih _ h
            intro slot he
            cases he
            exact ⟨hunpinned.1, hlive⟩
          · exact ih hl h
      · cases h
        exact hl victim rfl

-- A scan that finds no free slot has seen none from the cursor on.
theorem scan_full_live (hfuel : DESC_TABLE_SIZE ≤ i + fuel) {found : Option Slot}
    (h : scan descs fuel i tmp lowest = .full found) : ∀ slot : Slot, i ≤ slot → (descs slot).hash ≠ 0 := by
  induction fuel generalizing i tmp lowest with
  | zero =>
      intro slot hi
      have := slot.isLt
      omega
  | succ fuel ih =>
      intro slot hslot
      simp only [scan] at h
      split at h
      · rename_i hi
        split at h
        · cases h
        · rename_i hlive
          by_cases he : slot.val = i
          · have hs : slot = ⟨i, hi⟩ := Fin.ext he
            rw [hs]
            exact hlive
          · split at h
            · exact ih (by omega) h slot (by omega)
            · exact ih (by omega) h slot (by omega)
      · have := slot.isLt
        omega

-- A victim is the least recently used unpinned descriptor from the cursor on.
theorem scan_full_least {victim start : Slot} (hfuel : DESC_TABLE_SIZE ≤ i + fuel) (hstart : start ≤ i)
    (hl : ∀ slot, lowest = some slot → start ≤ slot ∧ (descs slot).lastAccess = tmp)
    (h : scan descs fuel i tmp lowest = .full (some victim)) :
    start ≤ victim ∧ (descs victim).lastAccess ≤ tmp ∧
      ∀ slot : Slot, i ≤ slot → (descs slot).refs = 0 → (descs victim).lastAccess ≤ (descs slot).lastAccess := by
  induction fuel generalizing i tmp lowest with
  | zero =>
      cases h
      obtain ⟨hbehind, hlast⟩ := hl victim rfl
      refine ⟨hbehind, Nat.le_of_eq hlast, fun slot hi => ?_⟩
      have := slot.isLt
      omega
  | succ fuel ih =>
      simp only [scan] at h
      split at h
      · rename_i hi
        have hhere : ∀ slot : Slot, i ≤ slot → slot = ⟨i, hi⟩ ∨ i + 1 ≤ slot := by
          intro slot hslot
          by_cases he : slot.val = i
          · exact Or.inl (Fin.ext he)
          · exact Or.inr (by omega)
        split at h
        · cases h
        · split at h
          · rename_i hunpinned
            have hfound : ∀ slot, some ⟨i, hi⟩ = some slot →
                start ≤ slot ∧ (descs slot).lastAccess = (descs ⟨i, hi⟩).lastAccess := by
              intro slot he
              cases he
              exact ⟨hstart, rfl⟩
            obtain ⟨hbehind, hlast, hleast⟩ := ih (by omega) (by omega) hfound h
            refine ⟨hbehind, by omega, fun slot hslot hrefs => ?_⟩
            rcases hhere slot hslot with rfl | hnext
            · exact hlast
            · exact hleast slot hnext hrefs
          · rename_i hused
            obtain ⟨hbehind, hlast, hleast⟩ := ih (by omega) (by omega) hl h
            refine ⟨hbehind, hlast, fun slot hslot hrefs => ?_⟩
            rcases hhere slot hslot with rfl | hnext
            · have hlater : ¬(descs ⟨i, hi⟩).lastAccess < tmp := fun hlt => hused ⟨hrefs, hlt⟩
              omega
            · exact hleast slot hnext hrefs
      · cases h
        obtain ⟨hbehind, hlast⟩ := hl victim rfl
        refine ⟨hbehind, Nat.le_of_eq hlast, fun slot hslot => ?_⟩
        have := slot.isLt
        omega

-- Without a victim everything from the cursor on is occupied and in use.
theorem scan_full_none (hfuel : DESC_TABLE_SIZE ≤ i + fuel)
    (h : scan descs fuel i tmp lowest = .full none) :
    lowest = none ∧ ∀ slot : Slot, i ≤ slot →
      (descs slot).hash ≠ 0 ∧ ¬((descs slot).refs = 0 ∧ (descs slot).lastAccess < tmp) := by
  induction fuel generalizing i tmp lowest with
  | zero =>
      refine ⟨Scan.full.inj h, ?_⟩
      intro slot hi
      have := slot.isLt
      omega
  | succ fuel ih =>
      simp only [scan] at h
      split at h
      · rename_i hi
        split at h
        · cases h
        · rename_i hlive
          split at h
          · have hnone := (ih (by omega) h).1
            cases hnone
          · rename_i hused
            obtain ⟨hnone, hrest⟩ := ih (by omega) h
            refine ⟨hnone, ?_⟩
            intro slot hslot
            by_cases he : slot.val = i
            · have hs : slot = ⟨i, hi⟩ := Fin.ext he
              rw [hs]
              exact ⟨hlive, hused⟩
            · exact hrest slot (by omega)
      · rename_i hi
        refine ⟨Scan.full.inj h, ?_⟩
        intro slot hslot
        have := slot.isLt
        omega

-- The three ways get_avalible_slot ends.
theorem getAvalibleSlot_cases (choice : Choice) (st : Store) :
    (∃ slot, scan st.descs (DESC_TABLE_SIZE - st.idx) st.idx choice.scanUs none = .free slot ∧
      getAvalibleSlot choice st = (some slot, { st with idx := slot })) ∨
    (scan st.descs (DESC_TABLE_SIZE - st.idx) st.idx choice.scanUs none = .full none ∧
      getAvalibleSlot choice st = (none, { st with idx := 0 })) ∨
    (∃ victim, scan st.descs (DESC_TABLE_SIZE - st.idx) st.idx choice.scanUs none = .full (some victim) ∧
      getAvalibleSlot choice st = (some victim, evict choice.flushFails { st with idx := 0 } victim)) := by
  unfold getAvalibleSlot
  cases h : scan st.descs (DESC_TABLE_SIZE - st.idx) st.idx choice.scanUs none with
  | free slot => exact Or.inl ⟨slot, rfl, rfl⟩
  | full lowest =>
      cases lowest with
      | none => exact Or.inr (Or.inl ⟨rfl, rfl⟩)
      | some victim => exact Or.inr (Or.inr ⟨victim, rfl, rfl⟩)

theorem getAvalibleSlot_evicts {choice : Choice} {st : Store} {victim : Slot}
    (h : scan st.descs (DESC_TABLE_SIZE - st.idx) st.idx choice.scanUs none = .full (some victim)) :
    getAvalibleSlot choice st = (some victim, evict choice.flushFails { st with idx := 0 } victim) := by
  rcases getAvalibleSlot_cases choice st with ⟨slot, hs, _⟩ | ⟨hs, _⟩ | ⟨other, hs, hg⟩
  · cases hs.symm.trans h
  · cases hs.symm.trans h
  · cases hs.symm.trans h
    exact hg

end Slots

section Opening

-- The FILE *, the length and the files after a successful fopen.
inductive Opens (fs : Fs) (hash : UInt64) (mode : Nat) : FilePtr → Nat → Fs → Prop
  | existing {content : Bytes} (hdisk : fs.disk hash = some content) (hmode : mode < 2) :
      Opens fs hash mode (fs.fopenRead hash).1 content.length (fs.fopenRead hash).2
  | truncated {content : Bytes} (hdisk : fs.disk hash = some content) (hmode : mode = 2) :
      Opens fs hash mode (fs.fopenWrite hash).1 content.length (fs.fopenWrite hash).2
  | created (hdisk : fs.disk hash = none) (hmode : mode ≠ 1) :
      Opens fs hash mode (fs.fopenWrite hash).1 0 (fs.fopenWrite hash).2

theorem Opens.fresh {fs fs' : Fs} {hash : UInt64} {mode length : Nat} {fd : FilePtr}
    (h : Opens fs hash mode fd length fs') :
    fd = some fs.nextFile ∧ fs'.nextFile = fs.nextFile + 1 ∧
      fs'.files = Function.update fs.files fs.nextFile (some { path := hash }) := by
  cases h <;> exact ⟨rfl, rfl, rfl⟩

def Store.place (st : Store) (fd : FilePtr) (length : Nat) (fs : Fs) : Store :=
  { st with fs := fs }.setDesc st.idx { st.descs st.idx with fd := fd, length := length }

@[simp] theorem place_xxtable (st : Store) (fd : FilePtr) (length : Nat) (fs : Fs) :
    (st.place fd length fs).xxtable = st.xxtable := rfl
@[simp] theorem place_idx (st : Store) (fd : FilePtr) (length : Nat) (fs : Fs) :
    (st.place fd length fs).idx = st.idx := rfl
@[simp] theorem place_fs (st : Store) (fd : FilePtr) (length : Nat) (fs : Fs) :
    (st.place fd length fs).fs = fs := rfl

theorem place_self (st : Store) (fd : FilePtr) (length : Nat) (fs : Fs) :
    (st.place fd length fs).descs st.idx =
      { st.descs st.idx with fd := fd, length := length } :=
  Function.update_self _ _ _

theorem place_of_ne (st : Store) (fd : FilePtr) (length : Nat) (fs : Fs) {slot : Slot}
    (h : slot ≠ st.idx) : (st.place fd length fs).descs slot = st.descs slot :=
  Function.update_of_ne h _ _

theorem setFd_setLength (st : Store) (fd : FilePtr) (length : Nat) (fs : Fs) :
    (st.setFd fd fs).setLength length = st.place fd length fs := by
  simp only [Store.setFd, Store.setLength, Store.place, Store.setDesc, Function.update_self,
    Function.update_idem]

-- open_file gets as far as fopen.
def Fopens (choice : Choice) (hash : UInt64) (mode : Nat) (fs : Fs) : Prop :=
  choice.pathFails = false ∧ (fs.disk hash = none → mode ≠ 1)

theorem openPath_refused {choice : Choice} {hash : UInt64} {mode : Nat} {st : Store}
    (h : ¬Fopens choice hash mode st.fs) : ∃ error, openPath choice hash mode st = (.error error, st) := by
  unfold openPath
  split
  · exact ⟨_, rfl⟩
  · rename_i hpath
    have hmissing : st.fs.disk hash = none ∧ mode = 1 := by
      by_contra hn
      exact h ⟨by simpa using hpath, fun hnone hmode => hn ⟨hnone, hmode⟩⟩
    rw [hmissing.1, hmissing.2]
    exact ⟨_, rfl⟩

-- A failed fopen clears the FILE *.
theorem openPath_fopens {choice : Choice} {hash : UInt64} {mode : Nat} (hmode : mode ≤ 2) {st : Store}
    (h : Fopens choice hash mode st.fs) :
    openPath choice hash mode st = (.error .failed, st.place none (st.descs st.idx).length st.fs) ∨
    ∃ fd length fs, Opens st.fs hash mode fd length fs ∧
      openPath choice hash mode st = (.ok st.idx, st.place fd length fs) := by
  unfold openPath
  rw [h.1]
  simp only [Bool.false_eq_true, ite_false]
  split
  · rename_i content hdisk
    split
    · rename_i hread
      split
      · exact Or.inl rfl
      · exact Or.inr ⟨_, _, _, .existing hdisk hread, by simp only [setFd_setLength]⟩
    · rename_i hread
      have hwrite : mode = 2 := by omega
      simp only [hwrite, ite_true]
      split
      · exact Or.inl rfl
      · exact Or.inr ⟨_, _, _, .truncated hdisk rfl, by simp only [setFd_setLength]⟩
  · rename_i hdisk
    rw [if_neg (h.2 hdisk)]
    split
    · exact Or.inl rfl
    · exact Or.inr ⟨_, _, _, .created hdisk (h.2 hdisk), by simp only [setFd_setLength]⟩

theorem openPath_cases (choice : Choice) (hash : UInt64) {mode : Nat} (hmode : mode ≤ 2) (st : Store) :
    (∃ error, openPath choice hash mode st = (.error error, st)) ∨
    openPath choice hash mode st =
      (.error .failed, st.place none (st.descs st.idx).length st.fs) ∨
    ∃ fd length fs, Opens st.fs hash mode fd length fs ∧
      openPath choice hash mode st = (.ok st.idx, st.place fd length fs) := by
  by_cases h : Fopens choice hash mode st.fs
  · exact Or.inr (openPath_fopens hmode h)
  · exact Or.inl (openPath_refused h)

-- In mode 0 nothing but a system call can fail.
theorem openPath_succeeds {choice : Choice} (hpath : choice.pathFails = false) (hfopen : choice.fopenFails = false)
    (hash : UInt64) (st : Store) : ∃ fd length fs, Opens st.fs hash 0 fd length fs ∧
      openPath choice hash 0 st = (.ok st.idx, st.place fd length fs) := by
  have hfopens : Fopens choice hash 0 st.fs := ⟨hpath, fun _ => by decide⟩
  rcases openPath_fopens (Nat.zero_le 2) hfopens with hfailed | hopened
  · cases hdisk : st.fs.disk hash with
    | none => simp [openPath, hpath, hfopen, hdisk] at hfailed
    | some content => simp [openPath, hpath, hfopen, hdisk] at hfailed
  · exact hopened

-- open_file: no slot, a failure that at most clears a FILE *, or a new FILE *
-- in the slot under the cursor.
theorem openFile_cases (choice : Choice) (hash : UInt64) {mode : Nat} (hmode : mode ≤ 2) (st : Store) :
    (∃ error, openFile choice hash mode st = (.error error, (getAvalibleSlot choice st).2)) ∨
    openFile choice hash mode st =
      (.error .failed, (getAvalibleSlot choice st).2.place none
        ((getAvalibleSlot choice st).2.descs (getAvalibleSlot choice st).2.idx).length
        (getAvalibleSlot choice st).2.fs) ∧ (getAvalibleSlot choice st).1.isSome ∨
    ∃ fd length fs, Opens (getAvalibleSlot choice st).2.fs hash mode fd length fs ∧
      (getAvalibleSlot choice st).1.isSome ∧
      openFile choice hash mode st = (.ok (getAvalibleSlot choice st).2.idx,
        (getAvalibleSlot choice st).2.place fd length fs) := by
  unfold openFile
  cases hslot : getAvalibleSlot choice st with
  | mk found st' =>
      cases found with
      | none => exact Or.inl ⟨_, rfl⟩
      | some slot =>
          rcases openPath_cases choice hash hmode st' with h | h | ⟨fd, length, fs, ho, h⟩
          · exact Or.inl h
          · exact Or.inr (Or.inl ⟨h, rfl⟩)
          · exact Or.inr (Or.inr ⟨fd, length, fs, ho, rfl, h⟩)

-- prepare_file finds the descriptor, or fails as open_file does, or links the
-- descriptor that open_file filled.
theorem prepareHashed_cases (choice : Choice) (hash : UInt64) (mode : Nat) (st : Store) :
    (∃ slot, lookup st hash = .found slot ∧ prepareHashed choice hash mode st =
      (.ok slot, st.setDesc slot (touch choice (st.descs slot)))) ∨
    (∃ last depth, lookup st hash = .absent last depth ∧
      ((∃ error st', openFile choice hash mode st = (.error error, st') ∧
        prepareHashed choice hash mode st = (.error error, st')) ∨
      ∃ new st', openFile choice hash mode st = (.ok new, st') ∧
        prepareHashed choice hash mode st = (.ok new,
          link (st'.setDesc new (stamp choice hash (st'.descs new))) (bucketOf hash) last depth new))) := by
  unfold prepareHashed
  cases hl : lookup st hash with
  | found slot => exact Or.inl ⟨slot, rfl, rfl⟩
  | absent last depth =>
      refine Or.inr ⟨last, depth, rfl, ?_⟩
      cases ho : openFile choice hash mode st with
      | mk result st' =>
          cases result with
          | error error => exact Or.inl ⟨error, st', rfl, rfl⟩
          | ok new => exact Or.inr ⟨new, st', rfl, rfl⟩

end Opening

end Solidbits
