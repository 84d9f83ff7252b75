import Solidbits.File.Evict
import Solidbits.Stdio.View

namespace Solidbits

section Defs

-- A descriptor without its place in a chain.
def Desc.body (desc : Desc) : Desc := { desc with next := none, prev := none }

-- What an eviction of a victim is for: its file is closed, its slot holds the
-- new key with the file that was opened for it, the other slots hold what they
-- held, and a FILE * that no slot holds any more is closed. The flush of the closed
-- file may have failed.
structure Refilled (fails : Bool) (st st' : Store) (victim : Slot) (hash : UInt64) (mode : Nat) : Prop where
  holds : (st'.descs victim).hash = hash
  opened : Opens (closeFile fails st.fs (st.descs victim)) hash mode (st'.descs victim).fd (st'.descs victim).length
    st'.fs
  others : ∀ slot, slot ≠ victim → (st'.descs slot).body = (st.descs slot).body
  closed : ∀ slot n, (st.descs slot).fd = some n →
    st'.fs.files n = none ∨ ∃ other, (st'.descs other).fd = some n

end Defs

section Bodies

variable {choice : Choice} {st st' : Store} {hash : UInt64} {mode : Nat} {victim new : Slot}

theorem body_linkless : Linkless Desc.body := fun _ _ _ => rfl

theorem evict_body (fails : Bool) (st : Store) (victim : Slot) :
    (evict fails st victim).parts Desc.body = Function.update (st.parts Desc.body) victim {} := by
  rw [evict, parts_setDesc]
  exact congrArg (Function.update · victim _) (parts_unlink st body_linkless victim)

theorem evict_fs (fails : Bool) (st : Store) (victim : Slot) :
    (evict fails st victim).fs = closeFile fails st.fs (st.descs victim) := by
  have hfd : ((unlink st victim).descs victim).fd = (st.descs victim).fd :=
    congrFun (@parts_unlink _ Desc.fd st (fun _ _ _ => rfl) victim) victim
  show closeFile fails (unlink st victim).fs ((unlink st victim).descs victim) = _
  rw [unlink_fs, closeFile, closeFile, hfd]

theorem evict_idx (fails : Bool) (st : Store) (victim : Slot) : (evict fails st victim).idx = st.idx :=
  unlink_idx st victim

-- A miss that evicts and then succeeds fills the first slot of the table,
-- whatever slot it emptied.
theorem evicting_fills (hmode : mode ≤ 2) (hmiss : st.misses hash) (hvictim : st.scanned choice = .full (some victim))
    (hok : prepareHashed choice hash mode st = (.ok new, st')) :
    ∃ (desc : Desc) (fd : FilePtr) (length : Nat), st'.parts Desc.body = Function.update (Function.update (st.parts Desc.body) victim {}) 0
        (stamp choice hash { desc with fd := fd, length := length }).body ∧
      Opens (closeFile choice.flushFails st.fs (st.descs victim)) hash mode fd length st'.fs := by
  have hslot := getAvalibleSlot_evicts hvictim
  have hidx : (evict choice.flushFails { st with idx := 0 } victim).idx = 0 := evict_idx _ _ _
  have hfs : (evict choice.flushFails { st with idx := 0 } victim).fs =
      closeFile choice.flushFails st.fs (st.descs victim) := evict_fs _ _ _
  have hbody : (evict choice.flushFails { st with idx := 0 } victim).parts Desc.body =
      Function.update (st.parts Desc.body) victim {} := evict_body _ { st with idx := 0 } victim
  generalize evict choice.flushFails { st with idx := 0 } victim = mid at hslot hidx hfs hbody
  have hopen : openFile choice hash mode st = openPath choice hash mode mid := by rw [openFile, hslot]
  rcases prepareHashed_cases choice hash mode st with ⟨slot, hfound, _⟩ | ⟨last, depth, _, hrest⟩
  · exact absurd hfound (hmiss slot)
  · rw [hopen] at hrest
    rcases openPath_cases choice hash hmode mid with ⟨error, h⟩ | h | ⟨fd, length, fs, ho, h⟩
    · rcases hrest with ⟨_, _, _, he⟩ | ⟨_, _, hfilled, _⟩
      · cases hok.symm.trans he
      · cases hfilled.symm.trans h
    · rcases hrest with ⟨_, _, _, he⟩ | ⟨_, _, hfilled, _⟩
      · cases hok.symm.trans he
      · cases hfilled.symm.trans h
    · rcases hrest with ⟨_, _, hfailed, _⟩ | ⟨_, _, hfilled, he⟩
      · cases hfailed.symm.trans h
      · cases hfilled.symm.trans h
        cases hok.symm.trans he
        refine ⟨mid.descs mid.idx, fd, length, ?_, ?_⟩
        · rw [parts_link _ body_linkless, parts_setDesc, place_self, Store.place, parts_setDesc, Function.update_idem]
          show Function.update (mid.parts Desc.body) mid.idx _ = _
          rw [hbody, hidx]
        · rw [link_fs, ← hfs]
          exact ho

end Bodies

section Closing

variable {fails : Bool} {fs fs' : Fs} {desc : Desc} {hash : UInt64} {mode length n : Nat} {fd : FilePtr}

theorem closeFile_closes (h : desc.fd = some n) : (closeFile fails fs desc).files n = none := by
  rw [closeFile, h]
  exact Function.update_self _ _ _

theorem closeFile_nextFile (fails : Bool) (fs : Fs) (desc : Desc) : (closeFile fails fs desc).nextFile = fs.nextFile := by
  cases hfd : desc.fd with
  | none =>
      rw [closeFile, hfd]
      rfl
  | some n =>
      rw [closeFile, hfd]
      exact (fflush_nextFile _ false n).trans (fflush_nextFile fs fails n)

-- A FILE object that was closed before an open stays closed.
theorem Opens.stays_closed (h : Opens fs hash mode fd length fs') (hn : n < fs.nextFile) (hclosed : fs.files n = none) :
    fs'.files n = none := by
  rw [h.fresh.2.2, Function.update_of_ne (Nat.ne_of_lt hn), hclosed]

end Closing

section Eviction

variable {choice : Choice} {st st' : Store} {key : Bytes} {mode : Nat} {victim new : Slot}

-- The slot that is filled after an eviction is the evicted one, exactly if that
-- is the first slot of the table.
theorem refilled_iff (hmode : mode ≤ 2) (hmiss : st.misses (xxh64 key 0))
    (hvictim : st.scanned choice = .full (some victim))
    (hfds : ∀ slot n, (st.descs slot).fd = some n → n < st.fs.nextFile)
    (hok : prepareFile choice key mode st = (.ok new, st')) :
    Refilled choice.flushFails st st' victim (xxh64 key 0) mode ↔ victim = 0 := by
  obtain ⟨desc, fd, length, hbody, hopened⟩ := evicting_fills hmode hmiss hvictim hok
  have hslots : ∀ slot, (st'.descs slot).body = _ := fun slot => congrFun hbody slot
  have hfirst := hslots 0
  rw [Function.update_self] at hfirst
  have hnew : fd = some st.fs.nextFile := by rw [hopened.fresh.1, closeFile_nextFile]
  constructor
  · intro h
    by_contra hne
    have hkept := congrArg Desc.fd ((h.others 0 (Ne.symm hne)).symm.trans hfirst)
    have hlt := hfds 0 st.fs.nextFile (hkept.trans hnew)
    omega
  · rintro rfl
    have hothers : ∀ slot, slot ≠ 0 → (st'.descs slot).body = (st.descs slot).body := by
      intro slot hs
      rw [hslots, Function.update_of_ne hs, Function.update_of_ne hs]
      rfl
    have hfd : (st'.descs 0).fd = fd := congrArg Desc.fd hfirst
    have hlength : (st'.descs 0).length = length := congrArg Desc.length hfirst
    refine ⟨congrArg Desc.hash hfirst, by rw [hfd, hlength]; exact hopened, hothers, fun slot n hn => ?_⟩
    by_cases hs : slot = 0
    · subst hs
      refine Or.inl (hopened.stays_closed ?_ (closeFile_closes hn))
      rw [closeFile_nextFile]
      exact hfds 0 n hn
    · exact Or.inr ⟨slot, (congrArg Desc.fd (hothers slot hs)).trans hn⟩

end Eviction

section Full

-- A full table of 8192 keys that were opened one after the other, under the
-- cursor that is given.
def fullTable (idx : Slot) : Store :=
  { descs := fun slot =>
      { hash := UInt64.ofNat (slot + 1), fd := some slot, lastAccess := slot + 1, accessTimes := 1, createdAt := slot + 1 }
    xxtable := fun bucket =>
      if h : 0 < bucket.val ∧ bucket.val ≤ DESC_TABLE_SIZE then some ⟨bucket.val - 1, by omega⟩ else none
    idx := idx
    fs :=
      { disk := fun _ => some []
        files := fun n => if n < DESC_TABLE_SIZE then some { path := UInt64.ofNat (n + 1) } else none
        nextFile := DESC_TABLE_SIZE } }

theorem fullTable_live (idx slot : Slot) : (fullTable idx).live slot := by
  intro hzero
  have hmod := congrArg UInt64.toNat hzero
  have hlt : slot.val < 8192 := slot.isLt
  simp only [fullTable, UInt64.toNat_ofNat'] at hmod
  rw [Nat.mod_eq_of_lt (by omega)] at hmod
  exact absurd hmod (Nat.succ_ne_zero _)

theorem fullTable_fds (idx slot : Slot) (n : Nat) (h : ((fullTable idx).descs slot).fd = some n) :
    n < (fullTable idx).fs.nextFile := by
  obtain rfl : slot.val = n := Option.some.inj h
  exact slot.isLt

-- The victim is the descriptor under the cursor, the oldest one that is seen.
theorem fullTable_scanned (idx : Slot) : (fullTable idx).scanned { scanUs := 9000 } = .full (some idx) := by
  have hfuel : DESC_TABLE_SIZE ≤ (fullTable idx).idx + (DESC_TABLE_SIZE - (fullTable idx).idx) := by omega
  have hlt : idx.val < 8192 := idx.isLt
  cases h : (fullTable idx).scanned { scanUs := 9000 } with
  | free slot => exact absurd (scan_free h).1 (fullTable_live idx slot)
  | full lowest =>
      cases lowest with
      | none =>
          have hused := ((scan_full_none hfuel h).2 idx (Nat.le_refl _)).2
          have hrecent : idx.val + 1 < 9000 := by omega
          exact absurd ⟨rfl, hrecent⟩ hused
      | some victim =>
          have hnone : ∀ slot : Slot, none = some slot →
              idx ≤ slot ∧ ((fullTable idx).descs slot).lastAccess = 9000 := fun slot he => by cases he
          obtain ⟨hbehind, _, hleast⟩ := scan_full_least hfuel (Nat.le_refl _) hnone h
          have hle : victim.val + 1 ≤ idx.val + 1 := hleast idx (Nat.le_refl _) rfl
          rw [Fin.ext (Nat.le_antisymm (Nat.le_of_succ_le_succ hle) hbehind)]

theorem fullTable_opens (idx : Slot) (hash : UInt64) (hmiss : (fullTable idx).misses hash) :
    ∃ new st', prepareHashed { scanUs := 9000 } hash 0 (fullTable idx) = (.ok new, st') := by
  have hopen : openFile { scanUs := 9000 } hash 0 (fullTable idx) =
      openPath { scanUs := 9000 } hash 0 (evict false { fullTable idx with idx := 0 } idx) := by
    rw [openFile, getAvalibleSlot_evicts (fullTable_scanned idx)]
  generalize evict false { fullTable idx with idx := 0 } idx = mid at hopen
  rcases prepareHashed_cases { scanUs := 9000 } hash 0 (fullTable idx) with ⟨slot, hfound, _⟩ | ⟨last, depth, _, hrest⟩
  · exact absurd hfound (hmiss slot)
  · rcases hrest with ⟨error, st', he, _⟩ | ⟨new, st', _, hok⟩
    · obtain ⟨_, _, _, _, hopened⟩ := @openPath_succeeds { scanUs := 9000 } rfl rfl hash mid
      cases he.symm.trans (hopen.trans hopened)
    · exact ⟨_, _, hok⟩

-- An eviction with the cursor at the start.
theorem refilled_first_slot : ∃ new st', prepareFile { scanUs := 9000 } [107] 0 (fullTable 0) = (.ok new, st') ∧
    Refilled false (fullTable 0) st' 0 (xxh64 [107] 0) 0 := by
  have hmiss : (fullTable 0).misses (xxh64 [107] 0) := @misses_of_absent _ _ none 0 (by decide +kernel)
  obtain ⟨new, st', hok⟩ := fullTable_opens 0 _ hmiss
  exact ⟨new, st', hok,
    (refilled_iff (by decide) hmiss (fullTable_scanned 0) (fullTable_fds 0) hok).mpr rfl⟩

-- After the last slot was filled the cursor stands on it. The next key evicts it
-- and overwrites the first slot, whose file stays open without a descriptor.
theorem last_slot_evicted_first_filled : ∃ new st', (∀ slot, (fullTable 8191).live slot) ∧
    (fullTable 8191).misses (xxh64 [107] 0) ∧ (fullTable 8191).scanned { scanUs := 9000 } = .full (some 8191) ∧
    prepareFile { scanUs := 9000 } [107] 0 (fullTable 8191) = (.ok new, st') ∧
    ¬Refilled false (fullTable 8191) st' 8191 (xxh64 [107] 0) 0 := by
  have hmiss : (fullTable 8191).misses (xxh64 [107] 0) := @misses_of_absent _ _ none 0 (by decide +kernel)
  obtain ⟨new, st', hok⟩ := fullTable_opens 8191 _ hmiss
  refine ⟨new, st', fullTable_live 8191, hmiss, fullTable_scanned 8191, hok, fun h => ?_⟩
  obtain ⟨desc, fd, length, hbody, _⟩ := evicting_fills (by decide) hmiss (fullTable_scanned 8191) hok
  have hfirst := congrFun hbody 0
  rw [Function.update_self] at hfirst
  have hhash := congrArg Desc.hash ((h.others 0 (by decide)).symm.trans hfirst)
  have hother : (1 : UInt64) ≠ xxh64 [107] 0 := by decide +kernel
  exact hother hhash

end Full

end Solidbits
