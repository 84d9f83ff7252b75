import Solidbits.File.Sound

namespace Solidbits

section Attempt

variable {st st' : Store} {m : Contents} {hash : UInt64} {mode : Nat} {choice : Choice}

-- A call that misses the table finds a free descriptor, and an empty bucket if
-- it creates one.
def RoomOpen (choice : Choice) (st : Store) (hash : UInt64) (mode : Nat) : Prop :=
  st.misses hash → (∃ new, st.scanned choice = .free new) ∧
    (canOpen choice hash mode st.fs = true → hash ≠ 0 ∧ st.xxtable (bucketOf hash) = none)

instance (choice : Choice) (st : Store) (hash : UInt64) (mode : Nat) :
    Decidable (RoomOpen choice st hash mode) :=
  inferInstanceAs (Decidable (_ → _ ∧ (_ → _ ∧ _)))

-- The ways prepare_file ends when its calls may fail: as without failures, with
-- a file that is not there, or with a failure that leaves all live descriptors.
inductive Attempted (choice : Choice) (st : Store) (m : Contents) (hash : UInt64) (mode : Nat) :
    Except OpenError Slot → Store → Prop
  | prepared (slot : Slot) (st' : Store)
      (hp : Prepared st m hash mode choice.scanUs choice.stampUs (.ok slot) st')
      (hworks : (∀ slot, st.live slot → st.hashOf slot ≠ hash) →
        choice.pathFails = false ∧ choice.fopenFails = false) :
      Attempted choice st m hash mode (.ok slot) st'
  | missing (st' : Store) (hm : ∀ slot, st.live slot → st.hashOf slot ≠ hash) (hnone : m hash = none)
      (hmode : mode = 1) (hs : Sound st' m) (hdescs : st'.descs = st.descs) :
      Attempted choice st m hash mode (.error .missing) st'
  | failed (st' : Store) (hm : ∀ slot, st.live slot → st.hashOf slot ≠ hash) (hs : Sound st' m)
      (hkept : ∀ slot, st'.descs slot = st.descs slot ∨
        ¬st.live slot ∧ ¬st'.live slot ∧ (st'.descs slot).refs = (st.descs slot).refs)
      (hfails : choice.pathFails = true ∨ choice.fopenFails = true) :
      Attempted choice st m hash mode (.error .failed) st'

-- Without failures and evictions only the clock of a choice counts.
theorem prepareHashed_onTime (hpath : choice.pathFails = false) (hfopen : choice.fopenFails = false) {new : Slot}
    (hnew : st.scanned choice = .free new) (hash : UInt64) (mode : Nat) :
    prepareHashed choice hash mode st =
      prepareHashed (onTime choice.scanUs choice.stampUs) hash mode st := by
  have hopen : ∀ st, openPath choice hash mode st =
      openPath (onTime choice.scanUs choice.stampUs) hash mode st := by
    intro st
    simp only [openPath, hpath, hfopen, onTime]
    rfl
  have hslot : getAvalibleSlot choice st = getAvalibleSlot (onTime choice.scanUs choice.stampUs) st := by
    have hscan : scan st.descs (DESC_TABLE_SIZE - st.idx) st.idx choice.scanUs none = .free new := hnew
    simp only [getAvalibleSlot, onTime, hscan]
  simp only [prepareHashed, openFile, hopen, hslot]
  rfl

theorem canOpen_onTime (hpath : choice.pathFails = false) (hfopen : choice.fopenFails = false)
    (hash : UInt64) (mode : Nat) (fs : Fs) :
    canOpen choice hash mode fs = canOpen (onTime choice.scanUs choice.stampUs) hash mode fs := by
  simp only [canOpen, hpath, hfopen, onTime]

theorem prepareHashed_free {last : Option Slot} {depth : Nat} {new : Slot} {error : OpenError}
    (hl : lookup st hash = .absent last depth) (hnew : st.scanned choice = .free new)
    (hopen : openPath choice hash mode { st with idx := new } = (.error error, st')) :
    prepareHashed choice hash mode st = (.error error, st') := by
  have hscan : scan st.descs (DESC_TABLE_SIZE - st.idx) st.idx choice.scanUs none = .free new := hnew
  simp only [prepareHashed, hl, openFile, getAvalibleSlot, hscan, hopen]

-- A free descriptor whose fopen failed.
theorem Sound.setFd_none (h : Sound st m) (hfree : ¬st.live st.idx) : Sound (st.setFd none st.fs) m := by
  have hlinks := setFd_sameLinks st none st.fs
  have hother : ∀ slot, st.live slot → (st.setFd none st.fs).descs slot = st.descs slot := by
    intro slot hl
    have hs : slot ≠ st.idx := by
      rintro rfl
      exact hfree hl
    exact setDesc_of_ne _ _ hs
  constructor
  · exact h.shown
  · intro slot hl
    have hlive := hlinks.live.mp hl
    rw [hother slot hlive, hlinks.hash]
    exact h.opened slot hlive
  · intro n path err hn
    obtain ⟨slot, hl, hslot⟩ := h.owned n path err hn
    exact ⟨slot, hlinks.live.mpr hl, by rw [hother slot hl, hslot]⟩
  · intro slot hl
    have hlive := hlinks.live.mp hl
    rw [hother slot hlive, hlinks.hash]
    exact h.bounded slot hlive
  · intro bucket slot
    rw [hlinks.head, hlinks.live, hlinks.hash]
    exact h.filed bucket slot
  · intro slot
    rw [hlinks.next, hlinks.prev]
    exact h.alone slot

theorem Sound.attempt (h : Sound st m) (hmode : mode ≤ 2) (hroom : RoomOpen choice st hash mode) :
    Attempted choice st m hash mode (prepareHashed choice hash mode st).1
      (prepareHashed choice hash mode st).2 := by
  cases hl : lookup st hash with
  | found slot =>
      obtain ⟨hlive, hh⟩ := h.lookup_found hl
      simp only [prepareHashed, hl]
      exact .prepared slot _ (.found slot hlive hh) fun hm => absurd hh (hm slot hlive)
  | absent last depth =>
      have hmiss := misses_of_absent hl
      have hm := h.indexed.absent hmiss
      have hdisk := h.disk_of_absent hm
      obtain ⟨⟨new, hnew⟩, hbucket⟩ := hroom hmiss
      have hfree : ¬st.live new := not_not.mpr (scan_free hnew).1
      have hmoved := h.moveCursor new
      have hfailed : ∀ error st', openPath choice hash mode { st with idx := new } = (.error error, st') →
          prepareHashed choice hash mode st = (.error error, st') :=
        fun error st' => prepareHashed_free hl hnew
      have hspoiled : (choice.pathFails = true ∨ choice.fopenFails = true) →
          openPath choice hash mode { st with idx := new } =
            (.error .failed, ({ st with idx := new } : Store).setFd none st.fs) →
          Attempted choice st m hash mode (prepareHashed choice hash mode st).1
            (prepareHashed choice hash mode st).2 := by
        intro hfails hopen
        rw [hfailed _ _ hopen]
        refine .failed _ hm (hmoved.setFd_none hfree) ?_ hfails
        intro slot
        by_cases hs : slot = new
        · subst hs
          refine Or.inr ⟨hfree, ?_, ?_⟩
          · rwa [(setFd_sameLinks _ _ _).live]
          · rw [Store.setFd, setDesc_self]
        · exact Or.inl (setDesc_of_ne _ _ hs)
      cases hpath : choice.pathFails with
      | true =>
          rw [hfailed .failed { st with idx := new } (by simp only [openPath, hpath, ite_true])]
          exact .failed _ hm hmoved (fun _ => Or.inl rfl) (Or.inl hpath)
      | false =>
          by_cases hone : st.fs.disk hash = none ∧ mode = 1
          · rw [hfailed .missing { st with idx := new } (by simp [openPath, hpath, hone])]
            exact .missing _ hm (hdisk.symm.trans hone.1) hone.2 hmoved rfl
          · cases hfopen : choice.fopenFails with
            | true =>
                apply hspoiled (Or.inr hfopen)
                simp only [openPath, hpath, hfopen, ite_true, Bool.false_eq_true, ite_false]
                cases hd : st.fs.disk hash with
                | some content =>
                    by_cases hread : mode < 2
                    · simp only [hread, ite_true]
                    · simp only [show mode = 2 by omega, ite_true, Nat.lt_irrefl, ite_false]
                | none => simp only [show mode ≠ 1 from fun he => hone ⟨hd, he⟩, ite_false]
            | false =>
                have hcalm : CalmOpen (onTime choice.scanUs choice.stampUs) st hash mode := by
                  intro _ hcan
                  rw [← canOpen_onTime hpath hfopen] at hcan
                  obtain ⟨hne, hempty⟩ := hbucket hcan
                  exact ⟨hne, ⟨new, hnew⟩, hempty⟩
                have hprepared := h.prepare hmode hcalm
                rw [prepareHashed_onTime hpath hfopen hnew]
                generalize (prepareHashed (onTime choice.scanUs choice.stampUs) hash mode st).1 = answer
                  at hprepared ⊢
                generalize (prepareHashed (onTime choice.scanUs choice.stampUs) hash mode st).2 = after
                  at hprepared ⊢
                cases hprepared with
                | found slot hlive hh => exact .prepared slot _ (.found slot hlive hh) fun _ => ⟨hpath, hfopen⟩
                | created slot _ hm hmode hfree hl hs hnew hother =>
                    exact .prepared slot _ (.created slot _ hm hmode hfree hl hs hnew hother) fun _ => ⟨hpath, hfopen⟩
                | missing _ hm hnone hmode hs hkept => exact absurd ⟨hdisk.trans hnone, hmode⟩ hone
                | full hm hfull => cases hnew.symm.trans hfull

end Attempt

end Solidbits
