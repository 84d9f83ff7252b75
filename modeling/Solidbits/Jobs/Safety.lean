import Solidbits.Jobs.Balance
import Solidbits.Jobs.Reply

namespace Solidbits

open Prog Transition

section Closing

variable {st : Store} {fs : Fs} {desc : Desc} {k : Nat} {path : UInt64}

theorem closeFile_paths (fails : Bool) (fs : Fs) (desc : Desc) (k : Nat) :
    (closeFile fails fs desc).paths k = if desc.fd = some k then none else fs.paths k := by
  split
  · rename_i hfd
    simp [closeFile, Fs.fclose, hfd, Fs.paths, Fs.setFile]
  · rename_i hfd
    exact (closeFile_files fails fs desc).2 k hfd

-- close_files closes the FILE objects of the live descriptors and no others.
theorem closeLive_paths (fails : Slot → Bool) (st : Store) (slots : List Slot) (fs : Fs) :
    (slots.foldl (closeLive fails st) fs).paths k = some path ↔
      fs.paths k = some path ∧ ∀ slot ∈ slots, st.live slot → (st.descs slot).fd ≠ some k := by
  induction slots generalizing fs with
  | nil => exact (and_iff_left nofun).symm
  | cons slot slots ih =>
      rw [List.foldl_cons, ih, List.forall_mem_cons, ← and_assoc]
      refine and_congr_left fun _ => ?_
      unfold closeLive
      split
      · rename_i hlive
        rw [closeFile_paths]
        split
        · rename_i hfd
          exact iff_of_false nofun fun h => h.2 hlive hfd
        · rename_i hfd
          exact (and_iff_left fun _ => hfd).symm
      · rename_i hlive
        exact (and_iff_left fun h => absurd h hlive).symm

theorem closeFiles_nextFile (fails : Slot → Bool) (st : Store) :
    (closeFiles fails st).fs.nextFile = st.fs.nextFile := by
  have hfold : ∀ (slots : List Slot) fs, (slots.foldl (closeLive fails st) fs).nextFile = fs.nextFile := by
    intro slots
    induction slots with
    | nil => exact fun fs => rfl
    | cons slot slots ih =>
        intro fs
        rw [List.foldl_cons, ih]
        unfold closeLive
        split
        · exact (closeFile_files (fails slot) fs (st.descs slot)).1
        · rfl
  rw [closeFiles, hfold]

theorem closeFiles_paths (fails : Slot → Bool) (st : Store) : (closeFiles fails st).fs.paths k = some path ↔
    st.fs.paths k = some path ∧ ∀ slot, st.live slot → (st.descs slot).fd ≠ some k := by
  rw [closeFiles, closeLive_paths]
  simp only [List.mem_finRange, true_implies]

end Closing

section Backing

variable {choice : Choice} {st mid st' : Store} {hash : UInt64} {mode : Nat} {pin : Pin}
  {answer : Except OpenError Slot}

-- A reference is good as long as its descriptor still has the hash and the
-- FILE * it was handed out with, and the FILE object is open on that key's file.
structure Pin.Backed (pin : Pin) (st : Store) : Prop where
  hash : (st.descs pin.slot).hash = pin.hash
  fd : (st.descs pin.slot).fd = pin.fd
  opened : pin.fd.bind st.fs.paths = some pin.hash

-- No two descriptors have the same FILE *, and none has one that is still to
-- be handed out.
structure Store.Apart (st : Store) : Prop where
  distinct : ∀ slot other n, (st.descs slot).fd = some n → (st.descs other).fd = some n → slot = other
  fresh : ∀ slot n, (st.descs slot).fd = some n → n < st.fs.nextFile

theorem fd_core (h : st'.core = st.core) (slot : Slot) : (st'.descs slot).fd = (st.descs slot).fd :=
  congrArg (·.2.1) (congrFun h slot)

theorem hash_core (h : st'.core = st.core) (slot : Slot) : (st'.descs slot).hash = (st.descs slot).hash :=
  congrArg (·.1) (congrFun h slot)

theorem core_self {slot : Slot} {core : UInt64 × FilePtr × Int} (h : st'.core = Function.update st.core slot core) :
    st'.core slot = core := by
  rw [h, Function.update_self]

theorem core_of_ne {slot other : Slot} {core : UInt64 × FilePtr × Int}
    (h : st'.core = Function.update st.core slot core) (hne : other ≠ slot) : st'.core other = st.core other := by
  rw [h, Function.update_of_ne hne]

-- What keeps a reference good: its descriptor and its FILE object stay.
theorem Pin.Backed.keep (h : pin.Backed st) (hcore : (st'.core pin.slot).1 = (st.core pin.slot).1 ∧
    (st'.core pin.slot).2.1 = (st.core pin.slot).2.1)
    (hpaths : ∀ n, pin.fd = some n → st'.fs.paths n = st.fs.paths n) : pin.Backed st' := by
  refine ⟨hcore.1.trans h.hash, hcore.2.trans h.fd, ?_⟩
  have hopened := h.opened
  cases hfd : pin.fd with
  | none => rwa [hfd] at hopened
  | some n =>
      rw [hfd] at hopened
      exact (hpaths n hfd).trans hopened

theorem Store.Apart.congr (h : st.Apart) (hfd : ∀ slot, (st'.descs slot).fd = none ∨
    (st'.descs slot).fd = (st.descs slot).fd) (hnext : st'.fs.nextFile = st.fs.nextFile) : st'.Apart := by
  have hold : ∀ slot n, (st'.descs slot).fd = some n → (st.descs slot).fd = some n := by
    intro slot n hn
    rcases hfd slot with hnone | hsame
    · rw [hnone] at hn
      cases hn
    · rwa [← hsame]
  refine ⟨fun slot other n hs ho => h.distinct slot other n (hold slot n hs) (hold other n ho), ?_⟩
  intro slot n hn
  rw [hnext]
  exact h.fresh slot n (hold slot n hn)

theorem Store.Apart.vacated (h : st.Apart) (hv : Vacated st mid) : mid.Apart := by
  cases hv with
  | same hcore hfs => exact h.congr (fun slot => Or.inr (fd_core hcore slot)) (by rw [hfs])
  | evicted victim hrefs hcore hclosed =>
      obtain ⟨fails, desc, _, hfs⟩ := hclosed
      refine h.congr (fun slot => ?_) (by rw [hfs, (closeFile_files fails st.fs desc).1])
      by_cases hs : slot = victim
      · rw [hs]
        exact Or.inl (congrArg (·.2.1) (core_self hcore))
      · exact Or.inr (congrArg (·.2.1) (core_of_ne hcore hs))

-- An eviction spares what is referenced.
theorem Pin.Backed.vacated (h : pin.Backed st) (hapart : st.Apart) (hrefs : st.refsOf pin.slot ≠ 0)
    (hv : Vacated st mid) : pin.Backed mid := by
  cases hv with
  | same hcore hfs => exact h.keep ⟨hash_core hcore _, fd_core hcore _⟩ fun n _ => by rw [hfs]
  | evicted victim hzero hcore hclosed =>
      obtain ⟨fails, desc, hfd, hfs⟩ := hclosed
      have hne : pin.slot ≠ victim := fun he => hrefs (he ▸ hzero)
      have hsame := core_of_ne hcore hne
      refine h.keep ⟨congrArg (·.1) hsame, congrArg (·.2.1) hsame⟩ fun n hn => ?_
      rw [hfs]
      refine (closeFile_files fails st.fs desc).2 n fun he => hne ?_
      exact hapart.distinct _ _ n (h.fd.trans hn) (hfd.symm.trans he)

theorem Opens.paths {fs fs' : Fs} {fd : FilePtr} {length : Nat} (h : Opens fs hash mode fd length fs') :
    fd = some fs.nextFile ∧ fs'.nextFile = fs.nextFile + 1 ∧
      fs'.paths = Function.update fs.paths fs.nextFile (some hash) := by
  obtain ⟨hfd, hnext, hfiles⟩ := h.fresh
  refine ⟨hfd, hnext, ?_⟩
  funext k
  simp only [Fs.paths, hfiles]
  by_cases hk : k = fs.nextFile
  · simp [hk]
  · simp [Fs.paths, hk]

theorem granted_apart (h : Granted choice st mid hash mode answer st') (hapart : st.Apart) (hmid : mid.Apart) :
    st'.Apart := by
  cases h with
  | found slot _ hlookup hcore hfs =>
      refine hapart.congr (fun other => Or.inr ?_) (by rw [hfs])
      by_cases ho : other = slot
      · rw [ho]
        exact congrArg (·.2.1) (core_self hcore)
      · exact congrArg (·.2.1) (core_of_ne hcore ho)
  | refused error _ hrefused hmiss hcore hfs =>
      exact hmid.congr (fun slot => Or.inr (fd_core hcore slot)) (by rw [hfs])
  | failed _ hreopens hcore hfs =>
      refine hmid.congr (fun other => ?_) (by rw [hfs])
      by_cases ho : other = mid.idx
      · rw [ho]
        exact Or.inl (congrArg (·.2.1) (core_self hcore))
      · exact Or.inr (congrArg (·.2.1) (core_of_ne hcore ho))
  | filled _ hreopens ho hcore =>
      obtain ⟨hfd, hnext, _⟩ := ho.paths
      have hself : (st'.descs mid.idx).fd = some mid.fs.nextFile :=
        (congrArg (·.2.1) (core_self hcore)).trans hfd
      have hother : ∀ slot, slot ≠ mid.idx → (st'.descs slot).fd = (mid.descs slot).fd :=
        fun slot hne => congrArg (·.2.1) (core_of_ne hcore hne)
      have hless : ∀ slot n, slot ≠ mid.idx → (st'.descs slot).fd = some n → n < mid.fs.nextFile :=
        fun slot n hne hn => hmid.fresh slot n ((hother slot hne).symm.trans hn)
      constructor
      · intro slot other n hs ho
        by_cases hone : slot = mid.idx
        · by_cases htwo : other = mid.idx
          · rw [hone, htwo]
          · have hlt := hless other n htwo ho
            rw [hone, hself] at hs
            exact absurd (Option.some.inj hs) (by omega)
        · by_cases htwo : other = mid.idx
          · have hlt := hless slot n hone hs
            rw [htwo, hself] at ho
            exact absurd (Option.some.inj ho) (by omega)
          · rw [hother slot hone] at hs
            rw [hother other htwo] at ho
            exact hmid.distinct slot other n hs ho
      · intro slot n hn
        by_cases hone : slot = mid.idx
        · rw [hone, hself] at hn
          have heq := Option.some.inj hn
          omega
        · have hlt := hless slot n hone hn
          omega

-- prepare_file keeps a reference of somebody else, unless it fills its slot.
theorem granted_kept (h : Granted choice st mid hash mode answer st') (hb : pin.Backed st) (hmid : pin.Backed mid)
    (hapart : mid.Apart) (hspared : st.Reopens choice hash mode → pin.slot ≠ mid.idx) : pin.Backed st' := by
  cases h with
  | found slot _ hlookup hcore hfs =>
      refine hb.keep ?_ fun n _ => by rw [hfs]
      by_cases he : pin.slot = slot
      · rw [he, core_self hcore]
        exact ⟨(lookup_hash hlookup).symm, rfl⟩
      · rw [core_of_ne hcore he]
        exact ⟨rfl, rfl⟩
  | refused error _ hrefused hmiss hcore hfs =>
      exact hmid.keep ⟨hash_core hcore _, fd_core hcore _⟩ fun n _ => by rw [hfs]
  | failed _ hreopens hcore hfs =>
      have hsame := core_of_ne hcore (hspared hreopens)
      exact hmid.keep ⟨congrArg (·.1) hsame, congrArg (·.2.1) hsame⟩ fun n _ => by rw [hfs]
  | filled _ hreopens ho hcore =>
      have hsame := core_of_ne hcore (hspared hreopens)
      obtain ⟨_, _, hpaths⟩ := ho.paths
      refine hmid.keep ⟨congrArg (·.1) hsame, congrArg (·.2.1) hsame⟩ fun n hn => ?_
      have hlt := hapart.fresh pin.slot n (hmid.fd.trans hn)
      rw [hpaths, Function.update_of_ne (by omega)]

-- The reference it hands out is good, unless it is a hit on a descriptor that
-- is not.
theorem granted_own {slot : Slot} (h : Granted choice st mid hash mode (.ok slot) st')
    (hopen : ∀ slot, lookup st hash = .found slot → (st.descs slot).fd.bind st.fs.paths = some hash) :
    Pin.Backed ⟨slot, hash, (st'.descs slot).fd, mode⟩ st' := by
  cases h with
  | found _ _ hlookup hcore hfs =>
      have hself := core_self hcore
      refine ⟨congrArg (·.1) hself, rfl, ?_⟩
      rw [show (st'.descs slot).fd = (st.descs slot).fd from congrArg (·.2.1) hself, hfs]
      exact hopen slot hlookup
  | filled _ hreopens ho hcore =>
      have hself := core_self hcore
      obtain ⟨hfd, _, hpaths⟩ := ho.paths
      refine ⟨congrArg (·.1) hself, rfl, ?_⟩
      rw [show (st'.descs mid.idx).fd = _ from congrArg (·.2.1) hself, hfd, hpaths]
      exact Function.update_self _ _ _

-- A hit on a descriptor whose FILE object is not open hands out a bad one.
theorem granted_closed {slot : Slot} (h : Granted choice st mid hash mode answer st')
    (hlookup : lookup st hash = .found slot) (hclosed : (st.descs slot).fd.bind st.fs.paths ≠ some hash) :
    answer = .ok slot ∧ ¬Pin.Backed ⟨slot, hash, (st'.descs slot).fd, mode⟩ st' := by
  cases h with
  | found found _ hfound hcore hfs =>
      obtain rfl : found = slot := Lookup.found.inj (hfound.symm.trans hlookup)
      refine ⟨rfl, fun hbacked => hclosed ?_⟩
      have hopened := hbacked.opened
      rwa [show (st'.descs found).fd = (st.descs found).fd from congrArg (·.2.1) (core_self hcore), hfs] at hopened
  | refused error _ hrefused hmiss hcore hfs => exact absurd hlookup (hmiss slot)
  | failed _ hreopens hcore hfs => exact absurd hlookup (hreopens.1 slot)
  | filled _ hreopens ho hcore => exact absurd hlookup (hreopens.1 slot)

-- A reference does not survive that its slot is filled, or that the open for it
-- fails.
theorem granted_refilled (h : Granted choice st mid hash mode answer st') (hreopens : st.Reopens choice hash mode)
    (hmid : pin.Backed mid) (hapart : mid.Apart) (hslot : pin.slot = mid.idx) : ¬pin.Backed st' := by
  intro hafter
  cases hfd : pin.fd with
  | none =>
      have hopened := hmid.opened
      rw [hfd] at hopened
      cases hopened
  | some n =>
      have hnew := hafter.fd.trans hfd
      rw [hslot] at hnew
      cases h with
      | found slot _ hlookup hcore hfs => exact hreopens.1 slot hlookup
      | refused error _ hrefused hmiss hcore hfs => exact hrefused hreopens
      | failed _ _ hcore hfs =>
          have hnone : (st'.descs mid.idx).fd = none := congrArg (·.2.1) (core_self hcore)
          rw [hnone] at hnew
          cases hnew
      | filled _ _ ho hcore =>
          have hfresh : (st'.descs mid.idx).fd = some mid.fs.nextFile :=
            (congrArg (·.2.1) (core_self hcore)).trans ho.paths.1
          have hlt := hapart.fresh pin.slot n (hmid.fd.trans hfd)
          have heq := Option.some.inj (hfresh.symm.trans hnew)
          omega

-- The counts stay above what is held.
theorem granted_refs {held : Slot → Nat} (h : Granted choice st mid hash mode answer st')
    (hmid : mid.refsOf = st.refsOf) (hheld : ∀ slot, (held slot : Int) ≤ st.refsOf slot)
    (hspared : st.Reopens choice hash mode → held mid.idx = 0) (slot : Slot) :
    (held slot : Int) + (if answer = .ok slot then 1 else 0) ≤ st'.refsOf slot := by
  have hslot := hheld slot
  cases h with
  | found found _ hlookup hcore hfs =>
      rw [refsOf_update hcore]
      by_cases he : slot = found
      · subst he
        rw [Function.update_self, if_pos rfl]
        exact Int.add_le_add_right hslot 1
      · rw [Function.update_of_ne he, if_neg fun h => he (Except.ok.inj h).symm]
        omega
  | refused error _ hrefused hmiss hcore hfs =>
      rw [refsOf_core hcore, hmid, if_neg nofun]
      omega
  | failed _ hreopens hcore hfs =>
      rw [refsOf_update hcore, if_neg nofun]
      have hsame : Function.update mid.refsOf mid.idx (mid.descs mid.idx).refs = mid.refsOf :=
        Function.update_eq_self _ _
      rw [hsame, hmid]
      omega
  | filled _ hreopens ho hcore =>
      have hzero := hspared hreopens
      rw [refsOf_update hcore]
      by_cases he : slot = mid.idx
      · rw [he, Function.update_self, if_pos rfl, hzero]
        exact Int.le_refl 1
      · rw [Function.update_of_ne he, if_neg fun h => he (Except.ok.inj h).symm, hmid]
        omega

-- The reference that prepare_file adds to those of the job.
theorem record_mem {st : Store} {held : Holding} {key : Bytes}
    (hpin : pin ∈ (record st held (.prepareFile key mode) answer).pins) :
    pin ∈ held.pins ∨ ∃ slot, answer = .ok slot ∧ pin = ⟨slot, xxh64 key 0, (st.descs slot).fd, mode⟩ := by
  cases answer with
  | ok slot =>
      rcases List.mem_cons.mp hpin with rfl | hold
      · exact Or.inr ⟨slot, rfl, rfl⟩
      · exact Or.inl hold
  | error error => cases error <;> exact Or.inl hpin

theorem record_count (st : Store) (held : Holding) (key : Bytes) (mode : Nat) (answer : Except OpenError Slot)
    (slot : Slot) : (record st held (.prepareFile key mode) answer).count slot =
      held.count slot + if answer = .ok slot then 1 else 0 := by
  cases answer with
  | ok found =>
      simp only [record, pin_count, Except.ok.injEq]
  | error error => cases error <;> rfl

theorem readFrom_sameFiles (choice : Choice) (slot : Slot) (size : Nat) (offset : Int) (st : Store) :
    SameFiles st.fs (readFrom choice slot size offset st).2.fs := by
  have hread := (sameFiles_fseek st.fs choice.seekFails (st.descs slot).fd offset).trans
    (sameFiles_fread _ choice.ioFails choice.ioBytes (st.descs slot).fd size)
  simp only [readFrom]
  split
  · exact hread
  · exact hread

theorem writeTo_sameFiles (choice : Choice) (slot : Slot) (buf : Bytes) (offset : Int) (st : Store) :
    SameFiles st.fs (writeTo choice slot buf offset st).2.fs := by
  have hseek := sameFiles_fseek st.fs choice.seekFails (st.descs slot).fd offset
  simp only [writeTo]
  split
  · rename_i fs hs
    rwa [hs] at hseek
  · rename_i fs hs
    rw [hs] at hseek
    have hwrite := hseek.trans (sameFiles_fwrite fs choice.ioFails choice.ioBytes (st.descs slot).fd buf)
    split
    · exact hwrite
    · split
      · exact hwrite
      · exact hwrite

end Backing

section Replying

-- Whatever it is answered, a program knows whether it has replied.
theorem reply_answers (replied : Bool) (action : Act) (answer : Res action) :
    ∃ after, replyContract.answers replied action answer after := by
  cases action with
  | reply text len => exact ⟨true, rfl⟩
  | prepareFile key mode => exact ⟨replied, rfl⟩
  | releaseDesc dt => exact ⟨replied, rfl⟩
  | descLength dt => exact ⟨replied, rfl⟩
  | readFrom dt size offset => exact ⟨replied, rfl⟩
  | writeTo dt buf offset => exact ⟨replied, rfl⟩
  | posixMemalign => exact ⟨replied, rfl⟩

end Replying

section Guard

variable {ι : Type} [Fintype ι]

-- The descriptor that an action is about.
def Act.touches : Act → Option Slot
  | .releaseDesc dt => some dt
  | .descLength dt => some dt
  | .readFrom dt _ _ => some dt
  | .writeTo dt _ _ => some dt
  | _ => none

-- Every descriptor held by an unfinished job is as it was handed out, and a job
-- is about to touch only what it holds.
def Jobs.Safe (jobs : Jobs ι) : Prop :=
  (∀ i, ∀ pin ∈ (jobs.holding i).pins, pin.Backed jobs.shared) ∧
    ∀ i action next, (jobs.threads i).prog = .act action next → ∀ dt, action.touches = some dt →
      ∃ pin ∈ (jobs.holding i).pins, pin.slot = dt

-- SIGTERM comes while no job holds a live descriptor, a hit finds its FILE
-- object open, and what get_avalible_slot leaves to be filled is not held.
def Jobs.Guards (jobs : Jobs ι) : Turn ι → Prop
  | .sigterm _ => ∀ i, ∀ pin ∈ (jobs.holding i).pins, ¬jobs.shared.live pin.slot
  | .act job choice =>
      match (jobs.threads job).prog with
      | .act (.prepareFile key mode) _ =>
          (∀ slot, lookup jobs.shared (xxh64 key 0) = .found slot →
            (jobs.shared.descs slot).fd.bind jobs.shared.fs.paths = some (xxh64 key 0)) ∧
          (jobs.shared.Reopens choice (xxh64 key 0) mode → jobs.pinned (getAvalibleSlot choice jobs.shared).2.idx = 0)
      | _ => True

structure Jobs.Guarded (jobs : Jobs ι) : Prop where
  verified : jobs.Verified pinContract fun after _ => after.Returned
  replies : ∀ i, ∃ replied, (jobs.threads i).prog.wp replyContract (fun after _ => after = true) replied
  backed : ∀ i, ∀ pin ∈ (jobs.holding i).pins, pin.Backed jobs.shared
  refs : ∀ slot, (jobs.pinned slot : Int) ≤ jobs.shared.refsOf slot
  apart : jobs.shared.Apart

variable {jobs : Jobs ι} {job : ι} {choice : Choice} {action : Act} {next : Res action → Cmd Unit}

theorem Jobs.Guarded.allowed (h : jobs.Guarded) (hprog : (jobs.threads job).prog = .act action next) :
    pinAllowed (jobs.threads job).ghost action := by
  have hverified := h.verified job
  rw [hprog] at hverified
  exact hverified.1

theorem Jobs.Guarded.safe (h : jobs.Guarded) : jobs.Safe := by
  refine ⟨h.backed, fun i action next hprog dt hdt => ?_⟩
  rw [holding_of_act hprog]
  apply Holding.held_of_count
  have hallowed := h.allowed hprog
  cases action with
  | prepareFile key mode => cases hdt
  | posixMemalign => cases hdt
  | reply text len => cases hdt
  | releaseDesc slot => exact Option.some.inj hdt ▸ hallowed
  | descLength slot => exact Option.some.inj hdt ▸ hallowed
  | readFrom slot size offset => exact Option.some.inj hdt ▸ hallowed
  | writeTo slot buf offset => exact Option.some.inj hdt ▸ hallowed

omit [Fintype ι] in
-- A job holds at most what its ghost state says.
theorem holding_sublist (jobs : Jobs ι) (i : ι) : (jobs.holding i).pins.Sublist (jobs.threads i).ghost.pins := by
  unfold Jobs.holding
  split
  · exact List.nil_sublist _
  · exact List.Sublist.refl _

theorem pinned_pos {i : ι} {pin : Pin} (h : pin ∈ (jobs.holding i).pins) : 0 < jobs.pinned pin.slot :=
  Nat.lt_of_lt_of_le (Holding.count_of_mem h)
    (Finset.single_le_sum (f := fun i => (jobs.holding i).count pin.slot) (fun _ _ => Nat.zero_le _)
      (Finset.mem_univ i))

theorem held_of_pinned {slot : Slot} (h : jobs.pinned slot ≠ 0) :
    ∃ i, ∃ pin ∈ (jobs.holding i).pins, pin.slot = slot := by
  obtain ⟨i, _, hi⟩ := Finset.exists_ne_zero_of_sum_ne_zero h
  exact ⟨i, Holding.held_of_count (Nat.pos_of_ne_zero hi)⟩

theorem Jobs.Guarded.refs_pos (h : jobs.Guarded) {i : ι} {pin : Pin} (hpin : pin ∈ (jobs.holding i).pins) :
    jobs.shared.refsOf pin.slot ≠ 0 := by
  have hpos := pinned_pos hpin
  have hrefs := h.refs pin.slot
  omega

variable [DecidableEq ι]

theorem pinned_moved (hprog : (jobs.threads job).prog = .act action next) (slot : Slot) :
    (jobs.moved job choice action next).pinned slot + (jobs.threads job).ghost.count slot ≤
      jobs.pinned slot + (record (execAct choice action jobs.shared).2 (jobs.threads job).ghost action
        (execAct choice action jobs.shared).1).count slot := by
  have hsum := @sum_moved ι _ _ (fun i => (jobs.holding i).count slot)
    (fun i => ((jobs.moved job choice action next).holding i).count slot) job fun other hne => by
      simp only [Jobs.holding, moved_of_ne hne]
  have hless := (holding_sublist (jobs.moved job choice action next) job).countP_le (p := (·.slot = slot))
  rw [moved_self] at hless
  rw [holding_of_act hprog] at hsum
  have hcount : ((jobs.moved job choice action next).holding job).count slot ≤
    (record (execAct choice action jobs.shared).2 (jobs.threads job).ghost action
      (execAct choice action jobs.shared).1).count slot := hless
  unfold Jobs.pinned
  omega

omit [Fintype ι] in
theorem holding_other {i : ι} (h : i ≠ job) :
    (jobs.moved job choice action next).holding i = jobs.holding i := by
  simp only [Jobs.holding, moved_of_ne h]

-- After an action of the job its references are good if the ones there were
-- stay good and the new ones are.
theorem Jobs.Guarded.moved (h : jobs.Guarded) (hprog : (jobs.threads job).prog = .act action next)
    (hkept : ∀ i, ∀ pin ∈ (jobs.holding i).pins, pin.Backed (execAct choice action jobs.shared).2)
    (hown : ∀ pin ∈ (record (execAct choice action jobs.shared).2 (jobs.threads job).ghost action
      (execAct choice action jobs.shared).1).pins, pin ∈ (jobs.threads job).ghost.pins ∨
        pin.Backed (execAct choice action jobs.shared).2)
    (hrefs : ∀ slot, (jobs.pinned slot : Int) + (record (execAct choice action jobs.shared).2
      (jobs.threads job).ghost action (execAct choice action jobs.shared).1).count slot ≤
        (execAct choice action jobs.shared).2.refsOf slot + (jobs.threads job).ghost.count slot)
    (hapart : (execAct choice action jobs.shared).2.Apart) : (jobs.moved job choice action next).Guarded := by
  have hmoved := @next_moved ι _ jobs job choice action next hprog
  refine ⟨?_, ?_, ?_, ?_, hapart⟩
  · rw [← hmoved]
    exact verified_next h.verified _
  · intro i
    by_cases hi : i = job
    · subst hi
      obtain ⟨replied, hwp⟩ := h.replies i
      rw [hprog] at hwp
      have hself : ((jobs.moved i choice action next).threads i).prog =
          next (execAct choice action jobs.shared).1 := by
        simp only [Jobs.moved, Function.update_self, Pool.advance]
      obtain ⟨after, hafter⟩ := reply_answers replied action (execAct choice action jobs.shared).1
      exact ⟨after, hself ▸ hwp.2 _ after hafter⟩
    · rw [moved_of_ne hi]
      exact h.replies i
  · intro i pin hpin
    by_cases hi : i = job
    · subst hi
      have hrecord := (holding_sublist _ i).subset hpin
      rw [moved_self] at hrecord
      rcases hown pin hrecord with hold | hnew
      · rw [← holding_of_act hprog] at hold
        exact hkept i pin hold
      · exact hnew
    · rw [holding_other hi] at hpin
      exact hkept i pin hpin
  · intro slot
    have hpinned := @pinned_moved ι _ jobs job choice action next _ hprog slot
    have hslot := hrefs slot
    show _ ≤ (execAct choice action jobs.shared).2.refsOf slot
    omega

-- An action that leaves the table as it is, and every FILE object open.
theorem Jobs.Guarded.moved_same (h : jobs.Guarded) (hprog : (jobs.threads job).prog = .act action next)
    (hcore : (execAct choice action jobs.shared).2.core = jobs.shared.core)
    (hfiles : SameFiles jobs.shared.fs (execAct choice action jobs.shared).2.fs)
    (hrecord : record (execAct choice action jobs.shared).2 (jobs.threads job).ghost action
      (execAct choice action jobs.shared).1 = (jobs.threads job).ghost) :
    (jobs.moved job choice action next).Guarded := by
  apply h.moved hprog
  · intro i pin hpin
    exact (h.backed i pin hpin).keep ⟨hash_core hcore _, fd_core hcore _⟩ fun n _ => by rw [hfiles.paths]
  · intro pin hpin
    rw [hrecord] at hpin
    exact Or.inl hpin
  · intro slot
    rw [hrecord, refsOf_core hcore]
    exact Int.add_le_add_right (h.refs slot) _
  · exact h.apart.congr (fun slot => Or.inr (fd_core hcore slot)) hfiles.nextFile

omit [DecidableEq ι] in
theorem Jobs.Guarded.backed_mid (h : jobs.Guarded) {i : ι} {pin : Pin} (hpin : pin ∈ (jobs.holding i).pins)
    (choice : Choice) : pin.Backed (getAvalibleSlot choice jobs.shared).2 :=
  (h.backed i pin hpin).vacated h.apart (h.refs_pos hpin) (getAvalibleSlot_vacated choice jobs.shared)

theorem Jobs.Guarded.prepare (h : jobs.Guarded) {key : Bytes} {mode : Nat} {next : Except OpenError Slot → Cmd Unit}
    (hprog : (jobs.threads job).prog = .act (.prepareFile key mode) next)
    (hguards : jobs.Guards (.act job choice)) : (jobs.moved job choice (.prepareFile key mode) next).Guarded := by
  simp only [Jobs.Guards, hprog] at hguards
  obtain ⟨hopen, hspared⟩ := hguards
  have hmid := h.apart.vacated (getAvalibleSlot_vacated choice jobs.shared)
  have hgranted := prepareHashed_granted choice (xxh64 key 0) (h.allowed hprog) jobs.shared
  have hrefs := granted_refs hgranted (vacated_refs choice jobs.shared) h.refs hspared
  apply h.moved hprog
  · intro i pin hpin
    refine granted_kept hgranted (h.backed i pin hpin) (h.backed_mid hpin choice) hmid fun hreopens he => ?_
    have hpos := pinned_pos hpin
    rw [he, hspared hreopens] at hpos
    exact absurd hpos (Nat.lt_irrefl 0)
  · intro pin hpin
    rcases record_mem hpin with hold | ⟨slot, ha, rfl⟩
    · exact Or.inl hold
    · have hok : (prepareHashed choice (xxh64 key 0) mode jobs.shared).1 = .ok slot := ha
      rw [hok] at hgranted
      exact Or.inr (granted_own hgranted hopen)
  · intro slot
    have hslot := hrefs slot
    rw [record_count]
    show (jobs.pinned slot : Int) + ((_ + if (prepareHashed choice (xxh64 key 0) mode jobs.shared).1 = .ok slot then 1
      else 0 : Nat) : Int) ≤ (prepareHashed choice (xxh64 key 0) mode jobs.shared).2.refsOf slot + _
    split at hslot
    · rename_i ha
      rw [if_pos ha]
      omega
    · rename_i ha
      rw [if_neg ha]
      omega
  · exact granted_apart hgranted h.apart hmid

theorem Jobs.Guarded.release (h : jobs.Guarded) {dt : Slot} {next : Unit → Cmd Unit}
    (hprog : (jobs.threads job).prog = .act (.releaseDesc dt) next) :
    (jobs.moved job choice (.releaseDesc dt) next).Guarded := by
  have hcore : (releaseDesc dt jobs.shared).core = Function.update jobs.shared.core dt
      ((jobs.shared.descs dt).hash, (jobs.shared.descs dt).fd, (jobs.shared.descs dt).refs - 1) :=
    core_setDesc jobs.shared dt _
  have hsame : ∀ slot, ((releaseDesc dt jobs.shared).core slot).1 = (jobs.shared.core slot).1 ∧
      ((releaseDesc dt jobs.shared).core slot).2.1 = (jobs.shared.core slot).2.1 := by
    intro slot
    by_cases hs : slot = dt
    · rw [hs, core_self hcore]
      exact ⟨rfl, rfl⟩
    · rw [core_of_ne hcore hs]
      exact ⟨rfl, rfl⟩
  apply h.moved hprog
  · exact fun i pin hpin => (h.backed i pin hpin).keep (hsame pin.slot) fun _ _ => rfl
  · exact fun pin hpin => Or.inl (List.mem_of_mem_eraseP hpin)
  · intro slot
    have hcounts := release_counts (jobs.threads job).ghost dt slot jobs.shared (h.allowed hprog)
    have hslot := h.refs slot
    show (jobs.pinned slot : Int) + ((jobs.threads job).ghost.release dt).count slot ≤
      (releaseDesc dt jobs.shared).refsOf slot + (jobs.threads job).ghost.count slot
    omega
  · exact h.apart.congr (fun slot => Or.inr (hsame slot).2) rfl

theorem Jobs.Guarded.step (h : jobs.Guarded) {turn : Turn ι} (hguards : jobs.Guards turn) :
    (jobs.next turn).Guarded := by
  cases turn with
  | sigterm fails =>
      obtain ⟨hshared, hthreads⟩ := @next_sigterm ι _ jobs fails
      have hcore := closeFiles_core fails jobs.shared
      have hholding : (jobs.next (.sigterm fails)).holding = jobs.holding := by
        funext i
        rw [Jobs.holding, Jobs.holding, hthreads]
      refine ⟨verified_next h.verified (.sigterm fails), ?_, ?_, ?_, ?_⟩
      · rw [hthreads]
        exact h.replies
      · intro i pin hpin
        rw [hholding] at hpin
        rw [hshared]
        have hbacked := h.backed i pin hpin
        refine ⟨(hash_core hcore _).trans hbacked.hash, (fd_core hcore _).trans hbacked.fd, ?_⟩
        cases hfd : pin.fd with
        | none =>
            have hopened := hbacked.opened
            rw [hfd] at hopened
            cases hopened
        | some n =>
            have hopened := hbacked.opened
            rw [hfd, Option.bind_some] at hopened
            rw [Option.bind_some, closeFiles_paths]
            refine ⟨hopened, fun slot hlive hslot => ?_⟩
            have he := h.apart.distinct _ _ n hslot (hbacked.fd.trans hfd)
            exact hguards i pin hpin (he ▸ hlive)
      · intro slot
        have hpinned : (jobs.next (.sigterm fails)).pinned slot = jobs.pinned slot := by rw [Jobs.pinned, hholding]; rfl
        rw [hpinned, hshared, refsOf_core hcore]
        exact h.refs slot
      · rw [hshared]
        exact h.apart.congr (fun slot => Or.inr (fd_core hcore slot)) (closeFiles_nextFile fails jobs.shared)
  | act job choice =>
      cases hprog : (jobs.threads job).prog with
      | ret value =>
          rw [next_ret hprog]
          exact h
      | act action next =>
          rw [next_moved hprog]
          cases action with
          | prepareFile key mode => exact h.prepare hprog hguards
          | releaseDesc dt => exact h.release hprog
          | descLength dt => exact h.moved_same hprog rfl (SameFiles.refl _) rfl
          | readFrom dt size offset =>
              exact h.moved_same hprog (readFrom_core choice dt size offset jobs.shared)
                (readFrom_sameFiles choice dt size offset jobs.shared) rfl
          | writeTo dt buf offset =>
              exact h.moved_same hprog (writeTo_core choice dt buf offset jobs.shared)
                (writeTo_sameFiles choice dt buf offset jobs.shared) rfl
          | posixMemalign => exact h.moved_same hprog rfl (SameFiles.refl _) rfl
          | reply text len => exact h.moved_same hprog rfl (SameFiles.refl _) rfl

-- A job that opens a file goes on.
omit [Fintype ι] [DecidableEq ι] in
theorem unfinished_of_replies {α : Type} {key : Bytes} {mode : Nat} {next : Except OpenError Slot → Cmd α}
    {replied : Bool} (h : (Prog.act (.prepareFile key mode) next : Cmd α).wp replyContract
      (fun after _ => after = true) replied) (answer : Except OpenError Slot) : ¬(next answer).Finished := by
  obtain ⟨hreplied, hnext⟩ := h
  have hwp := hnext answer replied rfl
  intro hfinished
  cases hp : next answer with
  | ret value =>
      rw [hp] at hwp
      exact absurd (hreplied.symm.trans hwp) nofun
  | act action rest =>
      rw [hp] at hfinished
      exact hfinished

-- An open keeps all references of its job in its hands.
theorem Jobs.Guarded.holding_moved (h : jobs.Guarded) {key : Bytes} {mode : Nat}
    {next : Except OpenError Slot → Cmd Unit} (hprog : (jobs.threads job).prog = .act (.prepareFile key mode) next) :
    (jobs.moved job choice (.prepareFile key mode) next).holding job =
      record (prepareFile choice key mode jobs.shared).2 (jobs.threads job).ghost (.prepareFile key mode)
        (prepareFile choice key mode jobs.shared).1 := by
  obtain ⟨replied, hwp⟩ := h.replies job
  rw [hprog] at hwp
  have hself : ((jobs.moved job choice (.prepareFile key mode) next).threads job).prog =
      next (prepareFile choice key mode jobs.shared).1 := by
    simp only [Jobs.moved, Function.update_self, Pool.advance]
    rfl
  rw [Jobs.holding, hself, if_neg (unfinished_of_replies hwp _)]
  exact moved_self

theorem Jobs.Guarded.held_after (h : jobs.Guarded) {key : Bytes} {mode : Nat}
    {next : Except OpenError Slot → Cmd Unit} (hprog : (jobs.threads job).prog = .act (.prepareFile key mode) next)
    {i : ι} {pin : Pin} (hpin : pin ∈ (jobs.holding i).pins) :
    pin ∈ ((jobs.moved job choice (.prepareFile key mode) next).holding i).pins := by
  by_cases hi : i = job
  · subst hi
    rw [h.holding_moved hprog]
    rw [holding_of_act hprog] at hpin
    cases (prepareFile choice key mode jobs.shared).1 with
    | ok slot => exact List.mem_cons_of_mem _ hpin
    | error error => cases error <;> exact hpin
  · rwa [holding_other hi]

-- What breaks when a step does not meet the condition.
theorem Jobs.Guarded.break (h : jobs.Guarded) {turn : Turn ι} (hbad : ¬jobs.Guards turn) : ¬(jobs.next turn).Safe := by
  rintro ⟨hsafe, _⟩
  cases turn with
  | sigterm fails =>
      obtain ⟨hshared, hthreads⟩ := @next_sigterm ι _ jobs fails
      simp only [Jobs.Guards, not_forall, not_not] at hbad
      obtain ⟨i, pin, hpin, hlive⟩ := hbad
      have hholding : (jobs.next (.sigterm fails)).holding i = jobs.holding i := by
        rw [Jobs.holding, Jobs.holding, hthreads]
      have hafter := hsafe i pin (by rwa [hholding])
      have hbacked := h.backed i pin hpin
      have hopened := hafter.opened
      cases hfd : pin.fd with
      | none =>
          rw [hfd] at hopened
          cases hopened
      | some n =>
          rw [hfd, Option.bind_some, hshared, closeFiles_paths] at hopened
          exact hopened.2 pin.slot hlive (hbacked.fd.trans hfd)
  | act job choice =>
      cases hprog : (jobs.threads job).prog with
      | ret value => simp [Jobs.Guards, hprog] at hbad
      | act action next =>
          rw [next_moved hprog] at hsafe
          cases action with
          | prepareFile key mode =>
              have hgranted := prepareHashed_granted choice (xxh64 key 0) (h.allowed hprog) jobs.shared
              simp only [Jobs.Guards, hprog] at hbad
              rcases not_and_or.mp hbad with hhit | hfill
              · obtain ⟨slot, hslot⟩ := not_forall.mp hhit
                obtain ⟨hlookup, hclosed⟩ := Classical.not_imp.mp hslot
                obtain ⟨ha, hbroken⟩ := granted_closed hgranted hlookup hclosed
                refine hbroken (hsafe job _ ?_)
                rw [h.holding_moved hprog, show (prepareFile choice key mode jobs.shared).1 = .ok slot from ha]
                exact List.mem_cons_self
              · obtain ⟨hreopens, hheld⟩ := Classical.not_imp.mp hfill
                obtain ⟨i, pin, hpin, hslot⟩ := held_of_pinned hheld
                have hmid := h.apart.vacated (getAvalibleSlot_vacated choice jobs.shared)
                refine granted_refilled hgranted hreopens (h.backed_mid hpin choice) hmid hslot ?_
                exact hsafe i pin (h.held_after hprog hpin)
          | releaseDesc dt => simp [Jobs.Guards, hprog] at hbad
          | descLength dt => simp [Jobs.Guards, hprog] at hbad
          | readFrom dt size offset => simp [Jobs.Guards, hprog] at hbad
          | writeTo dt buf offset => simp [Jobs.Guards, hprog] at hbad
          | posixMemalign => simp [Jobs.Guards, hprog] at hbad
          | reply text len => simp [Jobs.Guards, hprog] at hbad

omit [DecidableEq ι] in
theorem guarded_start (disk : UInt64 → Option Bytes) (lines : ι → Bytes) : (Jobs.start disk lines).Guarded := by
  have hnone : ∀ i, ((Jobs.start disk lines).holding i).pins = [] := by
    intro i
    unfold Jobs.holding
    split <;> rfl
  refine ⟨(even_start disk lines).verified, fun i => line_replies (lines i), ?_, ?_, ?_⟩
  · intro i pin hpin
    rw [hnone i] at hpin
    cases hpin
  · intro slot
    have hzero : (Jobs.start disk lines).pinned slot = 0 := by
      refine Finset.sum_eq_zero fun i _ => ?_
      rw [Holding.count, hnone i]
      rfl
    rw [hzero]
    exact Int.le_refl 0
  · refine ⟨fun slot other n h => ?_, fun slot n h => ?_⟩
    · cases h
    · cases h

-- The references of all unfinished jobs are good in every state of a run,
-- exactly if every step of the run meets the condition.
theorem pins_safe_iff (disk : UInt64 → Option Bytes) (lines : ι → Bytes) (turns : List (Turn ι)) :
    AllStates Jobs.next Jobs.Safe (Jobs.start disk lines) turns ↔
      AllSteps Jobs.next Jobs.Guards (Jobs.start disk lines) turns := by
  apply allStates_iff_allSteps Jobs.next Jobs.Guarded
  · exact fun _ h => h.safe
  · exact fun _ _ h _ hguards => h.step hguards
  · exact fun _ _ h _ hbad => h.break hbad
  · exact guarded_start disk lines
  · exact AllSteps.trivial Jobs.next _ turns

deriving instance DecidableEq for Pin

-- SIGTERM with one GETBIT in flight: the job goes on with a closed FILE object.
theorem sigterm_closes_held :
    let disk : UInt64 → Option Bytes := fun hash => if hash = xxh64 (str "k") 0 then some [1] else none
    let jobs := run Jobs.next (Jobs.start disk fun _ : Unit => str "GETBIT k 0") [.act () {}]
    let turn : Turn Unit := .sigterm fun _ => false
    (jobs.holding ()).pins = [⟨0, xxh64 (str "k") 0, some 0, 1⟩] ∧ (jobs.next turn).threads = jobs.threads ∧
      (jobs.next turn).shared.fs.paths 0 = none ∧ ¬(jobs.next turn).Safe := by
  intro disk jobs turn
  have hpins : (jobs.holding ()).pins = [⟨0, xxh64 (str "k") 0, some 0, 1⟩] := by decide +kernel
  have hlive : jobs.shared.live 0 := by decide +kernel
  have hfd : (jobs.shared.descs 0).fd = some 0 := by decide +kernel
  clear_value jobs
  obtain ⟨hshared, hthreads⟩ := @next_sigterm Unit _ jobs fun _ => false
  have hclosed : (jobs.next turn).shared.fs.paths 0 = none := by
    rw [hshared]
    refine Option.eq_none_iff_forall_ne_some.mpr fun path hpath => ?_
    exact (closeFiles_paths (fun _ => false) jobs.shared |>.mp hpath).2 0 hlive hfd
  refine ⟨hpins, hthreads, hclosed, fun hsafe => ?_⟩
  have hholding : (jobs.next turn).holding () = jobs.holding () := by
    rw [Jobs.holding, Jobs.holding, hthreads]
  have hbacked := hsafe.1 () ⟨0, xxh64 (str "k") 0, some 0, 1⟩ (by rw [hholding, hpins]; exact List.mem_singleton_self _)
  have hopened := hbacked.opened
  rw [Option.bind_some, hclosed] at hopened
  cases hopened

end Guard

end Solidbits
