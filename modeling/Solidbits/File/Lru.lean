import Solidbits.File.Index

namespace Solidbits

open Transition

section Defs

-- A call of prepare_file or release_desc.
inductive TableCall where
  | prepare (call : Call)
  | release (dt : Slot)

-- The table, and the latest reading of the clock.
structure Clocked where
  store : Store
  now : Nat := 0

def Clocked.next (state : Clocked) : TableCall → Clocked
  | .prepare call => ⟨state.store.prepare call, call.choice.stampUs⟩
  | .release dt => ⟨releaseDesc dt state.store, state.now⟩

-- The clock goes on with every reading. A call that takes only one of its two
-- readings has them equal.
def Ticks (state : Clocked) : TableCall → Prop
  | .prepare call => state.now < call.choice.scanUs ∧ call.choice.scanUs ≤ call.choice.stampUs
  | .release _ => True

-- A free slot and no eviction, or else the least recently used descriptor
-- without references, or nothing when every descriptor is referenced.
structure ChoosesLru (choice : Choice) (st : Store) : Prop where
  free : (∃ slot, ¬st.live slot) →
    ∃ slot, ¬st.live slot ∧ getAvalibleSlot choice st = (some slot, { st with idx := slot })
  full : (∀ slot, st.live slot) →
    (∃ victim, (st.descs victim).refs = 0 ∧
      (∀ slot, (st.descs slot).refs = 0 → (st.descs victim).lastAccess ≤ (st.descs slot).lastAccess) ∧
      getAvalibleSlot choice st = (some victim, evict choice.flushFails { st with idx := 0 } victim)) ∨
    (∀ slot, 0 < (st.descs slot).refs) ∧ getAvalibleSlot choice st = (none, { st with idx := 0 })

-- The cursor has not passed the descriptor to evict.
def OldestAhead (st : Store) : Prop :=
  (∃ slot, ¬st.live slot) ∨ (∀ slot, 0 < (st.descs slot).refs) ∨
    ∃ oldest, st.idx ≤ oldest ∧ (st.descs oldest).refs = 0 ∧
      ∀ slot, (st.descs slot).refs = 0 → (st.descs oldest).lastAccess ≤ (st.descs slot).lastAccess

end Defs

section Marks

variable {choice : Choice} {st mid : Store} {now : Nat}

-- What the cursor and the clock are compared with.
def Desc.marks (desc : Desc) : UInt64 × Nat := (desc.hash, desc.lastAccess)

-- The slots that the cursor has passed are taken, and no access lies in the
-- future.
structure Store.Dated (st : Store) (now : Nat) : Prop where
  below : ∀ slot, slot < st.idx → (st.parts Desc.marks slot).1 ≠ 0
  past : ∀ slot, (st.parts Desc.marks slot).2 ≤ now

theorem parts_openPath {α : Type} {part : Desc → α} (h : Fileless part) (choice : Choice) (hash : UInt64) (mode : Nat)
    (st : Store) : (openPath choice hash mode st).2.parts part = st.parts part ∧
      (openPath choice hash mode st).2.idx = st.idx ∧
      ∀ new, (openPath choice hash mode st).1 = .ok new → new = st.idx := by
  have hfd : ∀ fd fs, (st.setFd fd fs).parts part = st.parts part := by
    intro fd fs
    exact parts_setDesc_same (h _ fd _)
  have hlength : ∀ (st : Store) length, (st.setLength length).parts part = st.parts part :=
    fun st length => parts_setDesc_same (h _ _ length)
  have hboth : ∀ fd fs length, ((st.setFd fd fs).setLength length).parts part = st.parts part :=
    fun fd fs length => (hlength _ _).trans (hfd fd fs)
  have hok : ∀ new, (Except.ok st.idx : Except OpenError Slot) = .ok new → new = st.idx :=
    fun new he => (Except.ok.inj he).symm
  unfold openPath
  split
  · exact ⟨rfl, rfl, nofun⟩
  · split
    · split
      · split
        · exact ⟨hfd _ _, rfl, nofun⟩
        · exact ⟨hboth _ _ _, rfl, hok⟩
      · split
        · split
          · exact ⟨hfd _ _, rfl, nofun⟩
          · exact ⟨hboth _ _ _, rfl, hok⟩
        · exact ⟨hlength _ _, rfl, hok⟩
    · split
      · exact ⟨rfl, rfl, nofun⟩
      · split
        · exact ⟨hfd _ _, rfl, nofun⟩
        · exact ⟨hboth _ _ _, rfl, hok⟩

-- prepare_file marks at most one descriptor, the one it finds or the one under
-- the cursor.
theorem prepare_marks (st : Store) (call : Call) : ∃ mid, (mid = st ∨ mid = (getAvalibleSlot call.choice st).2) ∧
    (st.prepare call).idx = mid.idx ∧
    ((st.prepare call).parts Desc.marks = mid.parts Desc.marks ∨
      ∃ slot hash, (slot = mid.idx ∨ hash = (mid.parts Desc.marks slot).1) ∧
        (st.prepare call).parts Desc.marks =
          Function.update (mid.parts Desc.marks) slot (hash, call.choice.stampUs)) := by
  unfold Store.prepare
  rcases prepareHashed_cases call.choice call.hash call.mode st with ⟨slot, _, he⟩ | ⟨last, depth, _, hrest⟩
  · rw [he]
    exact ⟨st, Or.inl rfl, rfl, Or.inr ⟨slot, _, Or.inr rfl, parts_setDesc _ _ _ _⟩⟩
  · refine ⟨_, Or.inr rfl, ?_⟩
    cases hslot : getAvalibleSlot call.choice st with
    | mk found mid =>
        have hopen : openFile call.choice call.hash call.mode st = (.error .failed, mid) ∨
            openFile call.choice call.hash call.mode st = openPath call.choice call.hash call.mode mid := by
          cases found with
          | none => exact Or.inl (by rw [openFile, hslot])
          | some slot => exact Or.inr (by rw [openFile, hslot])
        obtain ⟨hmarks, hidx, hnew⟩ := @parts_openPath _ Desc.marks (fun _ _ _ => rfl) call.choice call.hash call.mode mid
        rcases hrest with ⟨error, st', ho, he⟩ | ⟨new, st', ho, he⟩
        · rw [he]
          rcases hopen with hopen | hopen
          · cases ho.symm.trans hopen
            exact ⟨rfl, Or.inl rfl⟩
          · rw [← hopen, ho] at hmarks hidx
            exact ⟨hidx, Or.inl hmarks⟩
        · rw [he]
          rcases hopen with hopen | hopen
          · cases ho.symm.trans hopen
          · rw [← hopen, ho] at hmarks hidx hnew
            refine ⟨(link_idx _ _ _ _ _).trans hidx, Or.inr ⟨new, call.hash, Or.inl (hnew new rfl), ?_⟩⟩
            rw [parts_link _ (fun _ _ _ => rfl), parts_setDesc, hmarks]
            rfl

theorem Store.Dated.scanned (h : st.Dated now) (choice : Choice) : (getAvalibleSlot choice st).2.Dated now := by
  rcases getAvalibleSlot_cases choice st with ⟨slot, hs, hg⟩ | ⟨_, hg⟩ | ⟨victim, _, hg⟩
  · rw [hg]
    refine ⟨fun other hlt => ?_, h.past⟩
    by_cases hbelow : other < st.idx
    · exact h.below other hbelow
    · exact (scan_free hs).2.2 other (Nat.not_lt.mp hbelow) hlt
  · rw [hg]
    exact ⟨fun other hlt => absurd hlt (Nat.not_lt_zero _), h.past⟩
  · rw [hg]
    have hmarks : (evict choice.flushFails { st with idx := 0 } victim).parts Desc.marks =
        Function.update (st.parts Desc.marks) victim (0, 0) := by
      rw [evict, parts_setDesc]
      exact congrArg (Function.update · victim _) (parts_unlink { st with idx := 0 } (fun _ _ _ => rfl) victim)
    have hidx : (evict choice.flushFails { st with idx := 0 } victim).idx = 0 := unlink_idx { st with idx := 0 } victim
    refine ⟨fun other hlt => ?_, fun slot => ?_⟩
    · rw [hidx] at hlt
      exact absurd hlt (Nat.not_lt_zero _)
    · rw [hmarks]
      by_cases hv : slot = victim
      · subst hv
        rw [Function.update_self]
        exact Nat.zero_le now
      · rw [Function.update_of_ne hv]
        exact h.past slot

theorem Store.Dated.prepare (h : st.Dated now) {call : Call} (hscan : now < call.choice.scanUs)
    (hstamp : call.choice.scanUs ≤ call.choice.stampUs) : (st.prepare call).Dated call.choice.stampUs := by
  obtain ⟨mid, hmid, hidx, hmarks⟩ := prepare_marks st call
  have hdated : mid.Dated now := by
    rcases hmid with rfl | rfl
    · exact h
    · exact h.scanned call.choice
  have hpast : ∀ slot, (mid.parts Desc.marks slot).2 ≤ call.choice.stampUs := by
    intro slot
    have := hdated.past slot
    omega
  rcases hmarks with hmarks | ⟨slot, hash, hplace, hmarks⟩
  · exact ⟨by rw [hidx, hmarks]; exact hdated.below, by rw [hmarks]; exact hpast⟩
  · constructor
    · intro other hlt
      rw [hidx] at hlt
      rw [hmarks]
      by_cases hs : other = slot
      · subst hs
        rw [Function.update_self]
        rcases hplace with rfl | rfl
        · exact absurd hlt (lt_irrefl _)
        · exact hdated.below other hlt
      · rw [Function.update_of_ne hs]
        exact hdated.below other hlt
    · intro other
      rw [hmarks]
      by_cases hs : other = slot
      · rw [hs, Function.update_self]
      · rw [Function.update_of_ne hs]
        exact hpast other

theorem Store.Dated.release (h : st.Dated now) (dt : Slot) : (releaseDesc dt st).Dated now := by
  have hmarks : (releaseDesc dt st).parts Desc.marks = st.parts Desc.marks := parts_setDesc_same rfl
  exact ⟨by rw [hmarks]; exact h.below, by rw [hmarks]; exact h.past⟩

end Marks

section Choosing

variable {choice : Choice} {st : Store} {now : Nat}

-- A table with a free slot has one that the cursor has not passed.
theorem Store.Dated.chooses_iff (h : st.Dated now) (hlate : now < choice.scanUs) :
    ChoosesLru choice st ↔ OldestAhead st := by
  have hfuel : DESC_TABLE_SIZE ≤ st.idx + (DESC_TABLE_SIZE - st.idx) := by omega
  have hfull : ∀ {lowest}, scan st.descs (DESC_TABLE_SIZE - st.idx) st.idx choice.scanUs none = .full lowest →
      ∀ slot, st.live slot := by
    intro lowest hs slot
    by_cases hbelow : slot < st.idx
    · exact h.below slot hbelow
    · exact scan_full_live hfuel hs slot (Nat.not_lt.mp hbelow)
  rcases getAvalibleSlot_cases choice st with ⟨free, hs, hg⟩ | ⟨hs, hg⟩ | ⟨victim, hs, hg⟩
  · have hfree : ¬st.live free := not_not.mpr (scan_free hs).1
    refine iff_of_true ⟨fun _ => ⟨free, hfree, hg⟩, fun hall => absurd (hall free) hfree⟩ (Or.inl ⟨free, hfree⟩)
  · have hlive := hfull hs
    have hused : ∀ slot, st.idx ≤ slot → (st.descs slot).refs ≠ 0 := by
      intro slot hslot hrefs
      have hpast : (st.descs slot).lastAccess ≤ now := h.past slot
      exact ((scan_full_none hfuel hs).2 slot hslot).2 ⟨hrefs, by omega⟩
    constructor
    · intro hchoose
      rcases hchoose.full hlive with ⟨other, _, _, ho⟩ | ⟨hall, _⟩
      · cases hg.symm.trans ho
      · exact Or.inr (Or.inl hall)
    · rintro (⟨slot, hfree⟩ | hall | ⟨oldest, hahead, hrefs, _⟩)
      · exact absurd (hlive slot) hfree
      · exact ⟨fun ⟨slot, hfree⟩ => absurd (hlive slot) hfree, fun _ => Or.inr ⟨hall, hg⟩⟩
      · exact absurd hrefs (hused oldest hahead)
  · have hlive := hfull hs
    have hnone : ∀ slot : Slot, none = some slot → st.idx ≤ slot ∧ (st.descs slot).lastAccess = choice.scanUs :=
      fun slot he => by cases he
    have hrefs := (scan_full (fun _ he => by cases he) hs).1
    obtain ⟨hahead, _, hleast⟩ := scan_full_least hfuel (Nat.le_refl _) hnone hs
    constructor
    · intro hchoose
      rcases hchoose.full hlive with ⟨other, hother, holdest, ho⟩ | ⟨hall, ho⟩
      · cases hg.symm.trans ho
        exact Or.inr (Or.inr ⟨victim, hahead, hrefs, holdest⟩)
      · cases hg.symm.trans ho
    · rintro (⟨slot, hfree⟩ | hall | ⟨oldest, holder, horefs, holdest⟩)
      · exact absurd (hlive slot) hfree
      · have hpos := hall victim
        omega
      · refine ⟨fun ⟨slot, hfree⟩ => absurd (hlive slot) hfree, fun _ => Or.inl ⟨victim, hrefs, ?_, hg⟩⟩
        intro slot hslot
        exact Nat.le_trans (hleast oldest holder horefs) (holdest slot hslot)

theorem dated_run (disk : UInt64 → Option Bytes) (calls : List TableCall)
    (hticks : AllSteps Clocked.next Ticks ⟨initFile disk, 0⟩ calls) :
    (run Clocked.next ⟨initFile disk, 0⟩ calls).store.Dated (run Clocked.next ⟨initFile disk, 0⟩ calls).now := by
  have hstart : (initFile disk).Dated 0 := ⟨fun _ hlt => absurd hlt (Nat.not_lt_zero _), fun _ => Nat.le_refl 0⟩
  apply run_invariant Clocked.next (fun state => state.store.Dated state.now) _ hstart hticks
  intro state call h htick
  cases call with
  | prepare call => exact h.prepare htick.1 htick.2
  | release dt => exact h.release dt

-- In every state that calls of prepare_file and release_desc lead to, the slot
-- is chosen as it should be at any later time, exactly if the cursor has not
-- passed the descriptor to evict.
theorem lru_choice_iff (disk : UInt64 → Option Bytes) (calls : List TableCall)
    (hticks : AllSteps Clocked.next Ticks ⟨initFile disk, 0⟩ calls) :
    (∀ choice, (run Clocked.next ⟨initFile disk, 0⟩ calls).now < choice.scanUs →
      ChoosesLru choice (run Clocked.next ⟨initFile disk, 0⟩ calls).store) ↔
    OldestAhead (run Clocked.next ⟨initFile disk, 0⟩ calls).store := by
  have hdated := dated_run disk calls hticks
  generalize run Clocked.next ⟨initFile disk, 0⟩ calls = state at hdated ⊢
  constructor
  · intro h
    have hlate : state.now < ({ scanUs := state.now + 1 } : Choice).scanUs := Nat.lt_succ_self _
    exact (hdated.chooses_iff hlate).mp (h _ hlate)
  · exact fun h choice hlate => (hdated.chooses_iff hlate).mpr h

end Choosing

section Filling

variable {st : Store} {k : Nat} {choice : Choice}

-- The first k slots hold referenced descriptors of the hashes 1 to k, with the
-- cursor on the last of them.
structure Filled (st : Store) (k : Nat) : Prop where
  taken : ∀ slot : Slot, slot < k → (st.descs slot).hash ≠ 0 ∧ (st.descs slot).refs = 1
  spare : ∀ slot : Slot, k ≤ slot → (st.descs slot).hash = 0
  cursor : st.idx.val = k - 1
  heads : ∀ bucket : Bucket, k < bucket → st.xxtable bucket = none

theorem Filled.scanned (h : Filled st k) (hk : k < DESC_TABLE_SIZE) :
    getAvalibleSlot choice st = (some ⟨k, hk⟩, { st with idx := ⟨k, hk⟩ }) := by
  have hfuel : DESC_TABLE_SIZE ≤ st.idx + (DESC_TABLE_SIZE - st.idx) := by omega
  have hcursor := h.cursor
  have hbehind : (st.idx : Nat) ≤ (⟨k, hk⟩ : Slot) := by
    show st.idx.val ≤ k
    omega
  have hfree := h.spare ⟨k, hk⟩ (Nat.le_refl k)
  rcases getAvalibleSlot_cases choice st with ⟨slot, hs, hg⟩ | ⟨hs, _⟩ | ⟨victim, hs, _⟩
  · obtain ⟨hslot, hle, hbefore⟩ := scan_free hs
    obtain rfl : slot = ⟨k, hk⟩ := by
      refine Fin.ext (Nat.le_antisymm (Nat.not_lt.mp fun hlt => ?_) (Nat.not_lt.mp fun hlt => ?_))
      · exact hbefore ⟨k, hk⟩ hbehind hlt hfree
      · exact (h.taken slot hlt).1 hslot
    exact hg
  · exact absurd hfree (scan_full_live hfuel hs _ hbehind)
  · exact absurd hfree (scan_full_live hfuel hs _ hbehind)

theorem Filled.prepare (h : Filled st k) (hk : k < DESC_TABLE_SIZE) (hpath : choice.pathFails = false)
    (hfopen : choice.fopenFails = false) : Filled (st.prepare ⟨choice, UInt64.ofNat (k + 1), 0⟩) (k + 1) := by
  have hsize : k < 8192 := hk
  have hbucket : (bucketOf (UInt64.ofNat (k + 1))).val = k + 1 := by
    show (UInt64.ofNat (k + 1)).toNat % 65537 = k + 1
    rw [UInt64.toNat_ofNat', Nat.mod_eq_of_lt (by omega), Nat.mod_eq_of_lt (by omega)]
  have hhash : UInt64.ofNat (k + 1) ≠ 0 := by
    intro hzero
    have htoNat := congrArg UInt64.toNat hzero
    rw [UInt64.toNat_ofNat', Nat.mod_eq_of_lt (by omega)] at htoNat
    exact absurd htoNat (Nat.succ_ne_zero k)
  have hlookup : lookup st (UInt64.ofNat (k + 1)) = .absent none 0 := by
    rw [lookup, h.heads _ (by rw [hbucket]; exact Nat.lt_succ_self k)]
  obtain ⟨fd, length, fs, _, hopened⟩ :=
    openPath_succeeds hpath hfopen (UInt64.ofNat (k + 1)) { st with idx := ⟨k, hk⟩ }
  have hopen : openFile choice (UInt64.ofNat (k + 1)) 0 st =
      (.ok ⟨k, hk⟩, { st with idx := ⟨k, hk⟩ }.place fd length fs) := by
    rw [openFile, h.scanned hk]
    exact hopened
  have hnew : st.prepare ⟨choice, UInt64.ofNat (k + 1), 0⟩ =
      (({ st with idx := ⟨k, hk⟩ }.place fd length fs).setDesc ⟨k, hk⟩ (stamp choice (UInt64.ofNat (k + 1))
        (({ st with idx := ⟨k, hk⟩ }.place fd length fs).descs ⟨k, hk⟩))).setHead
          (bucketOf (UInt64.ofNat (k + 1))) (some ⟨k, hk⟩) := by
    simp only [Store.prepare, prepareHashed, hlookup, hopen]
    rfl
  have hself : (st.prepare ⟨choice, UInt64.ofNat (k + 1), 0⟩).descs ⟨k, hk⟩ = stamp choice (UInt64.ofNat (k + 1))
      (({ st with idx := ⟨k, hk⟩ }.place fd length fs).descs ⟨k, hk⟩) := by
    rw [hnew]
    exact setDesc_self _ _ _
  have hothers : ∀ slot : Slot, slot.val ≠ k → (st.prepare ⟨choice, UInt64.ofNat (k + 1), 0⟩).descs slot = st.descs slot := by
    intro slot hs
    have hne : slot ≠ ⟨k, hk⟩ := fun he => hs (congrArg Fin.val he)
    rw [hnew]
    exact (setDesc_of_ne _ _ hne).trans (place_of_ne _ _ _ _ hne)
  constructor
  · intro slot hlt
    by_cases hs : slot.val = k
    · obtain rfl : slot = ⟨k, hk⟩ := Fin.ext hs
      rw [hself]
      exact ⟨hhash, rfl⟩
    · rw [hothers slot hs]
      exact h.taken slot (by omega)
  · intro slot hle
    rw [hothers slot (by omega)]
    exact h.spare slot (by omega)
  · rw [hnew]
    rfl
  · intro bucket hlt
    rw [hnew]
    show Function.update st.xxtable _ _ bucket = none
    rw [Function.update_of_ne]
    · exact h.heads bucket (by omega)
    · rintro rfl
      omega

-- The keys of the hashes 1 to k, one after the other.
def keysInOrder : Nat → List TableCall
  | 0 => []
  | k + 1 => keysInOrder k ++ [.prepare ⟨{ scanUs := 2 * k + 1, stampUs := 2 * k + 2 }, UInt64.ofNat (k + 1), 0⟩]

theorem keysInOrder_filled (disk : UInt64 → Option Bytes) (hk : k ≤ DESC_TABLE_SIZE) :
    AllSteps Clocked.next Ticks ⟨initFile disk, 0⟩ (keysInOrder k) ∧
      Filled (run Clocked.next ⟨initFile disk, 0⟩ (keysInOrder k)).store k ∧
      (run Clocked.next ⟨initFile disk, 0⟩ (keysInOrder k)).now = 2 * k := by
  induction k with
  | zero => exact ⟨trivial, ⟨fun _ hlt => absurd hlt (Nat.not_lt_zero _), fun _ _ => rfl, rfl, fun _ _ => rfl⟩, rfl⟩
  | succ k ih =>
      obtain ⟨hticks, hfilled, hnow⟩ := ih (Nat.le_of_succ_le hk)
      rw [keysInOrder, allSteps_append, run_append]
      refine ⟨⟨hticks, ⟨?_, ?_⟩, trivial⟩, hfilled.prepare hk rfl rfl, rfl⟩
      · show _ < 2 * k + 1
        rw [hnow]
        exact Nat.lt_succ_self _
      · exact Nat.le_succ _

-- A full table of which one slot is released.
theorem Filled.released (h : Filled st DESC_TABLE_SIZE) (freed : Slot) :
    (∀ slot, (releaseDesc freed st).live slot) ∧
      ∀ slot, ((releaseDesc freed st).descs slot).refs = if slot = freed then 0 else 1 := by
  have hself : ((releaseDesc freed st).descs freed) = { st.descs freed with refs := (st.descs freed).refs - 1 } :=
    setDesc_self _ _ _
  have hothers : ∀ slot : Slot, slot ≠ freed → (releaseDesc freed st).descs slot = st.descs slot :=
    fun slot hs => setDesc_of_ne _ _ hs
  constructor
  · intro slot
    have hlive := (h.taken slot slot.isLt).1
    by_cases hs : slot = freed
    · rw [Store.live, hs, hself]
      exact hs ▸ hlive
    · rwa [Store.live, hothers slot hs]
  · intro slot
    by_cases hs : slot = freed
    · rw [hs, hself, if_pos rfl]
      show (st.descs freed).refs - 1 = 0
      rw [(h.taken freed freed.isLt).2]
      rfl
    · rw [hothers slot hs, if_neg hs, (h.taken slot slot.isLt).2]

theorem Filled.oldest_passed (h : Filled st DESC_TABLE_SIZE) : ¬OldestAhead (releaseDesc 0 st) := by
  obtain ⟨hlive, hrefs⟩ := h.released 0
  rintro (⟨slot, hfree⟩ | hpinned | ⟨oldest, hahead, hzero, _⟩)
  · exact hfree (hlive slot)
  · have hpos := hpinned 0
    rw [hrefs, if_pos rfl] at hpos
    exact absurd hpos (Int.lt_irrefl 0)
  · have hcursor : st.idx.val = 8191 := h.cursor
    have hlast : st.idx.val ≤ oldest.val := hahead
    have hs : oldest ≠ 0 := by
      rintro rfl
      have hbehind : st.idx.val ≤ 0 := hlast
      omega
    rw [hrefs, if_neg hs] at hzero
    cases hzero

theorem Filled.oldest_at_cursor (h : Filled st DESC_TABLE_SIZE) {freed : Slot} (hfreed : st.idx ≤ freed) :
    OldestAhead (releaseDesc freed st) := by
  obtain ⟨_, hrefs⟩ := h.released freed
  have honly : ∀ slot, ((releaseDesc freed st).descs slot).refs = 0 → slot = freed := by
    intro slot hzero
    by_contra hs
    rw [hrefs, if_neg hs] at hzero
    cases hzero
  refine Or.inr (Or.inr ⟨freed, hfreed, by rw [hrefs, if_pos rfl], fun slot hzero => ?_⟩)
  rw [honly slot hzero]

theorem released_not_found (disk : UInt64 → Option Bytes) (hk : k = DESC_TABLE_SIZE) :
    AllSteps Clocked.next Ticks ⟨initFile disk, 0⟩ (keysInOrder k ++ [.release 0]) ∧
    ¬∀ choice, (run Clocked.next ⟨initFile disk, 0⟩ (keysInOrder k ++ [.release 0])).now < choice.scanUs →
      ChoosesLru choice (run Clocked.next ⟨initFile disk, 0⟩ (keysInOrder k ++ [.release 0])).store := by
  obtain ⟨hticks, hfilled, _⟩ := @keysInOrder_filled k disk (Nat.le_of_eq hk)
  have hall : AllSteps Clocked.next Ticks ⟨initFile disk, 0⟩ (keysInOrder k ++ [.release 0]) := by
    rw [allSteps_append]
    exact ⟨hticks, trivial, trivial⟩
  have hdated := dated_run disk _ hall
  refine ⟨hall, fun hchooses => ?_⟩
  rw [run_append] at hdated hchooses
  generalize run Clocked.next ⟨initFile disk, 0⟩ (keysInOrder k) = state at hfilled hdated hchooses
  have hlate : (run Clocked.next state [.release 0]).now < ({ scanUs := state.now + 1 } : Choice).scanUs :=
    Nat.lt_succ_self _
  rw [hk] at hfilled
  exact hfilled.oldest_passed ((hdated.chooses_iff hlate).mp (hchooses _ hlate))

theorem released_last (disk : UInt64 → Option Bytes) (hk : k = DESC_TABLE_SIZE) {freed : Slot}
    (hfreed : freed.val + 1 = k) :
    AllSteps Clocked.next Ticks ⟨initFile disk, 0⟩ (keysInOrder k ++ [.release freed]) ∧
      let s := run Clocked.next ⟨initFile disk, 0⟩ (keysInOrder k ++ [.release freed])
      s.now = 2 * k ∧ (∀ slot, s.store.live slot) ∧ OldestAhead s.store := by
  obtain ⟨hticks, hfilled, hnow⟩ := @keysInOrder_filled k disk (Nat.le_of_eq hk)
  rw [allSteps_append, run_append]
  generalize run Clocked.next ⟨initFile disk, 0⟩ (keysInOrder k) = state at hfilled hnow
  have hcursor := hfilled.cursor
  rw [hk] at hfilled
  refine ⟨⟨hticks, trivial, trivial⟩, hnow, (hfilled.released freed).1, hfilled.oldest_at_cursor ?_⟩
  show state.store.idx.val ≤ freed.val
  omega

-- With 8192 keys in use the cursor stands on the last slot. When that one is
-- released, it is the one to evict.
theorem released_last_slot_chosen :
    let s := run Clocked.next ⟨initFile fun _ => none, 0⟩ (keysInOrder DESC_TABLE_SIZE ++ [.release 8191])
    (∀ slot, s.store.live slot) ∧ ChoosesLru { scanUs := 20000 } s.store := by
  generalize hfreed : (8191 : Slot) = freed
  generalize hk : DESC_TABLE_SIZE = k
  have hlast : freed.val + 1 = k := by rw [← hfreed, ← hk]; decide
  obtain ⟨hticks, hnow, hlive, hahead⟩ := released_last (fun _ => none) hk.symm hlast
  refine ⟨hlive, (lru_choice_iff _ _ hticks).mpr hahead _ ?_⟩
  rw [hnow, ← hk]
  decide

-- When the first one is released, its slot is not found.
theorem released_first_slot_not_found :
    AllSteps Clocked.next Ticks ⟨initFile fun _ => none, 0⟩ (keysInOrder DESC_TABLE_SIZE ++ [.release 0]) ∧
    ¬∀ choice : Choice,
      (run Clocked.next ⟨initFile fun _ => none, 0⟩ (keysInOrder DESC_TABLE_SIZE ++ [.release 0])).now < choice.scanUs →
      ChoosesLru choice
        (run Clocked.next ⟨initFile fun _ => none, 0⟩ (keysInOrder DESC_TABLE_SIZE ++ [.release 0])).store :=
  released_not_found _ rfl

end Filling

end Solidbits
