import Solidbits.Jobs.Discipline
import Solidbits.Jobs.Table
import Mathlib.Algebra.Order.BigOperators.Group.Finset

namespace Solidbits

open Prog Transition

section Refs

variable {choice : Choice} {st st' : Store} {hash : UInt64} {mode : Nat} {slot : Slot}

-- The reference counts are a part of the core.
theorem refsOf_core (h : st'.core = st.core) : st'.refsOf = st.refsOf :=
  funext fun slot => congrArg (·.2.2) (congrFun h slot)

theorem refsOf_update {core : UInt64 × FilePtr × Int} (h : st'.core = Function.update st.core slot core) :
    st'.refsOf = Function.update st.refsOf slot core.2.2 := by
  funext other
  have hcore := congrArg (·.2.2) (congrFun h other)
  by_cases he : other = slot
  · subst he
    rw [Function.update_self] at hcore ⊢
    exact hcore
  · rw [Function.update_of_ne he] at hcore ⊢
    exact hcore

-- Only a descriptor without references is given up.
theorem Vacated.refs (h : Vacated st st') : st'.refsOf = st.refsOf := by
  cases h with
  | same hcore _ => exact refsOf_core hcore
  | evicted victim hrefs hcore _ =>
      have hzero : (0 : Int) = st.refsOf victim := hrefs.symm
      rw [refsOf_update hcore, hzero, Function.update_eq_self]

theorem vacated_refs (choice : Choice) (st : Store) : (getAvalibleSlot choice st).2.refsOf = st.refsOf :=
  (getAvalibleSlot_vacated choice st).refs

theorem refused_refs {mid : Store} {error : OpenError} (h : Granted choice st mid hash mode (.error error) st')
    (hmid : mid.refsOf = st.refsOf) : st'.refsOf = st.refsOf := by
  rw [← hmid]
  cases h with
  | refused _ _ hrefused hmiss hcore hfs => exact refsOf_core hcore
  | failed _ hreopens hcore hfs =>
      rw [refsOf_update hcore]
      exact Function.update_eq_self _ _

theorem readFrom_core (choice : Choice) (slot : Slot) (size : Nat) (offset : Int) (st : Store) :
    (readFrom choice slot size offset st).2.core = st.core := by
  simp only [readFrom]
  split <;> rfl

theorem writeTo_core (choice : Choice) (slot : Slot) (buf : Bytes) (offset : Int) (st : Store) :
    (writeTo choice slot buf offset st).2.core = st.core := by
  simp only [writeTo]
  split
  · rfl
  · split
    · rfl
    · split
      · exact core_setDesc_same _ _ rfl
      · rfl

theorem releaseDesc_refs (slot : Slot) (st : Store) :
    (releaseDesc slot st).refsOf = Function.update st.refsOf slot (st.refsOf slot - 1) :=
  refsOf_setDesc st slot _

end Refs

section Owned

variable {ι : Type} [Fintype ι]

-- The references that are still in the job's arrays. Those to the sources are
-- gone once prepare_files has failed.
def Holding.owned (held : Holding) (slot : Slot) : Nat :=
  held.pins.countP fun pin => pin.slot = slot ∧ (held.dropped = false ∨ pin.mode ≠ 1)

def Jobs.owned (jobs : Jobs ι) (slot : Slot) : Nat := Finset.univ.sum fun i => (jobs.holding i).owned slot

-- The references ever taken and not given back.
def Jobs.taken (jobs : Jobs ι) (slot : Slot) : Nat := Finset.univ.sum fun i => (jobs.threads i).ghost.count slot

-- The counts are right, so none is negative, and all are zero when no request
-- is in progress.
def Jobs.Balances (jobs : Jobs ι) : Prop :=
  ∀ slot, (jobs.shared.descs slot).refs = jobs.owned slot ∧ 0 ≤ (jobs.shared.descs slot).refs ∧
    ((∀ i, (jobs.threads i).prog.Finished) → (jobs.shared.descs slot).refs = 0)

-- An open that fails finds no other source of its BITOP opened, and one that
-- creates a descriptor fills no slot that is referenced.
def Jobs.Keeps (jobs : Jobs ι) : Turn ι → Prop
  | .sigterm _ => True
  | .act job choice =>
      match (jobs.threads job).prog with
      | .act (.prepareFile key mode) _ =>
          match (prepareFile choice key mode jobs.shared).1 with
          | .ok slot => lookup jobs.shared (xxh64 key 0) = .found slot ∨ jobs.owned slot = 0
          | .error .missing => True
          | .error .failed => (jobs.holding job).sources = false
      | _ => True

theorem owned_kept {held : Holding} (h : held.dropped = false) (slot : Slot) :
    held.owned slot = held.count slot := by
  simp [Holding.owned, Holding.count, h]

theorem owned_dropped {held : Holding} (h : held.dropped = true) {pin : Pin} (hm : pin ∈ held.pins)
    (hmode : pin.mode = 1) : held.owned pin.slot < held.count pin.slot := by
  have hsplit := List.countP_eq_countP_filter_add held.pins (fun other => decide (other.slot = pin.slot))
    fun other => decide (other.mode ≠ 1)
  have howned : held.owned pin.slot = (held.pins.filter fun other => decide (other.mode ≠ 1)).countP
      fun other => decide (other.slot = pin.slot) := by
    rw [List.countP_filter, Holding.owned]
    simp [h]
  have hlost : 0 < (held.pins.filter fun other => !decide (other.mode ≠ 1)).countP
      fun other => decide (other.slot = pin.slot) :=
    List.countP_pos_iff.mpr ⟨pin, List.mem_filter.mpr ⟨hm, by simpa using hmode⟩, by simp⟩
  rw [Holding.count, howned]
  omega

-- Between two steps of a run in which nothing was lost so far.
structure Jobs.Even (jobs : Jobs ι) : Prop where
  verified : jobs.Verified pinContract fun after _ => after.Returned
  kept : ∀ i, (jobs.threads i).ghost.dropped = false
  refs : ∀ slot, jobs.shared.refsOf slot = jobs.taken slot

theorem owned_eq_taken {jobs : Jobs ι} (hverified : jobs.Verified pinContract fun after _ => after.Returned)
    (hkept : ∀ i, (jobs.threads i).ghost.dropped = false) : jobs.owned = jobs.taken := by
  funext slot
  refine Finset.sum_congr rfl fun i _ => ?_
  unfold Jobs.holding
  split
  · rename_i hfinished
    cases hprog : (jobs.threads i).prog with
    | ret value =>
        have hreturned := hverified i
        rw [hprog] at hreturned
        exact (hreturned (hkept i) slot).symm
    | act action next =>
        rw [hprog] at hfinished
        exact hfinished.elim
  · exact owned_kept (hkept i) slot

theorem owned_idle {jobs : Jobs ι} (h : ∀ i, (jobs.threads i).prog.Finished) (slot : Slot) :
    jobs.owned slot = 0 := by
  refine Finset.sum_eq_zero fun i _ => ?_
  rw [Jobs.holding, if_pos (h i)]
  rfl

theorem Jobs.Even.balances {jobs : Jobs ι} (h : jobs.Even) : jobs.Balances := by
  intro slot
  have hrefs : (jobs.shared.descs slot).refs = jobs.owned slot := by
    rw [owned_eq_taken h.verified h.kept]
    exact h.refs slot
  refine ⟨hrefs, by omega, fun hidle => ?_⟩
  rw [hrefs, owned_idle hidle]
  rfl

-- When one thread moves, only its share of a sum changes.
theorem sum_moved [DecidableEq ι] {f g : ι → Nat} {i : ι} (h : ∀ j, j ≠ i → g j = f j) :
    Finset.univ.sum g + f i = Finset.univ.sum f + g i := by
  have hrest : (Finset.univ.erase i).sum g = (Finset.univ.erase i).sum f :=
    Finset.sum_congr rfl fun j hj => h j (Finset.ne_of_mem_erase hj)
  have hf : f i + (Finset.univ.erase i).sum f = Finset.univ.sum f :=
    Finset.add_sum_erase Finset.univ f (Finset.mem_univ i)
  have hg : g i + (Finset.univ.erase i).sum g = Finset.univ.sum g :=
    Finset.add_sum_erase Finset.univ g (Finset.mem_univ i)
  omega

end Owned

section Moves

variable {ι : Type} [DecidableEq ι] [Fintype ι] {jobs : Jobs ι} {job : ι} {choice : Choice} {action : Act}
  {next : Res action → Cmd Unit}

theorem taken_moved (slot : Slot) :
    (jobs.moved job choice action next).taken slot + (jobs.threads job).ghost.count slot =
      jobs.taken slot + (record (execAct choice action jobs.shared).2 (jobs.threads job).ghost action
        (execAct choice action jobs.shared).1).count slot := by
  rw [← @moved_self ι _ jobs job choice action next]
  refine @sum_moved ι _ _ (fun i => (jobs.threads i).ghost.count slot)
    (fun i => ((jobs.moved job choice action next).threads i).ghost.count slot) job fun other hne => ?_
  simp only [moved_of_ne hne]

-- A step with an action of the job keeps the counts if the action counts what
-- it takes and gives back.
theorem Jobs.Even.moved (h : jobs.Even) (hprog : (jobs.threads job).prog = .act action next)
    (hdropped : (record (execAct choice action jobs.shared).2 (jobs.threads job).ghost action
      (execAct choice action jobs.shared).1).dropped = false)
    (hrefs : ∀ slot, (execAct choice action jobs.shared).2.refsOf slot + (jobs.threads job).ghost.count slot =
      jobs.shared.refsOf slot + (record (execAct choice action jobs.shared).2 (jobs.threads job).ghost action
        (execAct choice action jobs.shared).1).count slot) :
    (jobs.moved job choice action next).Even := by
  refine ⟨?_, ?_, ?_⟩
  · rw [← next_moved hprog]
    exact verified_next h.verified _
  · intro other
    by_cases he : other = job
    · rw [he, moved_self]
      exact hdropped
    · rw [moved_of_ne he]
      exact h.kept other
  · intro slot
    have hslot := hrefs slot
    have htaken := @taken_moved ι _ _ jobs job choice action next slot
    have hbefore := h.refs slot
    show (execAct choice action jobs.shared).2.refsOf slot = _
    omega

omit [DecidableEq ι] in
theorem Jobs.Even.allowed (h : jobs.Even) (hprog : (jobs.threads job).prog = .act action next) :
    pinAllowed (jobs.threads job).ghost action := by
  have hverified := h.verified job
  rw [hprog] at hverified
  exact hverified.1

end Moves

section Actions

variable {choice : Choice} {st mid st' : Store} {held : Holding} {key : Bytes} {mode : Nat}
  {answer : Except OpenError Slot}

-- What an open may not do: to fail while a source is held, or to fill a slot
-- that is referenced.
def Harmless (st : Store) (held : Holding) (key : Bytes) : Except OpenError Slot → Prop
  | .ok slot => lookup st (xxh64 key 0) = .found slot ∨ st.refsOf slot = 0
  | .error .missing => True
  | .error .failed => held.sources = false

theorem granted_counts (h : Granted choice st mid (xxh64 key 0) mode answer st') (hmid : mid.refsOf = st.refsOf)
    (hharmless : Harmless st held key answer) (hdropped : held.dropped = false) :
    (record st' held (.prepareFile key mode) answer).dropped = false ∧
      ∀ slot, st'.refsOf slot + held.count slot =
        st.refsOf slot + (record st' held (.prepareFile key mode) answer).count slot := by
  have hpin : ∀ (slot : Slot) (fd : FilePtr) (refs : Int), st'.refsOf = Function.update st.refsOf slot refs →
      refs = st.refsOf slot + 1 → ∀ other, st'.refsOf other + held.count other =
        st.refsOf other + (held.pin ⟨slot, xxh64 key 0, fd, mode⟩).count other := by
    intro slot fd refs hrefs hrise other
    rw [hrefs, pin_count]
    by_cases he : other = slot
    · subst he
      rw [Function.update_self, if_pos rfl, hrise]
      omega
    · rw [Function.update_of_ne he, if_neg (Ne.symm he)]
      omega
  have hrefused : ∀ error, answer = .error error → st'.refsOf = st.refsOf := by
    rintro error rfl
    exact refused_refs h hmid
  have hfail : held.sources = false → held.fail.dropped = false := by
    intro hsources
    show (held.dropped || held.sources) = false
    rw [hdropped, hsources]
    rfl
  cases h with
  | found slot _ hlookup hcore hfs => exact ⟨hdropped, hpin slot _ _ (refsOf_update hcore) rfl⟩
  | refused error _ hnot hmiss hcore hfs =>
      have hrefs := hrefused error rfl
      cases error with
      | missing => exact ⟨hdropped, fun slot => by rw [hrefs]; rfl⟩
      | failed => exact ⟨hfail hharmless, fun slot => by rw [hrefs]; rfl⟩
  | failed _ hreopens hcore hfs =>
      have hrefs := hrefused .failed rfl
      exact ⟨hfail hharmless, fun slot => by rw [hrefs]; rfl⟩
  | filled _ hreopens ho hcore =>
      have hzero := hharmless.resolve_left (hreopens.1 mid.idx)
      refine ⟨hdropped, hpin _ _ 1 ?_ (by rw [hzero]; rfl)⟩
      rw [refsOf_update hcore, hmid]

theorem granted_harmful (h : Granted choice st mid (xxh64 key 0) mode answer st') (hmid : mid.refsOf = st.refsOf)
    (hbad : ¬Harmless st held key answer) :
    (answer = .error .failed ∧ held.sources = true ∧ st'.refsOf = st.refsOf) ∨
      ∃ slot, answer = .ok slot ∧ st.refsOf slot ≠ 0 ∧ st'.refsOf slot = 1 := by
  have hrefused : ∀ error, answer = .error error → st'.refsOf = st.refsOf := by
    rintro error rfl
    exact refused_refs h hmid
  cases h with
  | found slot _ hlookup hcore hfs => exact absurd (Or.inl hlookup) hbad
  | refused error _ hnot hmiss hcore hfs =>
      cases error with
      | missing => exact absurd trivial hbad
      | failed => exact Or.inl ⟨rfl, Bool.not_eq_false _ |>.mp hbad, hrefused _ rfl⟩
  | failed _ hreopens hcore hfs => exact Or.inl ⟨rfl, Bool.not_eq_false _ |>.mp hbad, hrefused _ rfl⟩
  | filled _ hreopens ho hcore =>
      refine Or.inr ⟨_, rfl, fun hzero => hbad (Or.inr hzero), ?_⟩
      rw [refsOf_update hcore, Function.update_self]

theorem release_counts (held : Holding) (dt slot : Slot) (st : Store) (hheld : 0 < held.count dt) :
    (releaseDesc dt st).refsOf slot + held.count slot = st.refsOf slot + (held.release dt).count slot := by
  rw [release_count, releaseDesc_refs]
  by_cases he : slot = dt
  · subst he
    rw [Function.update_self, if_pos rfl]
    omega
  · rw [Function.update_of_ne he, if_neg (Ne.symm he)]
    omega

end Actions

section Runs

variable {ι : Type} [Fintype ι] {jobs : Jobs ι}

omit [Fintype ι] in
theorem holding_of_act {job : ι} {action : Act} {next : Res action → Cmd Unit}
    (hprog : (jobs.threads job).prog = .act action next) : jobs.holding job = (jobs.threads job).ghost :=
  if_neg (by rw [hprog]; exact id)

theorem Jobs.Even.owned (h : jobs.Even) (slot : Slot) : jobs.owned slot = 0 ↔ jobs.shared.refsOf slot = 0 := by
  have hrefs : jobs.shared.refsOf slot = jobs.owned slot := (h.balances slot).1
  omega

theorem Jobs.Even.harmless (h : jobs.Even) {job : ι} {choice : Choice} {key : Bytes} {mode : Nat}
    {next : Except OpenError Slot → Cmd Unit}
    (hprog : (jobs.threads job).prog = .act (.prepareFile key mode) next) :
    jobs.Keeps (.act job choice) ↔ Harmless jobs.shared (jobs.threads job).ghost key
      (prepareFile choice key mode jobs.shared).1 := by
  simp only [Jobs.Keeps, hprog, holding_of_act hprog]
  unfold Harmless
  cases (prepareFile choice key mode jobs.shared).1 with
  | ok slot => exact or_congr_right (h.owned slot)
  | error error => cases error <;> exact Iff.rfl

variable [DecidableEq ι]

theorem Jobs.Even.step (h : jobs.Even) {turn : Turn ι} (hkeeps : jobs.Keeps turn) : (jobs.next turn).Even := by
  cases turn with
  | sigterm fails =>
      obtain ⟨hshared, hthreads⟩ := @next_sigterm ι _ jobs fails
      refine ⟨verified_next h.verified (.sigterm fails), ?_, ?_⟩
      · rw [hthreads]
        exact h.kept
      · intro slot
        rw [hshared, refsOf_core (closeFiles_core fails jobs.shared), h.refs, Jobs.taken, Jobs.taken, hthreads]
  | act job choice =>
      cases hprog : (jobs.threads job).prog with
      | ret value =>
          rw [next_ret hprog]
          exact h
      | act action next =>
          rw [next_moved hprog]
          have hallowed := h.allowed hprog
          have hsame := h.kept job
          cases action with
          | prepareFile key mode =>
              have hgranted := prepareHashed_granted choice (xxh64 key 0) hallowed jobs.shared
              obtain ⟨hdropped, hrefs⟩ := granted_counts hgranted (vacated_refs _ _) ((h.harmless hprog).mp hkeeps) hsame
              exact h.moved hprog hdropped hrefs
          | releaseDesc dt =>
              exact h.moved hprog hsame fun slot => release_counts _ dt slot jobs.shared hallowed
          | descLength dt => exact h.moved hprog hsame fun slot => rfl
          | readFrom dt size offset =>
              refine h.moved hprog hsame fun slot => ?_
              exact congrArg (· + _) (congrFun (refsOf_core (readFrom_core choice dt size offset jobs.shared)) slot)
          | writeTo dt buf offset =>
              refine h.moved hprog hsame fun slot => ?_
              exact congrArg (· + _) (congrFun (refsOf_core (writeTo_core choice dt buf offset jobs.shared)) slot)
          | posixMemalign => exact h.moved hprog hsame fun slot => rfl
          | reply text len => exact h.moved hprog hsame fun slot => rfl

theorem owned_le_count (held : Holding) (slot : Slot) : held.owned slot ≤ held.count slot := by
  refine List.countP_mono_left fun pin _ hpin => ?_
  simp only [decide_eq_true_eq] at hpin ⊢
  exact hpin.1

omit [Fintype ι] [DecidableEq ι] in
theorem holding_owned_le (jobs : Jobs ι) (i : ι) (slot : Slot) :
    (jobs.holding i).owned slot ≤ (jobs.threads i).ghost.count slot := by
  unfold Jobs.holding
  split
  · exact Nat.zero_le _
  · exact owned_le_count _ slot

-- A source is lost when the open of the next one fails: its reference stays in
-- the table.
theorem Jobs.Even.lost (h : jobs.Even) {job : ι} {choice : Choice} {action : Act} {next : Res action → Cmd Unit}
    (hrefs : (execAct choice action jobs.shared).2.refsOf = jobs.shared.refsOf)
    (hfail : record (execAct choice action jobs.shared).2 (jobs.threads job).ghost action
      (execAct choice action jobs.shared).1 = (jobs.threads job).ghost.fail)
    (hsources : (jobs.threads job).ghost.sources = true) : ¬(jobs.moved job choice action next).Balances := by
  intro hbalances
  obtain ⟨pin, hm, hmode⟩ := List.any_eq_true.mp hsources
  have hmode : pin.mode = 1 := by simpa using hmode
  have hghost : ((jobs.moved job choice action next).threads job).ghost = (jobs.threads job).ghost.fail :=
    moved_self.trans hfail
  have hdropped : (jobs.threads job).ghost.fail.dropped = true := by
    show (_ || _) = true
    rw [hsources, Bool.or_true]
  have hless : (jobs.moved job choice action next).owned pin.slot < jobs.taken pin.slot := by
    refine Finset.sum_lt_sum (fun i _ => ?_) ⟨job, Finset.mem_univ job, ?_⟩
    · by_cases hi : i = job
      · subst hi
        refine Nat.le_trans (holding_owned_le _ i pin.slot) ?_
        rw [hghost, fail_count]
      · refine Nat.le_trans (holding_owned_le _ i pin.slot) ?_
        rw [moved_of_ne hi]
    · unfold Jobs.holding
      split
      · exact Holding.count_of_mem hm
      · rw [hghost]
        exact owned_dropped hdropped hm hmode
  have hafter := (hbalances pin.slot).1
  have hbefore := h.refs pin.slot
  have hsame : ((jobs.moved job choice action next).shared.descs pin.slot).refs = jobs.shared.refsOf pin.slot :=
    congrFun hrefs pin.slot
  omega

-- A slot that is referenced starts with a count of 1 again when it is filled.
theorem Jobs.Even.overwritten (h : jobs.Even) {job : ι} {choice : Choice} {action : Act}
    {next : Res action → Cmd Unit} (hprog : (jobs.threads job).prog = .act action next) {slot : Slot} (pin : Pin)
    (hslot : pin.slot = slot) (hone : (execAct choice action jobs.shared).2.refsOf slot = 1)
    (hpin : record (execAct choice action jobs.shared).2 (jobs.threads job).ghost action
      (execAct choice action jobs.shared).1 = (jobs.threads job).ghost.pin pin)
    (hrefs : jobs.shared.refsOf slot ≠ 0) : ¬(jobs.moved job choice action next).Balances := by
  intro hbalances
  have hverified : (jobs.moved job choice action next).Verified pinContract fun after _ => after.Returned := by
    rw [← next_moved hprog]
    exact verified_next h.verified _
  have hkept : ∀ i, ((jobs.moved job choice action next).threads i).ghost.dropped = false := by
    intro i
    by_cases hi : i = job
    · rw [hi, moved_self, hpin]
      exact h.kept job
    · rw [moved_of_ne hi]
      exact h.kept i
  have hafter := (hbalances slot).1
  have htaken := @taken_moved ι _ _ jobs job choice action next slot
  rw [owned_eq_taken hverified hkept] at hafter
  rw [hpin, pin_count, if_pos hslot] at htaken
  have hbefore := h.refs slot
  have hshared : ((jobs.moved job choice action next).shared.descs slot).refs = 1 := hone
  omega

theorem Jobs.Even.break (h : jobs.Even) {turn : Turn ι} (hbad : ¬jobs.Keeps turn) : ¬(jobs.next turn).Balances := by
  cases turn with
  | sigterm fails => exact absurd trivial hbad
  | act job choice =>
      cases hprog : (jobs.threads job).prog with
      | ret value => simp [Jobs.Keeps, hprog] at hbad
      | act action next =>
          rw [next_moved hprog]
          cases action with
          | prepareFile key mode =>
              rw [h.harmless hprog] at hbad
              have hgranted := prepareHashed_granted choice (xxh64 key 0) (h.allowed hprog) jobs.shared
              rcases granted_harmful hgranted (vacated_refs _ _) hbad with ⟨ha, hsources, hrefs⟩ | ⟨slot, ha, hne, hone⟩
              · refine h.lost hrefs ?_ hsources
                show record _ _ (.prepareFile key mode) (prepareHashed choice (xxh64 key 0) mode jobs.shared).1 = _
                rw [ha]
                rfl
              · let fd := ((prepareHashed choice (xxh64 key 0) mode jobs.shared).2.descs slot).fd
                refine h.overwritten hprog ⟨slot, xxh64 key 0, fd, mode⟩ rfl hone ?_ hne
                show record _ _ (.prepareFile key mode) (prepareHashed choice (xxh64 key 0) mode jobs.shared).1 = _
                rw [ha]
                rfl
          | releaseDesc dt => simp [Jobs.Keeps, hprog] at hbad
          | descLength dt => simp [Jobs.Keeps, hprog] at hbad
          | readFrom dt size offset => simp [Jobs.Keeps, hprog] at hbad
          | writeTo dt buf offset => simp [Jobs.Keeps, hprog] at hbad
          | posixMemalign => simp [Jobs.Keeps, hprog] at hbad
          | reply text len => simp [Jobs.Keeps, hprog] at hbad

omit [DecidableEq ι] in
theorem even_start (disk : UInt64 → Option Bytes) (lines : ι → Bytes) : (Jobs.start disk lines).Even := by
  refine ⟨fun i => ?_, fun i => rfl, fun slot => ?_⟩
  · show (parseAndExecute (lines i)).wp pinContract _ {}
    rw [parseAndExecute_eq]
    exact pin_request (request (lines i))
  · have hzero : (Jobs.start disk lines).taken slot = 0 := Finset.sum_eq_zero fun i _ => rfl
    rw [hzero]
    rfl

-- The reference counts are right in every state of a run, exactly if no open of
-- the run loses a source or takes a referenced slot.
theorem refs_balanced_iff (disk : UInt64 → Option Bytes) (lines : ι → Bytes) (turns : List (Turn ι)) :
    AllStates Jobs.next Jobs.Balances (Jobs.start disk lines) turns ↔
      AllSteps Jobs.next Jobs.Keeps (Jobs.start disk lines) turns := by
  apply allStates_iff_allSteps Jobs.next Jobs.Even
  · exact fun _ h => h.balances
  · exact fun _ _ h _ hkeeps => h.step hkeeps
  · exact fun _ _ h _ hbad => h.break hbad
  · exact even_start disk lines
  · exact AllSteps.trivial Jobs.next _ turns

-- The source a is opened, the open of b fails, and the request ends with a
-- reference to a that nobody holds.
theorem failed_source_stays_pinned :
    let disk : UInt64 → Option Bytes := fun hash => if hash = xxh64 (str "a") 0 ∨ hash = xxh64 (str "b") 0 then some [1] else none
    let turns : List (Turn Unit) := [.act () {}, .act () {}, .act () { fopenFails := true }, .act () {}, .act () {}]
    let jobs := run Jobs.next (Jobs.start disk fun _ => str "BITOP OR d b a") turns
    (jobs.threads ()).prog.Finished ∧ (jobs.shared.descs 1).hash = xxh64 (str "a") 0 ∧
      (jobs.shared.descs 1).refs = 1 ∧ ¬jobs.Balances := by
  intro disk turns jobs
  have hfinished : (jobs.threads ()).prog.Finished := by decide +kernel
  have hrefs : (jobs.shared.descs 1).refs = 1 := by decide +kernel
  have hhash : (jobs.shared.descs 1).hash = xxh64 (str "a") 0 := by decide +kernel
  clear_value jobs
  refine ⟨hfinished, hhash, hrefs, fun hbalances => ?_⟩
  have hzero := (hbalances 1).2.2 fun _ => hfinished
  rw [hrefs] at hzero
  exact absurd hzero (by decide)

end Runs

end Solidbits
