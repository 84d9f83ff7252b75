import Solidbits.Jobs.Setbits

namespace Solidbits

open Prog Transition

section Serial

variable {ι κ : Type} {dt : Slot} {st : Store} {content : Bytes}

-- What a GETBIT does behind the test of the length.
def getbitReply (cmd : GetbitCmd) (dst : Received) : Cmd Int :=
  if dst.r = 0 then .ret (-1) else .ret (bitOf (Padded.get dst.buf 0) cmd.offset)

def getbitRead (cmd : GetbitCmd) (dt : Slot) : Cmd Int :=
  .act (.readFrom dt 1 (byteOffset cmd.offset)) (getbitReply cmd)

theorem getbitCommand_eq (cmd : GetbitCmd) (dt : Slot) :
    getbitCommand cmd dt = .act (.descLength dt) fun length =>
      if byteOffset cmd.offset < length then getbitRead cmd dt else .ret 0 := by
  refine congrArg (Prog.act (Act.descLength dt)) (funext fun length => ?_)
  by_cases hlt : byteOffset cmd.offset < length
  · simp only [Bind.bind, Prog.bind, Cmd.readFrom, ask, hlt, ite_true, getbitRead]
    rfl
  · simp only [Prog.bind, hlt, ite_false]
    rfl

-- SETBIT and GETBIT requests on one descriptor.
def bitCommand (cmds : ι → SetbitCmd) (gets : κ → GetbitCmd) (dt : Slot) : ι ⊕ κ → Cmd Int
  | .inl i => setbitCommand (cmds i) dt
  | .inr k => getbitCommand (gets k) dt

-- The requests one after the other, each by itself.
def inTurn (cmds : ι → SetbitCmd) (gets : κ → GetbitCmd) (dt : Slot) (st : Store) (order : List (ι ⊕ κ)) : Store :=
  run (fun st op => ((bitCommand cmds gets dt op).alone st).2) st order

def setters (order : List (ι ⊕ κ)) : List ι := order.filterMap Sum.getLeft?

theorem setters_append (order more : List (ι ⊕ κ)) : setters (order ++ more) = setters order ++ setters more :=
  List.filterMap_append

theorem setters_inl (order : List ι) : setters (order.map Sum.inl : List (ι ⊕ κ)) = order := by
  rw [setters, List.filterMap_map]
  exact List.filterMap_some

theorem mem_setters {i : ι} {order : List (ι ⊕ κ)} : i ∈ setters order ↔ Sum.inl i ∈ order := by
  rw [setters, List.mem_filterMap]
  constructor
  · rintro ⟨op, hm, hi⟩
    cases op with
    | inl j =>
        obtain rfl := Option.some.inj hi
        exact hm
    | inr k => cases hi
  · exact fun hm => ⟨Sum.inl i, hm, rfl⟩

-- A position among the SETBITs is one in the whole order.
theorem setters_split {order : List (ι ⊕ κ)} {i : ι} {before after : List ι}
    (h : setters order = before ++ i :: after) :
    ∃ first last, order = first ++ Sum.inl i :: last ∧ setters first = before := by
  induction order generalizing before with
  | nil => exact absurd (congrArg List.length h) (by simp [setters])
  | cons op order ih =>
      cases op with
      | inr k =>
          obtain ⟨first, last, rfl, hfirst⟩ := ih h
          exact ⟨Sum.inr k :: first, last, rfl, hfirst⟩
      | inl j =>
          have hcons : j :: setters order = before ++ i :: after := h
          cases before with
          | nil =>
              obtain ⟨rfl, _⟩ := List.cons.inj hcons
              exact ⟨[], order, rfl, rfl⟩
          | cons other before =>
              obtain ⟨rfl, hrest⟩ := List.cons.inj hcons
              obtain ⟨first, last, rfl, hfirst⟩ := ih hrest
              exact ⟨Sum.inl j :: first, last, rfl, congrArg (j :: ·) hfirst⟩

theorem Stream.getbit_alone (h : Stream dt st content content.length false) (cmd : GetbitCmd) :
    ((getbitCommand cmd dt).alone st).1 = bitAt content cmd.offset ∧
      Stream dt ((getbitCommand cmd dt).alone st).2 content content.length false := by
  have hlength : (execAct {} (.descLength dt) st).1 = content.length := h.length
  rw [getbitCommand_eq, Cmd.alone, exec_act, hlength]
  by_cases hlt : byteOffset cmd.offset < content.length
  · rw [if_pos hlt, getbitRead, exec_act, show (execAct {} (.readFrom dt 1 (byteOffset cmd.offset))
      (execAct {} (.descLength dt) st).2).1 = _ from h.read_byte hlt]
    exact ⟨rfl, @Stream.readFrom _ _ _ _ _ h {} (fun he => Bool.noConfusion he) 1 (byteOffset cmd.offset)⟩
  · rw [if_neg hlt]
    exact ⟨(bitAt_past (Nat.not_lt.mp hlt)).symm, h⟩

-- The bit a request looks at.
def bitOffset (cmds : ι → SetbitCmd) (gets : κ → GetbitCmd) : ι ⊕ κ → Int
  | .inl i => (cmds i).offset
  | .inr k => (gets k).offset

theorem Stream.bit_alone (h : Stream dt st content content.length false) (cmds : ι → SetbitCmd)
    (gets : κ → GetbitCmd) (op : ι ⊕ κ) :
    ((bitCommand cmds gets dt op).alone st).1 = bitAt content (bitOffset cmds gets op) ∧
      Stream dt ((bitCommand cmds gets dt op).alone st).2 (flipped cmds content (setters [op]))
        (flipped cmds content (setters [op])).length false := by
  cases op with
  | inl i => exact h.alone (cmds i)
  | inr k => exact h.getbit_alone (gets k)

theorem inTurn_stream (h : Ready dt st) (cmds : ι → SetbitCmd) (gets : κ → GetbitCmd) (order : List (ι ⊕ κ)) :
    Stream dt (inTurn cmds gets dt st order) (flipped cmds (st.shown dt) (setters order))
      (flipped cmds (st.shown dt) (setters order)).length false := by
  induction order using List.reverseRecOn with
  | nil => exact h.stream
  | append_singleton order op ih =>
      rw [setters_append, flipped_append]
      simp only [inTurn, run_append, run_cons, run_nil]
      exact (ih.bit_alone cmds gets op).2

end Serial

section Interleaved

variable {ι κ : Type} [DecidableEq ι] [DecidableEq κ]

-- SETBIT and GETBIT requests on one descriptor, each on a thread of its own.
abbrev Bits (ι κ : Type) := Pool (ι ⊕ κ) Store Act Res Int UInt8

def Bits.next (jobs : Bits ι κ) (label : (ι ⊕ κ) × Choice) : Bits ι κ := Pool.step execAct noteByte jobs label

def Bits.start (cmds : ι → SetbitCmd) (gets : κ → GetbitCmd) (dt : Slot) (st : Store) : Bits ι κ :=
  Pool.start st 0 (bitCommand cmds gets dt)

-- The SETBITs among them.
def Bits.setbits (jobs : Bits ι κ) : Setbits ι := ⟨jobs.shared, fun i => jobs.threads (.inl i)⟩

theorem setbits_next (jobs : Bits ι κ) (i : ι) (choice : Choice) :
    (jobs.next (.inl i, choice)).setbits = jobs.setbits.next (i, choice) := by
  cases hprog : (jobs.threads (.inl i)).prog with
  | ret value =>
      have hmine : (jobs.setbits.threads i).prog = .ret value := hprog
      rw [Bits.next, Setbits.next, Pool.step_ret execAct noteByte hprog, Pool.step_ret execAct noteByte hmine]
  | act action next =>
      have hmine : (jobs.setbits.threads i).prog = .act action next := hprog
      rw [Bits.next, Setbits.next, Pool.step_act execAct noteByte hprog, Pool.step_act execAct noteByte hmine]
      simp only [Bits.setbits]
      congr 1
      funext j
      by_cases hj : j = i
      · subst hj
        rw [Function.update_self, Function.update_self]
      · rw [Function.update_of_ne (fun he => hj (Sum.inl_injective he)), Function.update_of_ne hj]

-- No write overwrites a byte that changed since its request looked at it or is
-- lost, and no GETBIT goes on from a failed seek.
def Steady (dt : Slot) (jobs : Bits ι κ) (label : (ι ⊕ κ) × Choice) : Prop :=
  match label.1 with
  | .inl i => Untouched dt jobs.setbits (i, label.2)
  | .inr _ => label.2.seekFails = false

instance (dt : Slot) (jobs : Bits ι κ) (label : (ι ⊕ κ) × Choice) : Decidable (Steady dt jobs label) := by
  unfold Steady
  split
  · infer_instance
  · infer_instance

inductive Probe (cmd : GetbitCmd) (dt : Slot) : Cmd Int → Prop
  | test : Probe cmd dt (getbitCommand cmd dt)
  | read : Probe cmd dt (getbitRead cmd dt)
  | done (reply : Int) : Probe cmd dt (.ret reply)

-- The requests of the order have taken effect one after the other: the bitmap is
-- what they make of it, but for SETBITs that wrote and reply -1, and each reply
-- that is no failure is that of the request by itself, after those before it.
def TakenInTurn (cmds : ι → SetbitCmd) (gets : κ → GetbitCmd) (dt : Slot) (st : Store) (jobs : Bits ι κ)
    (order : List (ι ⊕ κ)) : Prop :=
  order.Nodup ∧ (∀ op ∈ order, (jobs.threads op).prog.Finished) ∧
  (∃ lost : List ι, (∀ i ∈ lost, (jobs.threads (.inl i)).prog = .ret (-1)) ∧
    jobs.shared.shown dt = (inTurn cmds gets dt st (order ++ lost.map Sum.inl)).shown dt) ∧
  ∀ op reply, (jobs.threads op).prog = .ret reply → reply ≠ -1 →
    ∃ before after, order = before ++ op :: after ∧
      reply = ((bitCommand cmds gets dt op).alone (inTurn cmds gets dt st before)).1

-- The order of the requests with a reply; the SETBITs are as without the GETBITs.
structure Mixed (cmds : ι → SetbitCmd) (gets : κ → GetbitCmd) (dt : Slot) (content : Bytes) (jobs : Bits ι κ)
    (order : List (ι ⊕ κ)) : Prop where
  linear : ∃ lost err, Linear cmds dt content jobs.setbits (setters order) lost err
  nodup : order.Nodup
  probes : ∀ k, Probe (gets k) dt (jobs.threads (.inr k)).prog
  finished : ∀ k, .inr k ∈ order → (jobs.threads (.inr k)).prog.Finished
  replies : ∀ k reply, (jobs.threads (.inr k)).prog = .ret reply → reply ≠ -1 →
    ∃ before after, order = before ++ .inr k :: after ∧
      reply = bitAt (flipped cmds content (setters before)) (gets k).offset

variable {cmds : ι → SetbitCmd} {gets : κ → GetbitCmd} {dt : Slot} {content : Bytes} {jobs : Bits ι κ}
variable {order : List (ι ⊕ κ)} {shared : Store} {choice : Choice}

omit [DecidableEq ι] in
-- Somebody else looks at the descriptor.
theorem Linear.watched {jobs : Setbits ι} {acked lost : List ι} {err err' : Bool}
    (h : Linear cmds dt content jobs acked lost err)
    (hstream : Stream dt shared (flipped cmds content (acked ++ lost)) (flipped cmds content acked).length err')
    (herr : err' = false → err = false) : Linear cmds dt content ⟨shared, jobs.threads⟩ acked lost err' :=
  ⟨h.stage, hstream, fun hclear => h.clear (herr hclear), h.nodup, h.finished, h.replies⟩

theorem Mixed.setbit (h : Mixed cmds gets dt content jobs order) {i : ι}
    (hsame : Untouched dt jobs.setbits (i, choice)) :
    ∃ more, Mixed cmds gets dt content (jobs.next (.inl i, choice)) (order ++ more) := by
  obtain ⟨lost, err, hlinear⟩ := h.linear
  obtain ⟨acked, lost', err', ⟨more, rfl⟩, hnext⟩ := hlinear.advance hsame
  rw [← setbits_next] at hnext
  have hkept : ∀ k, (jobs.next (.inl i, choice)).threads (.inr k) = jobs.threads (.inr k) := by
    intro k
    rcases Pool.step_cases execAct noteByte jobs (.inl i, choice) with he | ⟨action, next, _, he⟩
    · rw [Bits.next, he]
    · simp only [Bits.next, he, Function.update_of_ne Sum.inr_ne_inl]
  refine ⟨more.map Sum.inl, ?_, ?_, ?_, ?_, ?_⟩
  · rw [setters_append, setters_inl]
    exact ⟨lost', err', hnext⟩
  · have hacked := (List.nodup_append.mp hnext.nodup).1
    obtain ⟨_, hmore, hapart⟩ := List.nodup_append.mp hacked
    refine List.nodup_append.mpr ⟨h.nodup, hmore.map Sum.inl_injective, ?_⟩
    intro op hm other hother he
    obtain ⟨j, hj, rfl⟩ := List.mem_map.mp hother
    subst he
    exact hapart j (mem_setters.mpr hm) j hj rfl
  · intro k
    rw [hkept]
    exact h.probes k
  · intro k hm
    rw [hkept]
    rcases List.mem_append.mp hm with hm | hm
    · exact h.finished k hm
    · obtain ⟨j, _, hj⟩ := List.mem_map.mp hm
      cases hj
  · intro k reply hp hok
    rw [hkept] at hp
    obtain ⟨before, after, rfl, hreply⟩ := h.replies k reply hp hok
    exact ⟨before, after ++ more.map Sum.inl, by rw [List.append_assoc, List.cons_append], hreply⟩

-- A GETBIT moves on: without a reply, or behind the others with the bit of the
-- bitmap as they have made it.
theorem Mixed.getbit (h : Mixed cmds gets dt content jobs order) {k : κ} {prog : Cmd Int} {seen : UInt8}
    {lost : List ι} {err : Bool}
    (hlinear : Linear cmds dt content ⟨shared, jobs.setbits.threads⟩ (setters order) lost err)
    (hbusy : ¬(jobs.threads (.inr k)).prog.Finished) (hprobe : Probe (gets k) dt prog)
    (hreply : ∀ reply, prog = .ret reply → reply ≠ -1 →
      reply = bitAt (flipped cmds content (setters order)) (gets k).offset) :
    ∃ more, Mixed cmds gets dt content ⟨shared, Function.update jobs.threads (.inr k) ⟨prog, seen⟩⟩ (order ++ more) := by
  have hnew : Sum.inr k ∉ order := fun hm => hbusy (h.finished k hm)
  have hsetbits : Bits.setbits ⟨shared, Function.update jobs.threads (.inr k) ⟨prog, seen⟩⟩ =
      ⟨shared, jobs.setbits.threads⟩ := by
    simp only [Bits.setbits, Function.update_of_ne Sum.inl_ne_inr]
  have hother : ∀ other, other ≠ k →
      Function.update jobs.threads (.inr k) ⟨prog, seen⟩ (.inr other) = jobs.threads (.inr other) :=
    fun other ho => Function.update_of_ne (fun he => ho (Sum.inr_injective he)) _ _
  have hprobes : ∀ other, Probe (gets other) dt
      (Function.update jobs.threads (.inr k) ⟨prog, seen⟩ (.inr other)).prog := by
    intro other
    by_cases ho : other = k
    · subst ho
      rwa [Function.update_self]
    · rw [hother other ho]
      exact h.probes other
  by_cases hdone : ∃ reply, prog = .ret reply ∧ reply ≠ -1
  · obtain ⟨reply, rfl, hok⟩ := hdone
    refine ⟨[.inr k], ?_, ?_, hprobes, ?_, ?_⟩
    · rw [hsetbits, setters_append, show setters [(.inr k : ι ⊕ κ)] = [] from rfl, List.append_nil]
      exact ⟨lost, err, hlinear⟩
    · refine List.nodup_append.mpr ⟨h.nodup, List.nodup_singleton _, ?_⟩
      intro op hm other hother he
      rw [List.mem_singleton.mp hother] at he
      exact hnew (he ▸ hm)
    · intro other hm
      by_cases ho : other = k
      · subst ho
        simp only [Function.update_self]
        trivial
      · simp only [hother other ho]
        refine h.finished other ((List.mem_append.mp hm).resolve_right fun hm => ?_)
        exact ho (Sum.inr_injective (List.mem_singleton.mp hm))
    · intro other reply' hp hok'
      by_cases ho : other = k
      · subst ho
        simp only [Function.update_self] at hp
        cases hp
        exact ⟨order, [], rfl, hreply reply rfl hok⟩
      · simp only [hother other ho] at hp
        obtain ⟨before, after, rfl, hbit⟩ := h.replies other reply' hp hok'
        exact ⟨before, after ++ [.inr k], by rw [List.append_assoc, List.cons_append], hbit⟩
  · refine ⟨[], ?_, ?_, hprobes, ?_, ?_⟩
    · rw [hsetbits, List.append_nil]
      exact ⟨lost, err, hlinear⟩
    · rw [List.append_nil]
      exact h.nodup
    · intro other hm
      rw [List.append_nil] at hm
      have ho : other ≠ k := by
        rintro rfl
        exact hnew hm
      simp only [hother other ho]
      exact h.finished other hm
    · intro other reply hp hok
      by_cases ho : other = k
      · subst ho
        simp only [Function.update_self] at hp
        exact absurd ⟨reply, hp, hok⟩ hdone
      · simp only [hother other ho] at hp
        rw [List.append_nil]
        exact h.replies other reply hp hok

theorem Mixed.test (h : Mixed cmds gets dt content jobs order) {k : κ}
    (hprog : (jobs.threads (.inr k)).prog = getbitCommand (gets k) dt) (choice : Choice) :
    ∃ more, Mixed cmds gets dt content (jobs.next (.inr k, choice)) (order ++ more) := by
  rw [getbitCommand_eq] at hprog
  have hbusy : ¬(jobs.threads (.inr k)).prog.Finished := by
    rw [hprog]
    exact id
  obtain ⟨lost, err, hlinear⟩ := h.linear
  have hlength : (execAct choice (.descLength dt) jobs.shared).1 = (flipped cmds content (setters order)).length :=
    hlinear.stream.length
  rw [Bits.next, Pool.step_act execAct noteByte hprog, Pool.advance, hlength]
  apply h.getbit (hlinear.watched hlinear.stream id) hbusy
  · split
    · exact .read
    · exact .done 0
  · intro reply hret _
    split at hret
    · cases hret
    · rename_i hlt
      cases hret
      exact (bitAt_past (Nat.not_lt.mp hlt)).symm

theorem Mixed.read (h : Mixed cmds gets dt content jobs order) {k : κ}
    (hprog : (jobs.threads (.inr k)).prog = getbitRead (gets k) dt) (hseek : choice.seekFails = false) :
    ∃ more, Mixed cmds gets dt content (jobs.next (.inr k, choice)) (order ++ more) := by
  have hbusy : ¬(jobs.threads (.inr k)).prog.Finished := by
    rw [hprog]
    exact id
  obtain ⟨lost, err, hlinear⟩ := h.linear
  have hflushes : Flushes dt jobs.shared choice := fun hfails => absurd (hfails.symm.trans hseek) nofun
  have hstream := @Stream.readFrom _ _ _ _ _ hlinear.stream choice hflushes 1 (byteOffset (gets k).offset)
  have herr : (err || choice.ioFails) = false → err = false := fun hclear => (Bool.or_eq_false_iff.mp hclear).1
  obtain ⟨_, hnothing, hread⟩ := readFrom_indicates hlinear.stream.opened choice 1 (byteOffset (gets k).offset)
  rw [hlinear.stream.shown, Int.toNat_natCast] at hread
  rw [hseek, Bool.false_and, Bool.false_or] at hnothing
  rw [Bits.next, Pool.step_act execAct noteByte hprog, Pool.advance]
  have hshared : jobs.setbits.shared = jobs.shared := rfl
  rw [hshared] at hstream hnothing hread
  apply h.getbit (hlinear.watched hstream herr) hbusy
  · unfold getbitReply
    split
    · exact .done (-1)
    · exact .done _
  · intro reply hret hok
    have hreply : getbitReply (gets k) (readFrom choice dt 1 (byteOffset (gets k).offset) jobs.shared).1 =
        .ret reply := hret
    cases hflag : (err || choice.ioFails) with
    | true =>
        rw [getbitReply, if_pos (hnothing hflag)] at hreply
        cases hreply
        exact absurd rfl hok
    | false =>
        rw [hread hflag (by simp [hseek])] at hreply
        obtain rfl := hlinear.clear (herr hflag)
        rw [List.append_nil] at hreply
        by_cases hlt : byteOffset (gets k).offset < (flipped cmds content (setters order)).length
        · rw [slice_one hlt] at hreply
          cases hreply
          rfl
        · rw [Padded.slice, List.drop_of_length_le (Nat.not_lt.mp hlt), List.take_nil] at hreply
          cases hreply
          exact absurd rfl hok

theorem Mixed.step (h : Mixed cmds gets dt content jobs order) {label : (ι ⊕ κ) × Choice}
    (hsteady : Steady dt jobs label) :
    ∃ more, Mixed cmds gets dt content (jobs.next label) (order ++ more) := by
  obtain ⟨op, choice⟩ := label
  cases op with
  | inl i => exact h.setbit hsteady
  | inr k =>
      have hprobe := h.probes k
      generalize hprog : (jobs.threads (.inr k)).prog = prog at hprobe
      cases hprobe with
      | test => exact h.test hprog choice
      | read => exact h.read hprog hsteady
      | done reply =>
          refine ⟨[], ?_⟩
          rw [Bits.next, Pool.step_ret execAct noteByte hprog, List.append_nil]
          exact h

omit [DecidableEq ι] [DecidableEq κ] in
theorem Mixed.start (hready : Ready dt shared) (cmds : ι → SetbitCmd) (gets : κ → GetbitCmd) :
    Mixed cmds gets dt (shared.shown dt) (Bits.start cmds gets dt shared) [] where
  linear := ⟨[], false, Linear.start hready cmds⟩
  nodup := List.nodup_nil
  probes := fun _ => .test
  finished := fun _ hm => absurd hm List.not_mem_nil
  replies := nofun

omit [DecidableEq ι] in
theorem Linear.lost_fails {jobs : Setbits ι} {acked lost : List ι} {err : Bool}
    (h : Linear cmds dt content jobs acked lost err) {i : ι} (hm : i ∈ lost) :
    (jobs.threads i).prog = .ret (-1) := by
  obtain ⟨_, _, hapart⟩ := List.nodup_append.mp h.nodup
  have hfinished := h.finished i (List.mem_append_right acked hm)
  cases hprog : (jobs.threads i).prog with
  | act action next =>
      rw [hprog] at hfinished
      exact hfinished.elim
  | ret reply =>
      by_cases hfails : reply = -1
      · rw [hfails]
      · obtain ⟨before, after, rfl, _⟩ := h.replies i reply hprog hfails
        exact absurd rfl (hapart i (List.mem_append_right before List.mem_cons_self) i hm)

omit [DecidableEq ι] [DecidableEq κ] in
theorem Mixed.takenInTurn (hready : Ready dt shared) (h : Mixed cmds gets dt (shared.shown dt) jobs order) :
    TakenInTurn cmds gets dt shared jobs order := by
  obtain ⟨lost, err, hlinear⟩ := h.linear
  refine ⟨h.nodup, ?_, ⟨lost, fun i hm => hlinear.lost_fails hm, ?_⟩, ?_⟩
  · intro op hm
    cases op with
    | inl i => exact hlinear.finished i (List.mem_append_left lost (mem_setters.mpr hm))
    | inr k => exact h.finished k hm
  · rw [(inTurn_stream hready cmds gets _).shown, setters_append, setters_inl]
    exact hlinear.stream.shown
  · intro op reply hp hok
    have halone := fun before => ((inTurn_stream hready cmds gets before).bit_alone cmds gets op).1
    cases op with
    | inl i =>
        obtain ⟨before, after, hacked, hreply⟩ := hlinear.replies i reply hp hok
        obtain ⟨first, last, rfl, rfl⟩ := setters_split hacked
        exact ⟨first, last, rfl, by rw [halone]; exact hreply⟩
    | inr k =>
        obtain ⟨before, after, rfl, hreply⟩ := h.replies k reply hp hok
        exact ⟨before, after, rfl, by rw [halone]; exact hreply⟩

-- SETBITs and GETBITs of one descriptor, however their steps interleave and their
-- reads and writes fail: they take effect in one order, which only grows at its end
-- while they run.
theorem bits_linearizable (cmds : ι → SetbitCmd) (gets : κ → GetbitCmd) (hready : Ready dt shared)
    (labels : List ((ι ⊕ κ) × Choice))
    (hsteady : AllSteps Bits.next (Steady dt) (Bits.start cmds gets dt shared) labels) :
    ∃ order, TakenInTurn cmds gets dt shared (run Bits.next (Bits.start cmds gets dt shared) labels) order ∧
      ∀ before after, labels = before ++ after → ∃ early late, order = early ++ late ∧
        TakenInTurn cmds gets dt shared (run Bits.next (Bits.start cmds gets dt shared) before) early := by
  obtain ⟨order, hlast, hsplit⟩ := run_history Bits.next (Mixed cmds gets dt (shared.shown dt))
    (fun jobs label before h hgood => h.step hgood) (Mixed.start hready cmds gets) hsteady
  refine ⟨order, hlast.takenInTurn hready, ?_⟩
  intro before after he
  obtain ⟨early, late, hearly, hmixed⟩ := hsplit before after he
  exact ⟨early, late, hearly, hmixed.takenInTurn hready⟩

-- The GETBIT of bit 0 runs while two SETBITs are on their way, and its read fails.
theorem bits_linearizable_reader :
    let cmds : Bool → SetbitCmd := fun second => { offset := if second then 8 else 0, value := 1 }
    let gets : Unit → GetbitCmd := fun _ => { offset := 0 }
    let labels : List ((Bool ⊕ Unit) × Choice) :=
      [(.inl false, {}), (.inl true, {}), (.inl false, {}), (.inr (), {}), (.inr (), { ioFails := true }),
       (.inl true, {})]
    ∃ order, TakenInTurn cmds gets 0 newFile (run Bits.next (Bits.start cmds gets 0 newFile) labels) order ∧
      ∀ before after, labels = before ++ after → ∃ early late, order = early ++ late ∧
        TakenInTurn cmds gets 0 newFile (run Bits.next (Bits.start cmds gets 0 newFile) before) early := by
  intro cmds gets labels
  exact bits_linearizable cmds gets newFile_ready labels (by decide +kernel)

end Interleaved

end Solidbits
