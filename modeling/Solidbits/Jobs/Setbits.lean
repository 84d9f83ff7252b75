import Solidbits.File.Shown
import Solidbits.Lib.Pool
import Solidbits.Serial.Alone
import Solidbits.Serial.Bits

namespace Solidbits

open Prog Transition

section Serial

variable {ι : Type} {dt : Slot} {st : Store} {content : Bytes}

-- A descriptor as prepare_file hands it out: the FILE object is in order and the
-- length is that of the file.
def Ready (dt : Slot) (st : Store) : Prop :=
  Indicates dt st false ∧ (st.descs dt).length = (st.shown dt).length

theorem Ready.stream (h : Ready dt st) : Stream dt st (st.shown dt) (st.shown dt).length false :=
  ⟨h.1, rfl, h.2⟩

theorem Stream.ready (h : Stream dt st content content.length false) : Ready dt st :=
  ⟨h.opened, h.length.trans (congrArg List.length h.shown.symm)⟩

-- Requests one after the other, each by itself.
def serially (cmds : ι → SetbitCmd) (dt : Slot) (st : Store) (order : List ι) : Store :=
  run (fun st i => ((setbitCommand (cmds i) dt).alone st).2) st order

-- The bitmap after a list of requests.
def flipped (cmds : ι → SetbitCmd) (content : Bytes) (order : List ι) : Bytes :=
  run (fun content i => setBit content (cmds i).offset (cmds i).value) content order

theorem le_setBit_length (content : Bytes) (offset value : Int) :
    content.length ≤ (setBit content offset value).length := by
  rw [setBit_length]
  split
  · exact Nat.le_refl _
  · exact Nat.le_max_left _ _

-- The byte that holds the bit is there afterwards, if the bit is stored at all.
theorem setBit_reaches {content : Bytes} {cmd : SetbitCmd}
    (hstored : cmd.value ≠ 0 ∨ byteOffset cmd.offset < content.length) :
    (setBit content cmd.offset cmd.value).length = max content.length (byteOffset cmd.offset + 1) := by
  rw [setBit_length]
  split
  · rename_i hzero
    exact (Nat.max_eq_left (hstored.resolve_left fun hone => hone hzero)).symm
  · rfl

theorem flipped_concat (cmds : ι → SetbitCmd) (content : Bytes) (order : List ι) (i : ι) :
    flipped cmds content (order ++ [i]) = setBit (flipped cmds content order) (cmds i).offset (cmds i).value := by
  rw [flipped, run_append]
  rfl

theorem flipped_append (cmds : ι → SetbitCmd) (content : Bytes) (order more : List ι) :
    flipped cmds content (order ++ more) = flipped cmds (flipped cmds content order) more :=
  run_append _ _ _ _

theorem flipped_length_le (cmds : ι → SetbitCmd) (content : Bytes) (order more : List ι) :
    (flipped cmds content order).length ≤ (flipped cmds content (order ++ more)).length := by
  rw [flipped_append]
  generalize flipped cmds content order = reached
  induction more generalizing reached with
  | nil => exact Nat.le_refl _
  | cons i more ih => exact Nat.le_trans (le_setBit_length _ _ _) (ih _)

-- What a SETBIT does behind the test of the length.
def setbitRead (cmd : SetbitCmd) (dt : Slot) : Cmd Int :=
  .act (.readFrom dt 1 (byteOffset cmd.offset)) fun dst =>
    if dst.r = 0 then .ret (-1) else setbitWrite cmd dt (Padded.get dst.buf 0)

theorem setbitCommand_eq (cmd : SetbitCmd) (dt : Slot) :
    setbitCommand cmd dt = .act (.descLength dt) fun length =>
      if byteOffset cmd.offset < length then setbitRead cmd dt
      else if cmd.value = 0 then .ret 0
      else setbitWrite cmd dt 0 := by
  refine congrArg (Prog.act (Act.descLength dt)) (funext fun length => ?_)
  by_cases hlt : byteOffset cmd.offset < length
  · simp only [Bind.bind, Prog.bind, Cmd.readFrom, ask, hlt, ite_true, setbitRead]
    rfl
  · simp only [Prog.bind, hlt, ite_false]
    rfl

theorem setbitWrite_eq (cmd : SetbitCmd) (dt : Slot) (byteval : UInt8) :
    setbitWrite cmd dt byteval =
      .act (.writeTo dt [withBit byteval cmd.offset cmd.value] (byteOffset cmd.offset)) fun r =>
        if r = 0 then .ret (-1) else .ret (bitOf byteval cmd.offset) := rfl

-- The write stores the bit if it was computed from the byte that is there.
theorem setBit_eq {cmd : SetbitCmd} (hstored : cmd.value ≠ 0 ∨ byteOffset cmd.offset < content.length)
    {byteval : UInt8} (hbyte : Padded.get content (byteOffset cmd.offset) = byteval) :
    Padded.overwrite content (byteOffset cmd.offset) [withBit byteval cmd.offset cmd.value] =
      setBit content cmd.offset cmd.value := by
  rw [setBit, if_neg (by omega), hbyte]

theorem Stream.setbitWrite (h : Stream dt st content content.length false) {cmd : SetbitCmd}
    (hstored : cmd.value ≠ 0 ∨ byteOffset cmd.offset < content.length) {byteval : UInt8}
    (hbyte : Padded.get content (byteOffset cmd.offset) = byteval) :
    ((setbitWrite cmd dt byteval).alone st).1 = bitAt content cmd.offset ∧
      Stream dt ((Solidbits.setbitWrite cmd dt byteval).alone st).2 (setBit content cmd.offset cmd.value)
        (setBit content cmd.offset cmd.value).length false := by
  obtain ⟨hresult, hstream⟩ := @Stream.writeTo _ _ _ _ _ h {} [withBit byteval cmd.offset cmd.value]
    (byteOffset cmd.offset) rfl rfl
  rw [setBit_eq hstored hbyte] at hstream
  rw [setbitWrite_eq, Cmd.alone, exec_act, show (execAct {} (.writeTo dt
    [withBit byteval cmd.offset cmd.value] (byteOffset cmd.offset)) st).1 = 1 from hresult]
  refine ⟨congrArg (bitOf · cmd.offset) hbyte.symm, ?_⟩
  rw [setBit_reaches hstored]
  exact hstream

-- A request by itself sets its bit and returns the one before.
theorem Stream.alone (h : Stream dt st content content.length false) (cmd : SetbitCmd) :
    ((setbitCommand cmd dt).alone st).1 = bitAt content cmd.offset ∧
      Stream dt ((setbitCommand cmd dt).alone st).2 (setBit content cmd.offset cmd.value)
        (setBit content cmd.offset cmd.value).length false := by
  have hlength : (execAct {} (.descLength dt) st).1 = content.length := h.length
  rw [setbitCommand_eq, Cmd.alone, exec_act, hlength]
  by_cases hlt : byteOffset cmd.offset < content.length
  · rw [if_pos hlt, setbitRead, exec_act, show (execAct {} (.readFrom dt 1 (byteOffset cmd.offset))
      (execAct {} (.descLength dt) st).2).1 = _ from h.read_byte hlt]
    exact (@Stream.readFrom _ _ _ _ _ h {} nofun 1 (byteOffset cmd.offset)).setbitWrite (Or.inr hlt) rfl
  · rw [if_neg hlt]
    by_cases hzero : cmd.value = 0
    · have hsame : setBit content cmd.offset cmd.value = content := if_pos ⟨Nat.not_lt.mp hlt, hzero⟩
      rw [if_pos hzero, hsame]
      exact ⟨(bitAt_past (Nat.not_lt.mp hlt)).symm, h⟩
    · rw [if_neg hzero]
      exact h.setbitWrite (Or.inl hzero) (Padded.get_of_le (Nat.not_lt.mp hlt))

theorem serially_stream (h : Ready dt st) (cmds : ι → SetbitCmd) (order : List ι) :
    Stream dt (serially cmds dt st order) (flipped cmds (st.shown dt) order)
      (flipped cmds (st.shown dt) order).length false := by
  induction order using List.reverseRecOn with
  | nil => exact h.stream
  | append_singleton order i ih =>
      simp only [serially, flipped, run_append, run_cons, run_nil]
      exact (ih.alone (cmds i)).2

end Serial

section Interleaved

variable {ι : Type} [DecidableEq ι]

-- SETBIT requests on one descriptor, each on a thread of its own. The ghost is
-- the byte the thread has read, and 0 before.
abbrev Setbits (ι : Type) := Pool ι Store Act Res Int UInt8

def noteByte (_ : Store) (seen : UInt8) : (action : Act) → Res action → UInt8
  | .readFrom _ _ _, dst => Padded.get dst.buf 0
  | _, _ => seen

def Setbits.next (jobs : Setbits ι) (label : ι × Choice) : Setbits ι := Pool.step execAct noteByte jobs label

def Setbits.start (cmds : ι → SetbitCmd) (dt : Slot) (st : Store) : Setbits ι :=
  Pool.start st 0 fun i => setbitCommand (cmds i) dt

-- A write that happens finds the byte that its new value was computed from, and
-- no seek loses what an earlier write has left in the buffer.
def Untouched (dt : Slot) (jobs : Setbits ι) (label : ι × Choice) : Prop :=
  match (jobs.threads label.1).prog with
  | .act (.readFrom _ _ _) _ => Flushes dt jobs.shared label.2
  | .act (.writeTo _ _ offset) _ => Flushes dt jobs.shared label.2 ∧
      (label.2.seekFails = false → label.2.ioFails = false →
        Padded.get (jobs.shared.shown dt) offset.toNat = (jobs.threads label.1).ghost)
  | _ => True

instance (dt : Slot) (jobs : Setbits ι) (label : ι × Choice) : Decidable (Untouched dt jobs label) := by
  unfold Untouched
  split
  · infer_instance
  · infer_instance
  · exact isTrue trivial

-- The requests that have taken effect did so in some order: the bitmap is what
-- they make of it one after the other, and so is each reply that is no failure.
def Linearized (cmds : ι → SetbitCmd) (dt : Slot) (st : Store) (jobs : Setbits ι) : Prop :=
  ∃ order : List ι, order.Nodup ∧ (∀ i ∈ order, (jobs.threads i).prog.Finished) ∧
    jobs.shared.shown dt = (serially cmds dt st order).shown dt ∧
    ∀ i reply, (jobs.threads i).prog = .ret reply → reply ≠ -1 →
      ∃ before after, order = before ++ i :: after ∧
        reply = ((setbitCommand (cmds i) dt).alone (serially cmds dt st before)).1

-- How far a request is; length is the recorded one.
inductive Stage (cmd : SetbitCmd) (dt : Slot) (length : Nat) : UInt8 → Cmd Int → Prop
  | test : Stage cmd dt length 0 (setbitCommand cmd dt)
  | read (hlt : byteOffset cmd.offset < length) : Stage cmd dt length 0 (setbitRead cmd dt)
  | write (seen : UInt8) (hstored : cmd.value ≠ 0 ∨ byteOffset cmd.offset < length) :
      Stage cmd dt length seen (setbitWrite cmd dt seen)
  | done (seen : UInt8) (reply : Int) : Stage cmd dt length seen (.ret reply)

theorem Stage.mono {cmd : SetbitCmd} {dt : Slot} {length longer : Nat} (hle : length ≤ longer) {seen : UInt8}
    {prog : Cmd Int} (h : Stage cmd dt length seen prog) : Stage cmd dt longer seen prog := by
  cases h with
  | test => exact .test
  | read hlt => exact .read (Nat.lt_of_lt_of_le hlt hle)
  | write seen hstored => exact .write seen (hstored.imp_right fun hlt => Nat.lt_of_lt_of_le hlt hle)
  | done seen reply => exact .done seen reply

-- The requests with a reply and, once the error indicator is set, those that
-- took effect without one. The recorded length does not see the latter.
structure Linear (cmds : ι → SetbitCmd) (dt : Slot) (content : Bytes) (jobs : Setbits ι) (acked lost : List ι)
    (err : Bool) : Prop where
  stage : ∀ i, Stage (cmds i) dt (flipped cmds content acked).length (jobs.threads i).ghost (jobs.threads i).prog
  stream : Stream dt jobs.shared (flipped cmds content (acked ++ lost)) (flipped cmds content acked).length err
  clear : err = false → lost = []
  nodup : (acked ++ lost).Nodup
  finished : ∀ i ∈ acked ++ lost, (jobs.threads i).prog.Finished
  replies : ∀ i reply, (jobs.threads i).prog = .ret reply → reply ≠ -1 →
    ∃ before after, acked = before ++ i :: after ∧ reply = bitAt (flipped cmds content before) (cmds i).offset

variable {cmds : ι → SetbitCmd} {dt : Slot} {content : Bytes} {jobs : Setbits ι} {acked lost : List ι} {err err' : Bool}
variable {i : ι} {shared : Store} {prog : Cmd Int} {seen : UInt8}

-- The thread moves on and has not taken effect, or never will.
theorem Linear.stays (h : Linear cmds dt content jobs acked lost err) (hbusy : ¬(jobs.threads i).prog.Finished)
    (hstream : Stream dt shared (flipped cmds content (acked ++ lost)) (flipped cmds content acked).length err')
    (herr : err' = false → err = false)
    (hstage : Stage (cmds i) dt (flipped cmds content acked).length seen prog)
    (hfails : ∀ reply, prog = .ret reply → reply = -1) :
    Linear cmds dt content ⟨shared, Function.update jobs.threads i ⟨prog, seen⟩⟩ acked lost err' where
  stage := (Function.forall_update_iff jobs.threads fun other thread =>
    Stage (cmds other) dt (flipped cmds content acked).length thread.ghost thread.prog).mpr
      ⟨hstage, fun other _ => h.stage other⟩
  stream := hstream
  clear := fun hclear => h.clear (herr hclear)
  nodup := h.nodup
  finished := by
    intro other hm
    have hne : other ≠ i := fun he => hbusy (he ▸ h.finished other hm)
    simpa only [Function.update_of_ne hne] using h.finished other hm
  replies := (Function.forall_update_iff jobs.threads fun other thread => ∀ reply, thread.prog = .ret reply →
    reply ≠ -1 → ∃ before after, acked = before ++ other :: after ∧
      reply = bitAt (flipped cmds content before) (cmds other).offset).mpr
      ⟨fun reply hp hr => absurd (hfails reply hp) hr, fun other _ => h.replies other⟩

-- The thread takes effect behind the others: with its reply, or without one.
theorem Linear.effect (h : Linear cmds dt content jobs acked lost err) (hbusy : ¬(jobs.threads i).prog.Finished)
    {acked' lost' : List ι} {reply : Int}
    (heffect : acked' = acked ++ [i] ∧ lost' = lost ∧ reply = bitAt (flipped cmds content acked) (cmds i).offset ∨
      acked' = acked ∧ lost' = lost ++ [i] ∧ reply = -1)
    (hclear : err = false → lost' = [])
    (hstream : Stream dt shared (flipped cmds content (acked' ++ lost')) (flipped cmds content acked').length err) :
    Linear cmds dt content ⟨shared, Function.update jobs.threads i ⟨.ret reply, seen⟩⟩ acked' lost' err := by
  have hnew : i ∉ acked ++ lost := fun hm => hbusy (h.finished i hm)
  have hperm : (acked' ++ lost').Perm (i :: (acked ++ lost)) := by
    rcases heffect with ⟨rfl, rfl, _⟩ | ⟨rfl, rfl, _⟩
    · rw [List.append_assoc]
      exact List.perm_middle
    · rw [← List.append_assoc]
      exact List.perm_append_singleton _ _
  have hbuffered : ∃ more, acked' = acked ++ more := by
    rcases heffect with ⟨rfl, _, _⟩ | ⟨rfl, _, _⟩
    · exact ⟨[i], rfl⟩
    · exact ⟨[], (List.append_nil _).symm⟩
  obtain ⟨more, hmore⟩ := hbuffered
  have hlonger : (flipped cmds content acked).length ≤ (flipped cmds content acked').length := by
    rw [hmore]
    exact flipped_length_le _ _ _ _
  refine ⟨?_, hstream, hclear, hperm.nodup_iff.mpr (List.nodup_cons.mpr ⟨hnew, h.nodup⟩), ?_, ?_⟩
  · exact (Function.forall_update_iff jobs.threads fun other thread =>
      Stage (cmds other) dt (flipped cmds content acked').length thread.ghost thread.prog).mpr
        ⟨.done seen reply, fun other _ => (h.stage other).mono hlonger⟩
  · intro other hm
    by_cases hi : other = i
    · subst hi
      simp only [Function.update_self]
      trivial
    · simpa only [Function.update_of_ne hi] using
        h.finished other ((List.mem_cons.mp (hperm.mem_iff.mp hm)).resolve_left hi)
  · refine (Function.forall_update_iff jobs.threads fun other thread => ∀ reply, thread.prog = .ret reply →
      reply ≠ -1 → ∃ before after, acked' = before ++ other :: after ∧
        reply = bitAt (flipped cmds content before) (cmds other).offset).mpr ⟨?_, fun other _ => ?_⟩
    · rintro _ ⟨⟩ hok
      rcases heffect with ⟨rfl, _, hreply⟩ | ⟨_, _, hreply⟩
      · exact ⟨acked, [], rfl, hreply⟩
      · exact absurd hreply hok
    · intro reply' hp hok
      obtain ⟨before, after, rfl, hreply⟩ := h.replies other reply' hp hok
      exact ⟨before, after ++ more, by rw [hmore, List.append_assoc, List.cons_append], hreply⟩

theorem Linear.test (h : Linear cmds dt content jobs acked lost err)
    (hprog : (jobs.threads i).prog = setbitCommand (cmds i) dt) (hseen : (jobs.threads i).ghost = 0)
    (choice : Choice) : ∃ acked' lost' err', acked <+: acked' ∧
      Linear cmds dt content (jobs.next (i, choice)) acked' lost' err' := by
  rw [setbitCommand_eq] at hprog
  have hbusy : ¬(jobs.threads i).prog.Finished := by
    rw [hprog]
    exact id
  have hlength : (execAct choice (.descLength dt) jobs.shared).1 = (flipped cmds content acked).length :=
    h.stream.length
  rw [Setbits.next, Pool.step_act execAct noteByte hprog, Pool.advance, hlength]
  by_cases hlt : byteOffset (cmds i).offset < (flipped cmds content acked).length
  · rw [if_pos hlt]
    refine ⟨acked, lost, err, List.prefix_rfl, h.stays hbusy h.stream id ?_ nofun⟩
    rw [show noteByte _ (jobs.threads i).ghost (.descLength dt) _ = 0 from hseen]
    exact .read hlt
  · rw [if_neg hlt]
    by_cases hzero : (cmds i).value = 0
    · have hpast := Nat.not_lt.mp hlt
      have hsame : flipped cmds content (acked ++ [i]) = flipped cmds content acked := by
        rw [flipped_concat]
        exact if_pos ⟨hpast, hzero⟩
      have hstream := h.stream
      rw [flipped_append, ← hsame, ← flipped_append] at hstream
      rw [if_pos hzero]
      exact ⟨acked ++ [i], lost, err, List.prefix_append _ _,
        h.effect hbusy (Or.inl ⟨rfl, rfl, (bitAt_past hpast).symm⟩) h.clear hstream⟩
    · rw [if_neg hzero]
      refine ⟨acked, lost, err, List.prefix_rfl, h.stays hbusy h.stream id ?_ nofun⟩
      rw [show noteByte _ (jobs.threads i).ghost (.descLength dt) _ = 0 from hseen]
      exact .write 0 (Or.inl hzero)

theorem Linear.read (h : Linear cmds dt content jobs acked lost err)
    (hprog : (jobs.threads i).prog = setbitRead (cmds i) dt)
    (hlt : byteOffset (cmds i).offset < (flipped cmds content acked).length) {choice : Choice}
    (hflushes : Flushes dt jobs.shared choice) :
    ∃ acked' lost' err', acked <+: acked' ∧ Linear cmds dt content (jobs.next (i, choice)) acked' lost' err' := by
  have hbusy : ¬(jobs.threads i).prog.Finished := by
    rw [hprog]
    exact id
  have hstream := h.stream.readFrom hflushes 1 (byteOffset (cmds i).offset)
  have herr : (err || choice.ioFails) = false → err = false := fun hclear => (Bool.or_eq_false_iff.mp hclear).1
  rw [Setbits.next, Pool.step_act execAct noteByte hprog, Pool.advance]
  refine ⟨acked, lost, _, List.prefix_rfl, h.stays hbusy hstream herr ?_ ?_⟩
  · split
    · exact .done _ (-1)
    · exact .write _ (Or.inr hlt)
  · split
    · rintro reply ⟨⟩
      rfl
    · intro reply hreply
      cases hreply

theorem Linear.write (h : Linear cmds dt content jobs acked lost err)
    (hprog : (jobs.threads i).prog = setbitWrite (cmds i) dt seen)
    (hstored : (cmds i).value ≠ 0 ∨ byteOffset (cmds i).offset < (flipped cmds content acked).length)
    {choice : Choice} (hflushes : Flushes dt jobs.shared choice)
    (hsame : choice.seekFails = false → choice.ioFails = false →
      Padded.get (flipped cmds content (acked ++ lost)) (byteOffset (cmds i).offset) = seen) :
    ∃ acked' lost' err', acked <+: acked' ∧ Linear cmds dt content (jobs.next (i, choice)) acked' lost' err' := by
  have hbusy : ¬(jobs.threads i).prog.Finished := by
    rw [hprog]
    exact id
  rw [setbitWrite_eq] at hprog
  rw [Setbits.next, Pool.step_act execAct noteByte hprog, Pool.advance]
  simp only [execAct]
  by_cases hfails : choice.seekFails = true ∨ choice.ioFails = true
  · obtain ⟨hresult, hstream⟩ := @Stream.writeTo_fails _ _ _ _ _ h.stream choice hflushes
      [withBit seen (cmds i).offset (cmds i).value] (Nat.lt_of_lt_of_le Nat.one_lt_two (by decide))
      (byteOffset (cmds i).offset) hfails
    simp only [hresult, ite_true]
    refine ⟨acked, lost, _, List.prefix_rfl,
      h.stays hbusy hstream (fun hclear => (Bool.or_eq_false_iff.mp hclear).1) (.done _ _) ?_⟩
    rintro reply ⟨⟩
    rfl
  · rw [not_or, Bool.not_eq_true, Bool.not_eq_true] at hfails
    have hbyte := hsame hfails.1 hfails.2
    obtain ⟨hresult, hstream⟩ := h.stream.writeTo [withBit seen (cmds i).offset (cmds i).value]
      (byteOffset (cmds i).offset) hfails.1 hfails.2
    have hlonger := flipped_length_le cmds content acked lost
    rw [setBit_eq (hstored.imp_right fun hlt => Nat.lt_of_lt_of_le hlt hlonger) hbyte, ← flipped_concat] at hstream
    cases err with
    | true =>
        simp only [hresult, ite_true]
        refine ⟨acked, lost ++ [i], true, List.prefix_rfl,
          h.effect hbusy (Or.inr ⟨rfl, rfl, rfl⟩) (fun herr => Bool.noConfusion herr) ?_⟩
        rw [← List.append_assoc]
        exact hstream
    | false =>
        obtain rfl := h.clear rfl
        rw [List.append_nil] at hbyte hstream
        simp only [hresult, Bool.false_eq_true, ite_false, List.length_singleton, Nat.one_ne_zero]
        refine ⟨acked ++ [i], [], false, List.prefix_append _ _,
          h.effect hbusy (Or.inl ⟨rfl, rfl, ?_⟩) (fun _ => rfl) ?_⟩
        · rw [bitAt, hbyte]
        · rw [List.append_nil, flipped_concat, setBit_reaches hstored, ← flipped_concat]
          exact hstream

-- Who takes effect does so behind those that have.
theorem Linear.advance (h : Linear cmds dt content jobs acked lost err) {label : ι × Choice}
    (hsame : Untouched dt jobs label) :
    ∃ acked' lost' err', acked <+: acked' ∧ Linear cmds dt content (jobs.next label) acked' lost' err' := by
  obtain ⟨i, choice⟩ := label
  have hstage := h.stage i
  generalize hprog : (jobs.threads i).prog = prog at hstage
  generalize hseen : (jobs.threads i).ghost = seen at hstage
  cases hstage with
  | done seen reply =>
      rw [Setbits.next, Pool.step_ret execAct noteByte hprog]
      exact ⟨acked, lost, err, List.prefix_rfl, h⟩
  | test => exact h.test hprog hseen choice
  | read hlt =>
      simp only [Untouched, hprog, setbitRead] at hsame
      exact h.read hprog hlt hsame
  | write seen hstored =>
      simp only [Untouched, hprog, setbitWrite_eq, hseen, h.stream.shown, Int.toNat_natCast] at hsame
      exact h.write hprog hstored hsame.1 hsame.2

theorem Linear.step (h : Linear cmds dt content jobs acked lost err) {label : ι × Choice}
    (hsame : Untouched dt jobs label) :
    ∃ acked' lost' err', Linear cmds dt content (jobs.next label) acked' lost' err' := by
  obtain ⟨acked', lost', err', _, hnext⟩ := h.advance hsame
  exact ⟨acked', lost', err', hnext⟩

omit [DecidableEq ι] in
theorem Linear.start (h : Ready dt shared) (cmds : ι → SetbitCmd) :
    Linear cmds dt (shared.shown dt) (Setbits.start cmds dt shared) [] [] false where
  stage := fun _ => .test
  stream := h.stream
  clear := fun _ => rfl
  nodup := List.nodup_nil
  finished := fun _ hm => absurd hm List.not_mem_nil
  replies := nofun

omit [DecidableEq ι] in
theorem Linear.linearized (hready : Ready dt shared) (h : Linear cmds dt (shared.shown dt) jobs acked lost err) :
    Linearized cmds dt shared jobs := by
  refine ⟨acked ++ lost, h.nodup, h.finished, h.stream.shown.trans (serially_stream hready cmds _).shown.symm, ?_⟩
  intro i reply hp hok
  obtain ⟨before, after, rfl, hreply⟩ := h.replies i reply hp hok
  refine ⟨before, after ++ lost, by rw [List.append_assoc, List.cons_append], ?_⟩
  rw [((serially_stream hready cmds before).alone (cmds i)).1]
  exact hreply

-- However the steps of the requests interleave, as long as no write overwrites
-- a byte that changed since its request looked at it, and none is lost.
theorem setbits_linearizable (cmds : ι → SetbitCmd) (hready : Ready dt shared) (labels : List (ι × Choice))
    (hsame : AllSteps Setbits.next (Untouched dt) (Setbits.start cmds dt shared) labels) :
    AllStates Setbits.next (Linearized cmds dt shared) (Setbits.start cmds dt shared) labels := by
  refine (allStates_of_invariant Setbits.next
    (fun jobs => ∃ acked lost err, Linear cmds dt (shared.shown dt) jobs acked lost err) ?_
    ⟨[], [], false, Linear.start hready cmds⟩ hsame).mono Setbits.next ?_
  · rintro jobs label ⟨acked, lost, err, h⟩ hstep
    exact h.step hstep
  · rintro jobs ⟨acked, lost, err, h⟩
    exact h.linearized hready

end Interleaved

section Overlap

variable {st st' : Store} {hash : UInt64} {slot : Slot}

theorem ready_of_fields {other : Store} (h : Ready slot st) (hfs : other.fs = st.fs)
    (hfd : (other.descs slot).fd = (st.descs slot).fd) (hlength : (other.descs slot).length = (st.descs slot).length) :
    Ready slot other := by
  obtain ⟨⟨n, file, hopen, hf, herr⟩, htight⟩ := h
  have hshown : other.shown slot = st.shown slot := by
    rw [Store.shown, hfs, hfd]
    rfl
  exact ⟨⟨n, file, hfd.trans hopen, by rw [hfs]; exact hf, herr⟩, by rw [hlength, hshown]; exact htight⟩

theorem link_slot (st : Store) (bucket : Bucket) (last : Option Slot) (depth : Nat) (new slot : Slot) :
    ((link st bucket last depth new).descs slot).fd = (st.descs slot).fd ∧
      ((link st bucket last depth new).descs slot).length = (st.descs slot).length := by
  have hset : ∀ (st : Store) (other : Slot) (desc : Desc), desc.fd = (st.descs other).fd →
      desc.length = (st.descs other).length → ((st.setDesc other desc).descs slot).fd = (st.descs slot).fd ∧
        ((st.setDesc other desc).descs slot).length = (st.descs slot).length := by
    intro st other desc hfd hlength
    by_cases ho : slot = other
    · subst ho
      rw [setDesc_self]
      exact ⟨hfd, hlength⟩
    · rw [setDesc_of_ne _ _ ho]
      exact ⟨rfl, rfl⟩
  unfold link
  split
  · exact ⟨rfl, rfl⟩
  · split
    · exact ⟨rfl, rfl⟩
    · rename_i tmp
      have hprev := hset (st.setDesc tmp { st.descs tmp with next := some new }) new
        { (st.setDesc tmp { st.descs tmp with next := some new }).descs new with prev := some tmp } rfl rfl
      have hnext := hset st tmp { st.descs tmp with next := some new } rfl rfl
      exact ⟨hprev.1.trans hnext.1, hprev.2.trans hnext.2⟩

-- A descriptor that prepare_file opens for SETBIT is ready.
theorem prepared_ready {choice : Choice} {last : Option Slot} {depth : Nat}
    (habsent : lookup st hash = .absent last depth) (hp : prepareHashed choice hash 0 st = (.ok slot, st')) :
    Ready slot st' := by
  rcases prepareHashed_cases choice hash 0 st with ⟨found, hfound, _⟩ | ⟨last', depth', _,
    ⟨error, failed, _, hfailed⟩ | ⟨new, opened, ho, hopened⟩⟩
  · cases habsent.symm.trans hfound
  · cases hfailed.symm.trans hp
  · obtain ⟨hnew, rfl⟩ := Prod.mk.inj (hp.symm.trans hopened)
    obtain rfl := Except.ok.inj hnew
    obtain ⟨hfd, hlength⟩ := link_slot (opened.setDesc slot (stamp choice hash (opened.descs slot)))
      (bucketOf hash) last' depth' slot slot
    rw [setDesc_self] at hfd hlength
    suffices hready : Ready slot opened from ready_of_fields hready (link_fs _ _ _ _ _) hfd hlength
    rcases openFile_cases choice hash (Nat.zero_le 2) st with ⟨error, hfailed⟩ | ⟨hfailed, _⟩ |
      ⟨fd, length, fs, hopens, _, hplaced⟩
    · cases hfailed.symm.trans ho
    · cases hfailed.symm.trans ho
    · obtain ⟨hslot, rfl⟩ := Prod.mk.inj (ho.symm.trans hplaced)
      obtain rfl := Except.ok.inj hslot
      generalize (getAvalibleSlot choice st).2 = before at hopens
      obtain ⟨rfl, _, hfiles⟩ := hopens.fresh
      have hmine : fs.files before.fs.nextFile = some { path := hash } := by
        rw [hfiles, Function.update_self]
      have hopen : ((before.place (some before.fs.nextFile) length fs).descs before.idx).fd =
          some before.fs.nextFile := by rw [place_self]
      refine ⟨⟨_, _, hopen, hmine, rfl⟩, ?_⟩
      rw [store_shown hopen, place_self, place_fs, shown_of_files hmine]
      cases hopens with
      | existing hdisk hmode => simp [File.applied, Fs.content, Fs.fopenRead, hdisk]
      | truncated hdisk hmode => cases hmode
      | created hdisk hmode => simp [File.applied, Fs.content, Fs.fopenWrite]

-- The file k as the first SETBIT creates it.
def newFile : Store := (prepareFile {} (str "k") 0 (initFile fun _ => none)).2

theorem newFile_ready : Ready 0 newFile :=
  ⟨⟨0, { path := xxh64 (str "k") 0 }, by decide +kernel, by decide +kernel, rfl⟩, by decide +kernel⟩

-- Two requests for bits of different bytes do not get in each other's way.
theorem setbits_linearizable_two_bytes :
    let cmds : Bool → SetbitCmd := fun second => { offset := if second then 8 else 0, value := 1 }
    Linearized cmds 0 newFile (run Setbits.next (Setbits.start cmds 0 newFile)
      [(false, {}), (true, {}), (false, {}), (true, {})]) := by
  intro cmds
  exact (setbits_linearizable cmds newFile_ready [(false, {}), (true, {}), (false, {}), (true, {})]
    (by decide +kernel)).last

-- Both test the length before the other writes: both reply 0, and the first bit
-- is gone.
theorem first_bit_lost :
    let cmds : Bool → SetbitCmd := fun second => { offset := if second then 1 else 0, value := 1 }
    let labels := [(false, {}), (true, {}), (false, {}), (true, {})]
    Ready 0 newFile ∧ (run Setbits.next (Setbits.start cmds 0 newFile) labels).shared.shown 0 = [64] ∧
      ¬AllStates Setbits.next (Linearized cmds 0 newFile) (Setbits.start cmds 0 newFile) labels := by
  intro cmds labels
  have hlast : (run Setbits.next (Setbits.start cmds 0 newFile) labels).shared.shown 0 = [64] := by decide +kernel
  refine ⟨newFile_ready, hlast, fun h => ?_⟩
  obtain ⟨order, hnodup, _, hshown, hreplies⟩ := h.last
  have hmem : ∀ second, second ∈ order := by
    intro second
    have hdone : ((run Setbits.next (Setbits.start cmds 0 newFile) labels).threads second).prog = .ret 0 := by
      apply eq_ret_of_returned
      revert second
      decide +kernel
    obtain ⟨before, after, rfl, _⟩ := hreplies second 0 hdone (by decide)
    exact List.mem_append_right before List.mem_cons_self
  have hperm : order.Perm [false, true] :=
    (List.perm_ext_iff_of_nodup hnodup (by decide)).mpr fun second => by simp [hmem]
  obtain ⟨first, second, rfl⟩ := List.length_eq_two.mp hperm.length_eq
  rw [hlast, (serially_stream newFile_ready cmds [first, second]).shown] at hshown
  have hboth : ∀ first second, [first, second].Nodup → flipped cmds (newFile.shown 0) [first, second] ≠ [64] := by
    decide +kernel
  exact hboth first second hnodup hshown.symm

end Overlap

end Solidbits
