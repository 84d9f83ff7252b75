import Solidbits.File.Still
import Solidbits.Net.Restart
import Solidbits.Serial.Quiet

namespace Solidbits

open Prog Transition

section Requests

variable {st : Store} {disk : Contents} {l l' : Ledger} {event : Event}

theorem execAct_still (h : st.fs.Still disk) (choice : Choice) {action : Act} (hquiet : Quiet action) :
    (execAct choice action st).2.fs.Still disk := by
  cases action with
  | prepareFile key mode =>
      have hmode : mode = 1 := hquiet
      rw [hmode]
      exact still_prepareFile h choice key
  | readFrom dt size offset => exact still_readFrom h choice dt size offset
  | writeTo dt buf offset => exact hquiet.elim
  | releaseDesc dt => exact h
  | descLength dt => exact h
  | posixMemalign => exact h
  | reply text len => exact h

theorem Ledger.Step.lines (h : l.Step event l') : l.lines <+: l'.lines := by
  have hgoes : ∀ {before after : Ledger}, before.Goes after → before.lines <+: after.lines := by
    intro before after hstep
    cases hstep with
    | stays => exact List.prefix_rfl
    | closes => exact List.prefix_rfl
    | takes line hidle hopen => exact List.prefix_append _ _
  cases h with
  | goes hstep => exact hgoes hstep
  | silent w hworks hwrites hsilent => exact List.prefix_rfl
  | refused hworks hwrites => exact List.prefix_rfl
  | handed w hworks hwrites hopen => exact List.prefix_rfl
  | failed hworks hwrites => exact List.prefix_rfl
  | flushed w hworks hwrites hstep =>
      have hlines := hgoes hstep
      exact hlines

-- A worker is only given a line that the connection has taken.
theorem hire_cases (h : l.Step event l') (thread : Thread Act Res Unit (Option WorkReq)) :
    hire thread l.works l'.works = thread ∨ ∃ line ∈ l'.lines, hire thread l.works l'.works =
      ⟨parseAndExecute line, some { line := line }⟩ := by
  have hgoes : ∀ {before after : Ledger}, before.Goes after → hire thread before.works after.works = thread ∨
      ∃ line ∈ after.lines, hire thread before.works after.works =
        ⟨parseAndExecute line, some { line := line }⟩ := by
    intro before after hstep
    cases hstep with
    | stays => exact Or.inl (hire_same thread _)
    | closes => exact Or.inl (hire_same thread _)
    | takes line hidle hopen =>
        rw [hidle.1]
        exact Or.inr ⟨line, List.mem_append_right _ (List.mem_singleton_self line), rfl⟩
  have hkept : ∀ works : List WorkReq, hire thread works [] = thread := by
    intro works
    cases works <;> rfl
  cases h with
  | goes hstep => exact hgoes hstep
  | silent w hworks hwrites hsilent => exact Or.inl (hkept _)
  | refused hworks hwrites => exact Or.inl (hkept _)
  | handed w hworks hwrites hopen => exact Or.inl (hkept _)
  | failed hworks hwrites => exact Or.inl (hire_same thread _)
  | flushed w hworks hwrites hstep =>
      have hcases := hgoes hstep
      exact hcases

end Requests

section Runs

variable {ι : Type} [DecidableEq ι] {disk : Contents} {service : Service ι}

-- Every line so far is a GETBIT, a BITCOUNT, a BITOP without a destination, or
-- is refused.
def Service.ReadOnly (service : Service ι) : Prop :=
  ∀ i, ∀ line ∈ (service.conns i).lines, (request line).changes = false

structure Service.Unwritten (disk : Contents) (service : Service ι) : Prop where
  still : service.workers.shared.fs.Still disk
  quiet : ∀ i, (service.workers.threads i).prog.Only Quiet fun _ => True

theorem Service.Unwritten.callback (h : service.Unwritten disk) (hshape : ∀ i, Framed (service.conns i) (service.conns i).rbuf)
    (i : ι) (event : Event) (hlines : (service.callback i event).ReadOnly) :
    (service.callback i event).Unwritten disk := by
  constructor
  · rw [callback_threads]
    exact h.still
  · rw [callback_threads]
    refine (Function.forall_update_iff service.workers.threads fun _ thread => thread.prog.Only Quiet fun _ => True).mpr
      ⟨?_, fun other _ => h.quiet other⟩
    rcases hire_cases (next_ledger (hshape i).toShape event) (service.workers.threads i) with he | ⟨line, hm, he⟩
    · have hthread : hire (service.workers.threads i) (service.conns i).works ((service.conns i).next event).works =
          service.workers.threads i := he
      rw [hthread]
      exact h.quiet i
    · have hline := hlines i line
      simp only [Service.callback, Function.update_self] at hline
      have hthread : hire (service.workers.threads i) (service.conns i).works ((service.conns i).next event).works =
          ⟨parseAndExecute line, some { line := line }⟩ := he
      rw [hthread, parseAndExecute_eq]
      exact request_quiet (hline hm)

theorem Service.Unwritten.next (h : service.Unwritten disk) (hshape : ∀ i, Framed (service.conns i) (service.conns i).rbuf)
    (move : Move ι) (hlines : (service.next move).ReadOnly) : (service.next move).Unwritten disk := by
  cases move with
  | read i chunk reallocFails allocFails => exact h.callback hshape i _ hlines
  | readEnd i => exact h.callback hshape i _ hlines
  | act i choice =>
      rcases Pool.step_cases execAct (fun _ => noteReply) service.workers (i, choice) with he | ⟨action, next, hprog, he⟩
      · simp only [Service.next, he]
        exact h
      · have hquiet := h.quiet i
        rw [show (service.workers.threads i).prog = .act action next from hprog] at hquiet
        simp only [Service.next, he]
        refine ⟨execAct_still h.still choice hquiet.1, ?_⟩
        exact (Function.forall_update_iff service.workers.threads fun _ thread =>
          thread.prog.Only Quiet fun _ => True).mpr ⟨hquiet.2 _, fun other _ => h.quiet other⟩
  | afterWork i writeFails =>
      simp only [Service.next] at hlines ⊢
      split
      · rename_i hprog hghost
        simp only [hprog, hghost] at hlines
        exact h.callback hshape i _ hlines
      · exact h
  | onWrite i status allocFails => exact h.callback hshape i _ hlines

theorem framed_next (h : ∀ i, Framed (service.conns i) (service.conns i).rbuf) (move : Move ι) (i : ι) :
    Framed ((service.next move).conns i) ((service.next move).conns i).rbuf := by
  obtain ⟨event, he, _⟩ := service_conns service move i
  rw [he]
  exact (h i).next event

theorem readOnly_before (hshape : ∀ i, Framed (service.conns i) (service.conns i).rbuf) {move : Move ι}
    (h : (service.next move).ReadOnly) : service.ReadOnly := by
  intro i line hm
  obtain ⟨event, he, _⟩ := service_conns service move i
  have hlines : (service.conns i).lines <+: ((service.next move).conns i).lines :=
    he ▸ (next_ledger (hshape i).toShape event).lines
  exact h i line (hlines.subset hm)

-- Requests that only read change no file, however many clients send them, however
-- they interleave, whatever fails and whatever is evicted, and SIGTERM at any time
-- leaves the data directory as it was.
theorem reads_never_write (disk : Contents) (moves : List (Move ι)) :
    AllStates Service.next
      (fun service => service.ReadOnly → service.workers.shared.fs.disk = disk ∧
        ∀ fails, service.onSigterm fails = disk)
      (Service.start disk) moves := by
  refine (allStates_of_invariant Service.next
    (fun service => (∀ i, Framed (service.conns i) (service.conns i).rbuf) ∧
      (service.ReadOnly → service.Unwritten disk)) ?_ ?_ (AllSteps.trivial Service.next _ moves)).mono Service.next ?_
  · rintro service move ⟨hshape, h⟩ _
    exact ⟨framed_next hshape move, fun hlines => (h (readOnly_before hshape hlines)).next hshape move hlines⟩
  · refine ⟨fun _ => Framed.init, fun _ => ⟨⟨rfl, ?_⟩, fun _ => trivial⟩⟩
    intro n file hf
    cases hf
  · rintro service ⟨_, h⟩ hlines
    exact ⟨(h hlines).still.disk, fun fails => (still_closeFiles (h hlines).still fails).disk⟩

end Runs

end Solidbits
