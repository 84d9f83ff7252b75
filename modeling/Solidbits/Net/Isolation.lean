import Solidbits.Net.Sessions

namespace Solidbits

open Prog Transition

section Plain

variable {ν : Type} [DecidableEq ν] (name : Bytes → ν)

theorem plainReplies_append (m : ν → Option Bytes) (lines more : List Bytes) : plainReplies name m (lines ++ more) =
    plainReplies name m lines ++ plainReplies name (plainMap name m lines) more := by
  induction lines generalizing m with
  | nil => rfl
  | cons first lines ih => exact congrArg (_ :: ·) (ih _)

theorem plainMap_append (m : ν → Option Bytes) (lines more : List Bytes) :
    plainMap name m (lines ++ more) = plainMap name (plainMap name m lines) more :=
  List.foldl_append

-- Requests on some names do not notice what stands under the others.
theorem plain_agree (keys : Bytes → Prop) {m m' : ν → Option Bytes} (hm : ∀ key, keys key → m (name key) = m' (name key))
    {lines : List Bytes} (hlines : ∀ line ∈ lines, ∀ key ∈ (request line).keys, keys key) :
    plainReplies name m lines = plainReplies name m' lines ∧
      ∀ key, keys key → plainMap name m lines (name key) = plainMap name m' lines (name key) := by
  induction lines generalizing m m' with
  | nil => exact ⟨rfl, hm⟩
  | cons first lines ih =>
      obtain ⟨hreply, hafter⟩ := plain_rename name name keys (fun _ _ _ _ he => he) (fun _ _ _ _ he => he) hm
        (request first) (hlines first List.mem_cons_self)
      obtain ⟨hreplies, hmap⟩ := ih hafter fun line hm => hlines line (List.mem_cons_of_mem first hm)
      refine ⟨?_, hmap⟩
      rw [plainReplies, plainReplies, hreply, hreplies]

end Plain

section Divided

variable {ι : Type} [DecidableEq ι] {own : ι → UInt64 → Prop} {disk : Contents} {service : Service ι}
variable {g : Desk} {desks : ι → Desk}

-- Every worker runs its request on the desk of its connection.
structure Service.Divided (own : ι → UInt64 → Prop) (disk : Contents) (service : Service ι) (g : Desk)
    (desks : ι → Desk) : Prop where
  carried : Carries g service.workers.shared
  shared : Shares own g desks
  framed : ∀ i, Framed (service.conns i) (service.conns i).rbuf
  ordered : ∀ i, Ordered (fun _ _ => True) (service.conns i)
  sessions : ∀ i, Session own disk i (service.conns i).ledger (service.workers.threads i) (desks i)

-- Nothing fails, and so nothing has moved bytes and failed then.
def Choice.Fine (choice : Choice) : Prop :=
  choice.pathFails = false ∧ choice.fopenFails = false ∧ choice.seekFails = false ∧ choice.flushFails = false ∧
    choice.ioFails = false ∧ choice.ioBytes = 0 ∧ choice.memoryFails = false

instance (choice : Choice) : Decidable choice.Fine :=
  inferInstanceAs (Decidable (_ ∧ _ ∧ _ ∧ _ ∧ _ ∧ _ ∧ _))

theorem Choice.Fine.eq {choice : Choice} (h : choice.Fine) : choice = onTime choice.scanUs choice.stampUs := by
  obtain ⟨scanUs, stampUs, pathFails, fopenFails, seekFails, flushFails, ioFails, ioBytes, memoryFails⟩ := choice
  obtain ⟨rfl, rfl, rfl, rfl, rfl, rfl, rfl⟩ := h
  rfl

-- Nothing fails in an action of a worker, and a file that it opens finds a free
-- descriptor and an empty bucket.
def Service.Undisturbed (service : Service ι) : Move ι → Prop
  | .act i choice => choice.Fine ∧
      match (service.workers.threads i).prog with
      | .act action _ => RoomFor choice service.workers.shared action
      | .ret _ => True
  | _ => True

instance (service : Service ι) (move : Move ι) : Decidable (service.Undisturbed move) := by
  unfold Service.Undisturbed
  split
  · refine @instDecidableAnd _ _ _ ?_
    split
    · infer_instance
    · exact isTrue trivial
  · exact isTrue trivial

-- The lines that every connection takes are about its own paths.
def Service.Admits (own : ι → UInt64 → Prop) (service : Service ι) (move : Move ι) : Prop :=
  ∀ i, ∀ line ∈ ((service.next move).conns i).lines, Admitted own i line

instance [Fintype ι] [∀ i hash, Decidable (own i hash)] (service : Service ι) (move : Move ι) :
    Decidable (service.Admits own move) :=
  inferInstanceAs (Decidable (∀ i, ∀ line ∈ ((service.next move).conns i).lines,
    (request line).isBitop = false ∧ ∀ key ∈ (request line).keys, own i (xxh64 key 0)))

theorem Cleared.shares {i : ι} (h : Shares own g desks) {desk : Desk} (hcleared : Cleared (desks i) desk) :
    Shares own g (Function.update desks i desk) := by
  rcases hcleared with rfl | rfl
  · exact h.rewrite ⟨rfl, rfl, rfl, rfl⟩ ⟨rfl, rfl, rfl, rfl⟩
  · exact h.rewrite ⟨rfl, rfl, rfl, rfl⟩ ⟨rfl, rfl, rfl, rfl⟩

theorem Service.Divided.callback (h : service.Divided own disk g desks) (i : ι) {event : Event}
    (hevent : Completes disk (service.conns i).ledger (service.workers.threads i) event)
    (hlines : ∀ line ∈ ((service.conns i).next event).lines, Admitted own i line) :
    ∃ desk, Cleared (desks i) desk ∧
      (service.callback i event).Divided own disk g (Function.update desks i desk) := by
  have hshape := (h.framed i).toShape
  have hhonest : event.Honest (fun _ _ => True) (service.conns i) := by
    cases event with
    | afterWork status resp oom writeFails => exact fun w _ => ⟨hevent.1, hevent.2.1, trivial⟩
    | _ => trivial
  obtain ⟨desk, hcleared, hsession⟩ := (h.sessions i).step (next_ledger hshape event) hevent hlines
  refine ⟨desk, hcleared, ?_, hcleared.shares h.shared, ?_, ?_, ?_⟩
  · rw [callback_threads]
    exact h.carried
  · exact (Function.forall_update_iff service.conns fun _ c => Framed c c.rbuf).mpr
      ⟨(h.framed i).next event, fun other _ => h.framed other⟩
  · exact (Function.forall_update_iff service.conns fun _ c => Ordered (fun _ _ => True) c).mpr
      ⟨(h.ordered i).next hshape hhonest, fun other _ => h.ordered other⟩
  · intro other
    rw [callback_threads]
    by_cases hi : other = i
    · subst hi
      simp only [Service.callback, Function.update_self]
      exact hsession
    · simp only [Service.callback, Function.update_of_ne hi]
      exact h.sessions other

theorem Service.Divided.act (h : service.Divided own disk g desks) (hapart : Apart own) (i : ι) {choice : Choice}
    (hcalm : service.Undisturbed (.act i choice)) {action : Act} {next : Res action → Cmd Unit}
    (hprog : (service.workers.threads i).prog = .act action next) :
    ∃ g' desk, deskAnswers (desks i) action (execAct choice action service.workers.shared).1 desk ∧
      (service.next (.act i choice)).Divided own disk g' (Function.update desks i desk) := by
  obtain ⟨hfine, hroom⟩ := hcalm
  rw [hprog, hfine.eq] at hroom
  have hsession := h.sessions i
  have hallowed := hsession.kept
  have howns := hsession.asks
  rw [hprog] at hallowed howns
  obtain ⟨g', hanswer, hcarried⟩ := h.carried.act choice.scanUs choice.stampUs action
    (h.shared.allowed hallowed.1) hroom
  obtain ⟨desk, hmine, hshared⟩ := h.shared.answer hapart action hallowed.1 howns.1 hanswer
  rw [← hfine.eq] at hmine hcarried
  have hthread : (service.workers.threads (i, choice).1).prog = .act action next := hprog
  refine ⟨g', desk, hmine, ?_⟩
  simp only [Service.next, Pool.step_act execAct (fun _ => noteReply) hthread]
  refine ⟨hcarried, hshared, h.framed, h.ordered, ?_⟩
  intro other
  by_cases hi : other = i
  · subst hi
    simp only [Function.update_self]
    exact hsession.act hprog hmine
  · simp only [Function.update_of_ne hi]
    exact h.sessions other

-- What a move is to the connections and their desks.
inductive Service.Passes (disk : Contents) (service : Service ι) (desks : ι → Desk) : Service ι → (ι → Desk) → Prop
  | stays : Passes disk service desks service desks
  | called (i : ι) (event : Event) (desk : Desk)
      (hevent : Completes disk (service.conns i).ledger (service.workers.threads i) event)
      (hcleared : Cleared (desks i) desk) :
      Passes disk service desks (service.callback i event) (Function.update desks i desk)
  | acted (i : ι) (choice : Choice) (action : Act) (next : Res action → Cmd Unit) (desk : Desk) (hfine : choice.Fine)
      (hprog : (service.workers.threads i).prog = .act action next)
      (hanswer : deskAnswers (desks i) action (execAct choice action service.workers.shared).1 desk) :
      Passes disk service desks (service.next (.act i choice)) (Function.update desks i desk)

theorem Service.Divided.passes (h : service.Divided own disk g desks) (hapart : Apart own) {move : Move ι}
    (hadmits : service.Admits own move) (hcalm : service.Undisturbed move) :
    ∃ g' desks', Service.Passes disk service desks (service.next move) desks' ∧
      (service.next move).Divided own disk g' desks' := by
  have hcalled : ∀ (i : ι) (event : Event), service.next move = service.callback i event →
      Completes disk (service.conns i).ledger (service.workers.threads i) event →
      ∃ g' desks', Service.Passes disk service desks (service.next move) desks' ∧
        (service.next move).Divided own disk g' desks' := by
    intro i event he hevent
    have hlines : ∀ line ∈ ((service.conns i).next event).lines, Admitted own i line := by
      intro line hm
      have hfits := hadmits i line
      simp only [he, Service.callback, Function.update_self] at hfits
      exact hfits hm
    obtain ⟨desk, hcleared, hdivided⟩ := h.callback i hevent hlines
    rw [he]
    exact ⟨g, _, .called i event desk hevent hcleared, hdivided⟩
  have hstays : service.next move = service → ∃ g' desks', Service.Passes disk service desks (service.next move) desks' ∧
      (service.next move).Divided own disk g' desks' := by
    intro he
    rw [he]
    exact ⟨g, desks, .stays, h⟩
  cases move with
  | read i chunk reallocFails allocFails => exact hcalled i _ rfl trivial
  | readEnd i => exact hcalled i _ rfl trivial
  | act i choice =>
      cases hprog : (service.workers.threads i).prog with
      | ret value =>
          have hthread : (service.workers.threads (i, choice).1).prog = .ret value := hprog
          refine hstays ?_
          simp only [Service.next, Pool.step_ret execAct (fun _ => noteReply) hthread]
      | act action next =>
          obtain ⟨g', desk, hanswer, hdivided⟩ := h.act hapart i hcalm hprog
          exact ⟨g', _, .acted i choice action next desk hcalm.1 hprog hanswer, hdivided⟩
  | afterWork i writeFails =>
      cases hprog : (service.workers.threads i).prog with
      | act action next => exact hstays (by simp only [Service.next, hprog])
      | ret value =>
          cases hghost : (service.workers.threads i).ghost with
          | none => exact hstays (by simp only [Service.next, hprog, hghost])
          | some work =>
              have hstep : service.next (.afterWork i writeFails) =
                  service.callback i (.afterWork 0 work.resp work.oom writeFails) := by
                simp only [Service.next, hprog, hghost]
              by_cases hnone : (service.conns i).works = []
              · refine hstays (hstep.trans ?_)
                simp only [Service.callback, Conn.next, hnone, Function.update_eq_self]
              · refine hcalled i _ hstep ?_
                have hdone : (service.workers.threads i).prog.Finished := by
                  rw [hprog]
                  trivial
                have hsession := h.sessions i
                obtain ⟨w, hw⟩ := List.exists_mem_of_ne_nil _ hnone
                obtain ⟨work', hwork, hoom, hresp⟩ := hsession.noted w hw
                cases Option.some.inj (hwork.symm.trans hghost)
                exact ⟨Int.le_refl 0, hoom, hdone, fun _ => hresp.trans (hsession.done hdone).reply⟩
  | onWrite i status allocFails => exact hcalled i _ rfl trivial

theorem Service.Divided.next (h : service.Divided own disk g desks) (hapart : Apart own) {move : Move ι}
    (hadmits : service.Admits own move) (hcalm : service.Undisturbed move) :
    ∃ g' desks', (service.next move).Divided own disk g' desks' := by
  obtain ⟨g', desks', _, hdivided⟩ := h.passes hapart hadmits hcalm
  exact ⟨g', desks', hdivided⟩

omit [DecidableEq ι] in
theorem divided_start (own : ι → UInt64 → Prop) (disk : Contents) :
    ∃ g, (Service.start disk : Service ι).Divided own disk g fun _ => Desk.start disk := by
  refine ⟨_, carries_initFile disk, ?_, fun _ => Framed.init, ?_, session_start own disk⟩
  · exact ⟨fun _ _ _ => rfl, fun _ _ _ => rfl, fun _ _ hp => absurd hp (Nat.lt_irrefl 0),
      fun _ hp => absurd hp (Nat.lt_irrefl 0)⟩
  · exact fun _ => ⟨rfl, fun _ => rfl, fun _ _ hm => absurd hm List.not_mem_nil,
      fun _ hm => absurd hm List.not_mem_nil⟩

theorem divided_run (hapart : Apart own) {moves : List (Move ι)}
    (hadmits : AllSteps Service.next (Service.Admits own) (Service.start disk) moves)
    (hcalm : AllSteps Service.next Service.Undisturbed (Service.start disk) moves) :
    AllStates Service.next (fun service => ∃ g desks, service.Divided own disk g desks) (Service.start disk) moves := by
  obtain ⟨g, hstart⟩ := divided_start own disk
  refine allStates_of_invariant Service.next _ ?_ ⟨g, _, hstart⟩ (hadmits.and Service.next hcalm)
  rintro service move ⟨g, desks, h⟩ ⟨hfits, hcalm⟩
  exact h.next hapart hfits hcalm

end Divided

section Isolation

variable {ι : Type} {own : ι → UInt64 → Prop} {disk : Contents}

-- The answered lines come first in the history, with the replies of the plain map.
theorem Session.answered {i : ι} {l : Ledger} {thread : Thread Act Res Unit (Option WorkReq)} {desk : Desk}
    (h : Session own disk i l thread desk) (hopen : l.closing = false) :
    l.answered.map Prod.fst ++ (l.writes ++ l.works).map (·.line) = l.lines ∧
      l.answered.map Prod.snd = plainReplies hashed disk (l.answered.map Prod.fst) := by
  have htold := h.told hopen
  have hlength := plainReplies_length hashed disk l.lines
  have hfst := congrArg (List.map Prod.fst) htold
  have hsnd := congrArg (List.map Prod.snd) htold
  rw [history, List.map_fst_zip (Nat.le_of_eq hlength.symm)] at hfst
  rw [history, List.map_snd_zip (Nat.le_of_eq hlength)] at hsnd
  simp only [List.map_append, List.map_map, List.append_assoc] at hfst hsnd
  constructor
  · rw [← hfst, List.map_append]
    rfl
  · rw [← hfst, plainReplies_append] at hsnd
    refine (List.append_inj hsnd ?_).1
    rw [plainReplies_length, List.length_map, List.length_map]

variable [DecidableEq ι]

-- Connections whose requests are about different paths do not notice each other,
-- however their reads, workers and writes interleave: each has what it was sent
-- answered, in order, as by a plain map that nobody else changes.
theorem connections_isolated (hapart : Apart own) (moves : List (Move ι))
    (hadmits : AllSteps Service.next (Service.Admits own) (Service.start disk) moves)
    (hcalm : AllSteps Service.next Service.Undisturbed (Service.start disk) moves) :
    AllStates Service.next
      (fun service => ∀ i, (service.conns i).closing = false →
        joined (service.conns i).lines ++ (service.conns i).rbuf = (service.conns i).received ∧
        (service.conns i).answered.map Prod.fst ++
          ((service.conns i).writes ++ (service.conns i).works).map (·.line) = (service.conns i).lines ∧
        ((service.conns i).writes ++ (service.conns i).works).length ≤ 1 ∧
        (service.conns i).answered.map Prod.snd =
          plainReplies hashed disk ((service.conns i).answered.map Prod.fst) ∧
        (service.conns i).written = ((service.conns i).answered.map Prod.snd).flatten)
      (Service.start disk) moves := by
  refine (divided_run hapart hadmits hcalm).mono Service.next ?_
  rintro service ⟨g, desks, h⟩ i hopen
  obtain ⟨hlines, hreplies⟩ := (h.sessions i).answered hopen
  refine ⟨(h.framed i).prefix_eq hopen, hlines, ?_, hreplies, (h.ordered i).written⟩
  have hinflight := (h.framed i).inflight
  rw [List.length_append]
  split at hinflight <;> omega

-- A bit is set on one connection while another one asks for a different key.
theorem connections_isolated_two_keys :
    let service := run Service.next (Service.start (fun _ => none) : Service Bool)
      [.read false (str "SETBIT a 0 1\n") false false, .act false {}, .read true (str "GETBIT b 0\n") false false,
        .act true {}, .act false {}, .act true {}, .act false {}, .act false {}, .afterWork true false, .act false {},
        .afterWork false false, .onWrite true 0 false, .onWrite false 0 false]
    ∀ second, (service.conns second).written =
      (plainReplies hashed (fun _ => none) ((service.conns second).answered.map Prod.fst)).flatten := by
  intro service second
  let own : Bool → UInt64 → Prop := fun second hash => hash = xxh64 (if second then str "b" else str "a") 0
  have hapart : Apart own := by
    intro first other hash hfirst hother
    cases first <;> cases other
    · rfl
    · exact absurd (hfirst.symm.trans hother) (by decide +kernel)
    · exact absurd (hfirst.symm.trans hother) (by decide +kernel)
    · rfl
  have h := (@connections_isolated Bool own (fun _ => none) _ hapart
    [.read false (str "SETBIT a 0 1\n") false false, .act false {}, .read true (str "GETBIT b 0\n") false false,
      .act true {}, .act false {}, .act true {}, .act false {}, .act false {}, .afterWork true false, .act false {},
      .afterWork false false, .onWrite true 0 false, .onWrite false 0 false]
    (by decide +kernel) (by decide +kernel)).last
  have hopen : ∀ second, (service.conns second).closing = false := by decide +kernel
  obtain ⟨_, _, _, hreplies, hwritten⟩ := h second (hopen second)
  rw [← hreplies]
  exact hwritten

end Isolation

end Solidbits
