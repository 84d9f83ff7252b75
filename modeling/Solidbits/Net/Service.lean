import Solidbits.File.Limit
import Solidbits.Lib.Pool
import Solidbits.Net.Ordered
import Solidbits.Net.Worker

namespace Solidbits

open Prog Transition

section Service

variable {ι : Type} [DecidableEq ι]

-- The accepted connections, and for each one the worker thread that runs its
-- request. busy keeps a connection from having two.
structure Service (ι : Type) where
  conns : ι → Conn
  workers : Pool ι Store Act Res Unit (Option WorkReq)

-- A callback of the loop thread or an action of a worker, for one connection.
-- after_work_cb gets status 0, since nothing cancels a request.
inductive Move (ι : Type) where
  | read (conn : ι) (chunk : Bytes) (reallocFails allocFails : Bool)
  | readEnd (conn : ι)
  | act (conn : ι) (choice : Choice)
  | afterWork (conn : ι) (writeFails : Bool)
  | onWrite (conn : ι) (status : Int) (allocFails : Bool)

-- uv_queue_work hands a dispatched request to a worker.
def Service.callback (service : Service ι) (i : ι) (event : Event) : Service ι where
  conns := Function.update service.conns i ((service.conns i).next event)
  workers :=
    match (service.conns i).works, ((service.conns i).next event).works with
    | [], w :: _ => service.workers.assign i (parseAndExecute w.line) (some { line := w.line })
    | _, _ => service.workers

def Service.next (service : Service ι) : Move ι → Service ι
  | .read i chunk reallocFails allocFails => service.callback i (.read chunk reallocFails allocFails)
  | .readEnd i => service.callback i .readEnd
  | .act i choice =>
      { service with workers := Pool.step execAct (fun _ => noteReply) service.workers (i, choice) }
  | .afterWork i writeFails =>
      match (service.workers.threads i).prog, (service.workers.threads i).ghost with
      | .ret _, some work => service.callback i (.afterWork 0 work.resp work.oom writeFails)
      | _, _ => service
  | .onWrite i status allocFails => service.callback i (.onWrite status allocFails)

def Service.start (disk : UInt64 → Option Bytes) : Service ι where
  conns := fun _ => {}
  workers := Pool.start (initFile disk) none fun _ => .ret ()

end Service

section Bound

-- The bound holds of what the workers share, and makes their answers right.
theorem execAct_within {st : Store} (h : st.Within LONGEST_FILE) (choice : Choice) {action : Act}
    (hallowed : boundContract.allowed () action) : (execAct choice action st).2.Within LONGEST_FILE := by
  cases action with
  | prepareFile key mode => exact h.prepareHashed choice _ hallowed
  | releaseDesc dt => exact h.setDesc dt (h.lengths dt)
  | readFrom dt size offset => exact h.readFrom choice dt size offset
  | writeTo dt buf offset => exact h.writeTo choice dt hallowed
  | _ => exact h

theorem fread_length_le (fs : Fs) (fails : Bool) (got : Nat) (fp : FilePtr) (size : Nat) :
    (fs.fread fails got fp size).1.length ≤ size := by
  unfold Fs.fread
  split
  · exact Nat.zero_le _
  · refine Nat.le_trans (List.length_take_le _ _) ?_
    split
    · exact Nat.min_le_right got size
    · exact Nat.le_refl size

theorem readFrom_r_le (choice : Choice) (dt : Slot) (size : Nat) (offset : Int) (st : Store) :
    (readFrom choice dt size offset st).1.r ≤ size := by
  simp only [readFrom]
  split
  · exact Nat.zero_le _
  · exact fread_length_le _ _ _ _ _

theorem execAct_answers {st : Store} (h : st.Within LONGEST_FILE) (choice : Choice) (action : Act) :
    boundContract.answers () action (execAct choice action st).1 () := by
  cases action with
  | descLength dt => exact h.lengths dt
  | readFrom dt size offset => exact readFrom_r_le choice dt size offset st
  | _ => exact True.intro

theorem Store.Within.initFile {disk : UInt64 → Option Bytes} {limit : Nat}
    (hdisk : ∀ path content, disk path = some content → content.length ≤ limit) :
    (initFile disk).Within limit := by
  refine ⟨⟨hdisk, ?_⟩, fun _ => Nat.zero_le _⟩
  intro n file hf
  cases hf

end Bound

section Replies

variable {ι : Type} [DecidableEq ι]

-- A reply that a worker can leave when it runs a line.
def Replies (line reply : Bytes) : Prop :=
  ∃ work, Outcome workContract (parseAndExecute line) (some { line := line }) () (some work) ∧ work.resp = reply

-- Every connection keeps its lines and replies in order, and the worker of a
-- request has its line and nothing else in hand.
structure Service.Good (service : Service ι) : Prop where
  framed : ∀ i, Framed (service.conns i) (service.conns i).rbuf
  ordered : ∀ i, Ordered Replies (service.conns i)
  within : service.workers.shared.Within LONGEST_FILE
  verified : service.workers.Verified workContract fun _ _ => True
  assigned : ∀ i, ∀ w ∈ (service.conns i).works, ∀ value after,
    Outcome workContract (service.workers.threads i).prog (service.workers.threads i).ghost value after →
      Outcome workContract (parseAndExecute w.line) (some { line := w.line }) value after

theorem Service.Good.callback {service : Service ι} (h : service.Good) (i : ι) {event : Event}
    (hevent : event.Honest Replies (service.conns i)) : (service.callback i event).Good := by
  have hshape := (h.framed i).toShape
  have hframed := (h.framed i).next event
  refine ⟨?_, ?_, ?_, ?_, ?_⟩
  · exact (Function.forall_update_iff service.conns fun _ c => Framed c c.rbuf).mpr
      ⟨hframed, fun other _ => h.framed other⟩
  · exact (Function.forall_update_iff service.conns fun _ c => Ordered Replies c).mpr
      ⟨(h.ordered i).next hshape hevent, fun other _ => h.ordered other⟩
  · simp only [Service.callback]
    split
    · exact h.within
    · exact h.within
  · simp only [Service.callback]
    split
    · exact h.verified.assign i (wp_mono (fun _ _ _ => True.intro) (line_handled _))
    · exact h.verified
  · intro other w hw value after hout
    simp only [Service.callback] at hw hout
    by_cases hi : other = i
    · subst hi
      rw [Function.update_self] at hw
      split at hout
      · rename_i new rest _ hnew
        have hone := hframed.busy_of_works (hnew ▸ List.cons_ne_nil new rest)
        rw [hnew, List.length_cons, Nat.add_eq_right, List.length_eq_zero_iff] at hone
        rw [hnew, hone.1, List.mem_singleton] at hw
        rw [hw]
        simpa only [Pool.assign, Function.update_self] using hout
      · rename_i hkept
        have hbusy : (service.conns other).works ≠ [] := by
          intro hidle
          obtain ⟨new, rest, hnew⟩ := List.exists_cons_of_ne_nil (List.ne_nil_of_mem hw)
          exact hkept _ _ hidle hnew
        exact h.assigned other w (works_next hshape hbusy event w hw) value after hout
    · rw [Function.update_of_ne hi] at hw
      apply h.assigned other w hw value after
      split at hout
      · simpa only [Pool.assign, Function.update_of_ne hi] using hout
      · exact hout

theorem Service.Good.act {service : Service ι} (h : service.Good) (i : ι) (choice : Choice) :
    (service.next (.act i choice)).Good := by
  have hverified := h.verified.step execAct (fun _ => noteReply) (i, choice)
    fun action next _ => ⟨execAct_answers h.within choice action, rfl⟩
  refine ⟨h.framed, h.ordered, ?_, hverified, ?_⟩
  · rcases Pool.step_cases execAct (fun _ => noteReply) service.workers (i, choice) with he | ⟨action, next, hp, he⟩
    · simp only [Service.next, he]
      exact h.within
    · have hallowed := h.verified i
      rw [hp] at hallowed
      simp only [Service.next, he]
      exact execAct_within h.within choice hallowed.1
  · intro other w hw value after hout
    apply h.assigned other w hw value after
    rcases Pool.step_cases execAct (fun _ => noteReply) service.workers (i, choice) with he | ⟨action, next, hp, he⟩
    · simpa only [Service.next, he] using hout
    · simp only [Service.next, he] at hout
      by_cases hi : other = i
      · subst hi
        rw [Function.update_self] at hout
        rw [hp]
        exact Outcome.act _ ⟨execAct_answers h.within choice action, rfl⟩ hout
      · rwa [Function.update_of_ne hi] at hout

theorem Service.Good.next {service : Service ι} (h : service.Good) (move : Move ι) : (service.next move).Good := by
  cases move with
  | read i chunk reallocFails allocFails => exact h.callback i True.intro
  | readEnd i => exact h.callback i True.intro
  | act i choice => exact h.act i choice
  | afterWork i writeFails =>
      simp only [Service.next]
      split
      · rename_i work hprog hghost
        apply h.callback
        intro w hw
        have hout := h.assigned i w hw () (some work) (by
          rw [hprog, hghost]
          exact Outcome.ret () (some work))
        obtain ⟨_, ⟨⟩, hhandled⟩ := wp_outcome (line_handled w.line) hout
        exact ⟨Int.le_refl 0, hhandled.complete, work, hout, rfl⟩
      · exact h
  | onWrite i status allocFails => exact h.callback i True.intro

omit [DecidableEq ι] in
theorem Service.Good.start {disk : UInt64 → Option Bytes}
    (hdisk : ∀ path content, disk path = some content → content.length ≤ LONGEST_FILE) :
    (Service.start disk : Service ι).Good where
  framed := fun _ => Framed.init
  ordered := fun _ => ⟨rfl, fun _ => rfl, fun _ _ hm => absurd hm List.not_mem_nil,
    fun _ hm => absurd hm List.not_mem_nil⟩
  within := Store.Within.initFile hdisk
  verified := fun _ => True.intro
  assigned := fun _ _ hm => absurd hm List.not_mem_nil

end Replies

section Silent

-- What the comments in the switch call not implemented: BITPOS and BITFIELD
-- with as many arguments as they take.
def Unimplemented (line : Bytes) : Prop :=
  CMD_MININUM ≤ line.length ∧
    (commandOf (xxh64 (line.take 5) 0) = some .BITPOS ∧ 3 ≤ getArgCount line ∧ getArgCount line ≤ 5 ∨
      commandOf (xxh64 (line.take 5) 0) = some .BITFIELD ∧ 5 ≤ getArgCount line)

-- BITPOS with a count that its check is meant to reject.
def Miscounted (line : Bytes) : Prop :=
  CMD_MININUM ≤ line.length ∧ commandOf (xxh64 (line.take 5) 0) = some .BITPOS ∧
    (getArgCount line < 3 ∨ 5 < getArgCount line)

instance (line : Bytes) : Decidable (Unimplemented line) := inferInstanceAs (Decidable (_ ∧ _))

instance (line : Bytes) : Decidable (Miscounted line) := inferInstanceAs (Decidable (_ ∧ _))

theorem silent_of_unimplemented {line : Bytes} (h : Unimplemented line) : request line = .silent := by
  obtain ⟨hlength, ⟨hcase, _, _⟩ | ⟨hcase, hcount⟩⟩ := h
  · rw [request_eq, if_neg (Nat.not_lt.mpr hlength), hcase]
    exact if_neg (by omega)
  · rw [request_eq, if_neg (Nat.not_lt.mpr hlength), hcase]
    exact if_neg (by omega)

theorem command_silent {line : Bytes} {c : Nat} {command : Command} (h : command.request line c = .silent) :
    command = .BITPOS ∨ command = .BITFIELD ∧ 5 ≤ c := by
  cases command with
  | SETBIT =>
      simp only [Command.request, setbitRequest] at h
      repeat' split at h
      all_goals cases h
  | GETBIT =>
      simp only [Command.request, getbitRequest] at h
      repeat' split at h
      all_goals cases h
  | BITOP =>
      simp only [Command.request, bitopRequest] at h
      repeat' split at h
      all_goals cases h
  | BITCOUNT =>
      simp only [Command.request, bitcountRequest] at h
      repeat' split at h
      all_goals cases h
  | BITPOS => exact Or.inl rfl
  | BITFIELD =>
      simp only [Command.request, bitfieldRequest] at h
      split at h
      · cases h
      · rename_i hcount
        exact Or.inr ⟨rfl, Nat.not_lt.mp hcount⟩

-- No other line goes without a reply.
theorem unimplemented_of_silent {line : Bytes} (h : request line = .silent) :
    Unimplemented line ∨ Miscounted line := by
  rw [request_eq] at h
  split at h
  · cases h
  · rename_i hlength
    rw [Nat.not_lt] at hlength
    split at h
    · rename_i command hcase
      rcases command_silent h with rfl | ⟨rfl, hcount⟩
      · by_cases hcount : 3 ≤ getArgCount line ∧ getArgCount line ≤ 5
        · exact Or.inl ⟨hlength, Or.inl ⟨hcase, hcount⟩⟩
        · exact Or.inr ⟨hlength, hcase, by omega⟩
      · exact Or.inl ⟨hlength, Or.inr ⟨hcase, hcount⟩⟩
    · cases h

end Silent

section Claim

variable {ι : Type} [DecidableEq ι]

-- A directory with one file.
theorem one_file_small {key path : UInt64} {bytes content : Bytes} (hsmall : bytes.length ≤ LONGEST_FILE)
    (h : (if path = key then some bytes else none) = some content) : content.length ≤ LONGEST_FILE := by
  simp only [Option.ite_none_right_eq_some, Option.some.injEq] at h
  exact h.2 ▸ hsmall

-- On a connection that is not closing the lines are answered one by one in the
-- order they came in, with one line each or, where the command is not
-- implemented, with nothing; what was written is these replies put together.
theorem replies_in_order (disk : UInt64 → Option Bytes)
    (hdisk : ∀ path content, disk path = some content → content.length ≤ LONGEST_FILE) (moves : List (Move ι)) :
    AllStates Service.next
      (fun service => ∀ i, (service.conns i).closing = false →
        joined (service.conns i).lines ++ (service.conns i).rbuf = (service.conns i).received ∧
        (service.conns i).answered.map Prod.fst ++
          ((service.conns i).works ++ (service.conns i).writes).map (·.line) = (service.conns i).lines ∧
        ((service.conns i).works ++ (service.conns i).writes).length = (if (service.conns i).busy then 1 else 0) ∧
        (service.conns i).written = ((service.conns i).answered.map Prod.snd).flatten ∧
        ∀ entry ∈ (service.conns i).answered, Replies entry.1 entry.2 ∧
          (Unimplemented entry.1 → entry.2 = []) ∧
          (¬Unimplemented entry.1 → ¬Miscounted entry.1 → IsReply entry.2))
      (Service.start disk) moves := by
  refine (allStates_of_invariant Service.next Service.Good (fun _ move h _ => h.next move)
    (Service.Good.start hdisk) (AllSteps.trivial Service.next _ moves)).mono Service.next ?_
  intro service h i hopen
  have hordered := h.ordered i
  refine ⟨(h.framed i).prefix_eq hopen, hordered.lines hopen, ?_, hordered.written, ?_⟩
  · rw [List.length_append]
    exact (h.framed i).inflight
  · rintro ⟨line, reply⟩ hm
    have hreply := hordered.answered hopen _ hm
    obtain ⟨work, hout, rfl⟩ := hreply
    obtain ⟨_, ⟨⟩, hhandled⟩ := wp_outcome (line_handled line) hout
    refine ⟨⟨work, hout, rfl⟩, fun hnone => hhandled.silent (silent_of_unimplemented hnone), ?_⟩
    intro himplemented hcounted
    apply hhandled.replied
    intro hsilent
    rcases unimplemented_of_silent hsilent with hnone | hmis
    · exact himplemented hnone
    · exact hcounted hmis

-- Two lines in one chunk, on a file that is there.
theorem replies_in_order_two_lines :
    let disk : UInt64 → Option Bytes := fun path => if path = xxh64 (str "k") 0 then some [128] else none
    let service := run Service.next (Service.start disk : Service Unit)
      ([.read () (str "SETBIT k 1 1\nGETBIT k 0\n") false false] ++ List.replicate 6 (.act () {}) ++
        [.afterWork () false, .onWrite () 0 false] ++ List.replicate 5 (.act () {}) ++
        [.afterWork () false, .onWrite () 0 false])
    (service.conns ()).answered = [(str "SETBIT k 1 1", str "0\n"), (str "GETBIT k 0", str "1\n")] ∧
      (service.conns ()).written = str "0\n1\n" ∧ ∀ entry ∈ (service.conns ()).answered, IsReply entry.2 := by
  intro disk service
  have hdisk : ∀ path content, disk path = some content → content.length ≤ LONGEST_FILE :=
    fun _ _ => one_file_small (by decide)
  have hall := (replies_in_order disk hdisk
    ([Move.read () (str "SETBIT k 1 1\nGETBIT k 0\n") false false] ++ List.replicate 6 (.act () {}) ++
      [.afterWork () false, .onWrite () 0 false] ++ List.replicate 5 (.act () {}) ++
      [.afterWork () false, .onWrite () 0 false])).last
  obtain ⟨_, _, _, hwritten, hreplies⟩ := hall () (by decide +kernel)
  have hanswered : (service.conns ()).answered =
      [(str "SETBIT k 1 1", str "0\n"), (str "GETBIT k 0", str "1\n")] := by decide +kernel
  refine ⟨hanswered, hwritten.trans (by rw [hanswered]; decide), fun entry hentry => ?_⟩
  have hlines : ∀ entry ∈ [(str "SETBIT k 1 1", str "0\n"), (str "GETBIT k 0", str "1\n")],
      ¬Unimplemented entry.1 ∧ ¬Miscounted entry.1 := by decide +kernel
  obtain ⟨himplemented, hcounted⟩ := hlines entry (hanswered ▸ hentry)
  exact (hreplies entry hentry).2.2 himplemented hcounted

-- The only reply that is written answers the second of two lines. A number of
-- 15 digits would not be a line, as buf has no room for its newline.
theorem first_line_unanswered :
    let service := run Service.next (Service.start (fun _ => none) : Service Unit)
      [.read () (str "BITPOS k 1\n") false false, .afterWork () false, .read () (str "GETBIT k 0\n") false false,
        .act () {}, .act () {}, .afterWork () false, .onWrite () 0 false]
    ((service.conns ()).closing = false ∧ (service.conns ()).busy = false ∧
      (service.conns ()).lines = [str "BITPOS k 1", str "GETBIT k 0"] ∧
      (service.conns ()).answered = [(str "BITPOS k 1", []), (str "GETBIT k 0", str "0\n")] ∧
      (service.conns ()).written = str "0\n") ∧
    ∃ text, replyResult (10 ^ 14) = (.act (.reply text 16) fun _ => .ret ()) ∧ ¬IsReply (text.take 16) := by
  refine ⟨by decide +kernel, str "100000000000000" ++ [0], rfl, ?_⟩
  rintro ⟨body, hbody, _⟩
  have hlast := congrArg List.getLast? hbody
  rw [List.getLast?_concat] at hlast
  exact absurd hlast (by decide)

end Claim

end Solidbits
