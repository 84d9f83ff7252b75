import Solidbits.Net.Ledger
import Solidbits.Net.Service
import Solidbits.Serial.Cache
import Solidbits.Serial.Shared

namespace Solidbits

open Prog Transition

section Plain

variable {ν : Type} [DecidableEq ν] (name : Bytes → ν)

-- The plain map after a list of requests, and the bytes that answer each.
def plainMap (m : ν → Option Bytes) (lines : List Bytes) : ν → Option Bytes :=
  lines.foldl (fun m line => ((request line).plain name m).1) m

def plainReplies (m : ν → Option Bytes) : List Bytes → List Bytes
  | [] => []
  | first :: lines =>
      ((request first).plain name m).2.flatten :: plainReplies ((request first).plain name m).1 lines

theorem plainMap_concat (m : ν → Option Bytes) (lines : List Bytes) (line : Bytes) :
    plainMap name m (lines ++ [line]) = ((request line).plain name (plainMap name m lines)).1 := by
  simp only [plainMap, List.foldl_append, List.foldl_cons, List.foldl_nil]

theorem plainReplies_concat (m : ν → Option Bytes) (lines : List Bytes) (line : Bytes) :
    plainReplies name m (lines ++ [line]) =
      plainReplies name m lines ++ [((request line).plain name (plainMap name m lines)).2.flatten] := by
  induction lines generalizing m with
  | nil => rfl
  | cons first lines ih => exact congrArg (_ :: ·) (ih _)

theorem plainReplies_length (m : ν → Option Bytes) (lines : List Bytes) :
    (plainReplies name m lines).length = lines.length := by
  induction lines generalizing m with
  | nil => rfl
  | cons first lines ih => exact congrArg (· + 1) (ih _)

end Plain

section Session

-- The plain map names a bitmap by the hash of its key.
def hashed (key : Bytes) : UInt64 := xxh64 key 0

-- The lines of a connection with their replies from a plain map of its own.
def history (disk : Contents) (lines : List Bytes) : List (Bytes × Bytes) :=
  lines.zip (plainReplies hashed disk lines)

def lastReply (disk : Contents) (lines : List Bytes) : Bytes := (plainReplies hashed disk lines).getLastD []

theorem history_concat (disk : Contents) (lines : List Bytes) (line : Bytes) :
    history disk (lines ++ [line]) = history disk lines ++ [(line, lastReply disk (lines ++ [line]))] := by
  rw [history, lastReply, plainReplies_concat, List.zip_append (plainReplies_length hashed disk lines).symm,
    List.getLastD_concat]
  rfl

theorem lastReply_concat (disk : Contents) (lines : List Bytes) (line : Bytes) : lastReply disk (lines ++ [line]) =
    ((request line).plain hashed (plainMap hashed disk lines)).2.flatten := by
  rw [lastReply, plainReplies_concat, List.getLastD_concat]

-- What the desk of a connection looks like when the last of its requests is done.
structure Desk.Done (disk : Contents) (lines : List Bytes) (last : Desk) : Prop where
  idle : last.Idle
  exact : last.Exact
  files : last.files = plainMap hashed disk lines
  reply : last.replies.flatten = lastReply disk lines

-- The connection, the worker of its request, and the desk the worker sees.
structure Session {ι : Type} (own : ι → UInt64 → Prop) (disk : Contents) (i : ι) (l : Ledger)
    (thread : Thread Act Res Unit (Option WorkReq)) (desk : Desk) : Prop where
  timed : desk.timed
  kept : thread.prog.wp deskContract (fun last _ => last.Done disk l.lines) desk
  asks : thread.prog.Only (Owns own i) fun _ => True
  noted : ∀ w ∈ l.works, ∃ work, thread.ghost = some work ∧ work.oom = false ∧ work.resp = desk.replies.flatten
  rests : l.works = [] → thread.prog.Finished
  told : l.closing = false → l.answered ++ l.writes.map (fun w => (w.line, w.resp)) ++
    l.works.map (fun w => (w.line, lastReply disk l.lines)) = history disk l.lines

variable {ι : Type} {own : ι → UInt64 → Prop} {disk : Contents} {i : ι} {l l' : Ledger} {desk : Desk}
variable {thread : Thread Act Res Unit (Option WorkReq)} {line : Bytes}

theorem Session.done (h : Session own disk i l thread desk) (hdone : thread.prog.Finished) :
    desk.Done disk l.lines := by
  have hkept := h.kept
  cases hprog : thread.prog with
  | ret value =>
      rw [hprog] at hkept
      exact hkept
  | act action next =>
      rw [hprog] at hdone
      exact hdone.elim

-- A request of the connection opens only what is its own.
def Admitted (own : ι → UInt64 → Prop) (i : ι) (line : Bytes) : Prop :=
  (request line).isBitop = false ∧ ∀ key ∈ (request line).keys, own i (xxh64 key 0)

theorem Session.takes (h : Session own disk i l thread desk) (hidle : l.works = [] ∧ l.writes = [])
    (hline : Admitted own i line) : Session own disk i (l.dispatch line)
      ⟨parseAndExecute line, some { line := line }⟩ { desk with replies := [] } := by
  have hdone := h.done (h.rests hidle.1)
  constructor
  · exact h.timed
  · rw [parseAndExecute_eq]
    refine wp_mono ?_ (wp_execute (g := { desk with replies := [] }) h.timed hdone.idle hdone.exact _ hline.1)
    intro last _ hleaves
    refine ⟨hleaves.idle, hleaves.exact, ?_, ?_⟩
    · rw [hleaves.files, Ledger.dispatch, plainMap_concat, hdone.files]
      rfl
    · rw [hleaves.replies, Ledger.dispatch, lastReply_concat, hdone.files, List.nil_append]
      rfl
  · rw [parseAndExecute_eq]
    refine (request_asks (request line)).mono ?_ fun _ => id
    intro action hasks
    cases action with
    | prepareFile key mode => exact hline.2 key hasks
    | _ => trivial
  · intro w hw
    exact ⟨_, rfl, rfl, rfl⟩
  · exact fun hnone => absurd hnone (List.cons_ne_nil _ _)
  · intro hopen
    have htold := h.told hopen
    simp only [hidle.1, hidle.2, List.map_nil, List.append_nil] at htold
    simp only [Ledger.dispatch, hidle.2, List.map_nil, List.append_nil, List.map_cons, htold]
    exact (history_concat disk l.lines line).symm

-- A worker gets the request that a callback has dispatched.
def hire (thread : Thread Act Res Unit (Option WorkReq)) :
    List WorkReq → List WorkReq → Thread Act Res Unit (Option WorkReq)
  | [], w :: _ => ⟨parseAndExecute w.line, some { line := w.line }⟩
  | _, _ => thread

theorem hire_same (thread : Thread Act Res Unit (Option WorkReq)) (works : List WorkReq) :
    hire thread works works = thread := by
  cases works <;> rfl

-- A desk that may have been cleared for the next request.
def Cleared (desk desk' : Desk) : Prop := desk' = desk ∨ desk' = { desk with replies := [] }

theorem Session.goes (h : Session own disk i l thread desk) (hstep : l.Goes l')
    (hlines : ∀ line ∈ l'.lines, Admitted own i line) :
    ∃ desk', Cleared desk desk' ∧ Session own disk i l' (hire thread l.works l'.works) desk' := by
  cases hstep with
  | stays =>
      rw [hire_same]
      exact ⟨desk, Or.inl rfl, h⟩
  | closes =>
      rw [hire_same]
      exact ⟨desk, Or.inl rfl, h.timed, h.kept, h.asks, h.noted, h.rests, fun hc => Bool.noConfusion hc⟩
  | takes line hidle _ =>
      refine ⟨{ desk with replies := [] }, Or.inr rfl, ?_⟩
      rw [hidle.1]
      exact h.takes hidle (hlines line (List.mem_append_right _ (List.mem_singleton_self line)))

-- The completion of a request comes when its worker is done, with what it wrote.
def Completes (disk : Contents) (l : Ledger) (thread : Thread Act Res Unit (Option WorkReq)) : Event → Prop
  | .afterWork status resp oom _ =>
      0 ≤ status ∧ oom = false ∧ thread.prog.Finished ∧ (l.works ≠ [] → resp = lastReply disk l.lines)
  | _ => True

theorem Session.step (h : Session own disk i l thread desk) {event : Event} (hstep : l.Step event l')
    (hevent : Completes disk l thread event) (hlines : ∀ line ∈ l'.lines, Admitted own i line) :
    ∃ desk', Cleared desk desk' ∧ Session own disk i l' (hire thread l.works l'.works) desk' := by
  cases hstep with
  | goes hstep => exact h.goes hstep hlines
  | silent w hworks hwrites hsilent =>
      obtain ⟨hstatus, rfl, hdone, hresp⟩ := hevent
      refine ⟨desk, Or.inl rfl, ?_⟩
      rw [hworks]
      refine ⟨h.timed, h.kept, h.asks, fun _ hm => absurd hm List.not_mem_nil, fun _ => hdone, fun hopen => ?_⟩
      have htold := h.told hopen
      have hempty : lastReply disk l.lines = [] := by
        rw [← hresp (by rw [hworks]; exact List.cons_ne_nil w [])]
        rcases hsilent with hs | hs | hs | hs
        · omega
        · exact absurd (hs.symm.trans hopen) Bool.noConfusion
        · exact Bool.noConfusion hs
        · exact hs
      simpa only [hworks, hwrites, List.map_nil, List.map_cons, List.append_nil, hempty] using htold
  | refused hworks hwrites =>
      obtain ⟨_, _, hdone, _⟩ := hevent
      refine ⟨desk, Or.inl rfl, ?_⟩
      obtain ⟨w, rest, hw⟩ := List.exists_cons_of_ne_nil hworks
      rw [hw]
      exact ⟨h.timed, h.kept, h.asks, fun _ hm => absurd hm List.not_mem_nil, fun _ => hdone,
        fun hc => Bool.noConfusion hc⟩
  | handed w hworks hwrites _ =>
      obtain ⟨_, _, hdone, hresp⟩ := hevent
      refine ⟨desk, Or.inl rfl, ?_⟩
      rw [hworks]
      refine ⟨h.timed, h.kept, h.asks, fun _ hm => absurd hm List.not_mem_nil, fun _ => hdone, fun hopen => ?_⟩
      have htold := h.told hopen
      rw [hresp (by rw [hworks]; exact List.cons_ne_nil w [])]
      simpa only [hworks, hwrites, List.map_nil, List.map_cons, List.append_nil] using htold
  | failed hworks hwrites =>
      rw [hire_same]
      exact ⟨desk, Or.inl rfl, h.timed, h.kept, h.asks, h.noted, h.rests, fun hc => Bool.noConfusion hc⟩
  | flushed w hworks hwrites hgoes =>
      have hmid : Session own disk i { l with writes := [], answered := l.answered ++ [(w.line, w.resp)] }
          thread desk := by
        refine ⟨h.timed, h.kept, h.asks, h.noted, h.rests, fun hopen => ?_⟩
        have htold := h.told hopen
        simpa only [hworks, hwrites, List.map_nil, List.map_cons, List.append_nil] using htold
      exact hmid.goes hgoes hlines

-- An action of the worker, answered to its desk.
theorem Session.act (h : Session own disk i l thread desk) {action : Act} {next : Res action → Cmd Unit}
    (hprog : thread.prog = .act action next) {answer : Res action} {desk' : Desk}
    (hanswer : deskAnswers desk action answer desk') :
    Session own disk i l ⟨next answer, noteReply thread.ghost action answer⟩ desk' := by
  have hkept := h.kept
  have hasks := h.asks
  rw [hprog] at hkept hasks
  have htimed := deskAnswers_timed action answer hanswer
  refine ⟨htimed ▸ h.timed, hkept.2 answer desk' hanswer, hasks.2 answer, ?_, ?_, h.told⟩
  · intro w hw
    obtain ⟨work, hghost, hoom, hresp⟩ := h.noted w hw
    cases action with
    | reply text len =>
        obtain ⟨rfl, rfl⟩ := hanswer
        refine ⟨work.reply true text len, by rw [hghost]; rfl, ?_, ?_⟩
        · simp only [WorkReq.reply, ite_true]
          split
          · exact hoom
          · split <;> exact hoom
        · have happended : (work.reply true text len).resp = work.resp ++ text.take len := by
            simp only [WorkReq.reply, ite_true]
            split
            · rename_i hzero
              rw [hzero, List.take_zero, List.append_nil]
            · split <;> rfl
          rw [happended, hresp, Desk.reply, List.flatten_append, List.flatten_singleton]
    | prepareFile key mode => exact ⟨work, hghost, hoom, by rw [hresp, handed_replies hanswer]⟩
    | writeTo dt buf offset =>
        refine ⟨work, hghost, hoom, ?_⟩
        simp only [deskAnswers] at hanswer
        split at hanswer
        · rw [hresp, hanswer.2]
        · rw [hresp, hanswer.2]
          rfl
    | releaseDesc dt =>
        refine ⟨work, hghost, hoom, ?_⟩
        rw [hresp, show desk' = desk.unpin dt from hanswer]
        rfl
    | descLength dt => exact ⟨work, hghost, hoom, by rw [hresp, hanswer.2]⟩
    | readFrom dt size offset => exact ⟨work, hghost, hoom, by rw [hresp, hanswer.2]⟩
    | posixMemalign => exact ⟨work, hghost, hoom, by rw [hresp, hanswer.2]⟩
  · intro hnone
    have hdone := h.rests hnone
    rw [hprog] at hdone
    exact hdone.elim

def Desk.start (disk : Contents) : Desk := ⟨disk, fun _ => none, fun _ => 0, fun _ => 0, [], True⟩

theorem session_start (own : ι → UInt64 → Prop) (disk : Contents) (i : ι) :
    Session own disk i ({} : Conn).ledger ⟨.ret (), none⟩ (Desk.start disk) where
  timed := trivial
  kept := ⟨fun _ => rfl, nofun, rfl, rfl⟩
  asks := trivial
  noted := fun _ hm => absurd hm List.not_mem_nil
  rests := fun _ => trivial
  told := fun _ => rfl

end Session

section Moves

variable {ι : Type} [DecidableEq ι]

theorem callback_threads (service : Service ι) (i : ι) (event : Event) :
    (service.callback i event).workers = { service.workers with
      threads := Function.update service.workers.threads i
        (hire (service.workers.threads i) (service.conns i).works ((service.conns i).next event).works) } := by
  simp only [Service.callback]
  split
  · rename_i w rest hworks hnext
    rw [hworks, hnext]
    rfl
  · rename_i hkept
    have hsame : hire (service.workers.threads i) (service.conns i).works ((service.conns i).next event).works =
        service.workers.threads i := by
      cases hworks : (service.conns i).works with
      | cons w rest => rfl
      | nil =>
          cases hnext : ((service.conns i).next event).works with
          | nil => rfl
          | cons w rest => exact absurd hnext (hkept w rest hworks)
    rw [hsame, Function.update_eq_self]

-- What a move brings in on a connection.
def Move.chunk (i : ι) : Move ι → Bytes
  | .read j chunk _ _ => if i = j then chunk else []
  | _ => []

theorem callback_conns (service : Service ι) (i j : ι) (event : Event) : ∃ event', (service.callback j event).conns i =
    (service.conns i).next event' ∧ event'.chunk = if i = j then event.chunk else [] := by
  by_cases hi : i = j
  · subst hi
    exact ⟨event, Function.update_self _ _ _, (if_pos rfl).symm⟩
  · refine ⟨.read [] false false, ?_, (if_neg hi).symm⟩
    simp only [Service.callback, Function.update_of_ne hi, Conn.next, ne_eq, not_true, false_and, and_false, ite_false]

theorem service_conns (service : Service ι) (move : Move ι) (i : ι) : ∃ event, (service.next move).conns i =
    (service.conns i).next event ∧ event.chunk = move.chunk i := by
  have hidle : service.conns i = (service.conns i).next (.read [] false false) := by
    simp only [Conn.next, ne_eq, not_true, false_and, and_false, ite_false]
  have hquiet : ∀ (j : ι) (event : Event), event.chunk = [] → ∃ event', (service.callback j event).conns i =
      (service.conns i).next event' ∧ event'.chunk = [] := by
    intro j event hevent
    obtain ⟨event', he, hchunk⟩ := callback_conns service i j event
    exact ⟨event', he, by rw [hchunk, hevent, ite_self]⟩
  cases move with
  | read j chunk reallocFails allocFails => exact callback_conns service i j _
  | readEnd j => exact hquiet j _ rfl
  | act j choice => exact ⟨_, hidle, rfl⟩
  | afterWork j writeFails =>
      simp only [Service.next]
      split
      · exact hquiet j _ rfl
      · exact ⟨_, hidle, rfl⟩
  | onWrite j status allocFails => exact hquiet j _ rfl

end Moves

end Solidbits
