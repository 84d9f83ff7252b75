import Solidbits.Jobs.Bounds
import Solidbits.Jobs.Reply

namespace Solidbits

open Prog

section Worker

-- current_work of the worker thread: a reply goes to its buffer, and nowhere
-- while the worker has no request.
def noteReply (work : Option WorkReq) : (action : Act) → Res action → Option WorkReq
  | .reply s len, reallocOk => work.map (·.reply reallocOk s len)
  | _, _ => work

def workContract : Contract Act Res (Option WorkReq) where
  allowed := fun _ action => boundContract.allowed () action
  answers := fun work action answer after =>
    boundContract.answers () action answer () ∧ after = noteReply work action answer

-- What the worker leaves in the request: one line, or nothing at all.
structure Handled (line : Bytes) (work : WorkReq) : Prop where
  line_eq : work.line = line
  complete : work.oom = false
  silent : request line = .silent → work.resp = []
  replied : request line ≠ .silent → IsReply work.resp

-- The buffer between the actions of a request that replies.
structure Serving (line : Bytes) (replied : Bool) (work : WorkReq) : Prop where
  line_eq : work.line = line
  complete : work.oom = false
  cap : work.respCap = RESP_INIT_CAP
  empty : replied = false → work.resp = []
  full : replied = true → IsReply work.resp

-- The first reply needs no more room than the buffer has, so that realloc is
-- not called.
theorem Serving.reply {line : Bytes} {work : WorkReq} (h : Serving line false work) {text : Bytes} {len : Nat}
    (hfine : Fine text len) (reallocOk : Bool) : Serving line true (work.reply reallocOk text len) := by
  obtain ⟨hline, hlen⟩ := hfine
  have hempty := h.empty rfl
  have hzero : len ≠ 0 := by
    intro hz
    rw [hz, List.take_zero] at hline
    exact isReply_ne_nil hline rfl
  have hfits : ¬(work.respCap < work.resp.length + len) := by
    rw [h.cap, hempty, List.length_nil]
    omega
  simp only [WorkReq.reply, hzero, hfits, ite_false]
  refine ⟨h.line_eq, h.complete, h.cap, fun hr => Bool.noConfusion hr, fun _ => ?_⟩
  rwa [hempty]

theorem serving_note {line : Bytes} {replied after : Bool} {work : WorkReq} (h : Serving line replied work)
    {action : Act} (hallowed : replyAllowed replied action ∧ boundContract.allowed () action)
    {answer : Res action} (hafter : replyAnswers replied action answer after) :
    ∃ work', noteReply (some work) action answer = some work' ∧ Serving line after work' := by
  cases action with
  | reply text len =>
      obtain ⟨hfirst, hfine⟩ := hallowed
      cases (show replied = false from hfirst)
      rw [show after = true from hafter]
      exact ⟨_, rfl, h.reply hfine answer⟩
  | _ =>
      rw [show after = replied from hafter]
      exact ⟨work, rfl, h⟩

theorem line_handled (line : Bytes) : (parseAndExecute line).wp workContract
    (fun after _ => ∃ work, after = some work ∧ Handled line work) (some { line := line }) := by
  have hbounded := line_bounded line
  rw [parseAndExecute_eq] at hbounded ⊢
  by_cases hsilent : request line = .silent
  · rw [hsilent]
    exact ⟨_, rfl, rfl, rfl, fun _ => rfl, fun hspeaks => absurd hsilent hspeaks⟩
  · apply wp_transfer (fun ghost work => ∃ w, work = some w ∧ Serving line ghost.1 w) _ _ _ _
      (wp_both (request_replies hsilent) hbounded)
    · exact fun _ _ _ _ hallowed => hallowed.2
    · rintro ⟨replied, ⟨⟩⟩ _ action answer _ ⟨work, rfl, hserving⟩ hallowed ⟨hbound, rfl⟩
      obtain ⟨after, hafter⟩ : ∃ after, replyAnswers replied action answer after := by
        cases action with
        | _ => exact ⟨_, rfl⟩
      exact ⟨(after, ()), ⟨hafter, hbound⟩, serving_note hserving hallowed hafter⟩
    · rintro ⟨replied, ⟨⟩⟩ _ _ ⟨work, rfl, hserving⟩ ⟨hreplied, _⟩
      exact ⟨work, rfl, hserving.line_eq, hserving.complete, fun hs => absurd hs hsilent,
        fun _ => hserving.full hreplied⟩
    · exact ⟨_, rfl, rfl, rfl, rfl, fun _ => rfl, fun hreplied => Bool.noConfusion hreplied⟩

end Worker

end Solidbits
