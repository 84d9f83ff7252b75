import Solidbits.Bitops.Access
import Solidbits.Parser.Request

namespace Solidbits

open Prog

section Contract

-- The ghost state says whether the request has replied: it replies once, and
-- opens no file behind its reply. Nothing is assumed about the answers.
def replyAllowed (replied : Bool) : Act → Prop
  | .prepareFile _ _ => replied = false
  | .reply _ _ => replied = false
  | _ => True

def replyAnswers (replied : Bool) : (action : Act) → Res action → Bool → Prop
  | .reply _ _, _, after => after = true
  | _, _, after => after = replied

def replyContract : Contract Act Res Bool where
  allowed := replyAllowed
  answers := replyAnswers

end Contract

section Rules

variable {α : Type} {replied : Bool}

-- Nothing but a reply counts as one.
theorem reply_opensNothing {prog : Cmd α} {result : α → Prop}
    (h : prog.Only (Accesses fun _ => True) result) :
    prog.wp replyContract (fun after value => after = replied ∧ result value) replied := by
  induction prog with
  | ret value => exact ⟨rfl, h⟩
  | act action next ih =>
      cases action with
      | prepareFile key mode => exact h.1.elim
      | reply text len => exact h.1.elim
      | releaseDesc dt => exact h.1.elim
      | descLength dt => exact ⟨trivial, fun answer after ha => ha ▸ ih answer (h.2 answer)⟩
      | readFrom dt size offset => exact ⟨trivial, fun answer after ha => ha ▸ ih answer (h.2 answer)⟩
      | writeTo dt buf offset => exact ⟨trivial, fun answer after ha => ha ▸ ih answer (h.2 answer)⟩
      | posixMemalign => exact ⟨trivial, fun answer after ha => ha ▸ ih answer (h.2 answer)⟩

theorem reply_releaseAllDescs (descs : List (Option Slot)) {post : Bool → Unit → Prop} (h : post replied ()) :
    (releaseAllDescs descs).wp replyContract post replied := by
  induction descs with
  | nil => exact h
  | cons first descs ih =>
      cases first with
      | none => exact ih
      | some dt =>
          refine (wp_ask replyContract post (Act.releaseDesc dt) _ replied).mpr ⟨trivial, ?_⟩
          rintro _ _ rfl
          exact ih

theorem reply_replyStr (text : String) (len : Nat) {post : Bool → Unit → Prop} (h : post true ()) :
    (replyStr text len).wp replyContract post false := by
  refine (wp_ask replyContract post (Act.reply (str text) len) _ false).mpr ⟨rfl, ?_⟩
  rintro _ _ rfl
  exact h

theorem reply_replyResult (result : Int) {post : Bool → Unit → Prop} (h : post true ()) :
    (replyResult result).wp replyContract post false := by
  unfold replyResult
  split
  · exact reply_replyStr _ _ h
  · refine (wp_ask replyContract post (Act.reply _ _) _ false).mpr ⟨rfl, ?_⟩
    rintro _ _ rfl
    exact h

-- The two ways a request ends.
theorem reply_failed (text : String) (len : Nat) (descs : List (Option Slot)) : (do
    replyStr text len
    releaseAllDescs descs).wp replyContract (fun after _ => after = true) false := by
  rw [wp_bind]
  apply reply_replyStr
  exact reply_releaseAllDescs descs rfl

theorem reply_finish {command : Cmd Int} (h : command.Only (Accesses fun _ => True) fun _ => True)
    (descs : List (Option Slot)) : (do
    let result ← command
    replyResult result
    releaseAllDescs descs).wp replyContract (fun after _ => after = true) false := by
  apply wp_seq (reply_opensNothing h)
  rintro after result ⟨rfl, _⟩
  rw [wp_bind]
  apply reply_replyResult
  exact reply_releaseAllDescs descs rfl

theorem reply_prepareFile {key : Bytes} {mode : Nat} {f : Except OpenError Slot → Cmd α}
    {post : Bool → α → Prop} (h : ∀ answer, (f answer).wp replyContract post false) :
    (Cmd.prepareFile key mode >>= f).wp replyContract post false := by
  refine (wp_ask replyContract post (Act.prepareFile key mode) f false).mpr ⟨rfl, ?_⟩
  rintro answer _ rfl
  exact h answer

theorem reply_descLength {dt : Slot} {f : Nat → Cmd α} {post : Bool → α → Prop}
    (h : ∀ length, (f length).wp replyContract post false) :
    (Cmd.descLength dt >>= f).wp replyContract post false := by
  refine (wp_ask replyContract post (Act.descLength dt) f false).mpr ⟨trivial, ?_⟩
  rintro length _ rfl
  exact h length

end Rules

section Requests

theorem reply_prepareFilesLoop (keys : List Bytes) (tmp : List (Option Slot)) :
    (prepareFilesLoop keys tmp).wp replyContract (fun after _ => after = false) false := by
  induction keys generalizing tmp with
  | nil => exact rfl
  | cons key keys ih =>
      apply reply_prepareFile
      intro answer
      split
      · exact ih _
      · exact ih _
      · exact rfl

theorem reply_bitopSources (cmd : BitopCmd) (dest : Option Slot) (keys : List Bytes) :
    (bitopSources cmd dest keys).wp replyContract (fun after _ => after = true) false := by
  apply wp_seq (reply_prepareFilesLoop keys.reverse [])
  rintro after answer rfl
  split
  · exact reply_failed _ _ _
  · exact reply_finish (bitopCommand_accesses cmd fun _ _ => trivial) _

-- A request replies once, whatever it is answered, if it is not one of those
-- that never do.
theorem request_replies {request : Request} (hsilent : request ≠ .silent) :
    request.execute.wp replyContract (fun after _ => after = true) false := by
  cases request with
  | fail text len => exact reply_replyStr text len rfl
  | setbit cmd =>
      apply reply_prepareFile
      intro answer
      split
      · exact reply_failed _ _ _
      · exact reply_finish (setbitCommand_accesses trivial cmd) _
  | getbit cmd =>
      apply reply_prepareFile
      intro answer
      split
      · exact reply_replyStr _ _ rfl
      · exact reply_failed _ _ _
      · exact reply_finish (getbitCommand_accesses trivial cmd) _
  | bitop cmd keys =>
      simp only [Request.execute, bitopExecute]
      split
      · apply reply_prepareFile
        intro answer
        split
        · exact reply_failed _ _ _
        · exact reply_bitopSources cmd _ keys
      · exact reply_bitopSources cmd none keys
      · exact reply_bitopSources cmd none keys
  | bitcount key c args =>
      apply reply_prepareFile
      intro answer
      split
      · exact reply_replyStr _ _ rfl
      · exact reply_failed _ _ _
      · apply reply_descLength
        intro length
        split
        · exact reply_failed _ _ _
        · by_cases hfour : c = 4
          · simp only [hfour, ite_true, pure_eq, ret_bind]
            exact reply_finish (bitcountCommand_accesses trivial _) _
          · simp only [hfour, ite_false]
            apply reply_descLength
            intro length
            exact reply_finish (bitcountCommand_accesses trivial _) _
  | silent => exact absurd rfl hsilent

-- A thread that has not replied yet is not finished.
theorem line_replies (line : Bytes) :
    ∃ replied, (parseAndExecute line).wp replyContract (fun after _ => after = true) replied := by
  rw [parseAndExecute_eq]
  by_cases hsilent : request line = .silent
  · exact ⟨true, by rw [hsilent]; rfl⟩
  · exact ⟨false, request_replies hsilent⟩

end Requests

end Solidbits
