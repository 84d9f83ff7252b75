import Solidbits.File.Crash
import Solidbits.Serial.Desk
import Solidbits.Serial.Quiet

namespace Solidbits

open Prog

section Contract

-- A request empties no file and writes at most once, no more than fits into the
-- buffer; behind that it only replies and gives its descriptor back. The ghost
-- tells whether it has written.
def onceAllowed (written : Bool) : Act → Prop
  | .prepareFile _ mode => written = false ∧ mode < 2
  | .descLength _ => written = false
  | .readFrom _ _ _ => written = false
  | .writeTo _ buf _ => written = false ∧ buf.length < BLOCK_SIZE
  | .posixMemalign => written = false
  | .releaseDesc _ => True
  | .reply _ _ => True

def onceAnswers (written : Bool) : (action : Act) → Res action → Bool → Prop
  | .writeTo _ _ _, _, after => after = true
  | _, _, after => after = written

def onceContract : Contract Act Res Bool where
  allowed := onceAllowed
  answers := onceAnswers

end Contract

section Rules

variable {α : Type} {post : Bool → α → Prop} {written : Bool}

theorem once_of_quiet {kept : α → Prop} {prog : Cmd α} (h : prog.Only Quiet kept) :
    prog.wp onceContract (fun after _ => after = false) false := by
  induction prog with
  | ret value => rfl
  | act action next ih =>
      obtain ⟨hquiet, hnext⟩ := h
      cases action with
      | prepareFile key mode =>
          have hmode : mode = 1 := hquiet
          refine ⟨⟨rfl, by omega⟩, ?_⟩
          rintro answer _ rfl
          exact ih answer (hnext answer)
      | writeTo dt buf offset => exact hquiet.elim
      | releaseDesc dt =>
          refine ⟨trivial, ?_⟩
          rintro answer _ rfl
          exact ih answer (hnext answer)
      | reply text len =>
          refine ⟨trivial, ?_⟩
          rintro answer _ rfl
          exact ih answer (hnext answer)
      | _ =>
          refine ⟨rfl, ?_⟩
          rintro answer _ rfl
          exact ih answer (hnext answer)

theorem once_reply {text : Bytes} {len : Nat} {f : Bool → Cmd α}
    (h : ∀ answer, (f answer).wp onceContract post written) :
    (Cmd.reply text len >>= f).wp onceContract post written := by
  refine (wp_ask onceContract post (Act.reply text len) f written).mpr ⟨trivial, ?_⟩
  rintro answer _ rfl
  exact h answer

theorem once_releaseAllDescs (descs : List (Option Slot)) (written : Bool) :
    (releaseAllDescs descs).wp onceContract (fun _ _ => True) written := by
  induction descs with
  | nil => trivial
  | cons first descs ih =>
      cases first with
      | none => exact ih
      | some dt =>
          refine (wp_ask onceContract _ (Act.releaseDesc dt) _ written).mpr ⟨trivial, ?_⟩
          rintro _ _ rfl
          exact ih

theorem once_replyResult (result : Int) {f : Unit → Cmd α} (h : (f ()).wp onceContract post written) :
    (replyResult result >>= f).wp onceContract post written := by
  unfold replyResult
  split
  · exact once_reply fun _ => h
  · exact once_reply fun _ => h

theorem once_setbitWrite (cmd : SetbitCmd) (dt : Slot) (byteval : UInt8) :
    (setbitWrite cmd dt byteval).wp onceContract (fun _ _ => True) false := by
  refine (wp_ask onceContract _ (Act.writeTo dt [withBit byteval cmd.offset cmd.value] _) _ false).mpr
    ⟨⟨rfl, Nat.lt_of_lt_of_le Nat.one_lt_two (by decide)⟩, ?_⟩
  rintro answer _ rfl
  split <;> trivial

theorem once_setbitCommand (cmd : SetbitCmd) (dt : Slot) :
    (setbitCommand cmd dt).wp onceContract (fun _ _ => True) false := by
  refine (wp_ask onceContract _ _ _ false).mpr ⟨rfl, ?_⟩
  rintro length _ rfl
  split
  · refine (wp_ask onceContract _ _ _ false).mpr ⟨rfl, ?_⟩
    rintro dst _ rfl
    split
    · trivial
    · exact once_setbitWrite cmd dt _
  · split
    · trivial
    · exact once_setbitWrite cmd dt 0

end Rules

section Requests

theorem request_once {request : Request} (h : request.isBitop = false) :
    request.execute.wp onceContract (fun _ _ => True) false := by
  cases hchanges : request.changes with
  | false => exact wp_mono (fun _ _ _ => trivial) (once_of_quiet (request_quiet hchanges))
  | true =>
      cases request with
      | setbit cmd =>
          refine (wp_ask onceContract _ (Act.prepareFile cmd.key 0) _ false).mpr ⟨⟨rfl, by decide⟩, ?_⟩
          rintro answer _ rfl
          split
          · exact once_reply fun _ => once_releaseAllDescs [] false
          · refine wp_seq (once_setbitCommand cmd _) fun written result _ => ?_
            exact once_replyResult result (once_releaseAllDescs _ written)
      | bitop cmd keys => cases h
      | fail text len => cases hchanges
      | getbit cmd => cases hchanges
      | bitcount key c args => cases hchanges
      | silent => cases hchanges

-- A request that has written leaves the files as they are.
theorem files_at_end {prog : Cmd Unit} {files : Contents} {post : Bool → Unit → Prop} {g : Desk}
    (hkept : prog.wp deskContract (fun last _ => last.files = files) g) (honce : prog.wp onceContract post true) :
    g.files = files := by
  induction prog generalizing g with
  | ret value => exact hkept
  | act action next ih =>
      obtain ⟨hallowed, hnext⟩ := honce
      cases action with
      | releaseDesc dt =>
          have hfiles := ih () (hkept.2 () (g.unpin dt) rfl) (hnext () true rfl)
          exact hfiles
      | reply text len =>
          have hfiles := ih true (hkept.2 true (g.reply (text.take len)) ⟨rfl, rfl⟩) (hnext true true rfl)
          exact hfiles
      | prepareFile key mode => cases hallowed.1
      | descLength dt => cases hallowed
      | readFrom dt size offset => cases hallowed
      | writeTo dt buf offset => cases hallowed.1
      | posixMemalign => cases hallowed

theorem onceAllowed_keeps {written : Bool} {action : Act} (h : onceAllowed written action) : action.Keeps := by
  cases action with
  | prepareFile key mode => exact h.2
  | writeTo dt buf offset => exact h.2
  | _ => trivial

-- Only a write changes a bitmap, and only that of its own path.
theorem deskAnswers_bitmap {g g' : Desk} {action : Act} {answer : Res action} (h : deskAnswers g action answer g')
    (hkeeps : action.Keeps) {hash : UInt64} (hother : ∀ dt buf offset, action = .writeTo dt buf offset → hash ≠ g.hash dt) :
    (g'.files hash).getD [] = (g.files hash).getD [] := by
  cases action with
  | prepareFile key mode =>
      have hmode : mode < 2 := hkeeps
      cases h with
      | found slot hopen hshown hpin => rfl
      | opened slot hclosed hpin _ =>
          simp only [Desk.pin, Desk.create, Contents.opened, Nat.ne_of_lt hmode, false_or]
          split
          · rename_i hnone
            by_cases hh : hash = xxh64 key 0
            · rw [hh, Function.update_self, hnone]
              rfl
            · rw [Function.update_of_ne hh]
          · rfl
      | missing recorded hclosed hnone hone hother => rfl
      | full hclosed hpinned => rfl
  | writeTo dt buf offset =>
      simp only [deskAnswers] at h
      split at h
      · rw [h.2]
      · rw [h.2]
        simp only [Desk.write, Function.update_of_ne (hother dt buf offset rfl)]
  | releaseDesc dt => rw [show g' = g.unpin dt from h, Desk.unpin]
  | descLength dt => rw [h.2]
  | readFrom dt size offset => rw [h.2]
  | posixMemalign => rw [h.2]
  | reply text len => rw [h.2, Desk.reply]

end Requests

end Solidbits
