import Solidbits.Jobs.Defs
import Solidbits.Bitops.Access

namespace Solidbits

open Prog

section Contract

-- A job works on what it holds and releases only that; nothing is assumed about
-- the answers.
def pinAllowed (held : Holding) : Act → Prop
  | .prepareFile _ mode => mode ≤ 2
  | .releaseDesc dt => 0 < held.count dt
  | .descLength dt => 0 < held.count dt
  | .readFrom dt _ _ => 0 < held.count dt
  | .writeTo dt _ _ => 0 < held.count dt
  | .posixMemalign => True
  | .reply _ _ => True

def pinContract : Contract Act Res Holding where
  allowed := pinAllowed
  answers held action answer after := ∃ st, after = record st held action answer

end Contract

section Rules

variable {α : Type} {held : Holding} {dt : Slot} {post : Holding → α → Prop}

theorem pin_prepareFile {key : Bytes} {mode : Nat} {f : Except OpenError Slot → Cmd α} (hmode : mode ≤ 2)
    (hok : ∀ slot fd, (f (.ok slot)).wp pinContract post (held.pin ⟨slot, xxh64 key 0, fd, mode⟩))
    (hmissing : (f (.error .missing)).wp pinContract post held)
    (hfailed : (f (.error .failed)).wp pinContract post held.fail) :
    (Cmd.prepareFile key mode >>= f).wp pinContract post held := by
  refine (wp_ask pinContract post (Act.prepareFile key mode) f held).mpr ⟨hmode, ?_⟩
  rintro answer _ ⟨st, rfl⟩
  cases answer with
  | ok slot => exact hok slot _
  | error error =>
      cases error with
      | missing => exact hmissing
      | failed => exact hfailed

theorem pin_releaseDesc {f : Unit → Cmd α} (hp : 0 < held.count dt)
    (h : (f ()).wp pinContract post (held.release dt)) :
    (Cmd.releaseDesc dt >>= f).wp pinContract post held := by
  refine (wp_ask pinContract post (Act.releaseDesc dt) f held).mpr ⟨hp, ?_⟩
  rintro _ _ ⟨st, rfl⟩
  exact h

theorem pin_reply {text : Bytes} {len : Nat} {f : Bool → Cmd α} (h : ∀ ok, (f ok).wp pinContract post held) :
    (Cmd.reply text len >>= f).wp pinContract post held := by
  refine (wp_ask pinContract post (Act.reply text len) f held).mpr ⟨trivial, ?_⟩
  rintro ok _ ⟨st, rfl⟩
  exact h ok

theorem pin_descLength {f : Nat → Cmd α} (hp : 0 < held.count dt)
    (h : ∀ length, (f length).wp pinContract post held) :
    (Cmd.descLength dt >>= f).wp pinContract post held := by
  refine (wp_ask pinContract post (Act.descLength dt) f held).mpr ⟨hp, ?_⟩
  rintro length _ ⟨st, rfl⟩
  exact h length

theorem pin_replyStr (text : String) (len : Nat) {post : Holding → Unit → Prop} (h : post held ()) :
    (replyStr text len).wp pinContract post held :=
  pin_reply fun _ => h

theorem pin_replyResult (result : Int) {post : Holding → Unit → Prop} (h : post held ()) :
    (replyResult result).wp pinContract post held := by
  unfold replyResult
  split
  · exact pin_replyStr _ _ h
  · exact pin_reply fun _ => h

-- A command between prepare_file and release_desc leaves what is held.
theorem pin_accesses {prog : Cmd α} {result : α → Prop}
    (h : prog.Only (Accesses fun dt => 0 < held.count dt) result) :
    prog.wp pinContract (fun after value => after = held ∧ result value) held := by
  induction prog with
  | ret value => exact ⟨rfl, h⟩
  | act action next ih =>
      refine ⟨?_, ?_⟩
      · have haction := h.1
        cases action <;> simp_all [pinContract, pinAllowed, Accesses]
      · rintro answer _ ⟨st, rfl⟩
        have hsame : record st held action answer = held := by
          have haction := h.1
          cases action <;> first | rfl | exact haction.elim
        rw [hsame]
        exact ih answer (h.2 answer)

end Rules

section Requests

variable {held : Holding} {descs : List (Option Slot)}

def Holding.Covers (held : Holding) (descs : List (Option Slot)) : Prop :=
  ∀ slot, descs.count (some slot) ≤ held.count slot

-- Every reference is in the list, unless one was dropped.
def Holding.Matches (held : Holding) (descs : List (Option Slot)) : Prop :=
  held.dropped = false → ∀ slot, held.count slot = descs.count (some slot)

theorem count_cons_slot (dt slot : Slot) (descs : List (Option Slot)) :
    (some dt :: descs).count (some slot) = descs.count (some slot) + if dt = slot then 1 else 0 := by
  rw [List.count_cons]
  simp

theorem count_cons_none (slot : Slot) (descs : List (Option Slot)) :
    (none :: descs).count (some slot) = descs.count (some slot) :=
  List.count_cons_of_ne (by simp)

theorem covers_held (h : held.Covers descs) : Held (fun dt => 0 < held.count dt) descs :=
  fun dt hm => Nat.lt_of_lt_of_le (List.count_pos_iff.mpr hm) (h dt)

def Holding.Returned (held : Holding) : Prop := held.Matches []

theorem pin_releaseAllDescs (hcovers : held.Covers descs) (hmatches : held.Matches descs) :
    (releaseAllDescs descs).wp pinContract (fun after _ => after.Returned) held := by
  induction descs generalizing held with
  | nil => exact hmatches
  | cons first descs ih =>
      cases first with
      | none =>
          apply ih
          · intro slot
            rw [← count_cons_none]
            exact hcovers slot
          · intro hkept slot
            rw [← count_cons_none]
            exact hmatches hkept slot
      | some dt =>
          have hdt := hcovers dt
          rw [count_cons_slot, if_pos rfl] at hdt
          apply pin_releaseDesc (by omega)
          apply ih
          · intro slot
            have hslot := hcovers slot
            rw [count_cons_slot] at hslot
            rw [release_count]
            omega
          · intro hkept slot
            have hslot := hmatches hkept slot
            rw [count_cons_slot] at hslot
            rw [release_count]
            omega

theorem pin_finish {command : Cmd Int} (hcovers : held.Covers descs) (hmatches : held.Matches descs)
    (h : command.Only (Accesses fun dt => 0 < held.count dt) fun _ => True) : (do
      let result ← command
      replyResult result
      releaseAllDescs descs).wp pinContract (fun after _ => after.Returned) held := by
  refine wp_seq (pin_accesses h) ?_
  rintro after result ⟨rfl, _⟩
  rw [wp_bind]
  apply pin_replyResult
  exact pin_releaseAllDescs hcovers hmatches

theorem pin_single (slot : Slot) (hash : UInt64) (fd : FilePtr) (mode : Nat) :
    (Holding.pin {} ⟨slot, hash, fd, mode⟩).Covers [some slot] ∧
      (Holding.pin {} ⟨slot, hash, fd, mode⟩).Matches [some slot] := by
  have hcount : ∀ other, (Holding.pin {} ⟨slot, hash, fd, mode⟩).count other =
      [some slot].count (some other) := by
    intro other
    rw [pin_count, count_cons_slot]
    rfl
  exact ⟨fun other => Nat.le_of_eq (hcount other).symm, fun _ => hcount⟩

-- While the sources are opened: the references in the array, with that of the
-- destination, are all there are.
structure Opening (held : Holding) (dest : Option Slot) (tmp : List (Option Slot)) : Prop where
  counted : ∀ slot, held.count slot = (dest :: tmp).count (some slot)
  sources : (∃ slot, some slot ∈ tmp) → held.sources = true

theorem Opening.pin {dest : Option Slot} {tmp : List (Option Slot)} (h : Opening held dest tmp)
    (slot : Slot) (hash : UInt64) (fd : FilePtr) :
    Opening (held.pin ⟨slot, hash, fd, 1⟩) dest (some slot :: tmp) := by
  constructor
  · intro other
    rw [pin_count, h.counted, List.count_cons, List.count_cons, count_cons_slot]
    dsimp only
    omega
  · intro _
    simp [Holding.sources, Holding.pin]

theorem Opening.skip {dest : Option Slot} {tmp : List (Option Slot)} (h : Opening held dest tmp) :
    Opening held dest (none :: tmp) := by
  constructor
  · intro other
    rw [h.counted, List.count_cons, List.count_cons, count_cons_none]
  · rintro ⟨slot, hm⟩
    exact h.sources ⟨slot, by simpa using hm⟩

-- prepare_files gives up: what it had opened is lost.
theorem Opening.fail {dest : Option Slot} {tmp : List (Option Slot)} (h : Opening held dest tmp) :
    held.fail.Covers [dest] ∧ held.fail.Matches [dest] := by
  constructor
  · intro slot
    rw [fail_count, h.counted, List.count_cons, List.count_cons, List.count_nil]
    omega
  · intro hkept slot
    have hnone : tmp.count (some slot) = 0 := by
      refine List.count_eq_zero.mpr fun hm => ?_
      simp [Holding.fail, h.sources ⟨slot, hm⟩] at hkept
    rw [fail_count, h.counted, List.count_cons, List.count_cons, hnone, List.count_nil]

theorem pin_prepareFilesLoop {dest : Option Slot} {keys : List Bytes} {tmp : List (Option Slot)}
    (h : Opening held dest tmp) {post : Holding → Option (List (Option Slot)) → Prop}
    (hpost : ∀ after dts, Opening after dest dts → post after (some dts))
    (hfail : ∀ after : Holding, after.Covers [dest] → after.Matches [dest] → post after none) :
    (prepareFilesLoop keys tmp).wp pinContract post held := by
  induction keys generalizing held tmp with
  | nil => exact hpost held tmp h
  | cons key keys ih =>
      apply pin_prepareFile (by decide)
      · exact fun slot fd => ih (h.pin slot _ fd)
      · exact ih h.skip
      · exact hfail _ h.fail.1 h.fail.2

theorem pin_bitopSources (cmd : BitopCmd) {dest : Option Slot} (h : Opening held dest []) (keys : List Bytes) :
    (bitopSources cmd dest keys).wp pinContract (fun after _ => after.Returned) held := by
  rw [bitopSources, wp_bind]
  apply pin_prepareFilesLoop h
  · intro after dts ho
    have hcovers : after.Covers (dest :: dts) := fun slot => Nat.le_of_eq (ho.counted slot).symm
    exact pin_finish hcovers (fun _ => ho.counted) (bitopCommand_accesses cmd (covers_held hcovers))
  · intro after hcovers hmatches
    rw [wp_bind]
    apply pin_replyStr
    exact pin_releaseAllDescs hcovers hmatches

-- A job holds nothing when it is done, unless prepare_files has dropped a
-- reference.
theorem pin_request (request : Request) :
    request.execute.wp pinContract (fun after _ => after.Returned) {} := by
  have hnone : Holding.Returned {} := fun _ _ => rfl
  have hfailed : Holding.Returned (Holding.fail {}) := fun _ _ => rfl
  cases request with
  | fail text len => exact pin_replyStr text len hnone
  | setbit cmd =>
      apply pin_prepareFile (by decide)
      · intro slot fd
        obtain ⟨hcovers, hmatches⟩ := pin_single slot (xxh64 cmd.key 0) fd 0
        exact pin_finish hcovers hmatches (setbitCommand_accesses (covers_held hcovers _ List.mem_cons_self) cmd)
      · exact pin_replyStr _ _ hnone
      · exact pin_replyStr _ _ hfailed
  | getbit cmd =>
      apply pin_prepareFile (by decide)
      · intro slot fd
        obtain ⟨hcovers, hmatches⟩ := pin_single slot (xxh64 cmd.key 0) fd 1
        exact pin_finish hcovers hmatches (getbitCommand_accesses (covers_held hcovers _ List.mem_cons_self) cmd)
      · exact pin_replyStr _ _ hnone
      · exact pin_replyStr _ _ hfailed
  | bitop cmd keys =>
      have hstart : Opening {} none [] := ⟨fun slot => rfl, fun ⟨slot, hm⟩ => by cases hm⟩
      simp only [Request.execute, bitopExecute]
      split
      · apply pin_prepareFile (by decide)
        · intro slot fd
          refine pin_bitopSources cmd ⟨fun other => ?_, fun ⟨slot, hm⟩ => by cases hm⟩ keys
          rw [pin_count, count_cons_slot]
          rfl
        · exact pin_replyStr _ _ hnone
        · exact pin_replyStr _ _ hfailed
      · exact pin_bitopSources cmd hstart keys
      · exact pin_bitopSources cmd hstart keys
  | bitcount key c args =>
      apply pin_prepareFile (by decide)
      · intro slot fd
        obtain ⟨hcovers, hmatches⟩ := pin_single slot (xxh64 key 0) fd 1
        have hheld := covers_held hcovers _ List.mem_cons_self
        apply pin_descLength hheld
        intro length
        split
        · rw [wp_bind]
          apply pin_replyStr
          exact pin_releaseAllDescs hcovers hmatches
        · by_cases hfour : c = 4
          · simp only [hfour, ite_true, pure_eq, ret_bind]
            exact pin_finish hcovers hmatches (bitcountCommand_accesses hheld _)
          · simp only [hfour, ite_false]
            apply pin_descLength hheld
            intro length
            exact pin_finish hcovers hmatches (bitcountCommand_accesses hheld _)
      · exact pin_replyStr _ _ hnone
      · exact pin_replyStr _ _ hfailed
  | silent => exact hnone

end Requests

section Steps

variable {ι : Type} [DecidableEq ι] {jobs : Jobs ι} {job : ι} {choice : Choice} {action : Act}
  {next : Res action → Cmd Unit}

-- The state after one action of a job.
def Jobs.moved (jobs : Jobs ι) (job : ι) (choice : Choice) (action : Act) (next : Res action → Cmd Unit) : Jobs ι :=
  { shared := (execAct choice action jobs.shared).2
    threads := Function.update jobs.threads job
      (Pool.advance execAct record jobs.shared choice (jobs.threads job).ghost action next) }

theorem next_moved (hprog : (jobs.threads job).prog = .act action next) :
    jobs.next (.act job choice) = jobs.moved job choice action next :=
  @Pool.step_act ι Store Choice Holding Unit Act Res _ execAct record jobs (job, choice) _ _ hprog

theorem next_ret {value : Unit} (hprog : (jobs.threads job).prog = .ret value) :
    jobs.next (.act job choice) = jobs :=
  @Pool.step_ret ι Store Choice Holding Unit Act Res _ execAct record jobs (job, choice) _ hprog

theorem next_sigterm (fails : Slot → Bool) :
    (jobs.next (.sigterm fails)).shared = closeFiles fails jobs.shared ∧
      (jobs.next (.sigterm fails)).threads = jobs.threads := by
  rw [Jobs.next]
  exact ⟨rfl, rfl⟩

theorem moved_self : ((jobs.moved job choice action next).threads job).ghost =
    record (execAct choice action jobs.shared).2 (jobs.threads job).ghost action
      (execAct choice action jobs.shared).1 :=
  congrArg Thread.ghost (Function.update_self job _ jobs.threads)

theorem moved_of_ne {other : ι} (h : other ≠ job) :
    (jobs.moved job choice action next).threads other = jobs.threads other :=
  Function.update_of_ne h _ _

theorem verified_next (hv : jobs.Verified pinContract fun after _ => after.Returned) (turn : Turn ι) :
    (jobs.next turn).Verified pinContract fun after _ => after.Returned := by
  cases turn with
  | act job choice => exact hv.step execAct record (job, choice) fun _ _ _ => ⟨_, rfl⟩
  | sigterm fails => exact fun i => hv i

end Steps

end Solidbits
