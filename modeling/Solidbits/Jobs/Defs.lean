import Solidbits.Lib.Pool
import Solidbits.Parser.Request
import Mathlib.Algebra.BigOperators.Group.Finset.Basic
import Mathlib.Data.Fintype.Basic

namespace Solidbits

section Holdings

-- A reference from prepare_file: the slot, the hash it was asked for, the
-- FILE * it was handed out with, and the mode.
structure Pin where
  slot : Slot
  hash : UInt64
  fd : FilePtr
  mode : Nat

-- The references a job holds, and whether the open of a source failed while it
-- held another one.
structure Holding where
  pins : List Pin := []
  dropped : Bool := false

def Holding.count (held : Holding) (slot : Slot) : Nat := held.pins.countP (·.slot = slot)

def Holding.sources (held : Holding) : Bool := held.pins.any (·.mode = 1)

def Holding.pin (held : Holding) (pin : Pin) : Holding := { held with pins := pin :: held.pins }

def Holding.fail (held : Holding) : Holding := { held with dropped := held.dropped || held.sources }

def Holding.release (held : Holding) (dt : Slot) : Holding :=
  { held with pins := held.pins.eraseP (·.slot = dt) }

-- How an action changes what the job holds, judged on the answer and the table
-- behind it.
def record (st : Store) (held : Holding) : (action : Act) → Res action → Holding
  | .prepareFile key mode, .ok slot => held.pin ⟨slot, xxh64 key 0, (st.descs slot).fd, mode⟩
  | .prepareFile _ _, .error .missing => held
  | .prepareFile _ _, .error .failed => held.fail
  | .releaseDesc dt, _ => held.release dt
  | _, _ => held

@[simp] theorem pin_dropped (held : Holding) (pin : Pin) : (held.pin pin).dropped = held.dropped := rfl

@[simp] theorem release_dropped (held : Holding) (dt : Slot) : (held.release dt).dropped = held.dropped := rfl

@[simp] theorem fail_count (held : Holding) (slot : Slot) : held.fail.count slot = held.count slot := rfl

theorem pin_count (held : Holding) (pin : Pin) (slot : Slot) :
    (held.pin pin).count slot = held.count slot + if pin.slot = slot then 1 else 0 := by
  simp only [Holding.pin, Holding.count, List.countP_cons, decide_eq_true_eq]

theorem release_count (held : Holding) (dt slot : Slot) :
    (held.release dt).count slot = held.count slot - if dt = slot then 1 else 0 := by
  simp only [Holding.release, Holding.count]
  induction held.pins with
  | nil => simp
  | cons pin pins ih =>
      by_cases hp : pin.slot = dt
      · by_cases hs : dt = slot
        · simp [hp, hs]
        · simp [hp, hs]
      · rw [List.eraseP_cons_of_neg (by simpa using hp), List.countP_cons, List.countP_cons, ih]
        by_cases hs : dt = slot
        · subst hs
          simp [hp]
        · simp [hs]

theorem Holding.held_of_count {held : Holding} {slot : Slot} (h : 0 < held.count slot) :
    ∃ pin ∈ held.pins, pin.slot = slot := by
  obtain ⟨pin, hm, hs⟩ := List.countP_pos_iff.mp h
  exact ⟨pin, hm, by simpa using hs⟩

theorem Holding.count_of_mem {held : Holding} {pin : Pin} (h : pin ∈ held.pins) : 0 < held.count pin.slot :=
  List.countP_pos_iff.mpr ⟨pin, h, by simp⟩

end Holdings

section Jobs

variable {ι : Type} [DecidableEq ι]

-- Requests in progress, one worker each, over the file module.
abbrev Jobs (ι : Type) := Pool ι Store Act Res Unit Holding

-- One action of a job, or the SIGTERM handler in the loop thread, which may fail
-- to flush some of the descriptors.
inductive Turn (ι : Type) where
  | act (job : ι) (choice : Choice)
  | sigterm (fails : Slot → Bool)

def Jobs.next (jobs : Jobs ι) : Turn ι → Jobs ι
  | .act job choice => Pool.step execAct record jobs (job, choice)
  | .sigterm fails => { jobs with shared := closeFiles fails jobs.shared }

def Jobs.start (disk : UInt64 → Option Bytes) (lines : ι → Bytes) : Jobs ι :=
  Pool.start (initFile disk) {} fun i => parseAndExecute (lines i)

-- What a job holds while it is not finished.
def Jobs.holding (jobs : Jobs ι) (i : ι) : Holding :=
  if (jobs.threads i).prog.Finished then {} else (jobs.threads i).ghost

def Jobs.pinned [Fintype ι] (jobs : Jobs ι) (slot : Slot) : Nat :=
  Finset.univ.sum fun i => (jobs.holding i).count slot

end Jobs

end Solidbits
