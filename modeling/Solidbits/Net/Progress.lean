import Solidbits.Lib.Fair
import Solidbits.Net.Backlog
import Solidbits.Net.Sessions

namespace Solidbits

open Prog Transition

section Phases

variable {l l' : Ledger} {event : Event} {c : Conn} {answered : List (Bytes × Bytes)}

-- A connection whose request is with a worker, and one whose reply is being sent.
def Ledger.Working (answered : List (Bytes × Bytes)) (l : Ledger) : Prop :=
  l.works ≠ [] ∧ l.writes = [] ∧ l.answered = answered

def Ledger.Writing (answered : List (Bytes × Bytes)) (l : Ledger) : Prop :=
  l.works = [] ∧ l.writes ≠ [] ∧ l.answered = answered

def Ledger.Beyond (answered : List (Bytes × Bytes)) (l : Ledger) : Prop :=
  answered.length < l.answered.length

theorem beyond_concat (answered : List (Bytes × Bytes)) (entry : Bytes × Bytes) {l : Ledger}
    (h : l.answered = answered ++ [entry]) : l.Beyond answered := by
  rw [Ledger.Beyond, h, List.length_append, List.length_singleton]
  exact Nat.lt_succ_self _

theorem Ledger.Working.step (h : l.Working answered) (hstep : l.Step event l') (hopen : l'.closing = false) :
    l'.Working answered ∨ l'.Writing answered ∨ l'.Beyond answered := by
  obtain ⟨hworks, hwrites, rfl⟩ := h
  cases hstep with
  | goes hgoes =>
      cases hgoes with
      | stays => exact Or.inl ⟨hworks, hwrites, rfl⟩
      | closes => exact Bool.noConfusion hopen
      | takes line hidle _ => exact absurd hidle.1 hworks
  | silent w _ _ _ => exact Or.inr (Or.inr (beyond_concat _ _ rfl))
  | refused _ _ => exact Bool.noConfusion hopen
  | handed w _ _ _ => exact Or.inr (Or.inl ⟨rfl, List.cons_ne_nil _ _, rfl⟩)
  | failed hnone _ => exact absurd hnone hworks
  | flushed w hnone _ _ => exact absurd hnone hworks

theorem Ledger.Writing.step (h : l.Writing answered) (hstep : l.Step event l') (hopen : l'.closing = false) :
    l'.Writing answered ∨ l'.Beyond answered := by
  obtain ⟨hworks, hwrites, rfl⟩ := h
  cases hstep with
  | goes hgoes =>
      cases hgoes with
      | stays => exact Or.inl ⟨hworks, hwrites, rfl⟩
      | closes => exact Bool.noConfusion hopen
      | takes line hidle _ => exact absurd hidle.2 hwrites
  | silent w _ hnone _ => exact absurd hnone hwrites
  | refused _ hnone => exact absurd hnone hwrites
  | handed w _ hnone _ => exact absurd hnone hwrites
  | failed _ _ => exact Bool.noConfusion hopen
  | flushed w _ _ hgoes =>
      refine Or.inr ?_
      cases hgoes with
      | stays => exact beyond_concat _ _ rfl
      | closes => exact Bool.noConfusion hopen
      | takes line _ _ => exact beyond_concat _ _ rfl

end Phases

section Steps

variable {ι : Type} [DecidableEq ι] {service : Service ι} {i : ι}

-- A move that makes the server give up a connection.
def Service.Trouble (service : Service ι) (i : ι) : Move ι → Prop
  | .read j chunk reallocFails allocFails => i = j ∧ (service.conns i).Trouble (.read chunk reallocFails allocFails)
  | .readEnd j => i = j ∧ (service.conns i).Trouble .readEnd
  | .act _ _ => False
  | .afterWork j writeFails => i = j ∧ (service.conns i).works ≠ [] ∧ writeFails = true
  | .onWrite j status allocFails => i = j ∧ (service.conns i).Trouble (.onWrite status allocFails)

end Steps

section Forever

variable {ι : Type} [DecidableEq ι] {disk : Contents} {moves : Nat → Move ι} {i : ι}

variable {told : List (Bytes × Bytes)} {n : Nat} {prog : Cmd Unit}

variable {lines : List Bytes} {rest : Bytes}

end Forever

end Solidbits
