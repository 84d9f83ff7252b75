import Solidbits.Net.Ordered
import Solidbits.Net.Pipeline

namespace Solidbits

open Transition

section Capacity

variable {need cap : Nat}

-- The capacities that doubling leads to.
def Doubled (cap : Nat) : Prop := ∃ k, cap * 2 ^ k = RBUF_MAX_CAP

theorem doubled_init : Doubled RBUF_INIT_CAP := ⟨4, by decide⟩

theorem growLoop_doubled {fuel : Nat} (hfuel : need ≤ cap + fuel) (h : Doubled cap) (hfits : need ≤ RBUF_MAX_CAP) :
    Doubled (growLoop need fuel cap) := by
  induction fuel generalizing cap with
  | zero => exact h
  | succ fuel ih =>
      simp only [growLoop]
      split
      · rename_i hlt
        obtain ⟨k, hk⟩ := h
        have hpos : 0 < cap := by
          by_contra hzero
          rw [Nat.eq_zero_of_not_pos hzero, Nat.zero_mul] at hk
          cases hk
        cases k with
        | zero => omega
        | succ k =>
            refine ih (by omega) ⟨k, ?_⟩
            rw [← hk, Nat.pow_succ, Nat.mul_comm 2 cap, Nat.mul_assoc, Nat.mul_comm 2]
      · exact h

theorem Doubled.le (h : Doubled cap) : cap ≤ RBUF_MAX_CAP := by
  obtain ⟨k, hk⟩ := h
  exact hk ▸ Nat.le_mul_of_pos_right cap (Nat.two_pow_pos k)

theorem Doubled.grow (h : Doubled cap) (hfits : need ≤ RBUF_MAX_CAP) : Doubled (grow need cap) := by
  unfold Solidbits.grow
  split
  · exact growLoop_doubled (Nat.le_add_left _ _) h hfits
  · exact h

-- The buffer is full when 64 KiB wait in it, not before.
theorem Doubled.grow_le_iff (h : Doubled cap) (hpos : 0 < cap) :
    Solidbits.grow need cap ≤ RBUF_MAX_CAP ↔ need ≤ RBUF_MAX_CAP :=
  ⟨fun hle => Nat.le_trans (le_grow need cap hpos) hle, fun hfits => (h.grow hfits).le⟩

end Capacity

section Closing

variable {c : Conn}

-- Why a connection is given up: the client has more than 64 KiB waiting, it is
-- gone, or memory or a write fails.
def Conn.Trouble (c : Conn) : Event → Prop
  | .read chunk reallocFails allocFails => (c.closes = 0 ∧ chunk ≠ [] ∧ chunk.length ≤ READ_CHUNK) ∧
      (RBUF_MAX_CAP < c.rbuf.length + chunk.length ∨
        c.rcap < c.rbuf.length + chunk.length ∧ reallocFails = true ∨
        c.busy = false ∧ NEWLINE ∈ c.rbuf ++ chunk ∧ allocFails = true)
  | .readEnd => c.closes = 0
  | .afterWork status resp oom writeFails =>
      c.works ≠ [] ∧ 0 ≤ status ∧ oom = false ∧ resp ≠ [] ∧ writeFails = true
  | .onWrite status allocFails => c.writes ≠ [] ∧ (status < 0 ∨ NEWLINE ∈ c.rbuf ∧ allocFails = true)

theorem dispatchLine_closing (allocFails : Bool) (line : Bytes) (hopen : c.closing = false) :
    (dispatchLine allocFails line c).closing = allocFails := by
  unfold dispatchLine
  cases allocFails with
  | true => exact startClosing_closing c
  | false => exact hopen

theorem onReadLoop_closing (hopen : c.closing = false) (allocFails : Bool) (fuel scan : Nat) :
    (onReadLoop allocFails (fuel + 1) scan c).1.closing = true ↔
      c.busy = false ∧ NEWLINE ∈ c.rbuf.drop scan ∧ allocFails = true := by
  simp only [onReadLoop, hopen, Bool.false_eq_true, or_false]
  cases hbusy : c.busy with
  | true => simp [hopen]
  | false =>
      simp only [Bool.false_eq_true, ite_false, true_and]
      cases hm : memchr (c.rbuf.drop scan) with
      | none => simp [hopen, memchr_eq_none.mp hm]
      | some llen =>
          have hmem : NEWLINE ∈ c.rbuf.drop scan := by
            by_contra hnone
            rw [memchr_eq_none.mpr hnone] at hm
            cases hm
          have hstops : (onReadLoop allocFails fuel (scan + llen + 1)
              (dispatchLine allocFails ((c.rbuf.drop scan).take llen) c)).1 =
              dispatchLine allocFails ((c.rbuf.drop scan).take llen) c := by
            have hoccupied := dispatchLine_occupied allocFails ((c.rbuf.drop scan).take llen) c
            cases fuel with
            | zero => rfl
            | succ fuel => simp only [onReadLoop, hoccupied, ite_true]
          simp only [hstops, dispatchLine_closing allocFails _ hopen, hmem, true_and]

theorem onReadData_closing (hopen : c.closing = false) (hcap : Doubled c.rcap) (hpos : 0 < c.rcap)
    (reallocFails allocFails : Bool) (chunk : Bytes) :
    (onReadData reallocFails allocFails chunk c).closing = true ↔
      RBUF_MAX_CAP < c.rbuf.length + chunk.length ∨
        c.rcap < c.rbuf.length + chunk.length ∧ reallocFails = true ∨
        c.busy = false ∧ NEWLINE ∈ c.rbuf ++ chunk ∧ allocFails = true := by
  have hgrow : RBUF_MAX_CAP < grow (c.rbuf.length + chunk.length) c.rcap ↔
      RBUF_MAX_CAP < c.rbuf.length + chunk.length := by
    rw [← Nat.not_le, hcap.grow_le_iff hpos, Nat.not_le]
  have hle := hcap.le
  unfold onReadData
  simp only [hgrow]
  split
  · rename_i hfull
    refine iff_of_true (startClosing_closing _) ?_
    rcases hfull.2 with hlarge | hfails
    · exact Or.inl hlarge
    · exact Or.inr (Or.inl ⟨hfull.1, hfails⟩)
  · rename_i hroom
    have hloop := @onReadLoop_closing { c with
      received := c.received ++ chunk
      rbuf := c.rbuf ++ chunk
      rcap := grow (c.rbuf.length + chunk.length) c.rcap } hopen allocFails (c.rbuf ++ chunk).length 0
    rw [List.drop_zero] at hloop
    refine hloop.trans ?_
    constructor
    · exact fun hfails => Or.inr (Or.inr hfails)
    · rintro (hlarge | ⟨hlt, hfails⟩ | hfails)
      · exact absurd ⟨by omega, Or.inl hlarge⟩ hroom
      · exact absurd ⟨hlt, Or.inr hfails⟩ hroom
      · exact hfails

theorem tryDispatchNext_closing (hopen : c.closing = false) (hidle : c.busy = false) (allocFails : Bool) :
    (tryDispatchNext allocFails c).closing = true ↔ NEWLINE ∈ c.rbuf ∧ allocFails = true := by
  simp only [tryDispatchNext, hopen, hidle, Bool.false_eq_true, ite_false]
  cases hm : memchr c.rbuf with
  | none => simp [hopen, memchr_eq_none.mp hm]
  | some llen =>
      have hmem : NEWLINE ∈ c.rbuf := by
        by_contra hnone
        rw [memchr_eq_none.mpr hnone] at hm
        cases hm
      simp only [dispatchLine_closing allocFails _ hopen, hmem, true_and]

-- A connection that is open is closed by trouble, and by nothing else.
theorem next_closing (hopen : c.closing = false) (hcap : Doubled c.rcap) (hpos : 0 < c.rcap) (event : Event) :
    (c.next event).closing = true ↔ c.Trouble event := by
  cases event with
  | read chunk reallocFails allocFails =>
      simp only [Conn.next, Conn.Trouble]
      split
      · rename_i hread
        rw [onReadData_closing hopen hcap hpos]
        exact (and_iff_right hread).symm
      · rename_i hread
        simp only [hopen, hread, false_and, Bool.false_eq_true]
  | readEnd =>
      simp only [Conn.next, Conn.Trouble]
      split
      · rename_i hcloses
        exact iff_of_true (startClosing_closing c) hcloses
      · rename_i hcloses
        exact iff_of_false (hopen ▸ Bool.false_ne_true) hcloses
  | afterWork status resp oom writeFails =>
      simp only [Conn.next, Conn.Trouble]
      cases hworks : c.works with
      | nil => simp [hopen]
      | cons w rest =>
          simp only [afterWorkCb, ne_eq, reduceCtorEq, not_false_eq_true, true_and]
          split
          · rename_i hsilent
            rw [maybeClose_closing]
            refine iff_of_false (hopen ▸ Bool.false_ne_true) ?_
            rintro ⟨hstatus, hoom, hresp, _⟩
            rcases hsilent with hs | hs | hs | hs
            · omega
            · exact Bool.noConfusion (hopen.symm.trans hs)
            · exact Bool.noConfusion (hoom.symm.trans hs)
            · exact hresp hs
          · rename_i hreply
            simp only [not_or] at hreply
            obtain ⟨hstatus, _, hoom, hresp⟩ := hreply
            split
            · rename_i hfails
              exact iff_of_true (startClosing_closing _) ⟨Int.not_lt.mp hstatus, Bool.not_eq_true _ ▸ hoom, hresp, hfails⟩
            · rename_i hwrites
              exact iff_of_false (hopen ▸ Bool.false_ne_true) fun htrouble => hwrites htrouble.2.2.2
  | onWrite status allocFails =>
      simp only [Conn.next, Conn.Trouble]
      cases hwrites : c.writes with
      | nil => simp [hopen]
      | cons w rest =>
          simp only [onWrite, ne_eq, reduceCtorEq, not_false_eq_true, true_and]
          split
          · rename_i hfails
            exact iff_of_true (startClosing_closing _) (Or.inl hfails)
          · rename_i hflushed
            refine (@tryDispatchNext_closing { c with
              busy := false
              writes := c.writes.tail
              answered := c.answered ++ [(w.line, w.resp)]
              written := c.written ++ w.resp } hopen rfl allocFails).trans ?_
            exact (or_iff_right hflushed).symm

theorem onReadLoop_rcap (allocFails : Bool) (fuel scan : Nat) (c : Conn) :
    (onReadLoop allocFails fuel scan c).1.rcap = c.rcap := by
  rcases onReadLoop_cases allocFails fuel scan c with he | ⟨_, line, he⟩
  · rw [he]
  · rw [he, dispatchLine_rcap]

theorem Doubled.next (h : Doubled c.rcap) {event : Event} (hquiet : ¬c.Trouble event) : Doubled (c.next event).rcap := by
  cases event with
  | read chunk reallocFails allocFails =>
      simp only [Conn.Trouble] at hquiet
      simp only [Conn.next]
      split
      · rename_i hread
        have hfits : c.rbuf.length + chunk.length ≤ RBUF_MAX_CAP := by
          by_contra hlarge
          exact hquiet ⟨hread, Or.inl (Nat.lt_of_not_le hlarge)⟩
        unfold onReadData
        simp only
        split
        · rw [startClosing, maybeClose_rcap]
          exact h
        · rw [onReadLoop_rcap]
          exact h.grow hfits
      · exact h
  | readEnd =>
      simp only [Conn.next]
      split
      · rw [startClosing, maybeClose_rcap]
        exact h
      · exact h
  | afterWork status resp oom writeFails =>
      simp only [Conn.next]
      split
      · exact h
      · unfold afterWorkCb
        simp only
        split
        · rw [maybeClose_rcap]
          exact h
        · split
          · rw [startClosing, maybeClose_rcap]
            exact h
          · exact h
  | onWrite status allocFails =>
      simp only [Conn.next]
      split
      · exact h
      · unfold onWrite tryDispatchNext
        simp only
        split
        · rw [startClosing, maybeClose_rcap]
          exact h
        · split
          · rw [maybeClose_rcap]
            exact h
          · split
            · exact h
            · split
              · exact h
              · rw [dispatchLine_rcap]
                exact h

-- A connection is open as long as the client keeps at most 64 KiB waiting and
-- stays, and memory and writes do not fail, and no longer, whatever it sends and in
-- whatever pieces.
theorem open_iff_quiet (events : List Event) :
    AllStates Conn.next (fun c => c.closing = false) {} events ↔
      AllSteps Conn.next (fun c event => ¬c.Trouble event) {} events := by
  refine allStates_iff_allSteps Conn.next (fun c => Framed c c.rbuf ∧ Doubled c.rcap ∧ c.closing = false)
    (fun c h => h.2.2) ?_ ?_ ⟨Framed.init, doubled_init, rfl⟩ (AllSteps.trivial Conn.next _ events)
  · rintro c event ⟨hframed, hcap, hopen⟩ _ hquiet
    refine ⟨hframed.next event, hcap.next hquiet, ?_⟩
    rw [← next_closing hopen hcap hframed.cap_pos event, Bool.not_eq_true] at hquiet
    exact hquiet
  · rintro c event ⟨hframed, hcap, hopen⟩ _ htrouble hstays
    rw [Classical.not_not, ← next_closing hopen hcap hframed.cap_pos event, hstays] at htrouble
    cases htrouble

end Closing

end Solidbits
