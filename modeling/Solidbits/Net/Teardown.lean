import Solidbits.Net.Framing

namespace Solidbits

open Transition

section Teardown

-- uv_close has been issued once if the connection is closing and idle, and not
-- at all otherwise.
def Settled (c : Conn) : Prop := c.closes = if c.closing ∧ ¬c.busy then 1 else 0

variable {c : Conn}

theorem Settled.open_of_busy (h : Settled c) (hb : c.busy = true) : c.closes = 0 := by
  rw [h, if_neg]
  rintro ⟨_, hidle⟩
  exact hidle hb

theorem Settled.open_of_not_closing (h : Settled c) (hc : ¬c.closing) : c.closes = 0 := by
  rw [h, if_neg]
  rintro ⟨hclosing, _⟩
  exact hc hclosing

theorem settled_maybeClose (h : c.closes = 0) : Settled (maybeClose c) := by
  unfold Settled maybeClose
  split
  · exact congrArg (· + 1) h
  · exact h

theorem settled_startClosing (h : c.closes = 0) : Settled (startClosing c) :=
  settled_maybeClose h

theorem settled_dispatchLine (allocFails : Bool) (line : Bytes) (h : c.closes = 0) :
    Settled (dispatchLine allocFails line c) := by
  unfold dispatchLine
  split
  · exact settled_startClosing h
  · show c.closes = _
    rw [if_neg (fun hclose => hclose.2 rfl), h]

-- The loop dispatches only while the connection is neither busy nor closing.
theorem settled_onReadLoop (allocFails : Bool) (fuel scan : Nat) (h : Settled c) :
    Settled (onReadLoop allocFails fuel scan c).1 := by
  induction fuel generalizing scan c with
  | zero => exact h
  | succ fuel ih =>
      simp only [onReadLoop]
      split
      · exact h
      · rename_i hidle
        split
        · exact h
        · apply ih
          apply settled_dispatchLine
          exact h.open_of_not_closing fun hc => hidle (Or.inr hc)

theorem settled_onReadData (reallocFails allocFails : Bool) (chunk : Bytes) (h : Settled c)
    (hopen : c.closes = 0) : Settled (onReadData reallocFails allocFails chunk c) := by
  unfold onReadData
  simp only
  split
  · exact settled_startClosing hopen
  · exact settled_onReadLoop allocFails _ _ h

theorem settled_tryDispatchNext (allocFails : Bool) (h : c.closes = 0) :
    Settled (tryDispatchNext allocFails c) := by
  unfold tryDispatchNext
  split
  · exact settled_maybeClose h
  · rename_i hc
    have hsettled : Settled c := by
      rw [Settled, if_neg (fun hclose => hc hclose.1), h]
    split
    · exact hsettled
    · split
      · exact hsettled
      · exact settled_dispatchLine allocFails _ h

-- A completion finds the connection busy, and so not yet closed.
theorem settled_afterWorkCb (status : Int) (writeFails : Bool) (w : WorkReq) (h : Settled c)
    (hb : c.busy = true) : Settled (afterWorkCb status writeFails w c) := by
  have hopen := h.open_of_busy hb
  unfold afterWorkCb
  simp only
  split
  · exact settled_maybeClose hopen
  · split
    · exact settled_startClosing hopen
    · exact h

theorem settled_onWrite (status : Int) (allocFails : Bool) (w : WorkReq) (h : Settled c)
    (hb : c.busy = true) : Settled (onWrite status allocFails w c) := by
  have hopen := h.open_of_busy hb
  unfold onWrite
  simp only
  split
  · exact settled_startClosing hopen
  · exact settled_tryDispatchNext allocFails hopen

theorem settled_next (event : Event) (hs : Shape c) (h : Settled c) : Settled (c.next event) := by
  cases event with
  | read chunk reallocFails allocFails =>
      simp only [Conn.next]
      split
      · rename_i hread
        exact settled_onReadData reallocFails allocFails chunk h hread.1
      · exact h
  | readEnd =>
      simp only [Conn.next]
      split
      · rename_i hopen
        exact settled_startClosing hopen
      · exact h
  | afterWork status resp oom writeFails =>
      simp only [Conn.next]
      split
      · exact h
      · rename_i w rest hw
        have hne : c.works ≠ [] := by rw [hw]; exact List.cons_ne_nil _ _
        exact settled_afterWorkCb status writeFails _ h (hs.busy_of_works hne).2.2
  | onWrite status allocFails =>
      simp only [Conn.next]
      split
      · exact h
      · rename_i w rest hw
        have hne : c.writes ≠ [] := by rw [hw]; exact List.cons_ne_nil _ _
        exact settled_onWrite status allocFails _ h (hs.busy_of_writes hne).2.2

-- An idle connection has nothing outstanding, neither with the workers nor
-- with uv_write.
theorem Shape.nothing_outstanding (h : Shape c) (hb : ¬c.busy) : c.works = [] ∧ c.writes = [] := by
  have hi := h.inflight
  rw [if_neg hb] at hi
  exact ⟨List.length_eq_zero_iff.mp (by omega), List.length_eq_zero_iff.mp (by omega)⟩

theorem Shape.busy_iff (h : Shape c) : c.busy ↔ c.works.length + c.writes.length = 1 := by
  have hi := h.inflight
  by_cases hb : c.busy
  · rw [if_pos hb] at hi
    exact iff_of_true hb hi
  · rw [if_neg hb] at hi
    exact iff_of_false hb (by omega)

-- Whatever the order of the callbacks: uv_close is issued at most once, with
-- nothing outstanding, and no closing connection that is idle is left open.
theorem teardown_once (events : List Event) :
    AllStates Conn.next
      (fun c =>
        c.closes ≤ 1 ∧
        (0 < c.closes → c.works = [] ∧ c.writes = []) ∧
        (c.busy ↔ c.works.length + c.writes.length = 1) ∧
        (c.closing ∧ ¬c.busy → c.closes = 1)) {} events := by
  have hinvariant : AllStates Conn.next (fun c => Framed c c.rbuf ∧ Settled c) {} events := by
    refine allStates_of_invariant Conn.next _ ?_ ⟨Framed.init, rfl⟩ (AllSteps.trivial Conn.next {} events)
    intro c event h _
    exact ⟨h.1.next event, settled_next event h.1.toShape h.2⟩
  refine hinvariant.mono Conn.next ?_
  rintro c ⟨hf, hs⟩
  refine ⟨?_, ?_, hf.busy_iff, fun hclose => hs.trans (if_pos hclose)⟩
  · rw [hs]
    split <;> omega
  · intro hclosed
    apply hf.nothing_outstanding
    intro hb
    rw [hs.open_of_busy hb] at hclosed
    exact absurd hclosed (Nat.lt_irrefl 0)

end Teardown

end Solidbits
