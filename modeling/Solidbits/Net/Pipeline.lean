import Solidbits.Net.Framing

namespace Solidbits

open Transition

section Pipeline

-- A connection that neither works nor closes has no complete line buffered.
def Drained (c : Conn) (rest : Bytes) : Prop :=
  c.busy = false → c.closing = false → NEWLINE ∉ rest

instance (c : Conn) (rest : Bytes) : Decidable (Drained c rest) :=
  inferInstanceAs (Decidable (_ → _ → _))

-- A completion that ends a request without a reply must not find a complete
-- line behind it.
def NoLineLeft (c : Conn) : Event → Prop
  | .afterWork status resp oom _ =>
      c.works ≠ [] → c.closing = false → (status < 0 ∨ oom = true ∨ resp = []) → NEWLINE ∉ c.rbuf
  | _ => True

theorem startClosing_closing (c : Conn) : (startClosing c).closing = true :=
  maybeClose_closing _

theorem Drained.of_closing {c : Conn} {rest : Bytes} (h : c.closing = true) : Drained c rest := by
  intro _ hc
  rw [h] at hc
  exact Bool.noConfusion hc

theorem Drained.of_busy {c : Conn} {rest : Bytes} (h : c.busy = true) : Drained c rest := by
  intro hb
  rw [h] at hb
  exact Bool.noConfusion hb

theorem dispatchLine_occupied (allocFails : Bool) (line : Bytes) (c : Conn) :
    (dispatchLine allocFails line c).busy = true ∨ (dispatchLine allocFails line c).closing = true := by
  unfold dispatchLine
  split
  · exact Or.inr (startClosing_closing c)
  · exact Or.inl rfl

-- The loop of on_read stops at the first dispatched line or with no line left.
theorem onReadLoop_drained (allocFails : Bool) (fuel scan : Nat) (c : Conn)
    (hf : (c.rbuf.drop scan).length < fuel) :
    Drained (onReadLoop allocFails fuel scan c).1
      (c.rbuf.drop (onReadLoop allocFails fuel scan c).2) := by
  induction fuel generalizing scan c with
  | zero => exact absurd hf (Nat.not_lt_zero _)
  | succ fuel ih =>
      simp only [onReadLoop]
      split
      · rename_i hstop
        rcases hstop with hb | hc
        · exact Drained.of_busy hb
        · exact Drained.of_closing hc
      · split
        · rename_i hm
          exact fun _ _ => memchr_eq_none.mp hm
        · rename_i llen hm
          have hlt : llen < (c.rbuf.drop scan).length :=
            (List.findIdx?_eq_some_iff_getElem.mp hm).1
          have hrest := ih (scan + llen + 1)
            (dispatchLine allocFails ((c.rbuf.drop scan).take llen) c) (by
              rw [dispatchLine_rbuf]
              simp only [List.length_drop] at hf hlt ⊢
              omega)
          rwa [dispatchLine_rbuf] at hrest

theorem onReadData_drained (reallocFails allocFails : Bool) (chunk : Bytes) (c : Conn) :
    Drained (onReadData reallocFails allocFails chunk c)
      (onReadData reallocFails allocFails chunk c).rbuf := by
  unfold onReadData
  simp only
  split
  · exact Drained.of_closing (startClosing_closing _)
  · have h := onReadLoop_drained allocFails ((c.rbuf ++ chunk).length + 1) 0
      { c with
        received := c.received ++ chunk
        rbuf := c.rbuf ++ chunk
        rcap := grow (c.rbuf.length + chunk.length) c.rcap } (Nat.lt_succ_self _)
    simpa only [Drained, onReadLoop_rbuf] using h

theorem tryDispatchNext_drained (allocFails : Bool) (c : Conn) :
    Drained (tryDispatchNext allocFails c) (tryDispatchNext allocFails c).rbuf := by
  unfold tryDispatchNext
  split
  · rename_i hc
    exact Drained.of_closing (by rw [maybeClose_closing]; exact hc)
  · split
    · rename_i hb
      exact Drained.of_busy hb
    · split
      · rename_i hm
        exact fun _ _ => memchr_eq_none.mp hm
      · rcases dispatchLine_occupied allocFails (c.rbuf.take _) c with hb | hc
        · exact Drained.of_busy hb
        · exact Drained.of_closing hc

theorem onWrite_drained (status : Int) (allocFails : Bool) (w : WorkReq) (c : Conn) :
    Drained (onWrite status allocFails w c) (onWrite status allocFails w c).rbuf := by
  unfold onWrite
  simp only
  split
  · exact Drained.of_closing (startClosing_closing _)
  · exact tryDispatchNext_drained allocFails _

-- Without a reply, busy is cleared and the rest of the buffer is not looked at.
theorem afterWorkCb_silent (status : Int) (writeFails : Bool) (w : WorkReq) (c : Conn)
    (h : status < 0 ∨ c.closing ∨ w.oom ∨ w.resp = []) :
    (afterWorkCb status writeFails w c).busy = false ∧
      (afterWorkCb status writeFails w c).closing = c.closing ∧
      (afterWorkCb status writeFails w c).rbuf = c.rbuf := by
  simp only [afterWorkCb, h, ite_true, maybeClose_closing, maybeClose_rbuf, and_self, and_true]
  unfold maybeClose
  split <;> rfl

theorem afterWorkCb_drained (status : Int) (writeFails : Bool) (w : WorkReq) (c : Conn)
    (hb : c.busy = true)
    (hleft : c.closing = false → (status < 0 ∨ w.oom ∨ w.resp = []) → NEWLINE ∉ c.rbuf) :
    Drained (afterWorkCb status writeFails w c) (afterWorkCb status writeFails w c).rbuf := by
  by_cases hs : status < 0 ∨ c.closing ∨ w.oom ∨ w.resp = []
  · obtain ⟨_, hc, hr⟩ := afterWorkCb_silent status writeFails w c hs
    intro _ hopen
    rw [hc] at hopen
    rw [hr]
    apply hleft hopen
    rcases hs with hs | hs | hs
    · exact Or.inl hs
    · rw [hopen] at hs
      exact Bool.noConfusion hs
    · exact Or.inr hs
  · simp only [afterWorkCb, hs, ite_false]
    split
    · exact Drained.of_closing (startClosing_closing _)
    · exact Drained.of_busy hb

theorem drained_next {c : Conn} {event : Event} (hf : Framed c c.rbuf) (hd : Drained c c.rbuf)
    (hgood : NoLineLeft c event) : Drained (c.next event) (c.next event).rbuf := by
  cases event with
  | read chunk reallocFails allocFails =>
      simp only [Conn.next]
      split
      · exact onReadData_drained reallocFails allocFails chunk c
      · exact hd
  | readEnd =>
      simp only [Conn.next]
      split
      · exact Drained.of_closing (startClosing_closing c)
      · exact hd
  | afterWork status resp oom writeFails =>
      simp only [Conn.next]
      split
      · exact hd
      · rename_i w rest hw
        have hne : c.works ≠ [] := by rw [hw]; exact List.cons_ne_nil _ _
        exact afterWorkCb_drained status writeFails _ c (hf.busy_of_works hne).2.2 (hgood hne)
  | onWrite status allocFails =>
      simp only [Conn.next]
      split
      · exact hd
      · exact onWrite_drained status allocFails _ c

theorem stalled_next {c : Conn} {event : Event} (hbad : ¬NoLineLeft c event) :
    ¬Drained (c.next event) (c.next event).rbuf := by
  cases event with
  | afterWork status resp oom writeFails =>
      simp only [NoLineLeft, Classical.not_imp] at hbad
      obtain ⟨hne, hopen, hs, hline⟩ := hbad
      simp only [Conn.next]
      split
      · rename_i hw
        exact absurd hw hne
      · rename_i w rest hw
        have hcond : status < 0 ∨ c.closing ∨ oom ∨ resp = [] := by
          rcases hs with hs | hs
          · exact Or.inl hs
          · exact Or.inr (Or.inr hs)
        obtain ⟨hb, hc, hr⟩ := afterWorkCb_silent status writeFails
          { w with resp := resp, oom := oom } c hcond
        intro hd
        apply hd hb (hc.trans hopen)
        rw [hr]
        exact not_not.mp hline
  | _ => exact absurd trivial hbad

-- No complete line waits on an idle connection in any state of a run, exactly
-- if no request of the run ends silently in front of a buffered line.
theorem pipeline_drained_iff (events : List Event) :
    AllStates Conn.next (fun c => Drained c c.rbuf) {} events ↔
      AllSteps Conn.next NoLineLeft {} events := by
  apply allStates_iff_allSteps Conn.next (fun c => Framed c c.rbuf ∧ Drained c c.rbuf)
  · exact fun _ h => h.2
  · exact fun _ event h _ hgood => ⟨h.1.next event, drained_next h.1 h.2 hgood⟩
  · exact fun _ _ _ _ hbad => stalled_next hbad
  · exact ⟨Framed.init, fun _ _ => List.not_mem_nil⟩
  · exact AllSteps.trivial Conn.next {} events

-- A BITPOS line is executed without a reply; the GETBIT behind it stays in the
-- buffer of an idle connection.
theorem bitpos_stalls_pipeline :
    parseAndExecute (str "BITPOS k 1 0") = .ret () ∧
    ¬AllStates Conn.next (fun c => Drained c c.rbuf) {}
      [.read (str "BITPOS k 1 0\nGETBIT k 0\n") false false, .afterWork 0 [] false false] := by
  constructor
  · rfl
  · intro h
    exact absurd h.last (by decide)

end Pipeline

end Solidbits
