import Solidbits.Net.Pipeline

namespace Solidbits

section Ordered

-- What may have been answered to a line.
variable {answers : Bytes → Bytes → Prop} {c : Conn}

-- Nothing is promised once the connection is closing, except about the bytes
-- that were written.
structure Ordered (answers : Bytes → Bytes → Prop) (c : Conn) : Prop where
  written : c.written = (c.answered.map Prod.snd).flatten
  lines : c.closing = false → c.answered.map Prod.fst ++ (c.works ++ c.writes).map (·.line) = c.lines
  answered : c.closing = false → ∀ entry ∈ c.answered, answers entry.1 entry.2
  pending : ∀ w ∈ c.writes, answers w.line w.resp

-- The completion of a request comes from a worker that was not cancelled and
-- had memory for its reply.
def Event.Honest (answers : Bytes → Bytes → Prop) (c : Conn) : Event → Prop
  | .afterWork status resp oom _ => ∀ w ∈ c.works, 0 ≤ status ∧ oom = false ∧ answers w.line resp
  | _ => True

theorem Ordered.maybeClose (h : Ordered answers c) : Ordered answers (maybeClose c) := by
  unfold Solidbits.maybeClose
  split
  · exact ⟨h.written, h.lines, h.answered, h.pending⟩
  · exact h

theorem ordered_startClosing (hwritten : c.written = (c.answered.map Prod.snd).flatten)
    (hpending : ∀ w ∈ c.writes, answers w.line w.resp) : Ordered answers (startClosing c) := by
  apply Ordered.maybeClose
  exact ⟨hwritten, fun hc => Bool.noConfusion hc, fun hc => Bool.noConfusion hc, hpending⟩

theorem Shape.idle {c : Conn} (h : Shape c) (hb : c.busy = false) : c.works = [] ∧ c.writes = [] := by
  have hi := h.inflight
  rw [hb, if_neg Bool.false_ne_true, Nat.add_eq_zero_iff] at hi
  exact ⟨List.length_eq_zero_iff.mp hi.1, List.length_eq_zero_iff.mp hi.2⟩

theorem Ordered.dispatchLine (h : Ordered answers c) (hidle : c.works = [] ∧ c.writes = [])
    (allocFails : Bool) (line : Bytes) : Ordered answers (dispatchLine allocFails line c) := by
  obtain ⟨hworks, hwrites⟩ := hidle
  unfold Solidbits.dispatchLine
  cases allocFails with
  | true => exact ordered_startClosing h.written h.pending
  | false =>
      simp only [Bool.false_eq_true, ite_false]
      refine ⟨h.written, fun hc => ?_, h.answered, h.pending⟩
      have hlines := h.lines hc
      simp only [hworks, hwrites, List.append_nil, List.map_nil] at hlines
      simp only [hworks, hwrites, hlines, List.nil_append, List.append_nil, List.map_cons, List.map_nil]

-- A read dispatches one line at most.
theorem onReadLoop_cases (allocFails : Bool) (fuel scan : Nat) (c : Conn) :
    (onReadLoop allocFails fuel scan c).1 = c ∨
      c.busy = false ∧ ∃ line, (onReadLoop allocFails fuel scan c).1 = dispatchLine allocFails line c := by
  have hstops : ∀ fuel scan, ∀ c : Conn, c.busy ∨ c.closing → (onReadLoop allocFails fuel scan c).1 = c := by
    intro fuel scan c hc
    cases fuel with
    | zero => rfl
    | succ fuel => simp only [onReadLoop, hc, ite_true]
  cases fuel with
  | zero => exact Or.inl rfl
  | succ fuel =>
      simp only [onReadLoop]
      split
      · exact Or.inl rfl
      · rename_i hstop
        rw [not_or, Bool.not_eq_true, Bool.not_eq_true] at hstop
        split
        · exact Or.inl rfl
        · exact Or.inr ⟨hstop.1, _, hstops _ _ _ (dispatchLine_occupied _ _ _)⟩

theorem Ordered.onReadData (h : Ordered answers c) (hs : Shape c) (reallocFails allocFails : Bool) (chunk : Bytes) :
    Ordered answers (onReadData reallocFails allocFails chunk c) := by
  unfold Solidbits.onReadData
  simp only
  split
  · exact ordered_startClosing h.written h.pending
  · have hread : Ordered answers { c with
        received := c.received ++ chunk
        rbuf := c.rbuf ++ chunk
        rcap := grow (c.rbuf.length + chunk.length) c.rcap } := ⟨h.written, h.lines, h.answered, h.pending⟩
    rcases onReadLoop_cases allocFails ((c.rbuf ++ chunk).length + 1) 0 { c with
        received := c.received ++ chunk
        rbuf := c.rbuf ++ chunk
        rcap := grow (c.rbuf.length + chunk.length) c.rcap } with he | ⟨hb, line, he⟩
    · rw [he]
      exact ⟨h.written, h.lines, h.answered, h.pending⟩
    · rw [he]
      have hd := hread.dispatchLine (hs.idle hb) allocFails line
      exact ⟨hd.written, hd.lines, hd.answered, hd.pending⟩

theorem Ordered.tryDispatchNext (h : Ordered answers c) (hidle : c.works = [] ∧ c.writes = []) (allocFails : Bool) :
    Ordered answers (tryDispatchNext allocFails c) := by
  unfold Solidbits.tryDispatchNext
  split
  · exact h.maybeClose
  · split
    · exact h
    · split
      · exact h
      · rename_i llen _
        have hd := h.dispatchLine hidle allocFails (c.rbuf.take llen)
        exact ⟨hd.written, hd.lines, hd.answered, hd.pending⟩

-- The outstanding request is answered.
theorem Ordered.answer (h : Ordered answers c) {w : WorkReq} (hw : c.works ++ c.writes = [w]) {reply : Bytes}
    (hreply : c.closing = false → answers w.line reply) :
    Ordered answers { c with
      busy := false
      works := []
      writes := []
      answered := c.answered ++ [(w.line, reply)]
      written := c.written ++ reply } := by
  refine ⟨?_, fun hc => ?_, fun hc entry hm => ?_, fun _ hm => absurd hm List.not_mem_nil⟩
  · simp only [List.map_append, List.map_cons, List.map_nil, List.flatten_append, List.flatten_singleton, h.written]
  · have hlines := h.lines hc
    rw [hw] at hlines
    simpa only [List.map_append, List.map_cons, List.map_nil, List.append_nil] using hlines
  · rcases List.mem_append.mp hm with hm | hm
    · exact h.answered hc entry hm
    · rw [List.mem_singleton.mp hm]
      exact hreply hc

-- The request moves from the works to the writes, or its silence is its answer.
theorem Ordered.afterWorkCb (h : Ordered answers c) {w : WorkReq} (hworks : c.works = [w])
    (hwrites : c.writes = []) {status : Int} (hstatus : 0 ≤ status) (writeFails : Bool) {resp : Bytes}
    (hresp : answers w.line resp) :
    Ordered answers (afterWorkCb status writeFails { w with resp := resp, oom := false } c) := by
  unfold Solidbits.afterWorkCb
  simp only [hworks, List.tail_cons]
  split
  · rename_i hsilent
    apply Ordered.maybeClose
    have hanswer := @Ordered.answer answers c h w (by rw [hworks, hwrites]; rfl) [] (fun hc => ?_)
    · simpa only [hwrites, List.append_nil] using hanswer
    · rcases hsilent with hs | hs | hs | hs
      · omega
      · exact absurd (hc.symm.trans hs) Bool.false_ne_true
      · exact absurd hs Bool.false_ne_true
      · exact hs ▸ hresp
  · split
    · exact ordered_startClosing h.written h.pending
    · have hlines := h.lines
      rw [hworks, hwrites] at hlines
      refine ⟨h.written, ?_, h.answered, ?_⟩
      · simpa only [hwrites, List.nil_append, List.append_nil, List.map_cons, List.map_nil] using hlines
      · simpa only [hwrites, List.nil_append, List.mem_singleton, forall_eq] using hresp

theorem Ordered.onWrite (h : Ordered answers c) {w : WorkReq} (hworks : c.works = []) (hwrites : c.writes = [w])
    (status : Int) (allocFails : Bool) : Ordered answers (onWrite status allocFails w c) := by
  have hresp : answers w.line w.resp := h.pending w (by rw [hwrites]; exact List.mem_singleton_self w)
  unfold Solidbits.onWrite
  simp only [hwrites, List.tail_cons]
  split
  · exact ordered_startClosing h.written fun _ hm => absurd hm List.not_mem_nil
  · have hanswer := h.answer (w := w) (by rw [hworks, hwrites]; rfl) (fun _ => hresp)
    rw [hworks]
    exact hanswer.tryDispatchNext ⟨rfl, rfl⟩ allocFails

theorem Ordered.next (h : Ordered answers c) (hs : Shape c) {event : Event} (hevent : event.Honest answers c) :
    Ordered answers (c.next event) := by
  cases event with
  | read chunk reallocFails allocFails =>
      simp only [Conn.next]
      split
      · exact h.onReadData hs reallocFails allocFails chunk
      · exact h
  | readEnd =>
      simp only [Conn.next]
      split
      · exact ordered_startClosing h.written h.pending
      · exact h
  | afterWork status resp oom writeFails =>
      simp only [Conn.next]
      split
      · exact h
      · rename_i w rest hworks
        obtain ⟨hstatus, rfl, hresp⟩ := hevent w (hworks ▸ List.mem_cons_self)
        obtain ⟨hone, hnone, _⟩ := hs.busy_of_works (hworks ▸ List.cons_ne_nil w rest)
        rw [hworks, List.length_cons, Nat.add_eq_right, List.length_eq_zero_iff] at hone
        rw [hone] at hworks
        exact h.afterWorkCb hworks (List.length_eq_zero_iff.mp hnone) hstatus writeFails hresp
  | onWrite status allocFails =>
      simp only [Conn.next]
      split
      · exact h
      · rename_i w rest hwrites
        obtain ⟨hnone, hone, _⟩ := hs.busy_of_writes (hwrites ▸ List.cons_ne_nil w rest)
        rw [hwrites, List.length_cons, Nat.add_eq_right, List.length_eq_zero_iff] at hone
        rw [hone] at hwrites
        exact h.onWrite (List.length_eq_zero_iff.mp hnone) hwrites status allocFails

theorem maybeClose_works (c : Conn) : (maybeClose c).works = c.works := by
  unfold maybeClose
  split <;> rfl

theorem onReadData_works (hbusy : c.busy = true) (reallocFails allocFails : Bool) (chunk : Bytes) :
    (onReadData reallocFails allocFails chunk c).works = c.works := by
  unfold onReadData
  simp only
  split
  · exact maybeClose_works _
  · rcases onReadLoop_cases allocFails ((c.rbuf ++ chunk).length + 1) 0 { c with
        received := c.received ++ chunk
        rbuf := c.rbuf ++ chunk
        rcap := grow (c.rbuf.length + chunk.length) c.rcap } with he | ⟨hb, _, _⟩
    · rw [he]
    · exact absurd (hbusy.symm.trans hb) Bool.noConfusion

theorem afterWorkCb_works (status : Int) (writeFails : Bool) (w : WorkReq) (c : Conn) :
    (afterWorkCb status writeFails w c).works = c.works.tail := by
  unfold afterWorkCb
  simp only
  split
  · exact maybeClose_works _
  · split
    · exact maybeClose_works _
    · rfl

-- Nothing is dispatched while a request is with its worker.
theorem works_next (hs : Shape c) (hworks : c.works ≠ []) (event : Event) :
    ∀ w ∈ (c.next event).works, w ∈ c.works := by
  obtain ⟨_, hnone, hbusy⟩ := hs.busy_of_works hworks
  cases event with
  | read chunk reallocFails allocFails =>
      simp only [Conn.next]
      split
      · rw [onReadData_works hbusy]
        exact fun w hm => hm
      · exact fun w hm => hm
  | readEnd =>
      simp only [Conn.next]
      split
      · intro w hm
        rwa [startClosing, maybeClose_works] at hm
      · exact fun w hm => hm
  | afterWork status resp oom writeFails =>
      simp only [Conn.next]
      split
      · exact fun w hm => hm
      · rw [afterWorkCb_works]
        exact fun w hm => List.mem_of_mem_tail hm
  | onWrite status allocFails =>
      simp only [Conn.next, List.length_eq_zero_iff.mp hnone]
      exact fun w hm => hm

end Ordered

end Solidbits
