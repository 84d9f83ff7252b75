import Solidbits.Net.Ordered

namespace Solidbits

section Ledger

-- What a connection has been asked and what it has answered.
structure Ledger where
  lines : List Bytes
  works : List WorkReq
  writes : List WorkReq
  answered : List (Bytes × Bytes)
  closing : Bool

def Conn.ledger (c : Conn) : Ledger := ⟨c.lines, c.works, c.writes, c.answered, c.closing⟩

def Ledger.dispatch (l : Ledger) (line : Bytes) : Ledger :=
  { l with lines := l.lines ++ [line], works := [{ line := line }] }

-- The end of a callback: the connection takes the next line if it is idle and
-- there is one, or starts closing.
inductive Ledger.Goes (l : Ledger) : Ledger → Prop
  | stays : l.Goes l
  | closes : l.Goes { l with closing := true }
  | takes (line : Bytes) (hidle : l.works = [] ∧ l.writes = []) (hopen : l.closing = false) : l.Goes (l.dispatch line)

-- The callbacks, by what they do to the ledger.
inductive Ledger.Step (l : Ledger) : Event → Ledger → Prop
  | goes {event : Event} {l' : Ledger} (h : l.Goes l') : l.Step event l'
  | silent {status : Int} {resp : Bytes} {oom writeFails : Bool} (w : WorkReq) (hworks : l.works = [w])
      (hwrites : l.writes = []) (hsilent : status < 0 ∨ l.closing = true ∨ oom = true ∨ resp = []) :
      l.Step (.afterWork status resp oom writeFails)
        { l with works := [], answered := l.answered ++ [(w.line, [])] }
  | refused {status : Int} {resp : Bytes} {oom writeFails : Bool} (hworks : l.works ≠ []) (hwrites : l.writes = []) :
      l.Step (.afterWork status resp oom writeFails) { l with works := [], closing := true }
  | handed {status : Int} {resp : Bytes} {oom writeFails : Bool} (w : WorkReq) (hworks : l.works = [w])
      (hwrites : l.writes = []) (hopen : l.closing = false) :
      l.Step (.afterWork status resp oom writeFails)
        { l with works := [], writes := [{ w with resp := resp, oom := oom }] }
  | failed {event : Event} (hworks : l.works = []) (hwrites : l.writes ≠ []) :
      l.Step event { l with writes := [], closing := true }
  | flushed {event : Event} {l' : Ledger} (w : WorkReq) (hworks : l.works = []) (hwrites : l.writes = [w])
      (h : ({ l with writes := [], answered := l.answered ++ [(w.line, w.resp)] } : Ledger).Goes l') :
      l.Step event l'

variable {c : Conn}

theorem maybeClose_ledger (c : Conn) : (maybeClose c).ledger = c.ledger := by
  unfold maybeClose
  split <;> rfl

theorem startClosing_ledger (c : Conn) : (startClosing c).ledger = { c.ledger with closing := true } :=
  maybeClose_ledger _

theorem dispatchLine_goes (hidle : c.works = [] ∧ c.writes = []) (hopen : c.closing = false) (allocFails : Bool)
    (line : Bytes) : c.ledger.Goes (dispatchLine allocFails line c).ledger := by
  unfold dispatchLine
  split
  · rw [startClosing_ledger]
    exact .closes
  · have hledger : ({ c with busy := true, works := c.works ++ [{ line := line }], lines := c.lines ++ [line] } :
        Conn).ledger = c.ledger.dispatch line := by
      simp only [Conn.ledger, Ledger.dispatch, hidle.1, List.nil_append]
    rw [hledger]
    exact .takes line hidle hopen

theorem onReadLoop_goes (hidle : c.busy = false → c.works = [] ∧ c.writes = []) (allocFails : Bool) (fuel scan : Nat) :
    c.ledger.Goes (onReadLoop allocFails fuel scan c).1.ledger := by
  cases hclosing : c.closing with
  | true =>
      have hstops : (onReadLoop allocFails fuel scan c).1 = c := by
        cases fuel with
        | zero => rfl
        | succ fuel => simp only [onReadLoop, hclosing, or_true, ite_true]
      rw [hstops]
      exact .stays
  | false =>
      rcases onReadLoop_cases allocFails fuel scan c with he | ⟨hb, line, he⟩
      · rw [he]
        exact .stays
      · rw [he]
        exact dispatchLine_goes (hidle hb) hclosing allocFails line

theorem onReadData_goes (hs : Shape c) (reallocFails allocFails : Bool) (chunk : Bytes) :
    c.ledger.Goes (onReadData reallocFails allocFails chunk c).ledger := by
  unfold onReadData
  simp only
  split
  · rw [startClosing_ledger]
    exact .closes
  · exact @onReadLoop_goes { c with
      received := c.received ++ chunk
      rbuf := c.rbuf ++ chunk
      rcap := grow (c.rbuf.length + chunk.length) c.rcap } hs.idle allocFails _ _

theorem tryDispatchNext_goes (hidle : c.works = [] ∧ c.writes = []) (allocFails : Bool) :
    c.ledger.Goes (tryDispatchNext allocFails c).ledger := by
  unfold tryDispatchNext
  split
  · rw [maybeClose_ledger]
    exact .stays
  · rename_i hopen
    split
    · exact .stays
    · split
      · exact .stays
      · rename_i llen _
        exact dispatchLine_goes hidle (Bool.not_eq_true _ ▸ hopen) allocFails (c.rbuf.take llen)

theorem next_ledger (hs : Shape c) (event : Event) : c.ledger.Step event (c.next event).ledger := by
  cases event with
  | read chunk reallocFails allocFails =>
      simp only [Conn.next]
      split
      · exact .goes (onReadData_goes hs reallocFails allocFails chunk)
      · exact .goes .stays
  | readEnd =>
      simp only [Conn.next]
      split
      · rw [startClosing_ledger]
        exact .goes .closes
      · exact .goes .stays
  | afterWork status resp oom writeFails =>
      simp only [Conn.next]
      split
      · exact .goes .stays
      · rename_i w rest hw
        obtain ⟨hone, hnone, _⟩ := hs.busy_of_works (hw ▸ List.cons_ne_nil w rest)
        rw [hw, List.length_cons, Nat.add_eq_right, List.length_eq_zero_iff] at hone
        rw [hone] at hw
        have hwrites := List.length_eq_zero_iff.mp hnone
        unfold afterWorkCb
        simp only [hw, List.tail_cons]
        split
        · rename_i hsilent
          rw [maybeClose_ledger]
          have hledger := @Ledger.Step.silent c.ledger status resp oom writeFails w hw hwrites hsilent
          exact hledger
        · rename_i hspeaks
          have hopen : c.closing = false := Bool.eq_false_iff.mpr fun hc => hspeaks (Or.inr (Or.inl hc))
          split
          · rw [startClosing_ledger]
            have hledger := @Ledger.Step.refused c.ledger status resp oom writeFails
              (by rw [show c.ledger.works = [w] from hw]; exact List.cons_ne_nil w []) hwrites
            exact hledger
          · have hledger := @Ledger.Step.handed c.ledger status resp oom writeFails w hw hwrites hopen
            simp only [Conn.ledger, hwrites, List.nil_append] at hledger ⊢
            exact hledger
  | onWrite status allocFails =>
      simp only [Conn.next]
      split
      · exact .goes .stays
      · rename_i w rest hw
        obtain ⟨hnone, hone, _⟩ := hs.busy_of_writes (hw ▸ List.cons_ne_nil w rest)
        rw [hw, List.length_cons, Nat.add_eq_right, List.length_eq_zero_iff] at hone
        rw [hone] at hw
        have hworks := List.length_eq_zero_iff.mp hnone
        unfold onWrite
        simp only [hw, List.tail_cons]
        split
        · rw [startClosing_ledger]
          have hledger := @Ledger.Step.failed c.ledger (.onWrite status allocFails) hworks
            (by rw [show c.ledger.writes = [w] from hw]; exact List.cons_ne_nil w [])
          exact hledger
        · apply Ledger.Step.flushed w hworks hw
          exact @tryDispatchNext_goes { c with
            busy := false
            writes := []
            answered := c.answered ++ [(w.line, w.resp)]
            written := c.written ++ w.resp } ⟨hworks, rfl⟩ allocFails

-- What has been written, and what uv_write has been given.
def Ledger.replies (l : Ledger) : Bytes := (l.answered.map Prod.snd).flatten ++ (l.writes.map (·.resp)).flatten

-- A connection that is closing takes no line and gives uv_write nothing more.
theorem Ledger.Step.closing {l l' : Ledger} {event : Event} (h : l.Step event l') (hclosing : l'.closing = true) :
    l'.lines = l.lines ∧ l'.replies <+: l.replies := by
  have hgoes : ∀ {before after : Ledger}, before.Goes after → after.closing = true →
      after.lines = before.lines ∧ after.replies = before.replies := by
    intro before after hstep hclosing
    cases hstep with
    | stays => exact ⟨rfl, rfl⟩
    | closes => exact ⟨rfl, rfl⟩
    | takes line hidle hopen => exact Bool.noConfusion (hopen.symm.trans hclosing)
  cases h with
  | goes hstep =>
      obtain ⟨hlines, hreplies⟩ := hgoes hstep hclosing
      exact ⟨hlines, hreplies ▸ List.prefix_rfl⟩
  | silent w hworks hwrites hsilent =>
      refine ⟨rfl, ?_⟩
      simp only [Ledger.replies, List.map_append, List.map_cons, List.map_nil, List.flatten_append,
        List.flatten_singleton, List.append_nil]
      exact List.prefix_rfl
  | refused hworks hwrites => exact ⟨rfl, List.prefix_rfl⟩
  | handed w hworks hwrites hopen => exact Bool.noConfusion (hopen.symm.trans hclosing)
  | failed hworks hwrites =>
      refine ⟨rfl, ?_⟩
      simp only [Ledger.replies, List.map_nil, List.flatten_nil, List.append_nil]
      exact List.prefix_append _ _
  | flushed w hworks hwrites hstep =>
      obtain ⟨hlines, hreplies⟩ := hgoes hstep hclosing
      refine ⟨hlines, hreplies ▸ ?_⟩
      simp only [Ledger.replies, hwrites, List.map_append, List.map_cons, List.map_nil, List.flatten_append,
        List.flatten_singleton, List.flatten_nil, List.append_nil]
      exact List.prefix_rfl

-- Nothing opens again, and nothing that was answered is taken back.
theorem Ledger.Step.grows {l l' : Ledger} {event : Event} (h : l.Step event l') :
    (l'.closing = false → l.closing = false) ∧ l.answered <+: l'.answered := by
  have hgoes : ∀ {before after : Ledger}, before.Goes after →
      (after.closing = false → before.closing = false) ∧ before.answered = after.answered := by
    intro before after hstep
    cases hstep with
    | stays => exact ⟨id, rfl⟩
    | closes => exact ⟨fun hc => Bool.noConfusion hc, rfl⟩
    | takes line hidle hopen => exact ⟨id, rfl⟩
  cases h with
  | goes hstep =>
      obtain ⟨hopen, hanswered⟩ := hgoes hstep
      exact ⟨hopen, hanswered ▸ List.prefix_rfl⟩
  | silent w hworks hwrites hsilent => exact ⟨id, List.prefix_append _ _⟩
  | refused hworks hwrites => exact ⟨fun hc => Bool.noConfusion hc, List.prefix_rfl⟩
  | handed w hworks hwrites hopen => exact ⟨id, List.prefix_rfl⟩
  | failed hworks hwrites => exact ⟨fun hc => Bool.noConfusion hc, List.prefix_rfl⟩
  | flushed w hworks hwrites hstep =>
      obtain ⟨hopen, hanswered⟩ := hgoes hstep
      exact ⟨hopen, hanswered ▸ List.prefix_append _ _⟩

theorem startClosing_received (c : Conn) : (startClosing c).received = c.received := by
  unfold startClosing maybeClose
  split <;> rfl

theorem dispatchLine_received (allocFails : Bool) (line : Bytes) (c : Conn) :
    (dispatchLine allocFails line c).received = c.received := by
  unfold dispatchLine
  split
  · exact startClosing_received c
  · rfl

theorem onReadData_received (reallocFails allocFails : Bool) (chunk : Bytes) (c : Conn) :
    (onReadData reallocFails allocFails chunk c).received = c.received ++ chunk := by
  unfold onReadData
  simp only
  split
  · exact startClosing_received _
  · rcases onReadLoop_cases allocFails ((c.rbuf ++ chunk).length + 1) 0 { c with
        received := c.received ++ chunk
        rbuf := c.rbuf ++ chunk
        rcap := grow (c.rbuf.length + chunk.length) c.rcap } with he | ⟨_, line, he⟩
    · rw [he]
    · rw [he, dispatchLine_received]

-- What an event brings in.
def Event.chunk : Event → Bytes
  | .read chunk _ _ => chunk
  | _ => []

-- A read brings in its bytes, unless libuv would not make it.
theorem next_received (c : Conn) (event : Event) : (c.next event).received = c.received ++ event.chunk ∨
    (c.next event).received = c.received ∧ ¬(c.closes = 0 ∧ event.chunk.length ≤ READ_CHUNK) := by
  cases event with
  | read chunk reallocFails allocFails =>
      by_cases hempty : chunk = []
      · refine Or.inl ?_
        simp only [Conn.next, hempty, ne_eq, not_true, false_and, and_false, ite_false, Event.chunk, List.append_nil]
      · by_cases hread : c.closes = 0 ∧ chunk ≠ [] ∧ chunk.length ≤ READ_CHUNK
        · refine Or.inl ?_
          simp only [Conn.next, if_pos hread]
          exact onReadData_received reallocFails allocFails chunk c
        · refine Or.inr ⟨?_, fun hfits => hread ⟨hfits.1, hempty, hfits.2⟩⟩
          simp only [Conn.next, if_neg hread]
  | readEnd =>
      refine Or.inl ?_
      simp only [Conn.next, Event.chunk, List.append_nil]
      split
      · exact startClosing_received c
      · rfl
  | afterWork status resp oom writeFails =>
      refine Or.inl ?_
      simp only [Conn.next, Event.chunk, List.append_nil]
      split
      · rfl
      · unfold afterWorkCb
        simp only
        split
        · unfold maybeClose
          split <;> rfl
        · split
          · exact startClosing_received _
          · rfl
  | onWrite status allocFails =>
      refine Or.inl ?_
      simp only [Conn.next, Event.chunk, List.append_nil]
      split
      · rfl
      · unfold onWrite
        simp only
        split
        · exact startClosing_received _
        · unfold tryDispatchNext
          split
          · unfold maybeClose
            split <;> rfl
          · split
            · rfl
            · split
              · rfl
              · exact dispatchLine_received _ _ _

end Ledger

end Solidbits
