import Solidbits.Net.Blocks
import Solidbits.Net.Pipeline
import Solidbits.Net.Teardown
import Mathlib.Algebra.Order.Group.Multiset

namespace Solidbits

open Heap Transition

section Callbacks

-- A block for each request that the connection knows of.
structure ConnBlocks.Matched (c : ConnBlocks) : Prop where
  works : c.works.length = c.conn.works.length
  writes : c.writes.length = c.conn.writes.length

def blocksOf (works : List WorkBlocks) : Multiset Ptr := (works.flatMap WorkBlocks.blocks : List Ptr)

def ConnBlocks.own (c : ConnBlocks) : Multiset Ptr := c.blocks

-- What a callback hands back: it owns the blocks of the connection, and what is in
-- the connection is what the callback makes of it.
structure HandsBack (becomes : Conn → Prop) (own : Multiset Ptr) (c : ConnBlocks) : Prop where
  own : own = c.own
  matched : c.Matched
  conn : becomes c.conn

variable {c : ConnBlocks} {becomes : Conn → Prop} {rest : Multiset Ptr}

theorem HandsBack.mono {weaker : Conn → Prop} (hw : ∀ conn, becomes conn → weaker conn) {own : Multiset Ptr}
    (h : HandsBack becomes own c) : HandsBack weaker own c :=
  ⟨h.own, h.matched, hw _ h.conn⟩

theorem self_mem_own (c : ConnBlocks) : c.self ∈ c.own := List.mem_cons_self

theorem rbuf_mem_own (c : ConnBlocks) : c.rbuf ∈ c.own := List.mem_cons_of_mem _ List.mem_cons_self

-- The blocks one by one.
theorem own_eq (c : ConnBlocks) :
    c.own = {c.self} + ({c.rbuf} + (blocksOf c.works + blocksOf c.writes)) := by
  simp only [ConnBlocks.own, ConnBlocks.blocks, blocksOf, List.flatMap_append, ← Multiset.coe_add,
    ← Multiset.cons_coe, Multiset.singleton_add]

theorem blocksOf_append (works more : List WorkBlocks) :
    blocksOf (works ++ more) = blocksOf works + blocksOf more := by
  rw [blocksOf, List.flatMap_append, ← Multiset.coe_add]
  rfl

theorem blocksOf_nil : blocksOf [] = 0 := rfl

theorem blocksOf_cons (w : WorkBlocks) (works : List WorkBlocks) :
    blocksOf (w :: works) = {w.req} + ({w.line} + ({w.resp} + blocksOf works)) := rfl

theorem wp_maybeClose (h : c.Matched) :
    c.maybeClose.wp (contract True) (HandsBack (· = Solidbits.maybeClose c.conn)) c.own := by
  refine wp_access (self_mem_own c) ⟨rfl, ?_, rfl⟩
  constructor
  · rw [h.works, Solidbits.maybeClose]
    split <;> rfl
  · rw [h.writes, Solidbits.maybeClose]
    split <;> rfl

theorem wp_startClosing (h : c.Matched) :
    c.startClosing.wp (contract True) (HandsBack (· = Solidbits.startClosing c.conn)) c.own :=
  wp_access (self_mem_own c)
    (@wp_maybeClose { c with conn := { c.conn with closing := true } } ⟨h.works, h.writes⟩)

theorem wp_dispatchLine (h : c.Matched) (line : Bytes) : (c.dispatchLine line).wp (contract True)
    (HandsBack fun conn => ∃ allocFails, conn = Solidbits.dispatchLine allocFails line c.conn) c.own := by
  have hfails : c.startClosing.wp (contract True)
      (HandsBack fun conn => ∃ allocFails, conn = Solidbits.dispatchLine allocFails line c.conn) c.own :=
    Prog.wp_mono (fun _ _ => HandsBack.mono fun _ hconn => ⟨true, hconn⟩) (wp_startClosing h)
  refine wp_malloc (fun _ => hfails) fun w => ?_
  refine wp_access (Multiset.mem_cons_self _ _) (wp_malloc (fun _ => wp_free rfl hfails) fun lineBuf => ?_)
  have hself := self_mem_own c
  have hrbuf := rbuf_mem_own c
  refine wp_access (by simp [hrbuf]) (wp_access (by simp) (wp_access (by simp) ?_))
  refine wp_malloc (fun _ => wp_free rfl (wp_free rfl hfails)) fun respBuf => ?_
  refine wp_access (by simp) (wp_access (by simp [hself]) ⟨?_, ?_, false, rfl⟩)
  · simp only [own_eq, blocksOf_append, blocksOf_cons, blocksOf_nil, ← Multiset.singleton_add, add_zero]
    ac_rfl
  · exact ⟨by simp [h.works], h.writes⟩

theorem wp_onReadLoop_occupied (hbusy : c.conn.busy ∨ c.conn.closing) (fuel scan : Nat)
    {post : Multiset Ptr → ConnBlocks × Nat → Prop} (hpost : post c.own (c, scan)) :
    (c.onReadLoop fuel scan).wp (contract True) post c.own := by
  cases fuel with
  | zero => exact hpost
  | succ fuel =>
      refine wp_access (self_mem_own c) ?_
      rw [if_pos hbusy]
      exact hpost

-- The loop dispatches one line at most, so that one failing allocation decides it.
theorem wp_onReadLoop (h : c.Matched) (fuel scan : Nat) : (c.onReadLoop fuel scan).wp (contract True)
    (fun own result => HandsBack (fun conn => ∃ allocFails,
      (conn, result.2) = Solidbits.onReadLoop allocFails fuel scan c.conn) own result.1) c.own := by
  cases fuel with
  | zero => exact ⟨rfl, h, false, rfl⟩
  | succ fuel =>
      refine wp_access (self_mem_own c) ?_
      split
      · rename_i hbusy
        refine ⟨rfl, h, false, ?_⟩
        simp only [Solidbits.onReadLoop, if_pos hbusy]
      · rename_i hidle
        refine wp_access (rbuf_mem_own c) ?_
        cases hm : memchr (c.conn.rbuf.drop scan) with
        | none =>
            refine ⟨rfl, h, false, ?_⟩
            simp only [Solidbits.onReadLoop, if_neg hidle, hm]
        | some llen =>
            refine Prog.wp_seq (wp_dispatchLine h ((c.conn.rbuf.drop scan).take llen)) ?_
            rintro _ c' ⟨rfl, hmatched, allocFails, hconn⟩
            have hoccupied := dispatchLine_occupied allocFails ((c.conn.rbuf.drop scan).take llen) c.conn
            refine wp_onReadLoop_occupied (hconn ▸ hoccupied) _ _ ⟨rfl, hmatched, allocFails, ?_⟩
            simp only [Solidbits.onReadLoop, if_neg hidle, hm, ← hconn]
            rw [← hconn] at hoccupied
            cases fuel with
            | zero => rfl
            | succ fuel => simp only [Solidbits.onReadLoop, if_pos hoccupied]

-- The end of on_read, with the bytes in the buffer.
def dispatched (allocFails : Bool) (c : Conn) : Conn :=
  let (c, scan) := Solidbits.onReadLoop allocFails (c.rbuf.length + 1) 0 c
  { c with rbuf := c.rbuf.drop scan }

theorem wp_append (h : c.Matched) (base : Ptr) (chunk : Bytes) : (c.append base chunk).wp (contract True)
    (HandsBack fun conn => ∃ allocFails, conn = dispatched allocFails { c.conn with rbuf := c.conn.rbuf ++ chunk })
    (base ::ₘ c.own) := by
  have hself := self_mem_own c
  have hrbuf := rbuf_mem_own c
  refine wp_access (Multiset.mem_cons_of_mem hrbuf) (wp_access (Multiset.mem_cons_self _ _) ?_)
  refine wp_access (Multiset.mem_cons_of_mem hself) (wp_free rfl ?_)
  have hloop := @wp_onReadLoop { c with conn := { c.conn with rbuf := c.conn.rbuf ++ chunk } }
    ⟨h.works, h.writes⟩ ((c.conn.rbuf ++ chunk).length + 1) 0
  refine Prog.wp_seq hloop ?_
  rintro _ ⟨c', scan⟩ ⟨rfl, hmatched, allocFails, hconn⟩
  refine wp_access (rbuf_mem_own c') (wp_access (self_mem_own c') ⟨rfl, ⟨hmatched.works, hmatched.writes⟩, ?_⟩)
  refine ⟨allocFails, ?_⟩
  unfold dispatched
  simp only [← hconn]

theorem onReadData_eq (reallocFails allocFails : Bool) (chunk : Bytes) (conn : Conn) :
    Solidbits.onReadData reallocFails allocFails chunk conn =
      if conn.rcap < conn.rbuf.length + chunk.length ∧
          (RBUF_MAX_CAP < grow (conn.rbuf.length + chunk.length) conn.rcap ∨ reallocFails = true) then
        Solidbits.startClosing { conn with received := conn.received ++ chunk }
      else dispatched allocFails { conn with
        received := conn.received ++ chunk, rcap := grow (conn.rbuf.length + chunk.length) conn.rcap,
        rbuf := conn.rbuf ++ chunk } := rfl

theorem wp_onReadData (h : c.Matched) (base : Ptr) (chunk : Bytes) : (c.onReadData base chunk).wp (contract True)
    (HandsBack fun conn => ∃ reallocFails allocFails, conn = Solidbits.onReadData reallocFails allocFails chunk c.conn)
    (base ::ₘ c.own) := by
  have hself := self_mem_own c
  have hcloses : ∀ reallocFails, c.conn.rcap < c.conn.rbuf.length + chunk.length ∧
      (RBUF_MAX_CAP < grow (c.conn.rbuf.length + chunk.length) c.conn.rcap ∨ reallocFails = true) →
      (ConnBlocks.startClosing { c with conn := { c.conn with received := c.conn.received ++ chunk } }).wp (contract True)
        (HandsBack fun conn => ∃ reallocFails allocFails,
          conn = Solidbits.onReadData reallocFails allocFails chunk c.conn) c.own := by
    intro reallocFails hfull
    refine Prog.wp_mono (fun _ _ => HandsBack.mono ?_) (@wp_startClosing
      { c with conn := { c.conn with received := c.conn.received ++ chunk } } ⟨h.works, h.writes⟩)
    rintro _ rfl
    refine ⟨reallocFails, false, ?_⟩
    rw [onReadData_eq, if_pos hfull]
  have happends : ∀ (nb : Ptr) (reallocFails : Bool), ¬(c.conn.rcap < c.conn.rbuf.length + chunk.length ∧
      (RBUF_MAX_CAP < grow (c.conn.rbuf.length + chunk.length) c.conn.rcap ∨ reallocFails = true)) →
      (ConnBlocks.append base chunk { c with
        conn := { c.conn with
          received := c.conn.received ++ chunk, rcap := grow (c.conn.rbuf.length + chunk.length) c.conn.rcap }
        rbuf := nb }).wp (contract True)
        (HandsBack fun conn => ∃ reallocFails allocFails,
          conn = Solidbits.onReadData reallocFails allocFails chunk c.conn)
        (base ::ₘ ConnBlocks.own { c with rbuf := nb }) := by
    intro nb reallocFails hroom
    refine Prog.wp_mono (fun _ _ => HandsBack.mono ?_) (@wp_append { c with
      conn := { c.conn with
        received := c.conn.received ++ chunk, rcap := grow (c.conn.rbuf.length + chunk.length) c.conn.rcap }
      rbuf := nb } ⟨h.works, h.writes⟩ base chunk)
    rintro _ ⟨allocFails, rfl⟩
    exact ⟨reallocFails, allocFails, by rw [onReadData_eq, if_neg hroom]⟩
  refine wp_access (Multiset.mem_cons_of_mem hself) ?_
  simp only
  split
  · rename_i hneed
    split
    · rename_i hlarge
      exact wp_free rfl (hcloses false ⟨hneed, Or.inl hlarge⟩)
    · rename_i hlarge
      have hown : base ::ₘ c.own = c.rbuf ::ₘ ({base} + ({c.self} + (blocksOf c.works + blocksOf c.writes))) := by
        simp only [own_eq, ← Multiset.singleton_add]
        ac_rfl
      refine wp_realloc hown (fun _ => wp_free rfl (hcloses true ⟨hneed, Or.inr rfl⟩)) fun nb => ?_
      refine wp_access (by simp) ?_
      have hmoved : nb ::ₘ ({base} + ({c.self} + (blocksOf c.works + blocksOf c.writes))) =
          base ::ₘ ConnBlocks.own { c with rbuf := nb } := by
        simp only [own_eq, ← Multiset.singleton_add]
        ac_rfl
      rw [hmoved]
      exact happends nb false (fun hfull => hfull.2.elim hlarge Bool.false_ne_true)
  · rename_i hroom
    have hcap := grow_of_le (Nat.le_of_not_lt hroom)
    have hread := happends c.rbuf false fun hfull => hroom hfull.1
    rw [hcap] at hread
    exact hread

theorem wp_tryDispatchNext (h : c.Matched) : c.tryDispatchNext.wp (contract True)
    (HandsBack fun conn => ∃ allocFails, conn = Solidbits.tryDispatchNext allocFails c.conn) c.own := by
  refine wp_access (self_mem_own c) ?_
  split
  · rename_i hclosing
    refine Prog.wp_mono (fun _ _ => HandsBack.mono ?_) (wp_maybeClose h)
    rintro _ rfl
    exact ⟨false, by rw [Solidbits.tryDispatchNext, if_pos hclosing]⟩
  · rename_i hopen
    split
    · rename_i hbusy
      exact ⟨rfl, h, false, by rw [Solidbits.tryDispatchNext, if_neg hopen, if_pos hbusy]⟩
    · rename_i hidle
      refine wp_access (rbuf_mem_own c) ?_
      cases hm : memchr c.conn.rbuf with
      | none =>
          refine ⟨rfl, h, false, ?_⟩
          simp only [Solidbits.tryDispatchNext, if_neg hopen, if_neg hidle, hm]
      | some llen =>
          refine Prog.wp_seq (wp_dispatchLine h (c.conn.rbuf.take llen)) ?_
          rintro _ c' ⟨rfl, hmatched, allocFails, hconn⟩
          refine wp_access (rbuf_mem_own c') (wp_access (self_mem_own c') ?_)
          refine ⟨rfl, ⟨hmatched.works, hmatched.writes⟩, allocFails, ?_⟩
          simp only [Solidbits.tryDispatchNext, if_neg hopen, if_neg hidle, hm, hconn]

end Callbacks

section Events

variable {c : ConnBlocks} {rest : Multiset Ptr}

-- Whatever fails, a callback on what is read is one of the connection's events.
theorem wp_read (h : c.Matched) {nread : Nread} (hlegal : nread.Legal c.conn) :
    (c.read nread).wp (contract True) (HandsBack fun conn => conn = c.conn ∨ ∃ event, conn = c.conn.next event) c.own := by
  have hopen : c.conn.closes = 0 := by
    cases nread with
    | data chunk => exact hlegal.1
    | again => exact hlegal
    | fails => exact hlegal
  have hcloses : c.startClosing.wp (contract True)
      (HandsBack fun conn => conn = c.conn ∨ ∃ event, conn = c.conn.next event) c.own := by
    refine Prog.wp_mono (fun _ _ => HandsBack.mono ?_) (wp_startClosing h)
    rintro _ rfl
    exact Or.inr ⟨.readEnd, (if_pos hopen).symm⟩
  refine wp_malloc (fun _ => hcloses) fun base => ?_
  cases nread with
  | again => exact wp_access (Multiset.mem_cons_of_mem (self_mem_own c)) (wp_free rfl ⟨rfl, h, Or.inl rfl⟩)
  | fails => exact wp_access (Multiset.mem_cons_of_mem (self_mem_own c)) (wp_free rfl hcloses)
  | data chunk =>
      refine Prog.wp_mono (fun _ _ => HandsBack.mono ?_) (wp_onReadData h base chunk)
      rintro _ ⟨reallocFails, allocFails, rfl⟩
      exact Or.inr ⟨.read chunk reallocFails allocFails, (if_pos hlegal).symm⟩

theorem wp_freeWork {α : Type} {post : Multiset Ptr → α → Prop} {w : WorkBlocks} {next : Unit → Mem α}
    (hnext : (next ()).wp (contract True) post rest) :
    (w.free >>= next).wp (contract True) post ({w.req} + ({w.line} + ({w.resp} + rest))) := by
  have hline : {w.req} + ({w.line} + ({w.resp} + rest)) = w.line ::ₘ ({w.req} + ({w.resp} + rest)) := by
    rw [← Multiset.singleton_add]
    ac_rfl
  have hresp : {w.req} + ({w.resp} + rest) = w.resp ::ₘ (w.req ::ₘ rest) := by
    simp only [← Multiset.singleton_add]
    ac_rfl
  refine (Prog.wp_bind post w.free next _).mpr ?_
  refine wp_access (by simp) (wp_free hline ?_)
  refine wp_access (by simp) (wp_free hresp ?_)
  exact wp_free_ret rfl hnext

theorem wp_parse (h : c.Matched) : c.parse.wp (contract True) (HandsBack (· = c.conn)) c.own := by
  unfold ConnBlocks.parse
  split
  · rename_i w works hw
    have hown := own_eq c
    rw [hw, blocksOf_cons] at hown
    exact wp_access (by simp [hown]) (wp_access (by simp [hown]) ⟨rfl, h, rfl⟩)
  · exact ⟨rfl, h, rfl⟩

-- Where the next request's blocks stand among the others.
theorem own_works {w : WorkBlocks} {works : List WorkBlocks} (hw : c.works = w :: works) : c.own =
    {w.req} + ({w.line} + ({w.resp} + ConnBlocks.own { c with works := works })) := by
  simp only [own_eq, hw, blocksOf_cons]
  ac_rfl

theorem own_writes {w : WorkBlocks} {writes : List WorkBlocks} (hw : c.writes = w :: writes) : c.own =
    {w.req} + ({w.line} + ({w.resp} + ConnBlocks.own { c with writes := writes })) := by
  simp only [own_eq, hw, blocksOf_cons]
  ac_rfl

theorem wp_workReply {α : Type} {post : Multiset Ptr → α → Prop} (w : WorkBlocks) (work : WorkReq) (s : Bytes)
    (len : Nat) {next : WorkBlocks × WorkReq → Mem α}
    (hnext : ∀ w' reallocOk, (next (w', work.reply reallocOk s len)).wp (contract True) post
      ({w'.req} + ({w'.line} + ({w'.resp} + rest)))) :
    (w.reply s len work >>= next).wp (contract True) post ({w.req} + ({w.line} + ({w.resp} + rest))) := by
  refine (Prog.wp_bind post (w.reply s len work) next _).mpr ?_
  unfold WorkBlocks.reply
  split
  · rename_i hempty
    have hsame : work.reply true s len = work := by rw [WorkReq.reply, if_pos hempty]
    have hstays := hnext w true
    rw [hsame] at hstays
    exact hstays
  · have hresp : {w.req} + ({w.line} + ({w.resp} + rest)) = w.resp ::ₘ ({w.req} + ({w.line} + rest)) := by
      rw [← Multiset.singleton_add]
      ac_rfl
    refine wp_access (by simp) ?_
    split
    · refine wp_realloc hresp (fun _ => wp_access (by simp) (hnext w false)) fun nb => ?_
      refine wp_access (by simp) (wp_access (by simp) ?_)
      have hmoved : nb ::ₘ ({w.req} + ({w.line} + rest)) = {w.req} + ({w.line} + ({nb} + rest)) := by
        rw [← Multiset.singleton_add]
        ac_rfl
      rw [hmoved]
      exact hnext { w with resp := nb } true
    · exact wp_access (by simp) (wp_access (by simp) (hnext w true))

-- A reply may move the buffer and changes nothing else of the connection.
theorem wp_connReply (h : c.Matched) (s : Bytes) (len : Nat) : (c.reply s len).wp (contract True)
    (HandsBack fun conn => conn = c.conn ∨ ∃ work rest reallocOk, c.conn.works = work :: rest ∧
      conn = { c.conn with works := work.reply reallocOk s len :: rest }) c.own := by
  unfold ConnBlocks.reply
  split
  · rename_i w works work rest hw hwork
    rw [own_works hw]
    refine wp_workReply w work s len fun w' reallocOk => ⟨?_, ⟨?_, h.writes⟩, Or.inr ?_⟩
    · simp only [own_eq, blocksOf_cons]
      ac_rfl
    · have hlength := h.works
      rw [hw, hwork] at hlength
      exact hlength
    · exact ⟨work, rest, reallocOk, hwork, rfl⟩
  · exact ⟨rfl, h, Or.inl rfl⟩

theorem wp_afterWorkCb (h : c.Matched) (status : Int) (writeFails : Bool) :
    (c.afterWorkCb status writeFails).wp (contract True) (HandsBack fun conn => ∃ event, conn = c.conn.next event) c.own := by
  unfold ConnBlocks.afterWorkCb
  split
  · rename_i w works work rest hw hwork
    have hown := own_works hw
    have hrest : works.length = rest.length := by
      have hlength := h.works
      rw [hw, hwork] at hlength
      exact Nat.succ.inj hlength
    have hnext : c.conn.next (.afterWork status work.resp work.oom writeFails) =
        Solidbits.afterWorkCb status writeFails work c.conn := by
      simp only [Conn.next, hwork]
    refine wp_access (by simp [hown]) (wp_access (self_mem_own c) ?_)
    simp only
    split
    · rename_i hsilent
      rw [hown]
      refine wp_freeWork (Prog.wp_mono (fun _ _ => HandsBack.mono ?_) (@wp_maybeClose { c with
        conn := { c.conn with
          works := rest, busy := false, answered := c.conn.answered ++ [(work.line, [])] }
        works := works } ⟨hrest, h.writes⟩))
      rintro _ rfl
      refine ⟨_, Eq.trans ?_ hnext.symm⟩
      simp only [Solidbits.afterWorkCb, if_pos hsilent, hwork, List.tail_cons]
    · rename_i hreplies
      refine wp_access (by simp [hown]) ?_
      split
      · rename_i hfails
        rw [hown]
        refine wp_freeWork (Prog.wp_mono (fun _ _ => HandsBack.mono ?_) (@wp_startClosing { c with
          conn := { c.conn with works := rest, busy := false }, works := works } ⟨hrest, h.writes⟩))
        rintro _ rfl
        refine ⟨_, Eq.trans ?_ hnext.symm⟩
        simp only [Solidbits.afterWorkCb, if_neg hreplies, if_pos hfails, hwork, List.tail_cons]
      · rename_i hsends
        refine ⟨?_, ⟨hrest, ?_⟩, _, Eq.trans ?_ hnext.symm⟩
        · simp only [own_eq, hw, blocksOf_append, blocksOf_cons, blocksOf_nil, add_zero]
          ac_rfl
        · simp [h.writes]
        · simp only [Solidbits.afterWorkCb, if_neg hreplies, if_neg hsends, hwork, List.tail_cons]
  · rename_i hnone
    refine ⟨rfl, h, .afterWork status [] false writeFails, ?_⟩
    have hidle : c.conn.works = [] := by
      cases hwork : c.conn.works with
      | nil => rfl
      | cons work rest =>
          have hlength := h.works
          rw [hwork] at hlength
          obtain ⟨w, works, hw⟩ := List.exists_cons_of_length_eq_add_one hlength
          exact (hnone w works work rest hw hwork).elim
    simp only [Conn.next, hidle]

theorem wp_onWrite (h : c.Matched) (status : Int) :
    (c.onWrite status).wp (contract True) (HandsBack fun conn => ∃ event, conn = c.conn.next event) c.own := by
  unfold ConnBlocks.onWrite
  split
  · rename_i w writes work rest hw hwork
    have hown := own_writes hw
    have hrest : writes.length = rest.length := by
      have hlength := h.writes
      rw [hw, hwork] at hlength
      exact Nat.succ.inj hlength
    have hnext : ∀ allocFails, c.conn.next (.onWrite status allocFails) =
        Solidbits.onWrite status allocFails work c.conn := fun allocFails => by simp only [Conn.next, hwork]
    refine wp_access (by simp [hown]) (wp_access (self_mem_own c) ?_)
    simp only
    rw [hown]
    refine wp_freeWork ?_
    split
    · rename_i hfails
      refine Prog.wp_mono (fun _ _ => HandsBack.mono ?_) (@wp_startClosing { c with
        conn := { c.conn with busy := false, writes := rest }, writes := writes } ⟨h.works, hrest⟩)
      rintro _ rfl
      refine ⟨_, Eq.trans ?_ (hnext false).symm⟩
      simp only [Solidbits.onWrite, if_pos hfails, hwork, List.tail_cons]
    · rename_i hsent
      refine Prog.wp_mono (fun _ _ => HandsBack.mono ?_) (@wp_tryDispatchNext { c with
        conn := { c.conn with
          busy := false, writes := rest, answered := c.conn.answered ++ [(work.line, work.resp)]
          written := c.conn.written ++ work.resp }
        writes := writes } ⟨h.works, hrest⟩)
      rintro _ ⟨allocFails, rfl⟩
      refine ⟨_, Eq.trans ?_ (hnext allocFails).symm⟩
      simp only [Solidbits.onWrite, if_neg hsent, hwork, List.tail_cons]
  · rename_i hnone
    refine ⟨rfl, h, .onWrite status false, ?_⟩
    have hidle : c.conn.writes = [] := by
      cases hwork : c.conn.writes with
      | nil => rfl
      | cons work rest =>
          have hlength := h.writes
          rw [hwork] at hlength
          obtain ⟨w, writes, hw⟩ := List.exists_cons_of_length_eq_add_one hlength
          exact (hnone w writes work rest hw hwork).elim
    simp only [Conn.next, hidle]

theorem wp_onClose (h : c.Matched) (hidle : c.conn.works = [] ∧ c.conn.writes = []) :
    c.onClose.wp (contract True) (fun own _ => own = 0) c.own := by
  have hworks : c.works = [] := List.length_eq_zero_iff.mp (by rw [h.works, hidle.1]; rfl)
  have hwrites : c.writes = [] := List.length_eq_zero_iff.mp (by rw [h.writes, hidle.2]; rfl)
  have hown : c.own = c.rbuf ::ₘ (c.self ::ₘ 0) := by
    simp only [own_eq, hworks, hwrites, blocksOf_nil, ← Multiset.singleton_add, add_zero]
    ac_rfl
  refine wp_access (self_mem_own c) (wp_free hown ?_)
  exact wp_free_ret rfl rfl

end Events

section Connections

variable {conn : Conn}

-- A connection that was accepted, or one that was closed before it was read.
structure Sane (conn : Conn) : Prop where
  framed : Framed conn conn.rbuf
  settled : Settled conn ∨ conn.works = [] ∧ conn.writes = [] ∧ 0 < conn.closes

theorem sane_start : Sane {} := ⟨Framed.init, Or.inl rfl⟩

theorem sane_refused : Sane { closes := 1 } := by
  have h := Framed.init
  exact ⟨⟨⟨h.lines_plain, h.inflight, h.cap_pos, h.cap_le, h.fits⟩, h.prefix_eq⟩, Or.inr ⟨rfl, rfl, Nat.one_pos⟩⟩

theorem Sane.next (h : Sane conn) (event : Event) : Sane (conn.next event) := by
  refine ⟨h.framed.next event, ?_⟩
  rcases h.settled with hsettled | ⟨hworks, hwrites, hcloses⟩
  · exact Or.inl (settled_next event h.framed.toShape hsettled)
  · have hclosed := Nat.ne_of_gt hcloses
    refine Or.inr ?_
    cases event with
    | read chunk reallocFails allocFails =>
        simp only [Conn.next, hclosed, false_and, ite_false]
        exact ⟨hworks, hwrites, hcloses⟩
    | readEnd =>
        simp only [Conn.next, hclosed, ite_false]
        exact ⟨hworks, hwrites, hcloses⟩
    | afterWork status resp oom writeFails =>
        simp only [Conn.next, hworks]
        exact ⟨trivial, hwrites, hcloses⟩
    | onWrite status allocFails =>
        simp only [Conn.next, hwrites]
        exact ⟨hworks, trivial, hcloses⟩

theorem Sane.reply (h : Sane conn) {work : WorkReq} {rest : List WorkReq} (hworks : conn.works = work :: rest)
    (work' : WorkReq) : Sane { conn with works := work' :: rest } := by
  have hf := h.framed
  have hinflight := hf.inflight
  rw [hworks] at hinflight
  refine ⟨⟨⟨hf.lines_plain, hinflight, hf.cap_pos, hf.cap_le, hf.fits⟩, hf.prefix_eq⟩, ?_⟩
  rcases h.settled with hsettled | ⟨hidle, _⟩
  · exact Or.inl hsettled
  · rw [hworks] at hidle
    cases hidle

-- uv_close is issued only when nothing is outstanding.
theorem Sane.idle_of_closes (h : Sane conn) (hcloses : conn.closes ≠ 0) : conn.works = [] ∧ conn.writes = [] := by
  rcases h.settled with hsettled | ⟨hworks, hwrites, _⟩
  · exact h.framed.nothing_outstanding fun hbusy => hcloses (hsettled.open_of_busy hbusy)
  · exact ⟨hworks, hwrites⟩

theorem Sane.closed (h : Sane conn) (hclosing : conn.closing) (hidle : ¬conn.busy) : 0 < conn.closes := by
  rcases h.settled with hsettled | ⟨_, _, hcloses⟩
  · rw [hsettled, if_pos ⟨hclosing, hidle⟩]
    exact Nat.one_pos
  · exact hcloses

theorem blocks_length {c : ConnBlocks} (hmatched : c.Matched) (hsane : Sane c.conn) :
    c.blocks.length = if c.conn.busy then 5 else 2 := by
  have hflat : ∀ works : List WorkBlocks, (works.flatMap WorkBlocks.blocks).length = 3 * works.length := by
    intro works
    induction works with
    | nil => rfl
    | cons w works ih =>
        rw [List.flatMap_cons, List.length_append, ih, List.length_cons]
        simp only [WorkBlocks.blocks, List.length_cons, List.length_nil]
        omega
  have hinflight := hsane.framed.inflight
  have hworks := hmatched.works
  have hwrites := hmatched.writes
  simp only [ConnBlocks.blocks, List.length_cons, hflat, List.length_append]
  split
  · rename_i hbusy
    rw [if_pos hbusy] at hinflight
    omega
  · rename_i hidle
    rw [if_neg hidle] at hinflight
    omega

end Connections

section Loops

variable {loop : Loop} {fails : Nat → Bool} {c : ConnBlocks} {i : Nat}

def ownOf (conns : List ConnBlocks) : Multiset Ptr := (conns.flatMap ConnBlocks.blocks : List Ptr)

theorem ownOf_append (conns more : List ConnBlocks) : ownOf (conns ++ more) = ownOf conns + ownOf more := by
  rw [ownOf, List.flatMap_append, ← Multiset.coe_add]
  rfl

theorem ownOf_cons (c : ConnBlocks) (conns : List ConnBlocks) : ownOf (c :: conns) = c.own + ownOf conns := rfl

theorem ownOf_at {conns : List ConnBlocks} (hi : conns[i]? = some c) :
    ownOf conns = c.own + ownOf (conns.eraseIdx i) := by
  obtain ⟨hlt, rfl⟩ := List.getElem?_eq_some_iff.mp hi
  rw [← ownOf_cons]
  exact Multiset.coe_eq_coe.mpr ((List.getElem_cons_eraseIdx_perm hlt).symm.flatMap_right _)

theorem ownOf_set {conns : List ConnBlocks} (hi : conns[i]? = some c) (c' : ConnBlocks) :
    ownOf (conns.set i c') = c'.own + ownOf (conns.eraseIdx i) := by
  have hlt := (List.getElem?_eq_some_iff.mp hi).1
  rw [@ownOf_at c' i (conns.set i c') (List.getElem?_set_self hlt), List.eraseIdx_set_eq]

-- Between callbacks the heap holds the blocks of the connections and nothing else.
structure Loop.Good (loop : Loop) : Prop where
  heap : Clean (ownOf loop.conns) loop.heap
  matched : ∀ c ∈ loop.conns, c.Matched
  sane : ∀ c ∈ loop.conns, Sane c.conn

theorem Loop.Good.start : Loop.Good {} := ⟨clean_start, fun _ hc => absurd hc (by simp), fun _ hc => absurd hc (by simp)⟩

-- A callback that keeps to the blocks of its connection keeps the heap in order.
theorem Loop.Good.turn (h : loop.Good) (fails : Nat → Bool) (i : Nat) {callback : ConnBlocks → Mem ConnBlocks}
    (hcallback : ∀ c, c.Matched → Sane c.conn → (callback c).wp (contract True) (HandsBack Sane) c.own) :
    (loop.turn fails i callback).Good := by
  unfold Loop.turn
  split
  · exact h
  · rename_i c hi
    have hm := List.mem_of_getElem? hi
    have hclean := h.heap
    rw [ownOf_at hi] at hclean
    obtain ⟨_, ⟨_, rfl, rfl, hmatched, hsane⟩, hafter⟩ := exec_clean fails
      (wp_frame (hcallback c (h.matched c hm) (h.sane c hm))) hclean
    refine ⟨?_, ?_, ?_⟩
    · rw [ownOf_set hi]
      exact hafter
    · intro other hother
      rcases List.mem_or_eq_of_mem_set hother with hold | rfl
      · exact h.matched other hold
      · exact hmatched
    · intro other hother
      rcases List.mem_or_eq_of_mem_set hother with hold | rfl
      · exact h.sane other hold
      · exact hsane

theorem wp_onConnection (tcpInitFails acceptFails readStartFails : Bool) :
    (onConnection tcpInitFails acceptFails readStartFails).wp (contract True) (fun own c =>
      own = ownOf c.toList ∧ (∀ c' ∈ c.toList, c'.Matched) ∧ ∀ c' ∈ c.toList, Sane c'.conn) 0 := by
  have hnone : ∀ own : Multiset Ptr, own = 0 → own = ownOf (Option.toList none) ∧
      (∀ c ∈ (none : Option ConnBlocks).toList, c.Matched) ∧ ∀ c ∈ (none : Option ConnBlocks).toList, Sane c.conn :=
    fun own hown => ⟨hown, fun _ hc => absurd hc (by simp), fun _ hc => absurd hc (by simp)⟩
  refine wp_malloc (fun _ => hnone 0 rfl) fun c => ?_
  refine wp_access (by simp) (wp_malloc (fun _ => wp_free rfl (hnone 0 rfl)) fun rbuf => ?_)
  refine wp_access (by simp) ?_
  split
  · exact wp_free rfl (wp_free rfl (hnone 0 rfl))
  · have hopened : ∀ conn : Conn, conn.works = [] → conn.writes = [] → Sane conn →
        rbuf ::ₘ c ::ₘ 0 = ownOf (Option.toList (some ⟨conn, c, rbuf, [], []⟩)) ∧
        (∀ c' ∈ (some (⟨conn, c, rbuf, [], []⟩ : ConnBlocks)).toList, c'.Matched) ∧
        ∀ c' ∈ (some (⟨conn, c, rbuf, [], []⟩ : ConnBlocks)).toList, Sane c'.conn := by
      intro conn hworks hwrites hsane
      refine ⟨?_, ?_, ?_⟩
      · rw [Multiset.cons_swap]
        rfl
      · intro c' hc
        rw [List.mem_singleton.mp hc]
        exact ⟨(congrArg List.length hworks).symm, (congrArg List.length hwrites).symm⟩
      · intro c' hc
        rw [List.mem_singleton.mp hc]
        exact hsane
    refine wp_access (by simp) ?_
    split
    · exact hopened _ rfl rfl sane_refused
    · exact hopened _ rfl rfl sane_start

theorem Loop.Good.onConnection (h : loop.Good) (fails : Nat → Bool) (tcpInitFails acceptFails readStartFails : Bool) :
    (loop.next fails (.onConnection tcpInitFails acceptFails readStartFails)).Good := by
  have hclean := h.heap
  rw [← zero_add (ownOf loop.conns)] at hclean
  obtain ⟨_, ⟨_, rfl, rfl, hmatched, hsane⟩, hafter⟩ := exec_clean fails
    (wp_frame (wp_onConnection tcpInitFails acceptFails readStartFails)) hclean
  refine ⟨?_, ?_, ?_⟩
  · rw [add_comm, ← ownOf_append] at hafter
    exact hafter
  · intro c hc
    exact (List.mem_append.mp hc).elim (h.matched c) (hmatched c)
  · intro c hc
    exact (List.mem_append.mp hc).elim (h.sane c) (hsane c)

theorem Loop.Good.onClose (h : loop.Good) (fails : Nat → Bool) (i : Nat) : (loop.next fails (.onClose i)).Good := by
  simp only [Loop.next]
  split
  · exact h
  · rename_i c hi
    split
    · exact h
    · rename_i hcloses
      have hm := List.mem_of_getElem? hi
      have hidle := (h.sane c hm).idle_of_closes hcloses
      have hclean := h.heap
      rw [ownOf_at hi] at hclean
      obtain ⟨_, ⟨_, rfl, rfl⟩, hafter⟩ := exec_clean fails (wp_frame (wp_onClose (h.matched c hm) hidle)) hclean
      rw [zero_add] at hafter
      exact ⟨hafter, fun other hother => h.matched other (List.mem_of_mem_eraseIdx hother),
        fun other hother => h.sane other (List.mem_of_mem_eraseIdx hother)⟩

theorem Loop.Good.next (h : loop.Good) (fails : Nat → Bool) (callback : Callback) : (loop.next fails callback).Good := by
  cases callback with
  | onConnection tcpInitFails acceptFails readStartFails =>
      exact h.onConnection fails tcpInitFails acceptFails readStartFails
  | onClose i => exact h.onClose fails i
  | read i nread =>
      refine h.turn fails i fun c hmatched hsane => ?_
      split
      · rename_i hlegal
        refine Prog.wp_mono (fun _ _ => HandsBack.mono ?_) (wp_read hmatched hlegal)
        rintro conn (rfl | ⟨event, rfl⟩)
        · exact hsane
        · exact hsane.next event
      · exact ⟨rfl, hmatched, hsane⟩
  | parse i =>
      refine h.turn fails i fun c hmatched hsane => ?_
      exact Prog.wp_mono (fun _ _ => HandsBack.mono fun conn hconn => hconn ▸ hsane) (wp_parse hmatched)
  | reply i s len =>
      refine h.turn fails i fun c hmatched hsane => ?_
      refine Prog.wp_mono (fun _ _ => HandsBack.mono ?_) (wp_connReply hmatched s len)
      rintro conn (rfl | ⟨work, rest, reallocOk, hworks, rfl⟩)
      · exact hsane
      · exact hsane.reply hworks _
  | afterWork i status writeFails =>
      refine h.turn fails i fun c hmatched hsane => ?_
      refine Prog.wp_mono (fun _ _ => HandsBack.mono ?_) (wp_afterWorkCb hmatched status writeFails)
      rintro conn ⟨event, rfl⟩
      exact hsane.next event
  | onWrite i status =>
      refine h.turn fails i fun c hmatched hsane => ?_
      refine Prog.wp_mono (fun _ _ => HandsBack.mono ?_) (wp_onWrite hmatched status)
      rintro conn ⟨event, rfl⟩
      exact hsane.next event

-- Whichever allocations fail and in whatever order the callbacks of the
-- connections come: nothing is used or freed that is not live, and what is live
-- is two blocks for each connection and three more for its request in flight.
-- What is closing and idle is on its way to on_close.
theorem memory_balanced (fails : Nat → Bool) (callbacks : List Callback) :
    AllStates (Loop.next fails)
      (fun loop => loop.heap.faults = 0 ∧ loop.heap.live.Nodup ∧
        loop.heap.live.Perm (loop.conns.flatMap ConnBlocks.blocks) ∧
        ∀ c ∈ loop.conns, c.blocks.length = (if c.conn.busy then 5 else 2) ∧
          (c.conn.closing → ¬c.conn.busy → 0 < c.conn.closes) ∧
          (c.conn.closing = false → joined c.conn.lines ++ c.conn.rbuf = c.conn.received))
      {} callbacks := by
  refine (allStates_of_invariant (Loop.next fails) Loop.Good (fun loop callback h _ => h.next fails callback)
    Loop.Good.start (AllSteps.trivial (Loop.next fails) _ callbacks)).mono (Loop.next fails) ?_
  intro loop h
  refine ⟨h.heap.faults, h.heap.nodup, Multiset.coe_eq_coe.mp h.heap.owned.symm, fun c hc => ?_⟩
  have hsane := h.sane c hc
  exact ⟨blocks_length (h.matched c hc) hsane, hsane.closed, hsane.framed.prefix_eq⟩

end Loops

end Solidbits
