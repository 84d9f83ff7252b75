import Solidbits.Client.Link

namespace Solidbits

open Prog Transition

section Linked

variable {ι : Type} {own : ι → UInt64 → Prop} {disk : Contents} {i : ι} {c : Conn} {p : Peer}

-- The two ends of a connection: the server has the first lines that were sent
-- and gives their replies, and the client has cut the first of these replies.
structure Linked (own : ι → UInt64 → Prop) (disk : Contents) (i : ι) (c : Conn) (p : Peer) : Prop where
  settled : Settled c
  fits : ∀ call ∈ p.calls, call.Fits own i
  sent : c.lines <+: p.calls.map ClientCall.line
  inflight : c.closing = false → c.received ++ p.up = joined (p.calls.map ClientCall.line)
  replied : c.ledger.replies <+: (plainReplies hashed disk c.lines).flatten
  got : p.taken <+: c.written
  cut : ∃ raw : List Bytes, p.returned = raw.map strip ∧ (∀ line ∈ raw, NEWLINE ∉ line) ∧ joined raw ++ p.buf = p.taken
  counted : p.returned.length + p.missed + (if p.waiting then 1 else 0) = p.calls.length

theorem Linked.start (own : ι → UInt64 → Prop) (disk : Contents) (i : ι) : Linked own disk i {} {} where
  settled := rfl
  fits := fun _ hm => absurd hm List.not_mem_nil
  sent := List.nil_prefix
  inflight := fun _ => rfl
  replied := List.nil_prefix
  got := List.nil_prefix
  cut := ⟨[], rfl, fun _ hm => absurd hm List.not_mem_nil, rfl⟩
  counted := rfl

theorem Linked.lines_plain (h : Linked own disk i c p) : ∀ line ∈ p.calls.map ClientCall.line, NEWLINE ∉ line := by
  intro line hm
  obtain ⟨call, hcall, rfl⟩ := List.mem_map.mp hm
  exact line_newline (h.fits call hcall).1

theorem Linked.roundtrip (h : Linked own disk i c p) {call : ClientCall} (hcall : call.Fits own i) :
    Linked own disk i c (p.roundtrip call) := by
  unfold Peer.roundtrip
  split
  · exact h
  · rename_i hidle
    refine ⟨h.settled, ?_, ?_, fun hopen => ?_, h.replied, h.got, h.cut, ?_⟩
    · intro other hm
      rcases List.mem_append.mp hm with hm | hm
      · exact h.fits other hm
      · rw [List.mem_singleton.mp hm]
        exact hcall
    · rw [List.map_append]
      exact h.sent.trans (List.prefix_append _ _)
    · simp only [List.map_append, List.map_cons, List.map_nil, joined_append, joined_singleton, ← h.inflight hopen,
        List.append_assoc]
    · have hcounted := h.counted
      rw [if_neg hidle] at hcounted
      simp only [ite_true, List.length_append, List.length_singleton]
      omega

theorem Linked.giveUp (h : Linked own disk i c p) : Linked own disk i c p.giveUp := by
  unfold Peer.giveUp
  split
  · rename_i hwaiting
    refine ⟨h.settled, h.fits, h.sent, h.inflight, h.replied, h.got, h.cut, ?_⟩
    have hcounted := h.counted
    rw [if_pos hwaiting] at hcounted
    simp only [Bool.false_eq_true, ite_false]
    omega
  · exact h

-- A turn of the loop takes the next bytes, or the first line of what is there.
theorem Linked.recvLine (h : Linked own disk i c p) (hwaiting : p.waiting = true) {chunk : Bytes}
    (hchunk : chunk <+: c.written.drop p.taken.length) : Linked own disk i c (p.recvLine chunk) := by
  have hcounted := h.counted
  rw [if_pos hwaiting] at hcounted
  obtain ⟨raw, hreturned, hplain, hcut⟩ := h.cut
  unfold Peer.recvLine
  split
  · split
    · refine ⟨h.settled, h.fits, h.sent, h.inflight, h.replied, h.got, h.cut, ?_⟩
      simp only [Bool.false_eq_true, ite_false]
      omega
    · refine ⟨h.settled, h.fits, h.sent, h.inflight, h.replied, ?_, ⟨raw, hreturned, hplain, ?_⟩, h.counted⟩
      · obtain ⟨rest, hrest⟩ := hchunk
        refine ⟨rest, ?_⟩
        rw [List.append_assoc, hrest, List.prefix_iff_eq_append.mp h.got]
      · simp only [← hcut, List.append_assoc]
  · rename_i n hn
    obtain ⟨hsplit, hline⟩ := memchr_split hn
    refine ⟨h.settled, h.fits, h.sent, h.inflight, h.replied, h.got,
      ⟨raw ++ [p.buf.take n], ?_, ?_, ?_⟩, ?_⟩
    · rw [hreturned, List.map_append, List.map_singleton]
    · intro line hm
      rcases List.mem_append.mp hm with hm | hm
      · exact hplain line hm
      · rw [List.mem_singleton.mp hm]
        exact hline
    · rw [joined_append, joined_singleton, List.append_assoc, ← hsplit]
      exact hcut
    · simp only [Bool.false_eq_true, ite_false, List.length_append, List.length_singleton]
      omega

-- The lines that a callback dispatches are the next ones that were sent.
theorem Linked.sent_next (h : Linked own disk i c p) (hs : Framed c c.rbuf) {event : Event} {up : Bytes}
    (hfits : event.chunk.length ≤ READ_CHUNK) (hup : event.chunk ++ up = p.up) :
    (c.next event).lines <+: p.calls.map ClientCall.line ∧
      ((c.next event).closing = false → (c.next event).received ++ up = joined (p.calls.map ClientCall.line)) := by
  have hstep := next_ledger hs.toShape event
  have hframed := hs.next event
  cases hclosing : (c.next event).closing with
  | true =>
      have hlines : (c.next event).lines = c.lines := (hstep.closing hclosing).1
      rw [hlines]
      exact ⟨h.sent, fun hc => Bool.noConfusion hc⟩
  | false =>
      have hopen : c.closing = false := hstep.grows.1 hclosing
      have hcloses := h.settled.open_of_not_closing (by rw [hopen]; exact Bool.false_ne_true)
      have hreceived := (next_received c event).resolve_right fun hread => hread.2 ⟨hcloses, hfits⟩
      have hall : (c.next event).received ++ up = joined (p.calls.map ClientCall.line) := by
        rw [hreceived, List.append_assoc, hup]
        exact h.inflight hopen
      refine ⟨?_, fun _ => hall⟩
      apply joined_prefix hframed.lines_plain h.lines_plain
      rw [← hall, ← hframed.prefix_eq hclosing, List.append_assoc]
      exact List.prefix_append _ _

variable {thread : Thread Act Res Unit (Option WorkReq)} {desk : Desk}

theorem Session.replies {l : Ledger} (h : Session own disk i l thread desk) (hopen : l.closing = false) :
    l.replies <+: (plainReplies hashed disk l.lines).flatten := by
  have hsnd := congrArg (List.map Prod.snd) (h.told hopen)
  rw [history, List.map_snd_zip (Nat.le_of_eq (plainReplies_length hashed disk l.lines))] at hsnd
  rw [← hsnd, List.map_append, List.map_append, List.flatten_append, List.flatten_append, List.map_map]
  exact List.prefix_append _ _

theorem Linked.next (h : Linked own disk i c p) (hs : Framed c c.rbuf) {event : Event} {up : Bytes}
    (hfits : event.chunk.length ≤ READ_CHUNK) (hup : event.chunk ++ up = p.up)
    (hwritten : c.written = (c.answered.map Prod.snd).flatten)
    (hwritten' : (c.next event).written = ((c.next event).answered.map Prod.snd).flatten)
    (hsession : Session own disk i (c.next event).ledger thread desk) :
    Linked own disk i (c.next event) { p with up := up } := by
  have hstep := next_ledger hs.toShape event
  obtain ⟨hsent, hinflight⟩ := h.sent_next hs hfits hup
  refine ⟨settled_next event hs.toShape h.settled, h.fits, hsent, hinflight, ?_, ?_, h.cut, h.counted⟩
  · cases hclosing : (c.next event).closing with
    | true =>
        obtain ⟨hlines, hreplies⟩ := hstep.closing hclosing
        have hsame : (c.next event).lines = c.lines := hlines
        rw [hsame]
        exact hreplies.trans h.replied
    | false => exact hsession.replies hclosing
  · obtain ⟨more, hmore⟩ := hstep.grows.2
    have hanswered : c.answered ++ more = (c.next event).answered := hmore
    refine h.got.trans ?_
    rw [hwritten, hwritten', ← hanswered, List.map_append, List.flatten_append]
    exact List.prefix_append _ _

end Linked

section System

variable {ι : Type} [DecidableEq ι] {own : ι → UInt64 → Prop} {disk : Contents}

-- The server answers its clients, each as if it were alone.
structure Link.Good (own : ι → UInt64 → Prop) (disk : Contents) (link : Link ι) : Prop where
  divided : ∃ g desks, link.service.Divided own disk g desks
  linked : ∀ i, Linked own disk i (link.service.conns i) (link.peers i)

theorem Link.Good.peer {link : Link ι} (h : link.Good own disk) (i : ι) {p : Peer}
    (hp : Linked own disk i (link.service.conns i) p) :
    Link.Good own disk { link with peers := Function.update link.peers i p } where
  divided := h.divided
  linked := (Function.forall_update_iff link.peers fun j p => Linked own disk j (link.service.conns j) p).mpr
    ⟨hp, fun j _ => h.linked j⟩

theorem Link.Good.serve {link : Link ι} (h : link.Good own disk) (hapart : Apart own) {move : Move ι}
    (hcalm : link.service.Undisturbed move) {ups : ι → Bytes} (hfits : ∀ i, (move.chunk i).length ≤ READ_CHUNK)
    (hups : ∀ i, move.chunk i ++ ups i = (link.peers i).up) :
    Link.Good own disk ⟨link.service.next move, fun i => { link.peers i with up := ups i }⟩ := by
  obtain ⟨g, desks, hdivided⟩ := h.divided
  have hadmits : link.service.Admits own move := by
    intro i line hm
    obtain ⟨event, he, hchunk⟩ := service_conns link.service move i
    have hsent := ((h.linked i).sent_next (hdivided.framed i) (hchunk ▸ hfits i) (hchunk ▸ hups i)).1
    rw [he] at hm
    obtain ⟨call, hcall, rfl⟩ := List.mem_map.mp (hsent.subset hm)
    exact ((h.linked i).fits call hcall).admitted
  obtain ⟨g', desks', hnext⟩ := hdivided.next hapart hadmits hcalm
  refine ⟨⟨g', desks', hnext⟩, fun i => ?_⟩
  obtain ⟨event, he, hchunk⟩ := service_conns link.service move i
  have hordered := hnext.ordered i
  have hsession := hnext.sessions i
  rw [he] at hordered hsession ⊢
  exact (h.linked i).next (hdivided.framed i) (hchunk ▸ hfits i) (hchunk ▸ hups i) (hdivided.ordered i).written
    hordered.written hsession

def Exchange.Fits (own : ι → UInt64 → Prop) : Exchange ι → Prop
  | .call i made => made.Fits own i
  | _ => True

theorem Link.Good.deliver {link : Link ι} (h : link.Good own disk) (hapart : Apart own) (i : ι) (size : Nat)
    (reallocFails allocFails : Bool) : (link.next (.deliver i size reallocFails allocFails)).Good own disk := by
  let count := min size READ_CHUNK
  have hserve := @Link.Good.serve ι _ own disk link h hapart
    (.read i ((link.peers i).up.take count) reallocFails allocFails) trivial
    (fun j => if j = i then (link.peers i).up.drop count else (link.peers j).up) ?_ ?_
  · have hpeers : (fun j => { link.peers j with
        up := if j = i then (link.peers i).up.drop count else (link.peers j).up }) =
        Function.update link.peers i { link.peers i with up := (link.peers i).up.drop count } := by
      funext j
      by_cases hj : j = i
      · subst hj
        simp only [ite_true, Function.update_self]
      · simp only [hj, ite_false, Function.update_of_ne hj]
    rw [hpeers] at hserve
    exact hserve
  · intro j
    simp only [Move.chunk]
    split
    · exact Nat.le_trans (List.length_take_le _ _) (Nat.min_le_right _ _)
    · exact Nat.zero_le _
  · intro j
    simp only [Move.chunk]
    split
    · rename_i hj
      rw [hj, List.take_append_drop]
    · exact List.nil_append _

theorem Link.Good.next {link : Link ι} (h : link.Good own disk) (hapart : Apart own) {exchange : Exchange ι}
    (hfits : exchange.Fits own) (hcalm : link.Undisturbed exchange) : (link.next exchange).Good own disk := by
  cases exchange with
  | call i call => exact h.peer i ((h.linked i).roundtrip hfits)
  | recv i size =>
      simp only [Link.next]
      split
      · exact h
      · rename_i hgoes
        have hwaiting : (link.peers i).waiting = true := Bool.of_not_eq_false fun hw => hgoes (Or.inl hw)
        exact h.peer i ((h.linked i).recvLine hwaiting (List.take_prefix _ _))
  | giveUp i => exact h.peer i (h.linked i).giveUp
  | deliver i size reallocFails allocFails => exact h.deliver hapart i size reallocFails allocFails
  | serve move =>
      have hquiet : (∀ i, move.chunk i = []) → Link.Good own disk { link with service := link.service.next move } :=
        fun hchunk => @Link.Good.serve ι _ own disk link h hapart move hcalm (fun i => (link.peers i).up)
          (fun i => by rw [hchunk i]; exact Nat.zero_le _) (fun i => by rw [hchunk i, List.nil_append])
      cases move with
      | read i chunk reallocFails allocFails => exact h
      | readEnd i => exact hquiet fun _ => rfl
      | act i choice => exact hquiet fun _ => rfl
      | afterWork i writeFails => exact hquiet fun _ => rfl
      | onWrite i status allocFails => exact hquiet fun _ => rfl

omit [DecidableEq ι] in
theorem Link.Good.start (own : ι → UInt64 → Prop) (disk : Contents) : (Link.start disk : Link ι).Good own disk :=
  have ⟨g, hstart⟩ := divided_start own disk
  ⟨⟨g, _, hstart⟩, Linked.start own disk⟩

omit [DecidableEq ι] in
-- What a client was told are the results of its first calls.
theorem Linked.returned (hdisk : ∀ path content, disk path = some content → content.length ≤ LONGEST_FILE) {i : ι}
    {c : Conn} {p : Peer} (h : Linked own disk i c p) (hwritten : c.written = (c.answered.map Prod.snd).flatten) :
    p.returned <+: (results hashed disk p.calls).map printed := by
  obtain ⟨raw, hreturned, hplain, hcut⟩ := h.cut
  have hbounded : Bounded disk := by
    intro path
    cases hcontent : disk path with
    | none => exact Nat.zero_le _
    | some content => exact hdisk path content hcontent
  have hserved : ∀ call ∈ p.calls, call.Served := fun call hm => (h.fits call hm).1
  obtain ⟨rest, hrest⟩ : c.lines <+: p.calls.map ClientCall.line := h.sent
  have hall : joined raw <+: joined ((results hashed disk p.calls).map printed) := by
    have htexts : (plainReplies hashed disk (p.calls.map ClientCall.line)).flatten =
        joined ((results hashed disk p.calls).map printed) := by
      rw [plainReplies_calls hashed hbounded hserved, joined, List.map_map]
      rfl
    rw [← htexts, ← hrest, plainReplies_append, List.flatten_append]
    refine List.IsPrefix.trans ?_ (List.prefix_append _ _)
    refine List.IsPrefix.trans ?_ h.replied
    rw [Ledger.replies, show c.ledger.answered = c.answered from rfl, ← hwritten]
    refine List.IsPrefix.trans ?_ (List.prefix_append _ _)
    refine List.IsPrefix.trans ?_ h.got
    rw [← hcut]
    exact List.prefix_append _ _
  have hgrown := joined_prefix hplain (fun line hm => by
    obtain ⟨result, _, rfl⟩ := List.mem_map.mp hm
    exact printed_newline result) hall
  obtain ⟨more, hmore⟩ := hgrown
  refine ⟨more.map strip, ?_⟩
  rw [hreturned, ← List.map_append, hmore, List.map_map]
  exact List.map_congr_left fun result _ => strip_printed result

-- The clients call and the server answers, however the network cuts the bytes and
-- the steps interleave: the lines that a client is returned are the results of
-- its calls, in order, on a map that nobody else changes. Without a timeout that
-- is each call with its own result.
theorem calls_answered (hapart : Apart own)
    (hdisk : ∀ path content, disk path = some content → content.length ≤ LONGEST_FILE)
    (exchanges : List (Exchange ι)) (hfits : ∀ exchange ∈ exchanges, exchange.Fits own)
    (hcalm : AllSteps Link.next Link.Undisturbed (Link.start disk) exchanges) :
    AllStates Link.next
      (fun link => ∀ i, (link.peers i).returned <+: (results hashed disk (link.peers i).calls).map printed ∧
        (link.peers i).returned.length + (link.peers i).missed + (if (link.peers i).waiting then 1 else 0) =
          (link.peers i).calls.length)
      (Link.start disk) exchanges := by
  refine (allStates_of_invariant Link.next (Link.Good own disk) ?_ (Link.Good.start own disk)
    ((AllSteps.of_labels Link.next hfits _).and Link.next hcalm)).mono Link.next ?_
  · rintro link exchange h ⟨hfits, hcalm⟩
    exact h.next hapart hfits hcalm
  · intro link h i
    obtain ⟨g, desks, hdivided⟩ := h.divided
    exact ⟨(h.linked i).returned hdisk (hdivided.ordered i).written, (h.linked i).counted⟩

-- One client sets a bit and asks for it, the other one counts a key of its own.
theorem calls_answered_two_clients :
    let exchanges : List (Exchange Bool) :=
      [.call false (.setbit (str "a") 9 1), .deliver false 7 false false, .call true (.bitcount (str "b") none none),
        .deliver false 100 false false, .deliver true 100 false false, .serve (.act false {}), .serve (.act true {}),
        .serve (.act false {}), .serve (.act false {}), .serve (.act true {}), .serve (.act false {}),
        .serve (.act false {}), .serve (.afterWork true false), .serve (.afterWork false false),
        .serve (.onWrite false 0 false), .recv false 0, .recv false 0, .recv false 0,
        .call false (.getbit (str "a") 9), .deliver false 100 false false, .serve (.act false {}),
        .serve (.act false {}), .serve (.act false {}), .serve (.act false {}), .serve (.act false {}),
        .serve (.afterWork false false), .serve (.onWrite false 0 false), .recv false 255, .recv false 0]
    let link := run Link.next (Link.start fun _ => none) exchanges
    ∀ i, (link.peers i).returned <+: (results hashed (fun _ => none) (link.peers i).calls).map printed := by
  intro exchanges link i
  let own : Bool → UInt64 → Prop := fun second hash => hash = hashed (if second then str "b" else str "a")
  have hapart : Apart own := by
    intro first other hash hfirst hother
    cases first <;> cases other
    · rfl
    · exact absurd (hfirst.symm.trans hother) (by decide +kernel)
    · exact absurd (hfirst.symm.trans hother) (by decide +kernel)
    · rfl
  have ha : Key (str "a") := ⟨by decide, by decide, by decide, by decide, by decide, by decide⟩
  have hb : Key (str "b") := ⟨by decide, by decide, by decide, by decide, by decide, by decide⟩
  have hfits : ∀ exchange ∈ exchanges, exchange.Fits own := by
    have hset : (ClientCall.setbit (str "a") 9 1).Fits own false := by
      refine ⟨⟨⟨ha, by decide, by decide, Or.inr rfl⟩, trivial, rfl⟩, fun key hm => ?_⟩
      rw [List.mem_singleton.mp hm]
      rfl
    have hget : (ClientCall.getbit (str "a") 9).Fits own false := by
      refine ⟨⟨⟨ha, by decide, by decide⟩, trivial, rfl⟩, fun key hm => ?_⟩
      rw [List.mem_singleton.mp hm]
      rfl
    have hcount : (ClientCall.bitcount (str "b") none none).Fits own true := by
      refine ⟨⟨⟨hb, by simp, by simp⟩, by simp [ClientCall.Agreed], rfl⟩, fun key hm => ?_⟩
      rw [List.mem_singleton.mp hm]
      rfl
    simp only [exchanges, List.forall_mem_cons, Exchange.Fits, true_and]
    exact ⟨hset, hcount, hget, fun _ hm => absurd hm List.not_mem_nil⟩
  have h := (@calls_answered Bool _ own (fun _ => none) hapart (by simp) exchanges hfits (by decide +kernel)).last
  exact (h i).1

end System

end Solidbits
