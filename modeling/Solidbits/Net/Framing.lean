import Solidbits.Lib.Run
import Solidbits.Net.Defs

namespace Solidbits

open Transition

section Framing

-- The lines, each followed by its newline.
def joined (lines : List Bytes) : Bytes := (lines.map (· ++ [NEWLINE])).flatten

@[simp] theorem joined_append (lines more : List Bytes) :
    joined (lines ++ more) = joined lines ++ joined more := by
  simp [joined]

@[simp] theorem joined_singleton (line : Bytes) : joined [line] = line ++ [NEWLINE] := by
  simp [joined]

theorem newline_split {a b x y : Bytes} (ha : NEWLINE ∉ a) (hb : NEWLINE ∉ b)
    (h : a ++ [NEWLINE] ++ x <+: b ++ [NEWLINE] ++ y) : a = b ∧ x <+: y := by
  have htake : ∀ {p q : Bytes}, NEWLINE ∉ p → (p ++ [NEWLINE] ++ q).takeWhile (· ≠ NEWLINE) = p := by
    intro p q hp
    rw [List.append_assoc, List.takeWhile_append_of_pos]
    · exact List.append_nil p
    · intro byte hm
      exact decide_eq_true fun he => hp (he ▸ hm)
  obtain ⟨z, hz⟩ := h
  have heq := congrArg (List.takeWhile (· ≠ NEWLINE)) hz
  rw [List.append_assoc, htake ha, htake hb] at heq
  subst heq
  rw [List.append_assoc] at hz
  exact ⟨rfl, z, List.append_cancel_left hz⟩

-- Lines put together can be told apart again.
theorem joined_prefix {lines more : List Bytes} (hlines : ∀ line ∈ lines, NEWLINE ∉ line)
    (hmore : ∀ line ∈ more, NEWLINE ∉ line) (h : joined lines <+: joined more) : lines <+: more := by
  induction lines generalizing more with
  | nil => exact List.nil_prefix
  | cons first lines ih =>
      cases more with
      | nil =>
          have hempty := List.prefix_nil.mp h
          exact absurd (congrArg List.length hempty) (by simp [joined])
      | cons other more =>
          have hsplit : first ++ [NEWLINE] ++ joined lines <+: other ++ [NEWLINE] ++ joined more := h
          obtain ⟨rfl, hrest⟩ := newline_split (hlines first List.mem_cons_self) (hmore other List.mem_cons_self) hsplit
          exact (List.prefix_cons_inj _).mpr (ih (fun line hm => hlines line (List.mem_cons_of_mem first hm))
            (fun line hm => hmore line (List.mem_cons_of_mem first hm)) hrest)

theorem memchr_eq_none {p : Bytes} : memchr p = none ↔ NEWLINE ∉ p := by
  simp only [memchr, List.findIdx?_eq_none_iff, decide_eq_false_iff_not]
  constructor
  · intro h hm
    exact h _ hm rfl
  · rintro h byte hm rfl
    exact h hm

theorem memchr_split {p : Bytes} {llen : Nat} (h : memchr p = some llen) :
    p = p.take llen ++ [NEWLINE] ++ p.drop (llen + 1) ∧ NEWLINE ∉ p.take llen := by
  obtain ⟨hlt, heq, hbefore⟩ := List.findIdx?_eq_some_iff_getElem.mp h
  have hbyte : p[llen] = NEWLINE := of_decide_eq_true heq
  constructor
  · rw [← hbyte, List.append_assoc, List.singleton_append, List.getElem_cons_drop,
      List.take_append_drop]
  · intro hm
    obtain ⟨i, hi, he⟩ := List.mem_take_iff_getElem.mp hm
    have := hbefore i (by omega)
    simp [he] at this

-- Doubling a positive capacity reaches the need within the fuel.
theorem le_growLoop (need fuel ncap : Nat) (hc : 0 < ncap) (hf : need ≤ ncap + fuel) :
    need ≤ growLoop need fuel ncap := by
  induction fuel generalizing ncap with
  | zero => exact hf
  | succ fuel ih =>
      simp only [growLoop]
      split
      · exact ih _ (by omega) (by omega)
      · omega

theorem le_grow (need cap : Nat) (hc : 0 < cap) : need ≤ grow need cap := by
  unfold grow
  split
  · exact le_growLoop need need cap hc (by omega)
  · omega

theorem grow_of_le {need cap : Nat} (h : need ≤ cap) : grow need cap = cap :=
  ite_eq_right_iff.mpr fun hlt => absurd hlt (Nat.not_lt.mpr h)

-- What holds of a connection in the middle of a callback, too.
structure Shape (c : Conn) : Prop where
  lines_plain : ∀ line ∈ c.lines, NEWLINE ∉ line
  inflight : c.works.length + c.writes.length = if c.busy then 1 else 0
  cap_pos : 0 < c.rcap
  cap_le : c.rcap ≤ RBUF_MAX_CAP
  fits : c.rbuf.length ≤ c.rcap

-- `rest` is the part of the buffer that is not dispatched: it is rbuf between
-- callbacks, and the part behind scan inside on_read.
structure Framed (c : Conn) (rest : Bytes) : Prop extends Shape c where
  prefix_eq : c.closing = false → joined c.lines ++ rest = c.received

theorem Shape.maybeClose {c : Conn} (h : Shape c) : Shape (maybeClose c) := by
  unfold Solidbits.maybeClose
  split
  · exact ⟨h.lines_plain, h.inflight, h.cap_pos, h.cap_le, h.fits⟩
  · exact h

theorem maybeClose_closing (c : Conn) : (maybeClose c).closing = c.closing := by
  unfold maybeClose
  split <;> rfl

theorem Framed.maybeClose {c : Conn} {rest : Bytes} (h : Framed c rest) :
    Framed (maybeClose c) rest := by
  refine ⟨h.toShape.maybeClose, ?_⟩
  intro hc
  have he := h.prefix_eq (maybeClose_closing c ▸ hc)
  unfold Solidbits.maybeClose
  split <;> exact he

-- Nothing is promised about the bytes of a connection that is closing.
theorem Shape.startClosing {c : Conn} (rest : Bytes) (h : Shape c) : Framed (startClosing c) rest := by
  refine ⟨Shape.maybeClose ⟨h.lines_plain, h.inflight, h.cap_pos, h.cap_le, h.fits⟩, ?_⟩
  intro hc
  rw [Solidbits.startClosing, maybeClose_closing] at hc
  exact Bool.noConfusion hc

theorem maybeClose_rbuf (c : Conn) : (maybeClose c).rbuf = c.rbuf := by
  unfold maybeClose
  split <;> rfl

theorem maybeClose_rcap (c : Conn) : (maybeClose c).rcap = c.rcap := by
  unfold maybeClose
  split <;> rfl

theorem dispatchLine_rbuf (allocFails : Bool) (line : Bytes) (c : Conn) :
    (dispatchLine allocFails line c).rbuf = c.rbuf := by
  unfold dispatchLine
  split
  · exact maybeClose_rbuf _
  · rfl

theorem dispatchLine_rcap (allocFails : Bool) (line : Bytes) (c : Conn) :
    (dispatchLine allocFails line c).rcap = c.rcap := by
  unfold dispatchLine
  split
  · exact maybeClose_rcap _
  · rfl

-- Cutting the first line off the undispatched part and dispatching it.
theorem Framed.dispatchLine {c : Conn} {rest : Bytes} {llen : Nat} (allocFails : Bool)
    (h : Framed c rest) (hm : memchr rest = some llen) (hb : c.busy = false) :
    Framed (dispatchLine allocFails (rest.take llen) c) (rest.drop (llen + 1)) := by
  obtain ⟨hsplit, hplain⟩ := memchr_split hm
  unfold Solidbits.dispatchLine
  cases allocFails with
  | true => exact h.startClosing _
  | false =>
      simp only [Bool.false_eq_true, ite_false]
      refine ⟨⟨?_, ?_, h.cap_pos, h.cap_le, h.fits⟩, ?_⟩
      · intro line hl
        rcases List.mem_append.mp hl with hl | hl
        · exact h.lines_plain line hl
        · rw [List.mem_singleton.mp hl]
          exact hplain
      · have hi := h.inflight
        simp only [hb, Bool.false_eq_true, ite_false] at hi
        simp only [List.length_append, List.length_singleton, ite_true]
        omega
      · intro hc
        have he := h.prefix_eq hc
        rw [hsplit] at he
        simpa only [joined_append, joined_singleton, List.append_assoc] using he

theorem onReadLoop_rbuf (allocFails : Bool) (fuel scan : Nat) (c : Conn) :
    (onReadLoop allocFails fuel scan c).1.rbuf = c.rbuf := by
  induction fuel generalizing scan c with
  | zero => rfl
  | succ fuel ih =>
      simp only [onReadLoop]
      split
      · rfl
      · split
        · rfl
        · rw [ih, dispatchLine_rbuf]

theorem Framed.onReadLoop {c : Conn} (allocFails : Bool) (fuel scan : Nat)
    (h : Framed c (c.rbuf.drop scan)) :
    Framed (onReadLoop allocFails fuel scan c).1
      (c.rbuf.drop (Solidbits.onReadLoop allocFails fuel scan c).2) := by
  induction fuel generalizing scan c with
  | zero => exact h
  | succ fuel ih =>
      simp only [Solidbits.onReadLoop]
      split
      · exact h
      · rename_i hidle
        split
        · exact h
        · rename_i llen hm
          have hb : c.busy = false := by simpa using fun hb => hidle (Or.inl hb)
          have hd := h.dispatchLine allocFails hm hb
          rw [List.drop_drop] at hd
          have hn := ih (c := Solidbits.dispatchLine allocFails ((c.rbuf.drop scan).take llen) c)
            (scan + llen + 1) (by rw [dispatchLine_rbuf]; exact hd)
          rwa [dispatchLine_rbuf] at hn

theorem Framed.onReadData {c : Conn} (reallocFails allocFails : Bool) (chunk : Bytes)
    (h : Framed c c.rbuf) :
    Framed (onReadData reallocFails allocFails chunk c)
      (Solidbits.onReadData reallocFails allocFails chunk c).rbuf := by
  unfold Solidbits.onReadData
  simp only
  split
  · exact Shape.startClosing _ ⟨h.lines_plain, h.inflight, h.cap_pos, h.cap_le, h.fits⟩
  · rename_i hroom
    have hcap : grow (c.rbuf.length + chunk.length) c.rcap ≤ RBUF_MAX_CAP := by
      by_cases hneed : c.rcap < c.rbuf.length + chunk.length
      · have := fun hbig => hroom ⟨hneed, Or.inl hbig⟩
        omega
      · rw [grow_of_le (Nat.le_of_not_lt hneed)]
        exact h.cap_le
    have hfit := le_grow (c.rbuf.length + chunk.length) c.rcap h.cap_pos
    have hpos : 0 < grow (c.rbuf.length + chunk.length) c.rcap := by
      have := h.cap_pos
      by_cases hneed : c.rcap < c.rbuf.length + chunk.length
      · omega
      · rwa [grow_of_le (Nat.le_of_not_lt hneed)]
    have hread : Framed { c with
        received := c.received ++ chunk
        rbuf := c.rbuf ++ chunk
        rcap := grow (c.rbuf.length + chunk.length) c.rcap } ((c.rbuf ++ chunk).drop 0) := by
      refine ⟨⟨h.lines_plain, h.inflight, hpos, hcap, ?_⟩, ?_⟩
      · simpa only [List.length_append] using hfit
      · intro hc
        rw [List.drop_zero, ← List.append_assoc, h.prefix_eq hc]
    have hloop := hread.onReadLoop allocFails ((c.rbuf ++ chunk).length + 1) 0
    refine ⟨⟨hloop.lines_plain, hloop.inflight, hloop.cap_pos, hloop.cap_le, ?_⟩, ?_⟩
    · have hfits := hloop.fits
      simp only [List.length_drop] at hfits ⊢
      omega
    · simpa only [onReadLoop_rbuf] using hloop.prefix_eq

theorem Framed.tryDispatchNext {c : Conn} (allocFails : Bool) (h : Framed c c.rbuf) :
    Framed (tryDispatchNext allocFails c) (Solidbits.tryDispatchNext allocFails c).rbuf := by
  unfold Solidbits.tryDispatchNext
  split
  · rw [maybeClose_rbuf]
    exact h.maybeClose
  · split
    · exact h
    · rename_i hbusy
      split
      · exact h
      · rename_i llen hm
        have hd := h.dispatchLine allocFails hm (by simpa using hbusy)
        have hfits := hd.fits
        simp only [dispatchLine_rbuf] at hfits ⊢
        refine ⟨⟨hd.lines_plain, hd.inflight, hd.cap_pos, hd.cap_le, ?_⟩, hd.prefix_eq⟩
        simp only [List.length_drop]
        omega

-- A completion finds the connection busy.
theorem Shape.busy_of_works {c : Conn} (h : Shape c) (hworks : c.works ≠ []) :
    c.works.length = 1 ∧ c.writes.length = 0 ∧ c.busy = true := by
  have hpos := List.length_pos_iff.mpr hworks
  have hi := h.inflight
  cases hb : c.busy with
  | false => simp only [hb, Bool.false_eq_true, ite_false] at hi; omega
  | true => simp only [hb, ite_true] at hi; exact ⟨by omega, by omega, rfl⟩

theorem Shape.busy_of_writes {c : Conn} (h : Shape c) (hwrites : c.writes ≠ []) :
    c.works.length = 0 ∧ c.writes.length = 1 ∧ c.busy = true := by
  have hpos := List.length_pos_iff.mpr hwrites
  have hi := h.inflight
  cases hb : c.busy with
  | false => simp only [hb, Bool.false_eq_true, ite_false] at hi; omega
  | true => simp only [hb, ite_true] at hi; exact ⟨by omega, by omega, rfl⟩

theorem Framed.afterWorkCb {c : Conn} (status : Int) (writeFails : Bool) (w : WorkReq)
    (h : Framed c c.rbuf) (hworks : c.works ≠ []) :
    Framed (afterWorkCb status writeFails w c) (Solidbits.afterWorkCb status writeFails w c).rbuf := by
  obtain ⟨hw, hr, hb⟩ := h.busy_of_works hworks
  unfold Solidbits.afterWorkCb
  simp only
  split
  · rw [maybeClose_rbuf]
    apply Framed.maybeClose
    refine ⟨⟨h.lines_plain, ?_, h.cap_pos, h.cap_le, h.fits⟩, h.prefix_eq⟩
    simp only [List.length_tail, hw, hr, Bool.false_eq_true, ite_false]
  · split
    · refine Shape.startClosing _ ⟨h.lines_plain, ?_, h.cap_pos, h.cap_le, h.fits⟩
      simp only [List.length_tail, hw, hr, Bool.false_eq_true, ite_false]
    · refine ⟨⟨h.lines_plain, ?_, h.cap_pos, h.cap_le, h.fits⟩, h.prefix_eq⟩
      simp only [List.length_tail, List.length_append, List.length_singleton, hw, hr, hb, ite_true]

theorem Framed.onWrite {c : Conn} (status : Int) (allocFails : Bool) (w : WorkReq)
    (h : Framed c c.rbuf) (hwrites : c.writes ≠ []) :
    Framed (onWrite status allocFails w c) (Solidbits.onWrite status allocFails w c).rbuf := by
  obtain ⟨hw, hr, _⟩ := h.busy_of_writes hwrites
  have hidle : c.works.length + c.writes.tail.length = if false = true then 1 else 0 := by
    simp only [List.length_tail, hw, hr, Bool.false_eq_true, ite_false]
  unfold Solidbits.onWrite
  simp only
  split
  · exact Shape.startClosing _ ⟨h.lines_plain, hidle, h.cap_pos, h.cap_le, h.fits⟩
  · exact Framed.tryDispatchNext allocFails
      ⟨⟨h.lines_plain, hidle, h.cap_pos, h.cap_le, h.fits⟩, h.prefix_eq⟩

theorem Framed.next {c : Conn} (event : Event) (h : Framed c c.rbuf) :
    Framed (c.next event) (c.next event).rbuf := by
  cases event with
  | read chunk reallocFails allocFails =>
      simp only [Conn.next]
      split
      · exact h.onReadData reallocFails allocFails chunk
      · exact h
  | readEnd =>
      simp only [Conn.next]
      split
      · exact h.startClosing _
      · exact h
  | afterWork status resp oom writeFails =>
      simp only [Conn.next]
      split
      · exact h
      · rename_i w rest hw
        exact h.afterWorkCb status writeFails _ (by rw [hw]; exact List.cons_ne_nil _ _)
  | onWrite status allocFails =>
      simp only [Conn.next]
      split
      · exact h
      · rename_i w rest hw
        exact h.onWrite status allocFails w (by rw [hw]; exact List.cons_ne_nil _ _)

theorem Framed.init : Framed {} [] := by
  refine ⟨⟨?_, rfl, ?_, ?_, ?_⟩, fun _ => rfl⟩
  · intro line hl
    exact absurd hl List.not_mem_nil
  all_goals decide

end Framing

end Solidbits
