import Solidbits.Serial.Count
import Solidbits.Serial.Transparency

namespace Solidbits

open Prog Transition

section Calls

-- A call of setbitCommand or getbitCommand on a descriptor.
inductive BitCall where
  | setbit (cmd : SetbitCmd)
  | getbit (cmd : GetbitCmd)

def BitCall.offset : BitCall → Int
  | .setbit cmd => cmd.offset
  | .getbit cmd => cmd.offset

def BitCall.command (dt : Slot) : BitCall → Cmd Int
  | .setbit cmd => setbitCommand cmd dt
  | .getbit cmd => getbitCommand cmd dt

-- What the parser lets pass.
def BitCall.Admitted : BitCall → Prop
  | .setbit cmd =>
      0 ≤ cmd.offset / 8 ∧ cmd.offset / 8 ≤ FILE_SIZE_LIMIT ∧ (cmd.value = 0 ∨ cmd.value = 1)
  | .getbit cmd => 0 ≤ cmd.offset / 8 ∧ cmd.offset / 8 ≤ FILE_SIZE_LIMIT

-- The store and the replies while one call follows the other.
structure CallRun where
  store : Store
  replies : List Int := []

def CallRun.call (dt : Slot) (s : CallRun) (call : BitCall) : CallRun :=
  let (reply, store) := (call.command dt).alone s.store
  { store := store, replies := s.replies ++ [reply] }

-- What the calls are for: every offset has the value it was last set to.
def BitCall.sets (bits : Int → Int) : BitCall → Int → Int
  | .setbit cmd => Function.update bits cmd.offset cmd.value
  | .getbit _ => bits

def lastSet (calls : List BitCall) : Int → Int := calls.foldl BitCall.sets fun _ => 0

-- The offsets that were ever set to one.
def BitCall.one : BitCall → Option Int
  | .setbit cmd => if cmd.value = 0 then none else some cmd.offset
  | .getbit _ => none

def setToOne (calls : List BitCall) : List Int := calls.filterMap BitCall.one

-- The replies when the offsets have some values at first.
def repliesFrom (bits : Int → Int) : List BitCall → List Int
  | [] => []
  | call :: calls => bits call.offset :: repliesFrom (call.sets bits) calls

variable {calls : List BitCall} {offset : Int}

theorem lastSet_mentioned (h : lastSet calls offset ≠ 0) : offset ∈ calls.map BitCall.offset := by
  have hall : ∀ (calls : List BitCall) (bits : Int → Int),
      calls.foldl BitCall.sets bits offset ≠ bits offset → offset ∈ calls.map BitCall.offset := by
    intro calls
    induction calls with
    | nil => exact fun bits hne => absurd rfl hne
    | cons call calls ih =>
        intro bits hne
        rw [List.map_cons, List.mem_cons]
        by_cases hsame : offset = call.offset
        · exact Or.inl hsame
        · have hkept : call.sets bits offset = bits offset := by
            cases call with
            | setbit cmd => exact Function.update_of_ne hsame _ _
            | getbit cmd => rfl
          rw [List.foldl_cons, ← hkept] at hne
          exact Or.inr (ih (call.sets bits) hne)
  exact hall calls _ h

end Calls

section OneKey

variable {st : Store} {m m' : Contents} {held : Slot → Prop} {dt : Slot} {bits : Int → Int}
  {calls : List BitCall} {length : Nat} {path : UInt64}

-- The length a call leaves: that of the longest prefix that ends in a one.
def BitCall.grows (length : Nat) : BitCall → Nat
  | .setbit cmd => if cmd.value = 0 then length else max length (byteOffset cmd.offset + 1)
  | .getbit _ => length

-- The file behind a descriptor holds the bits and is recorded with its length,
-- and no other file has changed.
structure ShowsBits (m : Contents) (held : Slot → Prop) (dt : Slot) (path : UInt64) (bits : Int → Int)
    (length : Nat) (st : Store) (m' : Contents) : Prop where
  opened : st.Opened m' held
  name : st.hashOf dt = path
  others : ∀ other, other ≠ path → m' other = m other
  bits : ∀ offset, 0 ≤ offset → bitAt ((m' path).getD []) offset = bits offset
  recorded : (st.descs dt).length = length
  length : ((m' path).getD []).length = length

theorem ShowsBits.tight (h : ShowsBits m held dt path bits length st m') (hheld : held dt) :
    (st.desk m' held).Tight dt := by
  rw [Desk.Tight, h.opened.desk_length hheld, h.recorded, ← h.length, ← h.name]
  rfl

theorem setBit_hash (g : Desk) (dt : Slot) (cmd : SetbitCmd) : (g.setBit dt cmd).hash = g.hash := by
  unfold Desk.setBit
  split <;> rfl

theorem setBit_content (g : Desk) (dt : Slot) (cmd : SetbitCmd) :
    (g.setBit dt cmd).content dt = setBit (g.content dt) cmd.offset cmd.value := by
  unfold Desk.setBit setBit
  split
  · rfl
  · simp only [Desk.write, Desk.content, Function.update_self, Option.getD_some]

theorem setBit_others (g : Desk) (dt : Slot) (cmd : SetbitCmd) {path : UInt64} (hpath : path ≠ g.hash dt) :
    (g.setBit dt cmd).files path = g.files path := by
  unfold Desk.setBit
  split
  · rfl
  · simp only [Desk.write, Function.update_of_ne hpath]

theorem setBit_tight {g : Desk} (htight : g.Tight dt) (cmd : SetbitCmd) : (g.setBit dt cmd).Tight dt := by
  unfold Desk.setBit
  split
  · exact htight
  · simp only [Desk.Tight, Desk.write, Desk.length, Desk.content, Function.update_self, Option.getD_some,
      Padded.overwrite_length _ _ _ (List.cons_ne_nil _ _)]
    rw [← Desk.length, htight]
    rfl

-- What a call leaves on the desk is in the store.
theorem ShowsBits.of_backs (h : ShowsBits m held dt path bits length st m') (hheld : held dt) {after : Desk}
    {st' : Store} (hbacks : Backs after st') (hpins : after.pins = (st.desk m' held).pins)
    (hhash : after.hash = st.hashOf) (htight : after.Tight dt)
    (hothers : ∀ other, other ≠ path → after.files other = m' other) {bits' : Int → Int} {length' : Nat}
    (hbits : ∀ offset, 0 ≤ offset → bitAt (after.content dt) offset = bits' offset)
    (hlength : (after.content dt).length = length') :
    ShowsBits m held dt path bits' length' st' after.files := by
  have hheldpins : ∀ slot, held slot → 0 < after.pins slot := by
    intro slot hs
    rw [hpins]
    exact Store.Opened.pinned hs
  have hname : after.hash dt = path := by rw [hhash, h.name]
  have hcontent : (after.files path).getD [] = after.content dt := by rw [Desk.content, hname]
  refine ⟨hbacks.opened.mono hheldpins, ?_, ?_, ?_, ?_, ?_⟩
  · rw [hbacks.hash dt (hheldpins dt hheld), hname]
  · intro other hother
    rw [hothers other hother, h.others other hother]
  · rwa [hcontent]
  · rw [hbacks.length dt (hheldpins dt hheld), htight, hlength]
  · rw [hcontent, hlength]

-- One call replies the value that was last set and sets its own.
theorem ShowsBits.call (h : ShowsBits m held dt path bits length st m') (hheld : held dt) {call : BitCall}
    (hadmitted : call.Admitted) :
    ((call.command dt).alone st).1 = bits call.offset ∧
    ∃ m'', ShowsBits m held dt path (call.sets bits) (call.grows length) ((call.command dt).alone st).2 m'' := by
  have hpin := @Store.Opened.pinned st m' held dt hheld
  have htight := h.tight hheld
  have hname : (st.desk m' held).hash dt = path := h.name
  have hcontent : (st.desk m' held).content dt = (m' path).getD [] := by rw [Desk.content, hname]; rfl
  cases call with
  | getbit cmd =>
      obtain ⟨hlow, _⟩ := hadmitted
      have hoffset : 0 ≤ cmd.offset := by omega
      have hwp : (getbitCommand cmd dt).wp deskContract (fun after reply =>
          reply = bitAt ((st.desk m' held).content dt) cmd.offset ∧ after = st.desk m' held)
          (st.desk m' held) := wp_getbitCommand hpin htight cmd ⟨rfl, rfl⟩
      obtain ⟨after, ⟨hreply, rfl⟩, hbacks⟩ := h.opened.backs.alone hwp
        (@getbitCommand_accesses (fun _ => True) dt trivial cmd)
      rw [hcontent] at hreply
      refine ⟨hreply.trans (h.bits _ hoffset), _, h.of_backs hheld hbacks rfl rfl htight (fun _ _ => rfl) ?_ ?_⟩
      · rw [hcontent]
        exact h.bits
      · rw [hcontent]
        exact h.length
  | setbit cmd =>
      obtain ⟨hlow, _, hvalue⟩ := hadmitted
      have hoffset : 0 ≤ cmd.offset := by omega
      have hwp : (setbitCommand cmd dt).wp deskContract (fun after reply =>
          reply = bitAt ((st.desk m' held).content dt) cmd.offset ∧ after = (st.desk m' held).setBit dt cmd)
          (st.desk m' held) := wp_setbitCommand hpin htight cmd ⟨rfl, rfl⟩
      obtain ⟨after, ⟨hreply, rfl⟩, hbacks⟩ := h.opened.backs.alone hwp
        (@setbitCommand_accesses (fun _ => True) dt trivial cmd)
      rw [hcontent] at hreply
      refine ⟨hreply.trans (h.bits _ hoffset), _, h.of_backs hheld hbacks (setBit_pins _ _ _)
        (setBit_hash _ _ _) (setBit_tight htight cmd) ?_ ?_ ?_⟩
      · intro other hother
        rw [← hname] at hother
        exact setBit_others _ _ _ hother
      · intro offset ho
        rw [setBit_content, bitAt_setBit hoffset ho hvalue, BitCall.sets, Function.update_apply, hcontent,
          h.bits offset ho]
      · rw [setBit_content, setBit_length, hcontent, h.length]
        rfl

-- A run of calls replies and stores what was last set.
theorem ShowsBits.run (h : ShowsBits m held dt path bits length st m') (hheld : held dt) (replies : List Int)
    (hadmitted : ∀ call ∈ calls, call.Admitted) :
    let s := Transition.run (CallRun.call dt) { store := st, replies := replies } calls
    s.replies = replies ++ repliesFrom bits calls ∧
    ∃ m'', ShowsBits m held dt path (calls.foldl BitCall.sets bits) (calls.foldl BitCall.grows length) s.store m'' := by
  induction calls generalizing st m' bits length replies with
  | nil => exact ⟨(List.append_nil _).symm, m', h⟩
  | cons call calls ih =>
      obtain ⟨hreply, m'', hnext⟩ := h.call hheld (hadmitted call List.mem_cons_self)
      obtain ⟨hreplies, hlast⟩ := ih hnext (replies ++ [((call.command dt).alone st).1])
        fun other hother => hadmitted other (List.mem_cons_of_mem call hother)
      refine ⟨?_, hlast⟩
      rw [repliesFrom, ← hreply]
      exact hreplies.trans (List.append_assoc _ _ _)

-- The length that the offsets set to one ask for.
theorem grows_eq (calls : List BitCall) (length : Nat) : calls.foldl BitCall.grows length =
    ((setToOne calls).map fun offset => byteOffset offset + 1).foldl max length := by
  induction calls generalizing length with
  | nil => rfl
  | cons call calls ih =>
      rw [List.foldl_cons, ih]
      simp only [setToOne, List.filterMap_cons]
      cases call with
      | getbit cmd => rfl
      | setbit cmd =>
          simp only [BitCall.grows, BitCall.one]
          split <;> rfl

theorem ShowsBits.count (h : ShowsBits m held dt path bits length st m') (hheld : held dt) :
    ((bitcountCommand { start := 0, stop := ((m' path).getD []).length - 1 } dt).alone st).1 =
      onesIn ((m' path).getD []) := by
  have hname : (st.desk m' held).hash dt = path := h.name
  have hcontent : (st.desk m' held).content dt = (m' path).getD [] := by rw [Desk.content, hname]; rfl
  have hcount := h.opened.backs.count (@Store.Opened.pinned st m' held dt hheld) (h.tight hheld)
  rwa [hcontent] at hcount

theorem BitCall.Admitted.nonneg {call : BitCall} (h : call.Admitted) : 0 ≤ call.offset := by
  cases call with
  | setbit cmd =>
      have hlow := h.1
      show 0 ≤ cmd.offset
      omega
  | getbit cmd =>
      have hlow := h.1
      show 0 ≤ cmd.offset
      omega

-- The ones of a file are the offsets that were last set to one.
theorem card_lastSet {content : Bytes} (hadmitted : ∀ call ∈ calls, call.Admitted)
    (hbits : ∀ offset, 0 ≤ offset → bitAt content offset = lastSet calls offset) :
    onesIn content = ((calls.map BitCall.offset).toFinset.filter fun offset => lastSet calls offset = 1).card := by
  have himage : (calls.map BitCall.offset).toFinset.filter (fun offset => lastSet calls offset = 1) =
      ((Finset.range (8 * content.length)).filter fun o : Nat => bitAt content o = 1).image (Nat.cast : Nat → Int) := by
    ext offset
    simp only [Finset.mem_filter, List.mem_toFinset, Finset.mem_image, Finset.mem_range]
    constructor
    · rintro ⟨hmentioned, hone⟩
      obtain ⟨call, hcall, rfl⟩ := List.mem_map.mp hmentioned
      have hnonneg := (hadmitted call hcall).nonneg
      rw [← hbits _ hnonneg] at hone
      refine ⟨call.offset.toNat, ⟨?_, ?_⟩, Int.toNat_of_nonneg hnonneg⟩
      · by_contra hpast
        have hzero : bitAt content call.offset = 0 := by
          apply bitAt_past
          unfold byteOffset
          omega
        omega
      · rwa [Int.toNat_of_nonneg hnonneg]
    · rintro ⟨o, ⟨_, hone⟩, rfl⟩
      rw [hbits _ (Int.natCast_nonneg o)] at hone
      exact ⟨lastSet_mentioned (by omega), hone⟩
  rw [himage, Finset.card_image_of_injective _ Nat.cast_injective, onesIn_eq_card]

-- One key, from an empty file on: every call replies the value last set at its
-- offset, the file holds these values and is as long as its last one asks for,
-- and BITCOUNT finds as many ones.
theorem calls_keep_bits (hopened : st.Opened m held) (hheld : held dt) (hempty : m (st.hashOf dt) = some [])
    (hlength : (st.descs dt).length = 0) (hadmitted : ∀ call ∈ calls, call.Admitted) :
    let s := Transition.run (CallRun.call dt) { store := st } calls
    s.replies = repliesFrom (fun _ => 0) calls ∧
    ∃ m', s.store.Opened m' held ∧ (∀ other, other ≠ st.hashOf dt → m' other = m other) ∧
      let content := (m' (st.hashOf dt)).getD []
      (∀ offset, 0 ≤ offset → bitAt content offset = lastSet calls offset) ∧
      (s.store.descs dt).length = content.length ∧
      (setToOne calls = [] → content.length = 0) ∧
      (∀ last ∈ setToOne calls, (∀ offset ∈ setToOne calls, offset ≤ last) →
        content.length = 1 + byteOffset last) ∧
      ((bitcountCommand { start := 0, stop := content.length - 1 } dt).alone s.store).1 =
        ((calls.map BitCall.offset).toFinset.filter fun offset => lastSet calls offset = 1).card := by
  intro s
  have hstart : ShowsBits m held dt (st.hashOf dt) (fun _ => 0) 0 st m := by
    refine ⟨hopened, rfl, fun _ _ => rfl, ?_, hlength, ?_⟩
    · intro offset _
      rw [hempty]
      exact bitAt_nil offset
    · rw [hempty]
      rfl
  obtain ⟨hreplies, m', hshows⟩ := hstart.run hheld [] hadmitted
  have hlongest := hshows.length
  rw [grows_eq] at hlongest
  refine ⟨hreplies, m', hshows.opened, hshows.others, hshows.bits, hshows.recorded.trans hshows.length.symm,
    ?_, ?_, ?_⟩
  · intro hnone
    rw [hlongest, hnone]
    rfl
  · intro last hlast hmax
    rw [hlongest]
    apply Nat.le_antisymm
    · apply longestOf_le_iff.mpr
      intro length hlength
      obtain ⟨offset, hoffset, rfl⟩ := List.mem_map.mp hlength
      have hle := hmax offset hoffset
      unfold byteOffset
      omega
    · rw [Nat.add_comm]
      exact le_longestOf (List.mem_map.mpr ⟨last, hlast, rfl⟩)
  · rw [← card_lastSet hadmitted hshows.bits]
    exact hshows.count hheld

-- Two bits set and one of them cleared again, on an empty file.
theorem calls_keep_bits_four :
    let disk : Contents := fun hash => if hash = xxh64 (str "k") 0 then some [] else none
    let st := (run (Server.serve id) (Server.start disk) [str "GETBIT k 0"]).store
    let calls : List BitCall := [.setbit { offset := 5, value := 1 }, .setbit { offset := 9, value := 1 },
      .setbit { offset := 5, value := 0 }, .getbit { offset := 9 }]
    (run (CallRun.call 0) { store := st } calls).replies = [0, 0, 1, 1] := by
  intro disk st calls
  have hlive : st.live 0 := by decide +kernel
  have hopen : st.Opened st.bitmap st.live := @run_opened id disk _ (by decide +kernel)
  have hadmitted : ∀ call ∈ calls, call.Admitted := by
    intro call hcall
    simp only [calls, List.mem_cons, List.not_mem_nil, or_false] at hcall
    rcases hcall with rfl | rfl | rfl | rfl
    · exact ⟨by decide, by decide, Or.inr rfl⟩
    · exact ⟨by decide, by decide, Or.inr rfl⟩
    · exact ⟨by decide, by decide, Or.inl rfl⟩
    · exact ⟨by decide, by decide⟩
  have hreplies := (@calls_keep_bits st st.bitmap st.live 0 calls hopen hlive (by decide +kernel)
    (by decide +kernel) hadmitted).1
  exact hreplies.trans (by decide +kernel)

end OneKey

end Solidbits
