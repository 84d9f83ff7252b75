import Solidbits.Serial.Desk
import Solidbits.Serial.Plain

namespace Solidbits

open Prog

section Rules

variable {g : Desk} {dt : Slot} {α : Type} {post : Desk → α → Prop}

-- One rule for each action of a request.
theorem wp_prepareFile {key : Bytes} {mode : Nat} {f : Except OpenError Slot → Cmd α} (hmode : mode ≤ 2)
    (h : ∀ answer after, Handed g (xxh64 key 0) mode answer after →
      (f answer).wp deskContract post after) :
    (Cmd.prepareFile key mode >>= f).wp deskContract post g :=
  (wp_ask deskContract post (Act.prepareFile key mode) f g).mpr ⟨hmode, h⟩

theorem wp_releaseDesc {f : Unit → Cmd α} (hp : 0 < g.pins dt)
    (h : (f ()).wp deskContract post (g.unpin dt)) :
    (Cmd.releaseDesc dt >>= f).wp deskContract post g := by
  refine (wp_ask deskContract post (Act.releaseDesc dt) f g).mpr ⟨hp, ?_⟩
  rintro _ _ rfl
  exact h

theorem wp_descLength {f : Nat → Cmd α} (hp : 0 < g.pins dt)
    (h : (f (g.length dt)).wp deskContract post g) :
    (Cmd.descLength dt >>= f).wp deskContract post g := by
  refine (wp_ask deskContract post (Act.descLength dt) f g).mpr ⟨hp, ?_⟩
  rintro _ _ ⟨rfl, rfl⟩
  exact h

theorem wp_readFrom {size offset : Nat} {f : Received → Cmd α} (hp : 0 < g.pins dt)
    (h : (f (Received.all (Padded.slice (g.content dt) offset size))).wp deskContract post g) :
    (Cmd.readFrom dt size offset >>= f).wp deskContract post g := by
  refine (wp_ask deskContract post (Act.readFrom dt size offset) f g).mpr ⟨hp, ?_⟩
  rintro answer _ ⟨ha, rfl⟩
  rwa [ha (by omega), Int.toNat_natCast]

theorem wp_writeTo {buf : Bytes} {offset : Nat} {f : Nat → Cmd α} (hp : 0 < g.pins dt)
    (h : (f buf.length).wp deskContract post (g.write dt offset buf)) :
    (Cmd.writeTo dt buf offset >>= f).wp deskContract post g := by
  refine (wp_ask deskContract post (Act.writeTo dt buf offset) f g).mpr ⟨hp, ?_⟩
  intro answer after ha
  have hnonneg : ¬((offset : Nat) : Int) < 0 := by omega
  simp only [deskContract, deskAnswers, hnonneg, ite_false, Int.toNat_natCast] at ha
  obtain ⟨rfl, rfl⟩ := ha
  exact h

theorem wp_posixMemalign {f : Bool → Cmd α} (h : (f true).wp deskContract post g) :
    (Cmd.posixMemalign >>= f).wp deskContract post g := by
  refine (wp_ask deskContract post Act.posixMemalign f g).mpr ⟨trivial, ?_⟩
  rintro _ _ ⟨rfl, rfl⟩
  exact h

theorem wp_reply {text : Bytes} {len : Nat} {f : Bool → Cmd α}
    (h : (f true).wp deskContract post (g.reply (text.take len))) :
    (Cmd.reply text len >>= f).wp deskContract post g := by
  refine (wp_ask deskContract post (Act.reply text len) f g).mpr ⟨trivial, ?_⟩
  rintro _ _ ⟨rfl, rfl⟩
  exact h

end Rules

section Specs

variable {g : Desk} {dt : Slot}

-- The recorded length of a held descriptor is the length of what it shows.
def Desk.Tight (g : Desk) (dt : Slot) : Prop := g.length dt = (g.content dt).length

theorem slice_one {content : Bytes} {offset : Nat} (h : offset < content.length) :
    Padded.slice content offset 1 = [Padded.get content offset] := by
  rw [Padded.slice, List.drop_eq_getElem_cons h, Padded.get_of_lt h]
  rfl

theorem bitOf_zero (offset : Int) : bitOf 0 offset = 0 := by
  simp [bitOf]

theorem bitAt_past {content : Bytes} {offset : Int} (h : content.length ≤ byteOffset offset) :
    bitAt content offset = 0 := by
  rw [bitAt, Padded.get_of_le h, bitOf_zero]

theorem bitAt_nil (offset : Int) : bitAt [] offset = 0 := bitAt_past (Nat.zero_le _)

-- The state a SETBIT leaves.
def Desk.setBit (g : Desk) (dt : Slot) (cmd : SetbitCmd) : Desk :=
  if (g.content dt).length ≤ byteOffset cmd.offset ∧ cmd.value = 0 then g
  else g.write dt (byteOffset cmd.offset)
    [withBit (Padded.get (g.content dt) (byteOffset cmd.offset)) cmd.offset cmd.value]

theorem wp_setbitWrite (hp : 0 < g.pins dt) (cmd : SetbitCmd) (byteval : UInt8)
    {post : Desk → Int → Prop}
    (hpost : post (g.write dt (byteOffset cmd.offset) [withBit byteval cmd.offset cmd.value])
      (bitOf byteval cmd.offset)) :
    (setbitWrite cmd dt byteval).wp deskContract post g :=
  wp_writeTo hp hpost

theorem wp_setbitCommand (hp : 0 < g.pins dt) (hl : g.Tight dt) (cmd : SetbitCmd)
    {post : Desk → Int → Prop} (hpost : post (g.setBit dt cmd) (bitAt (g.content dt) cmd.offset)) :
    (setbitCommand cmd dt).wp deskContract post g := by
  apply wp_descLength hp
  rw [hl]
  split
  · rename_i hlt
    apply wp_readFrom hp
    rw [slice_one hlt]
    apply wp_setbitWrite hp
    have hstored : ¬((g.content dt).length ≤ byteOffset cmd.offset ∧ cmd.value = 0) := by omega
    rwa [Desk.setBit, if_neg hstored] at hpost
  · rename_i hge
    have hpast := Nat.not_lt.mp hge
    rw [bitAt_past hpast] at hpost
    split
    · rename_i hzero
      rwa [Desk.setBit, if_pos ⟨hpast, hzero⟩] at hpost
    · rename_i hone
      apply wp_setbitWrite hp
      rw [bitOf_zero]
      rwa [Desk.setBit, if_neg (fun h => hone h.2), Padded.get_of_le hpast] at hpost

theorem wp_getbitCommand (hp : 0 < g.pins dt) (hl : g.Tight dt) (cmd : GetbitCmd)
    {post : Desk → Int → Prop} (hpost : post g (bitAt (g.content dt) cmd.offset)) :
    (getbitCommand cmd dt).wp deskContract post g := by
  apply wp_descLength hp
  rw [hl]
  split
  · rename_i hlt
    apply wp_readFrom hp
    rw [slice_one hlt]
    exact hpost
  · rename_i hge
    rwa [bitAt_past (Nat.not_lt.mp hge)] at hpost

theorem wp_bitcountLoop (hp : 0 < g.pins dt) {post : Desk → Int → Prop} (fuel remaining o bits : Nat)
    (hpost : post g (countBits (g.content dt) fuel remaining o bits)) :
    (bitcountLoop dt fuel remaining o bits).wp deskContract post g := by
  induction fuel generalizing remaining o bits with
  | zero => exact hpost
  | succ fuel ih =>
      simp only [bitcountLoop, countBits] at hpost ⊢
      split
      · rename_i hdone
        rwa [if_pos hdone] at hpost
      · rename_i hmore
        rw [if_neg hmore] at hpost
        apply wp_readFrom hp
        split
        · rename_i hend
          rw [all_r] at hend
          rwa [if_pos hend] at hpost
        · rename_i hread
          rw [all_r] at hread
          rw [if_neg hread] at hpost
          exact ih _ _ _ hpost

theorem wp_bitcountCommand (hp : 0 < g.pins dt) (hl : g.Tight dt) (cmd : BitcountCmd)
    {post : Desk → Int → Prop} (hpost : post g (bitCount (g.content dt) cmd.start cmd.stop)) :
    (bitcountCommand cmd dt).wp deskContract post g := by
  apply wp_descLength hp
  rw [hl]
  simp only [bitCount] at hpost
  split
  · rename_i hrange
    rwa [if_pos hrange] at hpost
  · rename_i hrange
    rw [if_neg hrange] at hpost
    have hsame : bitcountRange cmd (g.content dt).length =
        bitcountRange { start := cmd.start, stop := cmd.stop } (g.content dt).length := rfl
    rw [hsame]
    generalize bitcountRange { start := cmd.start, stop := cmd.stop } (g.content dt).length = range at hpost ⊢
    obtain ⟨start, stop⟩ := range
    simp only at hpost ⊢
    split
    · rename_i hempty
      rwa [if_pos hempty] at hpost
    · rename_i hempty
      rw [if_neg hempty] at hpost
      apply wp_posixMemalign
      exact wp_bitcountLoop hp _ _ _ _ hpost

theorem wp_replyStr (text : String) (len : Nat) {post : Desk → Unit → Prop}
    (hpost : post (g.reply ((str text).take len)) ()) :
    (replyStr text len).wp deskContract post g :=
  wp_reply hpost

theorem wp_replyResult (result : Int) {post : Desk → Unit → Prop}
    (hpost : post (g.reply (resultText result)) ()) :
    (replyResult result).wp deskContract post g := by
  unfold replyResult
  unfold resultText at hpost
  split
  · rename_i hneg
    rw [if_pos hneg] at hpost
    exact wp_replyStr _ _ hpost
  · rename_i hpos
    rw [if_neg hpos] at hpost
    exact wp_reply hpost

end Specs

end Solidbits
