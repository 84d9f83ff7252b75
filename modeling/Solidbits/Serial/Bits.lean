import Solidbits.Bitops.Bitcount
import Solidbits.Serial.Commands

namespace Solidbits

section Bytes

-- Where the bit of an offset stands in its byte.
def bitIndex (offset : Int) : Nat := 7 - (offset % 8).toNat

theorem bitIndex_lt (offset : Int) : bitIndex offset < 8 := by
  unfold bitIndex
  omega

theorem bitIndex_eq_iff {offset other : Int} : bitIndex other = bitIndex offset ↔ other % 8 = offset % 8 := by
  unfold bitIndex
  omega

theorem bitMask_bit (offset : Int) {i : Nat} (hi : i < 8) :
    (bitMask offset).toBitVec.getLsbD i = decide (i = bitIndex offset) := by
  have hall : ∀ k < 8, ∀ i < 8,
      ((1 : UInt8) <<< (7 - k.toUInt8)).toBitVec.getLsbD i = decide (i = 7 - k) := by decide +kernel
  exact hall _ (by omega) i hi

theorem bitOf_eq (byteval : UInt8) (offset : Int) :
    bitOf byteval offset = if byteval.toBitVec.getLsbD (bitIndex offset) then 1 else 0 := by
  have hmasked : byteval &&& bitMask offset = 0 ↔ byteval.toBitVec.getLsbD (bitIndex offset) = false := by
    rw [← UInt8.toBitVec_inj, UInt8.toBitVec_and]
    constructor
    · intro h
      have hbit := congrArg (BitVec.getLsbD · (bitIndex offset)) h
      simpa [bitMask_bit offset (bitIndex_lt offset), -BitVec.getLsbD_eq_getElem] using hbit
    · intro h
      apply BitVec.eq_of_getLsbD_eq
      intro i hi
      rw [BitVec.getLsbD_and, bitMask_bit offset hi]
      by_cases he : i = bitIndex offset
      · subst he
        simp [h, -BitVec.getLsbD_eq_getElem]
      · simp [he, -BitVec.getLsbD_eq_getElem]
  unfold bitOf
  cases hbit : byteval.toBitVec.getLsbD (bitIndex offset) with
  | true => simp [hmasked, hbit]
  | false => simp [hmasked, hbit]

theorem bitOf_mod {offset other : Int} (h : other % 8 = offset % 8) (byteval : UInt8) :
    bitOf byteval other = bitOf byteval offset := by
  rw [bitOf_eq, bitOf_eq, bitIndex_eq_iff.mpr h]

-- Setting a bit of a byte changes no other one.
theorem bitOf_withBit (byteval : UInt8) (offset other : Int) {value : Int} (hvalue : value = 0 ∨ value = 1) :
    bitOf (withBit byteval offset value) other =
      if other % 8 = offset % 8 then value else bitOf byteval other := by
  have hlt := bitIndex_lt other
  have hmask := bitMask_bit offset hlt
  simp only [bitIndex_eq_iff] at hmask
  rw [bitOf_eq, bitOf_eq, withBit]
  rcases hvalue with rfl | rfl
  · by_cases hsame : other % 8 = offset % 8
    · simp [hmask, hsame]
    · simp [hmask, hsame, hlt, -BitVec.getLsbD_eq_getElem]
  · by_cases hsame : other % 8 = offset % 8
    · simp [hmask, hsame]
    · simp [hmask, hsame, hlt, -BitVec.getLsbD_eq_getElem]

end Bytes

section Bitmaps

variable {content : Bytes} {offset other value : Int}

-- Setting a bit of a bitmap changes no other one.
theorem bitAt_setBit (ho : 0 ≤ offset) (hother : 0 ≤ other) (hvalue : value = 0 ∨ value = 1) :
    bitAt (setBit content offset value) other = if other = offset then value else bitAt content other := by
  unfold setBit
  split
  · rename_i hpast
    by_cases hsame : other = offset
    · rw [if_pos hsame, hsame, bitAt_past hpast.1, hpast.2]
    · rw [if_neg hsame]
  · rw [bitAt, Padded.get_overwrite, List.length_singleton]
    by_cases hbyte : byteOffset other = byteOffset offset
    · have hzero : ∀ byte : UInt8, Padded.get [byte] (byteOffset offset - byteOffset offset) = byte := by
        intro byte
        rw [Nat.sub_self]
        rfl
      have hiff : other % 8 = offset % 8 ↔ other = offset := by
        unfold byteOffset at hbyte
        omega
      rw [if_pos (by omega), hbyte, hzero, bitOf_withBit _ _ _ hvalue]
      simp only [hiff, bitAt, hbyte]
    · have hne : other ≠ offset := fun h => hbyte (congrArg byteOffset h)
      rw [if_neg (by omega), if_neg hne]
      rfl

theorem setBit_length (content : Bytes) (offset value : Int) :
    (setBit content offset value).length =
      if value = 0 then content.length else max content.length (byteOffset offset + 1) := by
  unfold setBit
  by_cases hzero : value = 0
  · rw [if_pos hzero]
    split
    · rfl
    · rename_i hinside
      rw [Padded.overwrite_length _ _ _ (List.cons_ne_nil _ _), List.length_singleton]
      omega
  · rw [if_neg hzero, if_neg fun h => hzero h.2, Padded.overwrite_length _ _ _ (List.cons_ne_nil _ _),
      List.length_singleton]

theorem bitAt_byte (content : Bytes) (n : Nat) {k : Nat} (hk : k < 8) :
    bitAt content (8 * n + k : Nat) = bitOf (Padded.get content n) k := by
  have hoffset : byteOffset (8 * n + k : Nat) = n := by
    unfold byteOffset
    omega
  rw [bitAt, hoffset]
  exact bitOf_mod (by omega) _

-- The set bits of a bitmap are the offsets at which it has a one.
theorem onesIn_eq_card (content : Bytes) :
    onesIn content = ((Finset.range (8 * content.length)).filter fun o : Nat => bitAt content o = 1).card := by
  have hall : ∀ n, ∑ j ∈ Finset.range n, ones (Padded.get content j) =
      ((Finset.range (8 * n)).filter fun o : Nat => bitAt content o = 1).card := by
    intro n
    rw [Finset.card_filter]
    induction n with
    | zero => rfl
    | succ n ih =>
        rw [Finset.sum_range_succ, ih, Nat.mul_succ, Finset.sum_range_add, ones, Finset.card_filter]
        congr 1
        apply Finset.sum_congr rfl
        intro k hk
        rw [bitAt_byte content n (Finset.mem_range.mp hk)]
  have htake := onesIn_take content content.length
  rw [List.take_length] at htake
  rw [htake, hall]

-- A held descriptor with the length of its file can be counted.
theorem desk_readable {g : Desk} {dt : Slot} (hpin : 0 < g.pins dt) (htight : g.Tight dt) :
    Readable deskContract g (g.content dt) dt := by
  refine ⟨⟨hpin, ?_⟩, fun size offset => ⟨hpin, ?_⟩, ⟨trivial, ?_⟩⟩
  · rintro answer after ⟨rfl, rfl⟩
    exact ⟨htight, rfl⟩
  · rintro answer after ⟨hslice, rfl⟩
    refine ⟨fun ho => ?_, rfl⟩
    rw [hslice ho]
    exact ⟨rfl, List.prefix_refl _, id⟩
  · exact fun answer after ha => ha

end Bitmaps

end Solidbits
