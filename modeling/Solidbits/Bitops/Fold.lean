import Solidbits.Bitops.Defs
import Mathlib.Tactic.IntervalCases

namespace Solidbits

section Words

variable {n m : Nat}

theorem extract_append_low (a : BitVec n) (b : BitVec 8) : (a ++ b).extractLsb' 0 8 = b := by
  ext i hi
  simp [BitVec.getLsbD_append, hi]

theorem extract_append_high (a : BitVec n) (b : BitVec 8) (h : 8 ≤ m) :
    (a ++ b).extractLsb' m 8 = a.extractLsb' (m - 8) 8 := by
  ext i hi
  have hge : ¬m + i < 8 := by omega
  have harith : m + i - 8 = m - 8 + i := by omega
  simp [BitVec.getLsbD_append, hge, harith]

-- The bytes of a word are the bytes of the buffer.
theorem loadWord_byte (p : Buf) (i k : Nat) (hk : k < 8) :
    (loadWord p i).extractLsb' (8 * k) 8 = (p (i + k)).toBitVec := by
  unfold loadWord
  interval_cases k <;>
    simp (disch := omega) only [extract_append_high, extract_append_low, Nat.reduceMul, Nat.reduceSub,
      Nat.add_zero, BitVec.extractLsb'_eq_self]

theorem opWord_byte (option : OpOption) (x y : BitVec 64) (start : Nat) (h : start + 8 ≤ 64) :
    UInt8.ofBitVec ((opWord option x y).extractLsb' start 8) =
      opByte option (UInt8.ofBitVec (x.extractLsb' start 8)) (UInt8.ofBitVec (y.extractLsb' start 8)) := by
  cases option with
  | AND => simp only [opWord, opByte, BitVec.extractLsb'_and]; rfl
  | OR => simp only [opWord, opByte, BitVec.extractLsb'_or]; rfl
  | XOR => simp only [opWord, opByte, BitVec.extractLsb'_xor]; rfl
  | NOT =>
      simp only [opWord, opByte]
      apply UInt8.toBitVec_inj.mp
      ext i hi
      simp [show start + i < 64 by omega]

-- Storing the combination of two words combines their bytes.
theorem storeWord_opWord (option : OpOption) (p0 p : Buf) (i j : Nat) :
    storeWord p0 i (opWord option (loadWord p0 i) (loadWord p i)) j =
      if i ≤ j ∧ j < i + 8 then opByte option (p0 j) (p j) else p0 j := by
  unfold storeWord
  split
  · rename_i hj
    have hk : j - i < 8 := by omega
    have hij : i + (j - i) = j := by omega
    rw [opWord_byte option _ _ _ (by omega), loadWord_byte p0 i _ hk, loadWord_byte p i _ hk, hij]
  · rfl

theorem opWords_byte (option : OpOption) (idx : Nat) (p0 p : Buf) (j : Nat) :
    opWords option idx p0 p j =
      if idx ≤ j ∧ j < idx + 32 then opByte option (p0 j) (p j) else p0 j := by
  simp only [opWords, List.foldl_cons, List.foldl_nil, storeWord_opWord, Nat.add_zero]
  split_ifs <;> first | rfl | omega

-- The sources combined at one position.
def opBytes (option : OpOption) (bufs : List Buf) (j : Nat) : UInt8 :=
  match bufs with
  | [] => 0
  | p0 :: ps =>
      if option = .NOT then ~~~(p0 j) else ps.foldl (fun x p => opByte option x (p j)) (p0 j)

theorem opBytes_congr (option : OpOption) {p0 p0' : Buf} (ps : List Buf) {j : Nat} (h : p0 j = p0' j) :
    opBytes option (p0 :: ps) j = opBytes option (p0' :: ps) j := by
  simp only [opBytes, h]

theorem foldl_opWords (option : OpOption) (idx : Nat) (p0 : Buf) (ps : List Buf) (j : Nat) :
    ps.foldl (opWords option idx) p0 j =
      if idx ≤ j ∧ j < idx + 32 then ps.foldl (fun x p => opByte option x (p j)) (p0 j) else p0 j := by
  induction ps generalizing p0 with
  | nil => simp
  | cons p ps ih =>
      rw [List.foldl_cons, ih, opWords_byte]
      split <;> simp [*]

theorem wordStep_byte (option : OpOption) (idx : Nat) (p0 : Buf) (ps : List Buf) (j : Nat) :
    wordStep option idx p0 ps j =
      if idx ≤ j ∧ j < idx + 32 then opBytes option (p0 :: ps) j else p0 j := by
  unfold wordStep opBytes
  split
  · rename_i hnot
    rw [opWords_byte, hnot]
    rfl
  · exact foldl_opWords option idx p0 ps j

-- Each block of the loop is combined once, from the bytes the buffers had.
theorem wordLoop_byte (option : OpOption) (times idx : Nat) (p0 : Buf) (ps : List Buf) (j : Nat) :
    wordLoop option times idx p0 ps j =
      if idx ≤ j ∧ j < idx + 32 * times then opBytes option (p0 :: ps) j else p0 j := by
  induction times generalizing idx p0 with
  | zero => simp [wordLoop, show ¬(idx ≤ j ∧ j < idx) by omega]
  | succ times ih =>
      have hother : j < idx ∨ idx + 32 ≤ j → wordStep option idx p0 ps j = p0 j := by
        intro hj
        rw [wordStep_byte, if_neg (by omega)]
      rw [wordLoop, ih]
      by_cases hj : idx ≤ j ∧ j < idx + 32
      · rw [if_neg (by omega), if_pos (by omega), wordStep_byte, if_pos hj]
      · have hsame := hother (by omega)
        rw [opBytes_congr option ps hsame, hsame]
        by_cases hlater : idx + 32 ≤ j ∧ j < idx + 32 + 32 * times
        · rw [if_pos hlater, if_pos (by omega)]
        · rw [if_neg hlater, if_neg (by omega)]

theorem foldl_update (option : OpOption) (idx : Nat) (p0 : Buf) (ps : List Buf) (j : Nat) :
    ps.foldl (fun p0 p => Function.update p0 idx (opByte option (p0 idx) (p idx))) p0 j =
      if j = idx then ps.foldl (fun x p => opByte option x (p j)) (p0 j) else p0 j := by
  induction ps generalizing p0 with
  | nil => simp
  | cons p ps ih =>
      rw [List.foldl_cons, ih]
      by_cases hj : j = idx
      · subst hj
        simp
      · simp [hj]

theorem byteStep_byte (option : OpOption) (idx : Nat) (p0 : Buf) (ps : List Buf) (j : Nat) :
    byteStep option idx p0 ps j = if j = idx then opBytes option (p0 :: ps) j else p0 j := by
  unfold byteStep opBytes
  split
  · by_cases hj : j = idx
    · subst hj
      simp
    · simp [hj]
  · exact foldl_update option idx p0 ps j

theorem byteLoop_byte (option : OpOption) (size idx : Nat) (p0 : Buf) (ps : List Buf) (j : Nat) :
    byteLoop option size idx p0 ps j =
      if idx ≤ j ∧ j < idx + size then opBytes option (p0 :: ps) j else p0 j := by
  induction size generalizing idx p0 with
  | zero => simp [byteLoop, show ¬(idx ≤ j ∧ j < idx) by omega]
  | succ size ih =>
      rw [byteLoop, ih]
      by_cases hj : j = idx
      · rw [if_neg (by omega), if_pos (by omega), byteStep_byte, if_pos hj]
      · have hsame : byteStep option idx p0 ps j = p0 j := by rw [byteStep_byte, if_neg hj]
        rw [opBytes_congr option ps hsame, hsame]
        by_cases hlater : idx + 1 ≤ j ∧ j < idx + 1 + size
        · rw [if_pos hlater, if_pos (by omega)]
        · rw [if_neg hlater, if_neg (by omega)]

-- A chunk holds the combination of the sources at every position, whichever
-- loop computed it.
theorem opChunk_eq (option : OpOption) (p0 : Buf) (ps : List Buf) (size : Nat) :
    opChunk option (p0 :: ps) size = (List.range size).map (opBytes option (p0 :: ps)) := by
  apply List.map_congr_left
  intro j hj
  have hsize := List.mem_range.mp hj
  rw [byteLoop_byte]
  by_cases hword : j < 32 * (size / 32)
  · rw [if_neg (by omega), wordLoop_byte, if_pos (by omega)]
  · have hsame : wordLoop option (size / 32) 0 p0 ps j = p0 j := by
      rw [wordLoop_byte, if_neg (by omega)]
    rw [if_pos (by omega), opBytes_congr option ps hsame]

end Words

end Solidbits
