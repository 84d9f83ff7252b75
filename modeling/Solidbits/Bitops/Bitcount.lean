import Solidbits.Bitops.Popcount
import Solidbits.Bitops.Rounds
import Mathlib.Algebra.Order.BigOperators.Group.Finset

namespace Solidbits

open Prog

section Range

variable {content : Bytes} {lo hi : Int}

-- The set bits of the bytes from one position to another, both included.
def bitsBetween (content : Bytes) (lo hi : Int) : Nat :=
  ∑ i ∈ (Finset.range content.length).filter (fun i : Nat => lo ≤ i ∧ (i : Int) ≤ hi),
    ones (Padded.get content i)

-- A negative index counts from the end.
def indexFrom (length : Nat) (x : Int) : Int := if x < 0 then max 0 (length + x) else x

def bitsInRange (content : Bytes) (start stop : Int) : Nat :=
  if start < 0 ∧ stop < 0 ∧ start > stop then 0
  else bitsBetween content (indexFrom content.length start)
    (min (indexFrom content.length stop) (content.length - 1))

theorem onesIn_slice (content : Bytes) (o count : Nat) :
    onesIn (Padded.slice content o count) = ∑ j ∈ Finset.range count, ones (Padded.get content (o + j)) := by
  rw [Padded.slice, onesIn_take]
  apply Finset.sum_congr rfl
  intro j _
  rw [Padded.get, Padded.get, List.getD_eq_getElem?_getD, List.getD_eq_getElem?_getD, List.getElem?_drop]

theorem bitsBetween_slice (hlo : 0 ≤ lo) (hle : lo ≤ hi) (hhi : hi < content.length) :
    bitsBetween content lo hi = onesIn (Padded.slice content lo.toNat (hi - lo + 1).toNat) := by
  have hset : (Finset.range content.length).filter (fun i : Nat => lo ≤ i ∧ (i : Int) ≤ hi) =
      Finset.Ico lo.toNat (lo.toNat + (hi - lo + 1).toNat) := by
    ext i
    simp only [Finset.mem_filter, Finset.mem_range, Finset.mem_Ico]
    omega
  rw [bitsBetween, hset, onesIn_slice, Finset.sum_Ico_eq_sum_range, Nat.add_sub_cancel_left]

theorem bitsBetween_empty (h : hi < lo) : bitsBetween content lo hi = 0 := by
  have hset : (Finset.range content.length).filter (fun i : Nat => lo ≤ i ∧ (i : Int) ≤ hi) = ∅ := by
    apply Finset.filter_eq_empty_iff.mpr
    intro i _ hi
    omega
  rw [bitsBetween, hset, Finset.sum_empty]

theorem bitsInRange_full (content : Bytes) : bitsInRange content 0 (content.length - 1) = onesIn content := by
  have hset : (Finset.range content.length).filter (fun i : Nat => indexFrom content.length 0 ≤ i ∧
      (i : Int) ≤ min (indexFrom content.length (content.length - 1)) (content.length - 1)) =
      Finset.range content.length := by
    apply Finset.filter_true_of_mem
    intro i hi
    have hlt := Finset.mem_range.mp hi
    unfold indexFrom
    omega
  have htake := onesIn_take content content.length
  rw [List.take_length] at htake
  rw [bitsInRange, if_neg (by omega), bitsBetween, hset, htake]

theorem bitsInRange_le (content : Bytes) (start stop : Int) :
    bitsInRange content start stop ≤ 8 * content.length := by
  unfold bitsInRange
  split
  · exact Nat.zero_le _
  · refine Nat.le_trans (Finset.sum_le_card_nsmul _ _ 8 fun i _ => ones_le _) ?_
    rw [nsmul_eq_mul, Nat.cast_id, Nat.mul_comm]
    exact Nat.mul_le_mul_left 8 (Nat.le_trans (Finset.card_filter_le _ _) (Finset.card_range _).le)

-- The clamps leave the two positions of the range.
theorem bitcountRange_eq (cmd : BitcountCmd) (length : Nat) :
    bitcountRange cmd length =
      (indexFrom length cmd.start, min (indexFrom length cmd.stop) (length - 1)) := by
  simp only [bitcountRange, indexFrom]
  congr 1
  omega

theorem indexFrom_nonneg (length : Nat) (x : Int) : 0 ≤ indexFrom length x := by
  unfold indexFrom
  split <;> omega

end Range

section Count

variable {γ : Type} {contract : Contract Act Res γ} {ghost : γ} {content : Bytes} {dt : Slot}

-- A read brings the front of what it is asked for, or less of it, but something
-- unless it is at the end.
def Brings (content : Bytes) (size : Nat) (offset : Int) (answer : Received) : Prop :=
  0 ≤ offset → answer.r = answer.buf.length ∧ answer.buf <+: Padded.slice content offset.toNat size ∧
    (Padded.slice content offset.toNat size ≠ [] → answer.buf ≠ [])

-- A descriptor whose file can be counted; counting changes nothing.
structure Readable (contract : Contract Act Res γ) (ghost : γ) (content : Bytes) (dt : Slot) : Prop where
  measured : Measured contract ghost (fun _ => content.length) dt
  read : ∀ size offset, contract.allowed ghost (.readFrom dt size offset) ∧ ∀ answer after,
    contract.answers ghost (.readFrom dt size offset) answer after →
      Brings content size offset answer ∧ after = ghost
  alloc : contract.allowed ghost .posixMemalign ∧ ∀ answer after,
    contract.answers ghost .posixMemalign answer after → answer = true ∧ after = ghost

-- A read in the middle of a range leaves the rest of it to be counted.
theorem Brings.split {size o : Nat} {answer : Received} (h : Brings content size o answer) (hpos : 0 < size)
    (hin : o + size ≤ content.length) {remaining : Nat} (hsize : size ≤ remaining) :
    0 < answer.r ∧ answer.r ≤ remaining ∧ onesIn (Padded.slice content o remaining) =
      onesIn (answer.buf.take answer.r) + onesIn (Padded.slice content (o + answer.r) (remaining - answer.r)) := by
  obtain ⟨hcount, hfirst, hne⟩ := h (by omega)
  rw [hcount, List.take_length]
  generalize answer.buf = answer at hfirst hne
  rw [Int.toNat_natCast] at hfirst hne
  have hlength : (Padded.slice content o size).length = size := by
    rw [Padded.slice, List.length_take, List.length_drop]
    omega
  have hle := hfirst.length_le
  have hanswer : answer = (content.drop o).take answer.length := by
    have htake := List.prefix_iff_eq_take.mp hfirst
    rwa [Padded.slice, List.take_take, Nat.min_eq_left (by omega)] at htake
  have hsplit : Padded.slice content o remaining =
      answer ++ Padded.slice content (o + answer.length) (remaining - answer.length) := by
    have hadd : remaining = answer.length + (remaining - answer.length) := by omega
    conv_lhs => rw [hadd]
    rw [Padded.slice, List.take_add, ← hanswer, List.drop_drop]
    rfl
  refine ⟨List.length_pos_iff.mpr (hne (List.ne_nil_of_length_pos (by omega))), by omega, ?_⟩
  rw [hsplit, onesIn_append]

theorem wp_bitcountLoop_counts (h : Readable contract ghost content dt) {fuel remaining o : Nat}
    (hfuel : remaining ≤ fuel) (hin : o + remaining ≤ content.length) (bits : Nat) {post : γ → Int → Prop}
    (hpost : post ghost (bits + onesIn (Padded.slice content o remaining) : Nat)) :
    (bitcountLoop dt fuel remaining o bits).wp contract post ghost := by
  have hnone : onesIn (Padded.slice content o 0) = 0 := by
    rw [Padded.slice, List.take_zero]
    rfl
  induction fuel generalizing remaining o bits with
  | zero =>
      rw [Nat.le_zero.mp hfuel, hnone] at hpost
      exact hpost
  | succ fuel ih =>
      unfold bitcountLoop
      split
      · rename_i hdone
        rw [hdone, hnone] at hpost
        exact hpost
      · rename_i hmore
        have hbuffer : 0 < FILE_BUFFER_SIZE := by decide
        refine (wp_ask contract _ (Act.readFrom dt _ o) _ ghost).mpr ⟨(h.read _ _).1, ?_⟩
        intro s after ha
        obtain ⟨hbrings, rfl⟩ := (h.read _ _).2 s after ha
        obtain ⟨hpos, hle, hsplit⟩ := hbrings.split (by omega) (by omega) (Nat.min_le_left _ _)
        rw [if_neg (by omega)]
        apply ih (by omega) (by omega)
        · rw [redisPopcount_eq, Nat.add_assoc, ← hsplit]
          exact hpost
        · rw [Padded.slice, List.take_zero]
          rfl

-- BITCOUNT counts the set bits of its range, however the reads are cut.
theorem wp_bitcountCommand_counts (h : Readable contract ghost content dt) (cmd : BitcountCmd)
    {post : γ → Int → Prop} (hpost : post ghost (bitsInRange content cmd.start cmd.stop)) :
    (bitcountCommand cmd dt).wp contract post ghost := by
  have hlo := indexFrom_nonneg content.length cmd.start
  apply h.measured.wp
  simp only [bitcountRange_eq]
  unfold bitsInRange at hpost
  split
  · rename_i hboth
    rwa [if_pos hboth] at hpost
  · rename_i hrange
    rw [if_neg hrange] at hpost
    split
    · rename_i hgt
      rwa [bitsBetween_empty (by omega)] at hpost
    · rename_i hle
      rw [bitsBetween_slice hlo (by omega) (by omega)] at hpost
      refine (wp_ask contract _ Act.posixMemalign _ ghost).mpr ⟨h.alloc.1, ?_⟩
      intro ok after ha
      obtain ⟨rfl, rfl⟩ := h.alloc.2 ok after ha
      simp only [Bool.not_true, Bool.false_eq_true, ite_false]
      apply wp_bitcountLoop_counts h (Nat.le_refl _) (by omega)
      rwa [Nat.zero_add]

end Count

section Machine

variable {content : Bytes} {dt : Slot}

-- The values of a long, and a long as a size_t.
def InLong (x : Int) : Prop := -2 ^ 63 ≤ x ∧ x < 2 ^ 63

def toSize (x : Int) : Nat := (x % 2 ^ 64).toNat

-- The expressions of bitcountCommand over long and size_t are those over the
-- integers: no signed one overflows, strlen - 1 does not wrap, and comparing
-- the end with strlen as a size_t makes no difference.
structure RangeFits (cmd : BitcountCmd) (strlen : Nat) : Prop where
  start : cmd.start < 0 → InLong (strlen + cmd.start)
  stop : cmd.stop < 0 → InLong (strlen + cmd.stop)
  compare : strlen ≤ toSize (indexFrom strlen cmd.stop) ↔ (strlen : Int) ≤ indexFrom strlen cmd.stop
  last : 1 ≤ strlen ∧ InLong (strlen - 1)
  count : ∀ lo hi, bitcountRange cmd strlen = (lo, hi) → lo ≤ hi → InLong (hi - lo) ∧ InLong (hi - lo + 1)

theorem rangeFits {cmd : BitcountCmd} {strlen : Nat} (hpos : 0 < strlen) (hstrlen : strlen < 2 ^ 63)
    (hstart : InLong cmd.start) (hstop : InLong cmd.stop) : RangeFits cmd strlen := by
  unfold InLong at hstart hstop
  refine ⟨?_, ?_, ?_, ?_, ?_⟩
  · intro hneg
    unfold InLong
    omega
  · intro hneg
    unfold InLong
    omega
  · unfold toSize indexFrom
    split <;> omega
  · unfold InLong
    omega
  · intro lo hi heq hle
    have hlo := indexFrom_nonneg strlen cmd.start
    obtain ⟨rfl, rfl⟩ := Prod.mk.inj (heq.symm.trans (bitcountRange_eq cmd strlen))
    unfold InLong
    omega

-- More rounds than bytes change nothing: the loop always ends by itself.
theorem bitcountLoop_ends (dt : Slot) {fuel remaining : Nat} (h : remaining ≤ fuel) (o bits : Nat) :
    bitcountLoop dt fuel remaining o bits = bitcountLoop dt remaining remaining o bits := by
  induction remaining using Nat.strong_induction_on generalizing fuel o bits with
  | h remaining ih =>
      cases remaining with
      | zero => cases fuel <;> rfl
      | succ remaining =>
          obtain ⟨fuel, rfl⟩ := Nat.exists_eq_succ_of_ne_zero (show fuel ≠ 0 by omega)
          simp only [bitcountLoop]
          congr 2
          funext s
          split
          · rfl
          · rename_i hread
            have hfuel := ih (remaining + 1 - s.r) (by omega) (show _ ≤ fuel by omega)
            have hown := ih (remaining + 1 - s.r) (by omega) (show _ ≤ remaining by omega)
            rw [hfuel, hown]

-- A file whose reads are cut short in any way that leaves a byte.
def cutReads (content : Bytes) (short : Nat → Nat) : (action : Act) → Nat → Res action × Nat
  | .descLength _, tick => (content.length, tick)
  | .readFrom _ size offset, tick =>
      (Received.all ((Padded.slice content offset.toNat size).take (1 + short tick)), tick + 1)
  | .posixMemalign, tick => (true, tick)
  | .prepareFile _ _, tick => (.error .failed, tick)
  | .releaseDesc _, tick => ((), tick)
  | .writeTo _ _ _, tick => (0, tick)
  | .reply _ _, tick => (true, tick)

-- What such a file promises.
def cutContract (content : Bytes) : Contract Act Res Unit where
  allowed := fun _ action => Accesses (fun _ => True) action
  answers := fun _ action answer _ => match action with
    | .descLength _ => answer = content.length
    | .readFrom _ size offset => Brings content size offset answer
    | .posixMemalign => answer = true
    | _ => True

theorem cut_readable (content : Bytes) (dt : Slot) : Readable (cutContract content) () content dt := by
  refine ⟨⟨trivial, ?_⟩, fun size offset => ⟨trivial, ?_⟩, ⟨trivial, ?_⟩⟩
  · exact fun _ _ ha => ⟨ha, rfl⟩
  · exact fun _ _ ha => ⟨ha, rfl⟩
  · exact fun _ _ ha => ⟨ha, rfl⟩

theorem cutReads_answers (content : Bytes) (short : Nat → Nat) (action : Act) (tick : Nat) :
    (cutContract content).answers () action (cutReads content short action tick).1 () := by
  cases action with
  | readFrom dt size offset =>
      intro _
      refine ⟨rfl, List.take_prefix _ _, ?_⟩
      intro hne hempty
      rcases List.take_eq_nil_iff.mp hempty with hzero | hnil
      · omega
      · exact hne hnil
  | descLength dt => rfl
  | posixMemalign => rfl
  | prepareFile key mode => trivial
  | releaseDesc dt => trivial
  | writeTo dt buf offset => trivial
  | reply text len => trivial

-- BITCOUNT of a file of any length that is in use, whatever the range and
-- however the reads are cut: the set bits of the range, computed without
-- overflow, by a loop that ends.
theorem bitcountCommand_counts (cmd : BitcountCmd) (dt : Slot) (short : Nat → Nat) (hcontent : content ≠ [])
    (hlimit : content.length < 2 ^ 60) (hstart : InLong cmd.start) (hstop : InLong cmd.stop) :
    ((bitcountCommand cmd dt).exec (cutReads content short) 0).1 = bitsInRange content cmd.start cmd.stop ∧
    InLong (bitsInRange content cmd.start cmd.stop) ∧
    RangeFits cmd content.length ∧
    ∀ fuel count o bits, count ≤ fuel →
      bitcountLoop dt fuel count o bits = bitcountLoop dt count count o bits := by
  have hpos : 0 < content.length := List.length_pos_iff.mpr hcontent
  have hwp : (bitcountCommand cmd dt).wp (cutContract content)
      (fun _ (result : Int) => result = bitsInRange content cmd.start cmd.stop) () :=
    wp_bitcountCommand_counts (cut_readable content dt) cmd rfl
  obtain ⟨_, hresult, _⟩ := @wp_exec _ _ _ _ _ _ (cutReads content short) (fun _ _ => True) (fun _ _ => True)
    (fun _ tick action _ _ _ => ⟨(), cutReads_answers content short action tick, trivial⟩)
    _ _ _ 0 hwp trivial ((Only.of_true _).along (fun _ _ _ => trivial) 0)
  have hbits := bitsInRange_le content cmd.start cmd.stop
  refine ⟨hresult, ?_, rangeFits hpos (by omega) hstart hstop, ?_⟩
  · unfold InLong
    omega
  · exact fun fuel count o bits hcount => bitcountLoop_ends dt hcount o bits

-- The last two bytes of three, one byte a read.
theorem bitcountCommand_counts_cut :
    ((bitcountCommand { start := -2, stop := 2 ^ 63 - 1 } 0).exec (cutReads [255, 1, 3] fun _ => 0) 0).1 = 3 := by
  have hstart : InLong (-2) := ⟨by decide, by decide⟩
  have hstop : InLong (2 ^ 63 - 1) := ⟨by decide, by decide⟩
  exact (@bitcountCommand_counts [255, 1, 3] { start := -2, stop := 2 ^ 63 - 1 } 0 (fun _ => 0)
    (List.cons_ne_nil _ _) (by decide) hstart hstop).1

end Machine

end Solidbits
