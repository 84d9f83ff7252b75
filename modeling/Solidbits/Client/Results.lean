import Solidbits.Client.Calls
import Solidbits.Jobs.Bounds
import Solidbits.Net.Sessions
import Solidbits.Serial.Bits

namespace Solidbits

section Bitmaps

variable {content : Bytes}

theorem slice_zero (content : Bytes) (o : Nat) : Padded.slice content o 0 = [] := List.take_zero

theorem countBits_eq {fuel remaining o : Nat} (hfuel : remaining ≤ fuel) (hin : o + remaining ≤ content.length)
    (bits : Nat) : countBits content fuel remaining o bits = bits + onesIn (Padded.slice content o remaining) := by
  induction fuel generalizing remaining o bits with
  | zero =>
      rw [Nat.le_zero.mp hfuel, slice_zero]
      rfl
  | succ fuel ih =>
      have hbuffer : 0 < FILE_BUFFER_SIZE := by decide
      unfold countBits
      split
      · rename_i hdone
        rw [hdone, slice_zero]
        rfl
      · rename_i hmore
        have hbrings : Brings content (min remaining FILE_BUFFER_SIZE) o
            (Received.all (Padded.slice content o (min remaining FILE_BUFFER_SIZE))) :=
          fun _ => ⟨rfl, List.prefix_rfl, id⟩
        obtain ⟨hpos, hle, hsplit⟩ := hbrings.split (by omega) (by omega) (Nat.min_le_left _ _)
        rw [all_r] at hpos hle hsplit
        rw [all_buf, List.take_length] at hsplit
        simp only
        rw [if_neg (by omega), ih (by omega) (by omega), redisPopcount_eq, List.take_length, hsplit, Nat.add_assoc]

theorem bitCount_eq (content : Bytes) (start stop : Int) :
    (if content.length = 0 then 0 else bitCount content start stop) = bitsInRange content start stop := by
  split
  · rename_i hempty
    have hle := bitsInRange_le content start stop
    omega
  · rename_i hne
    have hlo := indexFrom_nonneg content.length start
    simp only [bitCount, bitcountRange_eq]
    unfold bitsInRange
    split
    · rfl
    · split
      · rename_i hgt
        rw [bitsBetween_empty (by omega)]
        rfl
      · rename_i hle
        rw [bitsBetween_slice hlo (by omega) (by omega), countBits_eq (Nat.le_refl _) (by omega), Nat.zero_add]

-- A number that is not too long is written in full.
theorem resultText_eq {result : Int} (hnonneg : 0 ≤ result) (hsmall : result < 10 ^ 14) :
    resultText result = printed result ++ [NEWLINE] := by
  obtain ⟨n, rfl⟩ := Int.eq_ofNat_of_zero_le hnonneg
  have htext : str (toString (n : Int) ++ "\n") = printed n ++ [NEWLINE] := by
    rw [str, String.toList_append, List.map_append]
    rfl
  have hdigits : (printed (n : Int)).length ≤ 14 := by
    rw [printed_nat, List.length_map]
    exact (Nat.length_toDigits_le_iff (by decide) (by decide)).mpr (by omega)
  have hfits : (printed (n : Int) ++ [NEWLINE]).length ≤ 15 := by
    rw [List.length_append, List.length_singleton]
    omega
  rw [resultText, if_neg (by omega), numberText]
  simp only [htext, List.take_of_length_le hfits]
  exact List.take_left

theorem bitAt_bit (content : Bytes) (offset : Int) : bitAt content offset = 0 ∨ bitAt content offset = 1 := by
  rw [bitAt, bitOf_eq]
  split
  · exact Or.inr rfl
  · exact Or.inl rfl

end Bitmaps

section Plain

variable {ν : Type} [DecidableEq ν] (name : Bytes → ν)

-- A call against a plain map from names to bitmaps, with its result. The BITOP
-- calls have no part in it.
def ClientCall.plain (m : ν → Option Bytes) : ClientCall → (ν → Option Bytes) × Int
  | .setbit key offset value =>
      let content := (m (name key)).getD []
      (Function.update m (name key) (some (setBit content offset value)), bitAt content offset)
  | .getbit key offset => (m, bitAt ((m (name key)).getD []) offset)
  | .bitcount key start stop =>
      let content := (m (name key)).getD []
      (m, bitsInRange content (start.getD 0) (stop.getD (content.length - 1)))
  | .bitop _ _ _ => (m, 0)
  | .bitcop _ _ => (m, 0)

-- The results of calls one after the other.
def results (m : ν → Option Bytes) : List ClientCall → List Int
  | [] => []
  | first :: calls => (first.plain name m).2 :: results (first.plain name m).1 calls

def ClientCall.isBitop : ClientCall → Bool
  | .bitop _ _ _ => true
  | .bitcop _ _ => true
  | _ => false

-- A call that the server understands as it is meant, other than BITOP.
def ClientCall.Served (call : ClientCall) : Prop := call.Valid ∧ call.Agreed ∧ call.isBitop = false

def ClientCall.keys : ClientCall → List Bytes
  | .setbit key _ _ => [key]
  | .getbit key _ => [key]
  | .bitcount key _ _ => [key]
  | .bitop _ dest srcs => dest :: srcs
  | .bitcop _ srcs => srcs

theorem setBit_within {content : Bytes} (hcontent : content.length ≤ LONGEST_FILE) {offset : Int}
    (hhigh : offset / 8 ≤ FILE_SIZE_LIMIT) (value : Int) : (setBit content offset value).length ≤ LONGEST_FILE := by
  rw [setBit_length]
  split
  · exact hcontent
  · rw [byteOffset, LONGEST_FILE, FILE_SIZE_LIMIT] at *
    omega

-- The bitmaps are short enough for their numbers of bits.
def Bounded (m : ν → Option Bytes) : Prop := ∀ path, ((m path).getD []).length ≤ LONGEST_FILE

theorem Bounded.plain {m : ν → Option Bytes} (h : Bounded m) {call : ClientCall} (hserved : call.Served) :
    Bounded (call.plain name m).1 := by
  obtain ⟨hvalid, _, hbitop⟩ := hserved
  cases call with
  | setbit key offset value =>
      intro path
      by_cases hp : path = name key
      · simp only [hp, ClientCall.plain, Function.update_self, Option.getD_some]
        exact setBit_within (h _) hvalid.2.2.1 value
      · simp only [ClientCall.plain, Function.update_of_ne hp]
        exact h path
  | getbit key offset => exact h
  | bitcount key start stop => exact h
  | bitop op dest srcs => exact Bool.noConfusion hbitop
  | bitcop op srcs => exact Bool.noConfusion hbitop

-- What the line of a call does to the plain map, and the line that answers it.
theorem plain_call {m : ν → Option Bytes} (h : Bounded m) {call : ClientCall} (hserved : call.Served) :
    (request call.line).plain name m =
      ((call.plain name m).1, [printed (call.plain name m).2 ++ [NEWLINE]]) := by
  obtain ⟨hvalid, hagreed, hbitop⟩ := hserved
  have hbit : ∀ content offset, resultText (bitAt content offset) = printed (bitAt content offset) ++ [NEWLINE] := by
    intro content offset
    rcases bitAt_bit content offset with he | he
    · rw [he]
      exact resultText_eq (by decide) (by decide)
    · rw [he]
      exact resultText_eq (by decide) (by decide)
  cases call with
  | setbit key offset value =>
      rw [request_setbit_line hvalid]
      simp only [Request.plain, ClientCall.plain, hbit]
  | getbit key offset =>
      rw [request_getbit_line hvalid]
      simp only [Request.plain, ClientCall.plain, hbit]
  | bitcount key start stop =>
      have hmeans := (calls_understood_iff _ hvalid).2.mpr hagreed
      rw [request_bitcount_line hvalid] at hmeans ⊢
      have hcmd := hmeans ((m (name key)).getD []).length
      have hstart := congrArg BitcountCmd.start hcmd
      have hstop := congrArg BitcountCmd.stop hcmd
      simp only [bitcountCmd] at hstart hstop
      simp only [Request.plain, ClientCall.plain, hstart, hstop, bitCount_eq]
      have hle := bitsInRange_le ((m (name key)).getD []) (start.getD 0)
        (stop.getD (((m (name key)).getD []).length - 1))
      have hshort := h (name key)
      rw [LONGEST_FILE] at hshort
      rw [resultText_eq (by omega) (by omega)]
  | bitop op dest srcs => exact Bool.noConfusion hbitop
  | bitcop op srcs => exact Bool.noConfusion hbitop

-- The replies to the lines of the calls are their results, one line each.
theorem plainReplies_calls {m : ν → Option Bytes} (h : Bounded m) {calls : List ClientCall}
    (hserved : ∀ call ∈ calls, call.Served) : plainReplies name m (calls.map ClientCall.line) =
      (results name m calls).map fun result => printed result ++ [NEWLINE] := by
  induction calls generalizing m with
  | nil => rfl
  | cons first calls ih =>
      have hfirst := hserved first List.mem_cons_self
      have hrest := ih (h.plain name hfirst) fun call hm => hserved call (List.mem_cons_of_mem first hm)
      simp only [List.map_cons, plainReplies, results, plain_call name h hfirst, hrest, List.flatten_singleton]

end Plain

end Solidbits
