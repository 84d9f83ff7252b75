import Solidbits.Parser.Defs
import Mathlib.Data.List.TakeWhile

namespace Solidbits

section Text

def byteOf (c : Char) : UInt8 := c.toNat.toUInt8

theorem byteOf_digit {c : Char} (h : c.isDigit = true) : (byteOf c).toNat = c.toNat ∧ 48 ≤ c.toNat ∧ c.toNat ≤ 57 := by
  have hrange := Char.isDigit_iff_toNat.mp h
  have hzero : '0'.toNat = 48 := rfl
  have hnine : '9'.toNat = 57 := rfl
  refine ⟨?_, by omega, by omega⟩
  rw [byteOf, Nat.toUInt8_eq, UInt8.toNat_ofNat']
  omega

theorem isdigit_digit {c : Char} (h : c.isDigit = true) : isdigit (byteOf c) = true := by
  obtain ⟨hbyte, hlow, hhigh⟩ := byteOf_digit h
  have h48 : (48 : UInt8).toNat = 48 := rfl
  have h57 : (57 : UInt8).toNat = 57 := rfl
  rw [isdigit, decide_eq_true_eq, UInt8.le_iff_toNat_le, UInt8.le_iff_toNat_le]
  omega

-- The bytes that a number is written with, apart from its sign.
def Digits (text : Bytes) : Prop := ∀ byte ∈ text, isdigit byte = true

theorem digit_range {byte : UInt8} (h : isdigit byte = true) : 48 ≤ byte.toNat ∧ byte.toNat ≤ 57 := by
  rw [isdigit, decide_eq_true_eq, UInt8.le_iff_toNat_le, UInt8.le_iff_toNat_le] at h
  exact h

theorem digit_ne {byte other : UInt8} (h : isdigit byte = true) (hother : other.toNat < 48) : byte ≠ other := by
  rintro rfl
  have hrange := digit_range h
  omega

theorem digit_not_space {byte : UInt8} (h : isdigit byte = true) : isspace byte = false := by
  have hrange := digit_range h
  have hspace : byte ≠ SPACE := digit_ne h (by decide)
  have h13 : (13 : UInt8).toNat = 13 := rfl
  rw [isspace, decide_eq_false_iff_not, UInt8.le_iff_toNat_le, UInt8.le_iff_toNat_le]
  rintro (he | hle)
  · exact hspace he
  · omega

theorem digits_map {chars : List Char} (h : ∀ c ∈ chars, c.isDigit = true) : Digits (chars.map byteOf) := by
  intro byte hm
  obtain ⟨c, hc, rfl⟩ := List.mem_map.mp hm
  exact isdigit_digit (h c hc)

theorem decimalValue_map {chars : List Char} (h : ∀ c ∈ chars, c.isDigit = true) :
    decimalValue (chars.map byteOf) = (Nat.ofDigitChars 10 chars 0 : Int) := by
  have hfold : ∀ n : Nat, (chars.map byteOf).foldl (fun m c => 10 * m + ((c - 48).toNat : Int)) (n : Int) =
      (Nat.ofDigitChars 10 chars n : Int) := by
    induction chars with
    | nil => intro n; rfl
    | cons c chars ih =>
        intro n
        obtain ⟨hbyte, hlow, hhigh⟩ := byteOf_digit (h c List.mem_cons_self)
        have hvalue : (byteOf c - 48).toNat = c.toNat - 48 := by
          rw [UInt8.toNat_sub_of_le _ _ (UInt8.le_iff_toNat_le.mpr (by rw [hbyte]; exact hlow)), hbyte]
          rfl
        rw [List.map_cons, List.foldl_cons, Nat.ofDigitChars_cons, hvalue,
          ← ih (fun c hm => h c (List.mem_cons_of_mem _ hm))]
        push_cast
        rfl
  exact hfold 0

end Text

section Numbers

-- A number as the other side writes it.
def printed (n : Int) : Bytes := str (toString n)

theorem printed_nat (n : Nat) : printed (n : Int) = (Nat.toDigits 10 n).map byteOf := by
  rw [← Nat.toList_repr]
  rfl

theorem printed_neg (n : Nat) : printed (Int.negSucc n) = 45 :: (Nat.toDigits 10 (n + 1)).map byteOf := by
  rw [← Nat.toList_repr]
  show str ("-" ++ (n + 1).repr) = _
  rw [str, String.toList_append, List.map_append]
  rfl

theorem toDigits_isDigit (n : Nat) : ∀ c ∈ Nat.toDigits 10 n, c.isDigit = true :=
  fun _ hm => Nat.isDigit_of_mem_toDigits (by decide) (by decide) hm

theorem toDigits_value (n : Nat) : decimalValue ((Nat.toDigits 10 n).map byteOf) = n := by
  rw [decimalValue_map (toDigits_isDigit n), Nat.ofDigitChars_ten_toDigits]

-- A number has no blank in it and is not empty.
theorem printed_plain (n : Int) : printed n ≠ [] ∧ SPACE ∉ printed n ∧ 0 ∉ printed n := by
  have hdigits : ∀ (m : Nat) (byte : UInt8), byte.toNat < 48 → byte ∉ (Nat.toDigits 10 m).map byteOf :=
    fun m byte hbyte hm => digit_ne (digits_map (toDigits_isDigit m) byte hm) hbyte rfl
  cases n with
  | ofNat n =>
      rw [Int.ofNat_eq_natCast, printed_nat]
      exact ⟨by simp, hdigits n SPACE (by decide), hdigits n 0 (by decide)⟩
  | negSucc n =>
      rw [printed_neg]
      refine ⟨List.cons_ne_nil _ _, ?_, ?_⟩
      · exact List.not_mem_cons_of_ne_of_not_mem (by decide) (hdigits _ SPACE (by decide))
      · exact List.not_mem_cons_of_ne_of_not_mem (by decide) (hdigits _ 0 (by decide))

theorem cstr_of_no_zero {arg : Bytes} (h : 0 ∉ arg) : cstr arg = arg := by
  refine List.takeWhile_eq_self_iff.mpr fun byte hm => ?_
  simpa using fun he : byte = 0 => h (he ▸ hm)

theorem takeWhile_digits {text : Bytes} (h : Digits text) : text.takeWhile isdigit = text :=
  List.takeWhile_eq_self_iff.mpr h

-- A number that fits a long is read as it was written.
theorem atol_printed {n : Int} (hmin : LONG_MIN ≤ n) (hmax : n ≤ LONG_MAX) : atol (printed n) = n := by
  have hvalue : atol (printed n) = max LONG_MIN (min LONG_MAX n) := by
    rw [atol, cstr_of_no_zero (printed_plain n).2.2]
    cases n with
    | ofNat n =>
        rw [Int.ofNat_eq_natCast, printed_nat]
        have hdigits := digits_map (toDigits_isDigit n)
        have hread := toDigits_value n
        cases htext : (Nat.toDigits 10 n).map byteOf with
        | nil => exact absurd (List.map_eq_nil_iff.mp htext) Nat.toDigits_ne_nil
        | cons byte rest =>
            rw [htext] at hdigits hread
            have hbyte := hdigits byte List.mem_cons_self
            rw [List.dropWhile_cons_of_neg (by rw [digit_not_space hbyte]; decide)]
            split
            · rename_i heq
              exact absurd (List.cons.inj heq).1 (digit_ne hbyte (by decide))
            · rename_i heq
              exact absurd (List.cons.inj heq).1 (digit_ne hbyte (by decide))
            · rw [takeWhile_digits hdigits, hread]
    | negSucc n =>
        rw [printed_neg, List.dropWhile_cons_of_neg (by decide)]
        simp only
        rw [takeWhile_digits (digits_map (toDigits_isDigit _)), toDigits_value]
        rfl
  omega

end Numbers

end Solidbits
