import Solidbits.Lib.Tokens
import Solidbits.Parser.Request

namespace Solidbits

open Prog Tokens

section Split

-- The count at the end of the line.
def counted : Nat × Nat × Nat → Nat
  | (i, l, c) => if l < i then c + 1 else c

-- The offset l is the place behind the last space, so l < i says that a token is
-- being read; it is counted at its end.
theorem getArgCountLoop_eq (rest : Bytes) {prev : Option UInt8} {i l : Nat} (c : Nat) (hle : l ≤ i)
    (hin : l < i ↔ prev.any (· ≠ SPACE) = true) :
    counted (getArgCountLoop rest prev i l c) =
      c + if l < i then 1 + (tokens SPACE (rest.dropWhile (· ≠ SPACE))).length
        else (tokens SPACE rest).length := by
  induction rest generalizing prev i l c with
  | nil =>
      have hend : counted (getArgCountLoop [] prev i l c) = if l < i then c + 1 else c := rfl
      rw [hend, List.dropWhile_nil, tokens_nil, List.length_nil]
      by_cases hlt : l < i
      · rw [if_pos hlt, if_pos hlt]
      · rw [if_neg hlt, if_neg hlt]
        rfl
  | cons char rest ih =>
      unfold getArgCountLoop
      by_cases hchar : char = SPACE
      · subst hchar
        have hnext := @ih (some SPACE) (i + 1) (i + 1) (if prev.any (· ≠ SPACE) then c + 1 else c)
          (Nat.le_refl _) (by simp)
        rw [if_pos rfl, hnext, if_neg (Nat.lt_irrefl _), List.dropWhile_cons_of_neg (by simp), tokens_sep]
        by_cases hlt : l < i
        · rw [if_pos hlt, if_pos (hin.mp hlt), Nat.add_assoc]
        · rw [if_neg hlt, if_neg (fun h => hlt (hin.mpr h))]
      · have hnext := @ih (some char) (i + 1) l c (by omega) (by simp [hchar]; omega)
        rw [if_neg hchar, hnext, if_pos (by omega), List.dropWhile_cons_of_pos (by simpa using hchar)]
        by_cases hlt : l < i
        · rw [if_pos hlt]
        · rw [if_neg hlt, tokens_cons hchar, List.length_cons, Nat.add_comm 1]

theorem getArgCount_eq (line : Bytes) : getArgCount line = (tokens SPACE line).length := by
  have hloop := @getArgCountLoop_eq line none 0 0 0 (Nat.le_refl 0) (by simp)
  rw [if_neg (Nat.lt_irrefl 0), Nat.zero_add] at hloop
  exact hloop

-- As many arguments as there are tokens left.
theorem splitArgs_eq {count : Nat} {rest : Bytes} (h : count = (tokens SPACE rest).length) :
    splitArgs count rest = tokens SPACE rest := by
  induction count generalizing rest with
  | zero => exact (List.eq_nil_of_length_eq_zero h.symm).symm
  | succ count ih =>
      rw [← @tokens_dropWhile _ _ SPACE rest] at h ⊢
      have hhead := List.head?_dropWhile_not (· = SPACE) rest
      simp only [splitArgs]
      cases hrest : rest.dropWhile (· = SPACE) with
      | nil => simp [hrest] at h
      | cons x rest =>
          rw [hrest] at h hhead
          have hx : x ≠ SPACE := by simpa using hhead
          rw [tokens_cons hx, List.length_cons] at h
          rw [tokens_cons hx, List.takeWhile_cons_of_pos (by simpa using hx),
            List.dropWhile_cons_of_pos (by simpa using hx), ih (Nat.succ.inj h)]

-- The line is split at its spaces; the command name is left out.
theorem splitFill_eq (line : Bytes) : splitFill line (getArgCount line) = (tokens SPACE line).drop 1 := by
  rw [splitFill, getArgCount_eq, splitArgs_eq, tokens_tail]
  rw [tokens_tail, List.length_drop]

end Split

end Solidbits
