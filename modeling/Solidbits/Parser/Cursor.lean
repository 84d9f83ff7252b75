import Solidbits.Parser.Decimal
import Solidbits.Parser.Tokens

-- The two scanners with their offsets into the line. A read behind the end of
-- the buffer has no value.
namespace Solidbits.Cursor

open Tokens

section Defs

-- One round of the for loop of get_arg_count, on the offset l after the last
-- space and the count c.
def countStep (str : Bytes) (state : Nat × Nat) (i : Nat) : Option (Nat × Nat) := do
  let (l, c) := state
  if (← str[i]?) = SPACE then
    if 0 < i then
      if (← str[i - 1]?) ≠ SPACE then return (i + 1, c + 1)
    return (i + 1, c)
  return (l, c)

def getArgCount (str : Bytes) (len : Nat) : Option Nat := do
  let (l, c) ← (List.range len).foldlM (countStep str) (0, 0)
  return if l < len then c + 1 else c

-- while (pos < len && p(str[pos])) pos++, with the bytes left before len.
def skipWhile (str : Bytes) (p : UInt8 → Bool) : Nat → Nat → Option Nat
  | 0, pos => some pos
  | left + 1, pos => do
      if p (← str[pos]?) then skipWhile str p left (pos + 1) else some pos

-- memcpy(tmp[i], str + start, pos - start)
def memcpy (str : Bytes) (start pos : Nat) : Option Bytes :=
  if pos ≤ str.length then some ((str.drop start).take (pos - start)) else none

def splitArgs (str : Bytes) (len : Nat) : Nat → Nat → Option (List Bytes)
  | 0, _ => some []
  | count + 1, pos => do
      let start ← skipWhile str (· = SPACE) (len - pos) pos
      let pos ← skipWhile str (· ≠ SPACE) (len - start) start
      let arg ← memcpy str start pos
      let args ← splitArgs str len count pos
      return arg :: args

def splitFill (str : Bytes) (len : Nat) (count : Nat) : Option (List Bytes) := do
  let pos ← skipWhile str (· = SPACE) len 0
  let pos ← skipWhile str (· ≠ SPACE) (len - pos) pos
  splitArgs str len (count - 1) pos

end Defs

section Refinement

variable {before rest line : Bytes} {p : UInt8 → Bool}

theorem skipWhile_eq (before rest : Bytes) (p : UInt8 → Bool) :
    skipWhile (before ++ rest) p rest.length before.length = some (before.length + (rest.takeWhile p).length) := by
  induction rest generalizing before with
  | nil => rfl
  | cons char rest ih =>
      have hread : (before ++ char :: rest)[before.length]? = some char := by simp
      simp only [List.length_cons, skipWhile, hread, Option.bind_eq_bind, Option.bind_some]
      by_cases hp : p char = true
      · have hnext := ih (before ++ [char])
        rw [List.append_assoc, List.singleton_append, List.length_append, List.length_singleton] at hnext
        rw [if_pos hp, hnext, List.takeWhile_cons_of_pos hp, List.length_cons]
        congr 1
        omega
      · rw [if_neg hp, List.takeWhile_cons_of_neg hp]
        rfl

-- A skip moves the cursor over the front of the rest.
theorem skip_front (before rest : Bytes) (p : UInt8 → Bool) : ∃ front,
    skipWhile (before ++ rest) p ((before ++ rest).length - before.length) before.length =
      some (before ++ front).length ∧
    front = rest.takeWhile p ∧ before ++ rest = (before ++ front) ++ rest.dropWhile p := by
  refine ⟨rest.takeWhile p, ?_, rfl, ?_⟩
  · rw [List.length_append, Nat.add_sub_cancel_left, skipWhile_eq, List.length_append]
  · rw [List.append_assoc, List.takeWhile_append_dropWhile]

theorem splitArgs_eq (count : Nat) (before rest : Bytes) :
    splitArgs (before ++ rest) (before ++ rest).length count before.length = some (Solidbits.splitArgs count rest) := by
  induction count generalizing before rest with
  | zero => rfl
  | succ count ih =>
      obtain ⟨spaces, hskip, hspaces, hline⟩ := skip_front before rest (· = SPACE)
      obtain ⟨arg, hread, harg, hrest⟩ := skip_front (before ++ spaces) (rest.dropWhile (· = SPACE)) (· ≠ SPACE)
      have hcopy : memcpy (before ++ rest) (before ++ spaces).length (before ++ spaces ++ arg).length = some arg := by
        rw [hline, hrest, memcpy, if_pos (by simp), List.append_assoc _ arg, List.drop_left, List.length_append,
          Nat.add_sub_cancel_left, List.take_left]
      have hnext := ih (before ++ spaces ++ arg) ((rest.dropWhile (· = SPACE)).dropWhile (· ≠ SPACE))
      rw [← hrest, ← hline] at hnext
      rw [← hline] at hread
      simp only [splitArgs, Solidbits.splitArgs, hskip, hread, hcopy, hnext, ← harg, Option.bind_eq_bind,
        Option.bind_some, Option.pure_def]

theorem splitFill_refines (line : Bytes) (count : Nat) :
    splitFill line line.length count = some (Solidbits.splitFill line count) := by
  obtain ⟨spaces, hskip, _, hline⟩ := skip_front [] line (· = SPACE)
  obtain ⟨name, hread, _, hrest⟩ := skip_front ([] ++ spaces) (line.dropWhile (· = SPACE)) (· ≠ SPACE)
  have hargs := splitArgs_eq (count - 1) ([] ++ spaces ++ name) ((line.dropWhile (· = SPACE)).dropWhile (· ≠ SPACE))
  rw [← hrest, ← hline] at hargs
  rw [← hline] at hread
  rw [List.nil_append] at hskip hread hargs
  simp only [splitFill, Solidbits.splitFill, ← hargs]
  rw [List.length_nil, Nat.sub_zero] at hskip
  simp only [hskip, hread, Option.bind_eq_bind, Option.bind_some]

-- The loop on the rest of the line, from the offset behind what was read.
theorem countLoop_eq (before rest : Bytes) (l c : Nat) :
    (List.range' before.length rest.length).foldlM (countStep (before ++ rest)) (l, c) =
      some (getArgCountLoop rest before.getLast? before.length l c).2 := by
  induction rest generalizing before l c with
  | nil => rfl
  | cons char rest ih =>
      have hread : (before ++ char :: rest)[before.length]? = some char := by simp
      have hstep : countStep (before ++ char :: rest) (l, c) before.length =
          some (if char = SPACE then (before.length + 1, if before.getLast?.any (· ≠ SPACE) then c + 1 else c)
            else (l, c)) := by
        simp only [countStep, hread, Option.bind_eq_bind, Option.bind_some]
        by_cases hchar : char = SPACE
        · rw [if_pos hchar, if_pos hchar]
          rcases List.eq_nil_or_concat before with rfl | ⟨front, prev, rfl⟩
          · rfl
          · have hprev : (front.concat prev ++ char :: rest)[(front.concat prev).length - 1]? = some prev := by
              simp
            have hpos : 0 < (front.concat prev).length := by simp
            rw [if_pos hpos, hprev, List.concat_eq_append, List.getLast?_concat]
            by_cases hspace : prev = SPACE <;> simp [hspace]
        · rw [if_neg hchar, if_neg hchar]
          rfl
      have hnext := ih (before ++ [char])
      simp only [List.append_assoc, List.singleton_append, List.length_append, List.length_singleton,
        List.getLast?_concat] at hnext
      rw [List.length_cons, List.range'_succ, List.foldlM_cons, hstep, getArgCountLoop]
      by_cases hchar : char = SPACE
      · rw [if_pos hchar, if_pos hchar]
        exact hnext _ _
      · rw [if_neg hchar, if_neg hchar]
        exact hnext _ _

theorem countLoop_offset (rest : Bytes) (prev : Option UInt8) (i l c : Nat) :
    (getArgCountLoop rest prev i l c).1 = i + rest.length := by
  induction rest generalizing prev i l c with
  | nil => rfl
  | cons char rest ih =>
      rw [getArgCountLoop, List.length_cons]
      split
      · rw [ih]
        omega
      · rw [ih]
        omega

theorem getArgCount_refines (line : Bytes) : getArgCount line line.length = some (Solidbits.getArgCount line) := by
  have hloop := countLoop_eq [] line 0 0
  have hend := countLoop_offset line none 0 0 0
  rw [List.nil_append, List.length_nil, ← List.range_eq_range', List.getLast?_nil] at hloop
  rw [Nat.zero_add] at hend
  simp only [getArgCount, hloop, Option.bind_eq_bind, Option.bind_some, Option.pure_def, Solidbits.getArgCount, hend]

-- Both scanners stay within the line and find its maximal runs of bytes other
-- than a space: one counts them, the other returns them from the second on.
theorem scanners_agree (line : Bytes) (hnul : 0 ∉ line) : ∃ runs : List (Nat × Nat),
    runs.Pairwise (fun run other => run.2 < other.1) ∧
    (∀ start stop, (start, stop) ∈ runs ↔ IsRun SPACE line start stop) ∧
    getArgCount line line.length = some runs.length ∧
    splitFill line line.length runs.length = some ((runs.drop 1).map (part line)) ∧
    ∀ run ∈ runs, part line run ≠ [] ∧ SPACE ∉ part line run ∧ cstr (part line run) = part line run := by
  obtain ⟨runs, hsorted, hmem, htokens⟩ := tokens_runs SPACE line
  have hcount : Solidbits.getArgCount line = runs.length := by rw [getArgCount_eq, htokens, List.length_map]
  refine ⟨runs, hsorted, hmem, ?_, ?_, fun run hm => ?_⟩
  · rw [getArgCount_refines, hcount]
  · rw [splitFill_refines, ← hcount, splitFill_eq, htokens, List.map_drop]
  · have hr := (hmem run.1 run.2).mp hm
    refine ⟨hr.part_ne_nil, hr.sep_not_mem, cstr_of_no_zero fun hzero => hnul ?_⟩
    exact List.mem_of_mem_drop (List.mem_of_mem_take hzero)

-- Leading, trailing and repeated spaces.
theorem scanners_agree_spaces : ∃ runs : List (Nat × Nat),
    runs.Pairwise (fun run other => run.2 < other.1) ∧
    (∀ start stop, (start, stop) ∈ runs ↔ IsRun SPACE (str " GETBIT  key 0 ") start stop) ∧
    getArgCount (str " GETBIT  key 0 ") 15 = some runs.length ∧
    splitFill (str " GETBIT  key 0 ") 15 runs.length = some ((runs.drop 1).map (part (str " GETBIT  key 0 "))) ∧
    ∀ run ∈ runs, part (str " GETBIT  key 0 ") run ≠ [] ∧ SPACE ∉ part (str " GETBIT  key 0 ") run ∧
      cstr (part (str " GETBIT  key 0 ") run) = part (str " GETBIT  key 0 ") run :=
  scanners_agree (str " GETBIT  key 0 ") (by decide)

end Refinement

end Solidbits.Cursor
