import Mathlib.Data.List.Basic
import Mathlib.Data.List.TakeWhile

namespace Tokens

section Tokens

variable {α : Type} [DecidableEq α] {sep x : α} {line : List α}

-- The parts of a line between separators, with several in a row as one.
def tokens (sep : α) (line : List α) : List (List α) := (line.splitOn sep).filter (· ≠ [])

theorem splitOn_sep : (sep :: line).splitOn sep = [] :: line.splitOn sep := by
  simp [List.splitOn, List.splitOnP_cons_eq_if_modifyHead]

theorem splitOn_cons (hx : x ≠ sep) :
    (x :: line).splitOn sep = (line.splitOn sep).modifyHead (x :: ·) := by
  simp [List.splitOn, List.splitOnP_cons_eq_if_modifyHead, hx]

@[simp] theorem tokens_nil : tokens sep [] = [] := by
  simp [tokens]

@[simp] theorem tokens_sep : tokens sep (sep :: line) = tokens sep line := by
  simp [tokens, splitOn_sep]

-- The first part reaches up to the next separator.
theorem splitOn_tokens : (line.splitOn sep).head? = some (line.takeWhile (· ≠ sep)) ∧
    (line.splitOn sep).tail.filter (· ≠ []) = tokens sep (line.dropWhile (· ≠ sep)) := by
  induction line with
  | nil => simp
  | cons x line ih =>
      by_cases hx : x = sep
      · subst hx
        simp [splitOn_sep, tokens]
      · obtain ⟨parts, hparts⟩ : ∃ parts, line.splitOn sep = line.takeWhile (· ≠ sep) :: parts := by
          cases hsplit : line.splitOn sep with
          | nil => simp [hsplit] at ih
          | cons first parts =>
              rw [hsplit] at ih
              exact ⟨parts, by rw [Option.some.inj ih.1]⟩
        rw [splitOn_cons hx, hparts, List.takeWhile_cons_of_pos (by simpa using hx),
          List.dropWhile_cons_of_pos (by simpa using hx), ← ih.2, hparts]
        exact ⟨rfl, rfl⟩

theorem tokens_cons (hx : x ≠ sep) : tokens sep (x :: line) =
    (x :: line.takeWhile (· ≠ sep)) :: tokens sep (line.dropWhile (· ≠ sep)) := by
  obtain ⟨hhead, htail⟩ := @splitOn_tokens α _ sep line
  rw [tokens, splitOn_cons hx, ← htail]
  cases hsplit : line.splitOn sep with
  | nil => simp [hsplit] at hhead
  | cons first parts =>
      rw [hsplit] at hhead
      rw [← Option.some.inj hhead]
      simp

theorem tokens_dropWhile : tokens sep (line.dropWhile (· = sep)) = tokens sep line := by
  induction line with
  | nil => rfl
  | cons x line ih =>
      by_cases hx : x = sep
      · subst hx
        rw [List.dropWhile_cons_of_pos (by simp), ih, tokens_sep]
      · rw [List.dropWhile_cons_of_neg (by simpa using hx)]

-- Behind the first part come the others.
theorem tokens_tail :
    tokens sep ((line.dropWhile (· = sep)).dropWhile (· ≠ sep)) = (tokens sep line).drop 1 := by
  rw [← @tokens_dropWhile _ _ sep line]
  cases hrest : line.dropWhile (· = sep) with
  | nil => simp
  | cons x rest =>
      have hx := List.head?_dropWhile_not (· = sep) line
      rw [hrest] at hx
      have hx : x ≠ sep := by simpa using hx
      rw [tokens_cons hx, List.dropWhile_cons_of_pos (by simpa using hx)]
      rfl

-- A line that begins with letters has a first part that does.
theorem tokens_first {first : List α} (hne : first ≠ []) (hsep : sep ∉ first) (h : first <+: line) :
    ∃ token, (tokens sep line).head? = some token ∧ first <+: token := by
  obtain ⟨rest, rfl⟩ := h
  cases first with
  | nil => exact absurd rfl hne
  | cons x first =>
      have hx : x ≠ sep := fun he => hsep (he ▸ List.mem_cons_self)
      have hfirst : ∀ y ∈ first, decide (y ≠ sep) = true :=
        fun y hy => by simpa using fun he : y = sep => hsep (he ▸ List.mem_cons_of_mem x hy)
      rw [List.cons_append, tokens_cons hx, List.takeWhile_append_of_pos hfirst]
      exact ⟨_, rfl, List.prefix_append _ _⟩

-- Words put together with one separator between them are its parts.
theorem tokens_intercalate {words : List (List α)} (hne : words ≠ []) (hempty : [] ∉ words)
    (hsep : ∀ word ∈ words, sep ∉ word) : tokens sep ([sep].intercalate words) = words := by
  rw [tokens, List.splitOn_intercalate sep hsep hne]
  refine List.filter_eq_self.mpr fun word hm => ?_
  simpa using fun he : word = [] => hempty (he ▸ hm)

end Tokens

section Runs

variable {α : Type} {sep : α} {before word rest line : List α} {start stop : Nat}

-- A maximal part of a text without separators, from its start up to its stop.
structure IsRun (sep : α) (text : List α) (start stop : Nat) : Prop where
  nonempty : start < stop
  inside : stop ≤ text.length
  plain : ∀ i, start ≤ i → i < stop → text[i]? ≠ some sep
  left : start = 0 ∨ text[start - 1]? = some sep
  right : stop = text.length ∨ text[stop]? = some sep

def part (line : List α) (run : Nat × Nat) : List α := (line.drop run.1).take (run.2 - run.1)

def shift (k : Nat) (run : Nat × Nat) : Nat × Nat := (k + run.1, k + run.2)

theorem part_shift (before rest : List α) (run : Nat × Nat) :
    part (before ++ rest) (shift before.length run) = part rest run := by
  rw [part, part, shift, ← List.drop_drop, List.drop_left, Nat.add_sub_add_left]

theorem getElem?_shift (before rest : List α) (i : Nat) : (before ++ rest)[before.length + i]? = rest[i]? := by
  rw [List.getElem?_append_right (Nat.le_add_right _ _), Nat.add_sub_cancel_left]

-- Behind a separator, or behind a separator of the rest, the runs are those of
-- the rest.
theorem isRun_shift (h : start = 0 → before.getLast? = some sep) :
    IsRun sep (before ++ rest) (before.length + start) (before.length + stop) ↔ IsRun sep rest start stop := by
  have hleft : (before.length + start = 0 ∨ (before ++ rest)[before.length + start - 1]? = some sep) ↔
      (start = 0 ∨ rest[start - 1]? = some sep) := by
    by_cases hs : start = 0
    · subst hs
      have hlast := h rfl
      have hpos : 0 < before.length := List.length_pos_of_ne_nil fun he => by simp [he] at hlast
      rw [List.getLast?_eq_getElem?] at hlast
      refine iff_of_true (Or.inr ?_) (Or.inl rfl)
      rw [Nat.add_zero, List.getElem?_append_left (by omega), hlast]
    · have hprev : before.length + start - 1 = before.length + (start - 1) := by omega
      rw [hprev, getElem?_shift]
      exact or_congr_left (by omega)
  constructor
  · intro hr
    refine ⟨by have := hr.nonempty; omega, ?_, ?_, hleft.mp hr.left, ?_⟩
    · have hin := hr.inside
      rw [List.length_append] at hin
      omega
    · intro i hi hlt
      rw [← getElem?_shift before rest i]
      exact hr.plain _ (by omega) (by omega)
    · have hright := hr.right
      rw [getElem?_shift, List.length_append] at hright
      exact hright.imp_left (by omega)
  · intro hr
    refine ⟨by have := hr.nonempty; omega, ?_, ?_, hleft.mpr hr.left, ?_⟩
    · have hin := hr.inside
      rw [List.length_append]
      omega
    · intro i hi hlt
      obtain ⟨j, rfl⟩ := Nat.exists_eq_add_of_le (show before.length ≤ i by omega)
      rw [getElem?_shift]
      exact hr.plain j (by omega) (by omega)
    · rw [getElem?_shift, List.length_append]
      exact hr.right.imp_left (by omega)

theorem isRun_sep : IsRun sep (sep :: line) start stop ↔
    ∃ run, (start, stop) = shift 1 run ∧ IsRun sep line run.1 run.2 := by
  have hshift := fun start stop => @isRun_shift α sep [sep] line start stop fun _ => rfl
  constructor
  · intro hr
    have hpos : start ≠ 0 := by
      rintro rfl
      exact hr.plain 0 (Nat.le_refl 0) hr.nonempty rfl
    have hlt := hr.nonempty
    have hstart : 1 + (start - 1) = start := by omega
    have hstop : 1 + (stop - 1) = stop := by omega
    refine ⟨(start - 1, stop - 1), by rw [shift, hstart, hstop], (hshift _ _).mp ?_⟩
    rw [List.length_singleton, hstart, hstop]
    exact hr
  · rintro ⟨run, he, hr⟩
    obtain ⟨rfl, rfl⟩ := Prod.mk.inj he
    exact (hshift _ _).mpr hr

theorem IsRun.start_ne_zero (hr : IsRun sep rest start stop) (hrest : rest = [] ∨ rest.head? = some sep) :
    start ≠ 0 := by
  rintro rfl
  have hlt := hr.nonempty
  rcases hrest with rfl | hrest
  · have hin := hr.inside
    rw [List.length_nil] at hin
    omega
  · rw [List.head?_eq_getElem?] at hrest
    exact hr.plain 0 (Nat.le_refl 0) hlt hrest

theorem IsRun.part_ne_nil (hr : IsRun sep line start stop) : part line (start, stop) ≠ [] := by
  have hlt := hr.nonempty
  have hin := hr.inside
  apply List.ne_nil_of_length_pos
  rw [part, List.length_take, List.length_drop]
  show 0 < min (stop - start) (line.length - start)
  omega

theorem IsRun.sep_not_mem (hr : IsRun sep line start stop) : sep ∉ part line (start, stop) := by
  intro hm
  obtain ⟨i, hi⟩ := List.mem_iff_getElem?.mp hm
  rw [part, List.getElem?_take] at hi
  split at hi
  · rename_i hlt
    have hlt : i < stop - start := hlt
    rw [List.getElem?_drop] at hi
    exact hr.plain (start + i) (by omega) (by omega) hi
  · cases hi

-- A word up to the next separator is the first run.
theorem isRun_word (hne : word ≠ []) (hword : ∀ x ∈ word, x ≠ sep) (hrest : rest = [] ∨ rest.head? = some sep) :
    IsRun sep (word ++ rest) start stop ↔
      (start, stop) = (0, word.length) ∨ ∃ run, (start, stop) = shift word.length run ∧ IsRun sep rest run.1 run.2 := by
  have hplain : ∀ i, i < word.length → (word ++ rest)[i]? ≠ some sep := by
    intro i hi he
    rw [List.getElem?_append_left hi] at he
    exact hword sep (List.mem_of_getElem? he) rfl
  have hend : word.length = (word ++ rest).length ∨ (word ++ rest)[word.length]? = some sep := by
    refine hrest.imp (fun he => by simp [he]) fun he => ?_
    rw [← Nat.add_zero word.length, getElem?_shift, ← List.head?_eq_getElem?, he]
  have hlen : (word ++ rest).length = word.length + rest.length := List.length_append
  constructor
  · intro hr
    have hlt := hr.nonempty
    have hin := hr.inside
    rcases hr.left with rfl | hleft
    · refine Or.inl (Prod.ext rfl ?_)
      show stop = word.length
      refine Nat.le_antisymm (Nat.not_lt.mp fun hlong => ?_) (Nat.not_lt.mp fun hshort => ?_)
      · exact hr.plain _ (Nat.zero_le _) hlong (hend.resolve_left (by omega))
      · exact hplain stop hshort (hr.right.resolve_left (by omega))
    · have hbehind : word.length ≤ start - 1 := Nat.not_lt.mp fun hlow => hplain _ hlow hleft
      have hpos : start ≠ 0 := by
        rintro rfl
        exact hne (List.eq_nil_of_length_eq_zero (Nat.le_zero.mp hbehind))
      have hstart : word.length + (start - word.length) = start := by omega
      have hstop : word.length + (stop - word.length) = stop := by omega
      refine Or.inr ⟨(start - word.length, stop - word.length), by rw [shift, hstart, hstop], ?_⟩
      refine (@isRun_shift _ sep word rest _ _ fun hzero => by omega).mp ?_
      rw [hstart, hstop]
      exact hr
  · rintro (he | ⟨run, he, hr⟩)
    · obtain ⟨rfl, rfl⟩ := Prod.mk.inj he
      exact ⟨List.length_pos_of_ne_nil hne, by omega, fun i _ hi => hplain i hi, Or.inl rfl, hend⟩
    · obtain ⟨rfl, rfl⟩ := Prod.mk.inj he
      exact (isRun_shift fun hzero => absurd hzero (hr.start_ne_zero hrest)).mpr hr

-- The parts of a line are its runs, from left to right.
theorem tokens_runs [DecidableEq α] (sep : α) (line : List α) : ∃ runs : List (Nat × Nat),
    runs.Pairwise (fun run other => run.2 < other.1) ∧
    (∀ start stop, (start, stop) ∈ runs ↔ IsRun sep line start stop) ∧
    tokens sep line = runs.map (part line) := by
  induction hn : line.length using Nat.strongRecOn generalizing line with
  | ind n ih =>
      cases line with
      | nil =>
          refine ⟨[], List.Pairwise.nil, fun start stop => ?_, tokens_nil⟩
          refine iff_of_false List.not_mem_nil fun hr => ?_
          have hlt := hr.nonempty
          have hin := hr.inside
          rw [List.length_nil] at hin
          omega
      | cons x line =>
          have hmap : ∀ (k : Nat) (runs : List (Nat × Nat)),
              runs.Pairwise (fun run other => run.2 < other.1) →
              (runs.map (shift k)).Pairwise (fun run other => run.2 < other.1) := by
            intro k runs hruns
            rw [List.pairwise_map]
            exact hruns.imp fun h => Nat.add_lt_add_left h k
          by_cases hx : x = sep
          · subst hx
            obtain ⟨runs, hsorted, hmem, htokens⟩ := ih line.length (by rw [← hn]; exact Nat.lt_succ_self _) line rfl
            refine ⟨runs.map (shift 1), hmap 1 runs hsorted, fun start stop => ?_, ?_⟩
            · rw [isRun_sep, List.mem_map]
              exact exists_congr fun run => by rw [and_comm, eq_comm, hmem]
            · rw [tokens_sep, htokens, List.map_map]
              exact List.map_congr_left fun run _ => (part_shift [x] line run).symm
          · obtain ⟨word, hword⟩ : ∃ word, word = x :: line.takeWhile (· ≠ sep) := ⟨_, rfl⟩
            obtain ⟨rest, hrest⟩ : ∃ rest, rest = line.dropWhile (· ≠ sep) := ⟨_, rfl⟩
            have hline : x :: line = word ++ rest := by
              rw [hword, hrest, List.cons_append, List.takeWhile_append_dropWhile]
            have hplain : ∀ y ∈ word, y ≠ sep := by
              rw [hword]
              intro y hy
              rcases List.mem_cons.mp hy with rfl | hy
              · exact hx
              · simpa using List.mem_takeWhile_imp hy
            have hshort : rest.length < n := by
              rw [← hn, hrest, List.length_cons]
              exact Nat.lt_succ_of_le (List.dropWhile_suffix _).length_le
            have hstop : rest = [] ∨ rest.head? = some sep := by
              have hhead := List.head?_dropWhile_not (fun y => decide (y ≠ sep)) line
              rw [← hrest] at hhead
              cases rest with
              | nil => exact Or.inl rfl
              | cons y rest => exact Or.inr (by simpa using hhead)
            obtain ⟨runs, hsorted, hmem, htokens⟩ := ih rest.length hshort rest rfl
            refine ⟨(0, word.length) :: runs.map (shift word.length), ?_, fun start stop => ?_, ?_⟩
            · refine List.pairwise_cons.mpr ⟨fun run hm => ?_, hmap _ runs hsorted⟩
              obtain ⟨before, hbefore, rfl⟩ := List.mem_map.mp hm
              have hr := (hmem before.1 before.2).mp hbefore
              have hpos := hr.start_ne_zero hstop
              show word.length < word.length + before.1
              omega
            · rw [hline, isRun_word (by simp [hword]) hplain hstop, List.mem_cons, List.mem_map]
              refine or_congr_right (exists_congr fun run => ?_)
              rw [and_comm, eq_comm, hmem]
            · rw [tokens_cons hx, ← hword, ← hrest, htokens, List.map_cons, List.map_map, hline]
              refine congrArg₂ _ ?_ (List.map_congr_left fun run _ => (part_shift word rest run).symm)
              simp [part]

end Runs

end Tokens
