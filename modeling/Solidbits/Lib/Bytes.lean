import Mathlib.Data.List.GetD
import Mathlib.Algebra.Notation.Defs

namespace Padded

section Overwrite

variable {α : Type} [Zero α]

-- The element at a position; a string reads as zero past its end.
def get (xs : List α) (i : Nat) : α := xs.getD i 0

-- Writing at an offset: a gap before the offset is filled with zeros, what lies
-- past the written part stays.
def overwrite (xs : List α) (offset : Nat) (ys : List α) : List α :=
  if ys = [] then xs
  else (xs ++ List.replicate (offset - xs.length) 0).take offset ++ ys ++ xs.drop (offset + ys.length)

def slice (xs : List α) (offset count : Nat) : List α := (xs.drop offset).take count

@[simp] theorem get_nil (i : Nat) : get ([] : List α) i = 0 := rfl

theorem get_of_lt {xs : List α} {i : Nat} (h : i < xs.length) : get xs i = xs[i] :=
  List.getD_eq_getElem xs 0 h

theorem get_of_le {xs : List α} {i : Nat} (h : xs.length ≤ i) : get xs i = 0 :=
  List.getD_eq_default xs 0 h

theorem ext {xs ys : List α} (hl : xs.length = ys.length) (h : ∀ i, i < xs.length → get xs i = get ys i) :
    xs = ys := by
  apply List.ext_getElem hl
  intro i hx hy
  have := h i hx
  rwa [get_of_lt hx, get_of_lt hy] at this

theorem overwrite_length (xs ys : List α) (offset : Nat) (hne : ys ≠ []) :
    (overwrite xs offset ys).length = max xs.length (offset + ys.length) := by
  simp only [overwrite, hne, ite_false, List.length_append, List.length_take, List.length_drop,
    List.length_replicate]
  omega

theorem overwrite_length_le (xs ys : List α) (offset : Nat) :
    (overwrite xs offset ys).length ≤ max xs.length (offset + ys.length) := by
  by_cases hne : ys = []
  · rw [overwrite, if_pos hne]
    exact Nat.le_max_left _ _
  · exact Nat.le_of_eq (overwrite_length xs ys offset hne)

theorem le_overwrite_length (xs ys : List α) (offset : Nat) : xs.length ≤ (overwrite xs offset ys).length := by
  by_cases hne : ys = []
  · have hsame : overwrite xs offset ys = xs := if_pos hne
    exact Nat.le_of_eq (congrArg List.length hsame.symm)
  · rw [overwrite_length xs ys offset hne]
    exact Nat.le_max_left _ _

theorem get_overwrite (xs ys : List α) (offset i : Nat) :
    get (overwrite xs offset ys) i =
      if offset ≤ i ∧ i < offset + ys.length then get ys (i - offset) else get xs i := by
  by_cases hne : ys = []
  · subst hne
    simp only [overwrite, ite_true, List.length_nil]
    rw [ite_eq_right_iff.mpr]
    omega
  have htaken : ((xs ++ List.replicate (offset - xs.length) 0).take offset).length = offset := by
    simp only [List.length_take, List.length_append, List.length_replicate]
    omega
  simp only [overwrite, hne, ite_false, get, List.append_assoc]
  rcases Nat.lt_or_ge i offset with hlt | hge
  · rw [List.getD_append _ _ _ _ (by omega)]
    have hn : ¬(offset ≤ i ∧ i < offset + ys.length) := by omega
    simp only [hn, ite_false, List.getD_eq_getElem?_getD, List.getElem?_take, hlt, ite_true]
    rcases Nat.lt_or_ge i xs.length with hx | hx
    · rw [List.getElem?_append_left hx]
    · rw [List.getElem?_append_right hx, List.getElem?_eq_none hx, List.getElem?_replicate]
      split <;> rfl
  · rw [List.getD_append_right _ _ _ _ (by omega), htaken]
    rcases Nat.lt_or_ge i (offset + ys.length) with hin | hout
    · rw [List.getD_append _ _ _ _ (by omega)]
      simp only [hge, hin, and_self, ite_true]
    · rw [List.getD_append_right _ _ _ _ (by omega)]
      have hn : ¬(offset ≤ i ∧ i < offset + ys.length) := by omega
      simp only [hn, ite_false, List.getD_eq_getElem?_getD, List.getElem?_drop]
      congr 2
      omega

omit [Zero α] in
theorem slice_length (xs : List α) (offset count : Nat) :
    (slice xs offset count).length = min count (xs.length - offset) := by
  simp [slice]

theorem get_slice (xs : List α) (offset count i : Nat) :
    get (slice xs offset count) i = if i < count then get xs (offset + i) else 0 := by
  simp only [slice, get, List.getD_eq_getElem?_getD, List.getElem?_take, List.getElem?_drop]
  split <;> rfl

theorem get_map_range (f : Nat → α) (n i : Nat) :
    get ((List.range n).map f) i = if i < n then f i else 0 := by
  split
  · rename_i h
    rw [get_of_lt (by simpa using h)]
    simp
  · rename_i h
    exact get_of_le (by simpa using h)

-- Two writes in a row are one write of both parts.
theorem overwrite_append (xs ys zs : List α) (offset : Nat) :
    overwrite (overwrite xs offset ys) (offset + ys.length) zs = overwrite xs offset (ys ++ zs) := by
  have hnothing : ∀ (xs : List α) offset, overwrite xs offset [] = xs := fun xs offset => if_pos rfl
  by_cases hy : ys = []
  · rw [hy, List.nil_append, List.length_nil, Nat.add_zero, hnothing]
  by_cases hz : zs = []
  · rw [hz, List.append_nil, hnothing]
  have hyz : ys ++ zs ≠ [] := by simp [hy]
  apply ext
  · simp only [overwrite_length _ _ _ hy, overwrite_length _ _ _ hz, overwrite_length _ _ _ hyz,
      List.length_append]
    omega
  · intro i _
    simp only [get_overwrite, List.length_append]
    by_cases hlow : i < offset + ys.length
    · rw [if_neg (by omega)]
      by_cases hbefore : i < offset
      · rw [if_neg (by omega), if_neg (by omega)]
      · rw [if_pos (by omega), if_pos (by omega), get, get, List.getD_append _ _ _ _ (by omega)]
    · by_cases hhigh : i < offset + ys.length + zs.length
      · rw [if_pos (by omega), if_pos (by omega), get, get, List.getD_append_right _ _ _ _ (by omega),
          Nat.sub_add_eq]
      · rw [if_neg (by omega), if_neg (by omega), if_neg (by omega)]

-- Writing from the start over something no longer leaves what was written.
theorem overwrite_all {xs ys : List α} (h : xs.length ≤ ys.length) (hne : ys ≠ []) :
    overwrite xs 0 ys = ys := by
  apply ext
  · rw [overwrite_length _ _ _ hne]
    omega
  · intro i hi
    rw [overwrite_length _ _ _ hne] at hi
    rw [get_overwrite, if_pos (by omega), Nat.sub_zero]

end Overwrite

end Padded
