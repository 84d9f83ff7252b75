import Mathlib.Data.Fintype.Card
import Mathlib.Data.List.Nodup

namespace Chain

section Path

variable {α : Type} {next : α → Option α} {first : Option α} {xs ys : List α}

-- The elements met by following the next pointers from the first to the end.
def Path (next : α → Option α) : Option α → List α → Prop
  | first, [] => first = none
  | first, a :: rest => first = some a ∧ Path next (next a) rest

theorem Path.unique (hx : Path next first xs) (hy : Path next first ys) : xs = ys := by
  induction xs generalizing first ys with
  | nil =>
      cases ys with
      | nil => rfl
      | cons b ys => exact absurd (hx.symm.trans hy.1) (by simp)
  | cons a xs ih =>
      cases ys with
      | nil => exact absurd (hy.symm.trans hx.1) (by simp)
      | cons b ys =>
          have he : a = b := Option.some.inj (hx.1.symm.trans hy.1)
          subst he
          rw [ih hx.2 hy.2]

theorem Path.suffix {before after : List α} {a : α} (h : Path next first (before ++ a :: after)) :
    Path next (some a) (a :: after) := by
  induction before generalizing first with
  | nil => exact ⟨rfl, h.2⟩
  | cons b before ih => exact ih h.2

-- A path that met an element twice would go on for ever.
theorem Path.nodup (h : Path next first xs) : xs.Nodup := by
  induction xs generalizing first with
  | nil => exact List.nodup_nil
  | cons a rest ih =>
      refine List.nodup_cons.mpr ⟨?_, ih h.2⟩
      intro hm
      obtain ⟨before, after, he⟩ := List.append_of_mem hm
      have hr := h.2
      rw [he] at hr
      have hself : Path next (some a) (a :: rest) := ⟨rfl, h.2⟩
      have hlen := congrArg List.length (hr.suffix.unique hself)
      rw [he] at hlen
      simp only [List.length_cons, List.length_append] at hlen
      omega

theorem Path.length_le [Fintype α] (h : Path next first xs) : xs.length ≤ Fintype.card α :=
  h.nodup.length_le_card

theorem Path.congr {other : α → Option α} (h : Path next first xs)
    (hsame : ∀ a ∈ xs, other a = next a) : Path other first xs := by
  induction xs generalizing first with
  | nil => exact h
  | cons a rest ih =>
      refine ⟨h.1, ?_⟩
      rw [hsame a List.mem_cons_self]
      exact ih h.2 fun b hb => hsame b (List.mem_cons_of_mem a hb)

-- Only the last element of a path has no successor.
theorem Path.last_of_none {a : α} (h : Path next first xs) (ha : a ∈ xs) (hn : next a = none) :
    ∃ before, xs = before ++ [a] := by
  obtain ⟨before, after, rfl⟩ := List.append_of_mem ha
  have ht := h.suffix.2
  rw [hn] at ht
  cases after with
  | nil => exact ⟨before, rfl⟩
  | cons b after => exact absurd ht.1 (by simp)

theorem Path.getLast_none {last : α} (h : Path next first xs) (hl : xs.getLast? = some last) :
    next last = none := by
  obtain ⟨before, rfl⟩ := List.getLast?_eq_some_iff.mp hl
  exact h.suffix.2

-- In a path of two elements or more the last has a predecessor.
theorem Path.pred_last {last : α} (h : Path next first xs) (hl : xs.getLast? = some last)
    (hlen : 2 ≤ xs.length) : ∃ a, next a = some last := by
  obtain ⟨before, rfl⟩ := List.getLast?_eq_some_iff.mp hl
  rcases List.eq_nil_or_concat before with rfl | ⟨front, a, rfl⟩
  · simp at hlen
  · rw [List.concat_eq_append, List.append_assoc, List.singleton_append] at h
    exact ⟨a, h.suffix.2.1⟩

-- Linking a new last element behind the old one.
theorem Path.snoc {other : α → Option α} {last new : α} (h : Path next first xs) (hl : last ∈ xs)
    (hlast : next last = none) (hne : last ≠ new) (hnew : next new = none)
    (hlink : other last = some new) (hsame : ∀ a, a ≠ last → other a = next a) :
    Path other first (xs ++ [new]) := by
  obtain ⟨before, rfl⟩ := h.last_of_none hl hlast
  have hnodup := h.nodup
  induction before generalizing first with
  | nil =>
      refine ⟨h.1, hlink, ?_⟩
      rw [hsame new (Ne.symm hne)]
      exact hnew
  | cons a before ih =>
      have ha : a ≠ last := by
        rintro rfl
        simp at hnodup
      refine ⟨h.1, ?_⟩
      rw [hsame a ha]
      exact ih h.2 (by simp) (List.nodup_cons.mp hnodup).2

-- In a path every element but the first has a predecessor.
theorem Path.pred {a : α} (h : Path next first xs) (ha : a ∈ xs) :
    (∃ after, xs = a :: after) ∨ ∃ before p after, xs = before ++ p :: a :: after ∧ next p = some a := by
  obtain ⟨before, after, rfl⟩ := List.append_of_mem ha
  rcases List.eq_nil_or_concat before with rfl | ⟨front, p, rfl⟩
  · exact Or.inl ⟨after, rfl⟩
  · rw [List.concat_eq_append, List.append_assoc, List.singleton_append] at h ⊢
    exact Or.inr ⟨front, p, after, rfl, h.suffix.2.1⟩

-- Nothing in a path leads to its first element.
theorem Path.first_apart {a p : α} (h : Path next first (a :: xs)) (hp : p ∈ a :: xs) : next p ≠ some a := by
  intro hback
  have hnodup := h.nodup
  obtain ⟨before, after, he⟩ := List.append_of_mem hp
  rw [he] at h hnodup
  have ht := h.suffix.2
  rw [hback] at ht
  cases after with
  | nil => exact absurd ht (by simp [Path])
  | cons b after =>
      obtain rfl := Option.some.inj ht.1
      cases before with
      | nil =>
          obtain ⟨rfl, _⟩ := List.cons.inj he
          simp at hnodup
      | cons c before =>
          obtain ⟨rfl, _⟩ := List.cons.inj he
          simp at hnodup

theorem Path.next_mem {a b : α} (h : Path next first xs) (ha : a ∈ xs) (hb : next a = some b) : b ∈ xs := by
  obtain ⟨before, after, rfl⟩ := List.append_of_mem ha
  have ht := h.suffix.2
  rw [hb] at ht
  cases after with
  | nil => exact absurd ht (by simp [Path])
  | cons c after =>
      rw [Option.some.inj ht.1]
      simp

-- Leading an element past its successor takes the successor out.
theorem Path.remove {other : α → Option α} {before after : List α} {p a : α}
    (h : Path next first (before ++ p :: a :: after)) (hlink : other p = next a)
    (hsame : ∀ b, b ≠ p → b ≠ a → other b = next b) : Path other first (before ++ p :: after) := by
  have hnodup := h.nodup
  induction before generalizing first with
  | nil =>
      refine ⟨h.1, ?_⟩
      rw [hlink]
      refine h.2.2.congr fun b hb => hsame b ?_ ?_
      · rintro rfl
        simp [hb] at hnodup
      · rintro rfl
        simp [hb] at hnodup
  | cons b before ih =>
      refine ⟨h.1, ?_⟩
      rw [hsame b]
      · exact ih h.2 (List.nodup_cons.mp hnodup).2
      · rintro rfl
        simp at hnodup
      · rintro rfl
        simp at hnodup

theorem erase_behind [DecidableEq α] {before after : List α} {p a : α}
    (h : (before ++ p :: a :: after).Nodup) : (before ++ p :: a :: after).erase a = before ++ p :: after := by
  have hlist : before ++ p :: a :: after = (before ++ [p]) ++ a :: after := by simp
  have hnot : a ∉ before ++ [p] := by
    rw [hlist] at h
    exact fun hm => (List.nodup_append.mp h).2.2 a hm a List.mem_cons_self rfl
  rw [hlist, List.erase_append_right _ hnot, List.erase_cons_head, List.append_assoc]
  rfl

end Path

end Chain
