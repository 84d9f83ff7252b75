import Mathlib.Data.Nat.Notation

namespace Mixing

section Steps

variable {x y : UInt64}

-- An odd factor is undone by its inverse.
theorem mul_inverse {p q : UInt64} (hpq : p * q = 1) (x : UInt64) : x * p * q = x := by
  rw [UInt64.mul_assoc, hpq, UInt64.mul_one]

theorem mul_injective {p q : UInt64} (hpq : p * q = 1) (h : x * p = y * p) : x = y := by
  rw [← mul_inverse hpq x, h, mul_inverse hpq]

theorem xor_cancel (x y : UInt64) : x ^^^ y ^^^ y = x := by
  rw [UInt64.xor_assoc, UInt64.xor_self, UInt64.xor_zero]

-- Folding the high bits into the low ones loses nothing: the bits are regained
-- from the top.
theorem xorShift_injective {k : Nat} (hk : 0 < k) {a b : BitVec 64} (h : a ^^^ a >>> k = b ^^^ b >>> k) : a = b := by
  have hbit : ∀ n i, 64 ≤ i + n → a.getLsbD i = b.getLsbD i := by
    intro n
    induction n with
    | zero =>
        intro i hi
        rw [BitVec.getLsbD_of_ge a i hi, BitVec.getLsbD_of_ge b i hi]
    | succ n ih =>
        intro i hi
        have hsame := congrArg (fun word => word.getLsbD i) h
        simp only [BitVec.getLsbD_xor, BitVec.getLsbD_ushiftRight] at hsame
        rw [ih (k + i) (by omega)] at hsame
        exact Bool.xor_left_inj.mp hsame
  apply BitVec.eq_of_getLsbD_eq
  intro i _
  exact hbit 64 i (by omega)

theorem rotate_inverse {k : Nat} (hk : k ≤ 64) (a : BitVec 64) :
    let b := a <<< k ||| a >>> (64 - k)
    b >>> k ||| b <<< (64 - k) = a := by
  intro b
  apply BitVec.eq_of_getLsbD_eq
  intro i hi
  simp only [b, BitVec.getLsbD_or, BitVec.getLsbD_shiftLeft, BitVec.getLsbD_ushiftRight]
  have hpast : ∀ j, 64 ≤ j → a.getLsbD j = false := fun j hj => BitVec.getLsbD_of_ge a j hj
  rcases Nat.lt_or_ge i (64 - k) with hlow | hhigh
  · have hin : k + i < 64 := by omega
    have hback : k + i - k = i := by omega
    simp [hlow, hin, hback, hpast (64 - k + (k + i)) (by omega)]
  · have hout : ¬k + i < 64 := by omega
    have hin : i - (64 - k) < 64 := by omega
    have hbelow : i - (64 - k) < k := by omega
    have hback : 64 - k + (i - (64 - k)) = i := by omega
    simp [hi, Nat.not_lt.mpr hhigh, hout, hin, hbelow, hback, hpast (64 - k + (k + i)) (by omega)]

end Steps

section Folds

variable {σ τ : Type} {f g : σ → τ → σ} {ts : List τ} {t : τ}

theorem foldl_injective (hinjective : ∀ s s' t, f s t = f s' t → s = s') {s s' : σ}
    (h : ts.foldl f s = ts.foldl f s') : s = s' := by
  induction ts generalizing s s' with
  | nil => exact h
  | cons t ts ih => exact hinjective s s' t (ih h)

theorem foldl_same (hsame : ∀ t ∈ ts, ∀ s, f s t = g s t) (s : σ) : ts.foldl f s = ts.foldl g s := by
  induction ts generalizing s with
  | nil => rfl
  | cons t ts ih =>
      rw [List.foldl_cons, List.foldl_cons, hsame t List.mem_cons_self]
      exact ih (fun u hu => hsame u (List.mem_cons_of_mem t hu)) _

-- One step that differs makes two runs differ to the end, when no step forgets
-- the state it starts from.
theorem foldl_apart (hinjective : ∀ s s' t, f s t = f s' t → s = s') (hnodup : ts.Nodup) (ht : t ∈ ts)
    (hsame : ∀ u ∈ ts, u ≠ t → ∀ s, f s u = g s u) (hdiffers : ∀ s, f s t ≠ g s t) (s : σ) :
    ts.foldl f s ≠ ts.foldl g s := by
  obtain ⟨before, after, rfl⟩ := List.append_of_mem ht
  have hapart := List.nodup_append.mp hnodup
  have hbefore : ∀ u ∈ before, ∀ s, f s u = g s u := fun u hu =>
    hsame u (List.mem_append_left _ hu) (hapart.2.2 u hu t List.mem_cons_self)
  have hafter : ∀ u ∈ after, ∀ s, f s u = g s u := fun u hu =>
    hsame u (List.mem_append_right _ (List.mem_cons_of_mem t hu)) fun he =>
      (List.nodup_cons.mp hapart.2.1).1 (he ▸ hu)
  rw [List.foldl_append, List.foldl_append, List.foldl_cons, List.foldl_cons, ← foldl_same hbefore,
    ← foldl_same hafter]
  exact fun h => hdiffers _ (foldl_injective hinjective h)

end Folds

end Mixing
