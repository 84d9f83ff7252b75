import Mathlib.Tactic.Ring

namespace Fields

section Pack

variable {width : Nat} {xs : List Nat}

-- The number that holds some fields of a width, the first of them in the lowest
-- bits.
def pack (width : Nat) : List Nat → Nat
  | [] => 0
  | x :: xs => 2 ^ width * pack width xs + x

theorem pack_lt (h : ∀ x ∈ xs, x < 2 ^ width) : pack width xs < 2 ^ (width * xs.length) := by
  induction xs with
  | nil => exact Nat.two_pow_pos _
  | cons x xs ih =>
      have hx := h x List.mem_cons_self
      have hxs := ih fun y hy => h y (List.mem_cons_of_mem x hy)
      have hpow : 2 ^ (width * (xs.length + 1)) = 2 ^ width * 2 ^ (width * xs.length) := by
        rw [Nat.mul_succ, Nat.pow_add, Nat.mul_comm]
      have hstep := Nat.mul_le_mul_left (2 ^ width) hxs
      rw [Nat.mul_succ] at hstep
      rw [pack, List.length_cons, hpow]
      omega

-- The fields can be read back.
theorem pack_injective {ys : List Nat} (hx : ∀ x ∈ xs, x < 2 ^ width) (hy : ∀ y ∈ ys, y < 2 ^ width)
    (hlen : xs.length = ys.length) (h : pack width xs = pack width ys) : xs = ys := by
  induction xs generalizing ys with
  | nil => exact (List.length_eq_zero_iff.mp hlen.symm).symm
  | cons x xs ih =>
      cases ys with
      | nil => cases hlen
      | cons y ys =>
          have hxlt := hx x List.mem_cons_self
          have hylt := hy y List.mem_cons_self
          rw [pack, pack] at h
          have hlow := congrArg (· % 2 ^ width) h
          simp only [Nat.mul_add_mod, Nat.mod_eq_of_lt hxlt, Nat.mod_eq_of_lt hylt] at hlow
          have hhigh : 2 ^ width * pack width xs = 2 ^ width * pack width ys := by omega
          have hrest := ih (fun z hz => hx z (List.mem_cons_of_mem x hz))
            (fun z hz => hy z (List.mem_cons_of_mem y hz)) (Nat.succ.inj hlen)
            (Nat.eq_of_mul_eq_mul_left (Nat.two_pow_pos width) hhigh)
          rw [hlow, hrest]

theorem pack_field (h : ∀ x ∈ xs, x < 2 ^ width) (k : Nat) :
    pack width xs / 2 ^ (width * k) % 2 ^ width = xs.getD k 0 := by
  induction xs generalizing k with
  | nil => simp [pack]
  | cons x xs ih =>
      have hx := h x List.mem_cons_self
      cases k with
      | zero => rw [pack, Nat.mul_zero, Nat.pow_zero, Nat.div_one, Nat.mul_add_mod, Nat.mod_eq_of_lt hx, List.getD_cons_zero]
      | succ k =>
          have hrest := ih (fun y hy => h y (List.mem_cons_of_mem x hy)) k
          rw [pack, Nat.mul_succ, Nat.add_comm (width * k), Nat.pow_add, ← Nat.div_div_eq_div_mul,
            Nat.mul_add_div (Nat.two_pow_pos width), Nat.div_eq_of_lt hx, Nat.add_zero, hrest, List.getD_cons_succ]

-- Numbers are added field by field.
theorem pack_map_add (f g : Nat → Nat) :
    pack width (xs.map f) + pack width (xs.map g) = pack width (xs.map fun x => f x + g x) := by
  induction xs with
  | nil => rfl
  | cons x xs ih =>
      simp only [List.map_cons, pack, ← ih]
      ring

-- The fields below a mask that covers no bit of a neighbour.
theorem shift_and {k rest masks x mask : Nat} (hx : x < 2 ^ width) (hmask : mask < 2 ^ (width - k)) :
    ((2 ^ width * rest + x) >>> k) &&& (2 ^ width * masks + mask) =
      2 ^ width * ((rest >>> k) &&& masks) + ((x >>> k) &&& mask) := by
  have hlow : mask < 2 ^ width := Nat.lt_of_lt_of_le hmask (Nat.pow_le_pow_right (by decide) (by omega))
  have hand : (x >>> k) &&& mask < 2 ^ width := Nat.lt_of_le_of_lt Nat.and_le_right hlow
  apply Nat.eq_of_testBit_eq
  intro j
  rw [Nat.testBit_and, Nat.testBit_shiftRight, Nat.testBit_two_pow_mul_add _ hx,
    Nat.testBit_two_pow_mul_add _ hlow, Nat.testBit_two_pow_mul_add _ hand]
  by_cases hj : j < width
  · rw [if_pos hj, if_pos hj, Nat.testBit_and, Nat.testBit_shiftRight]
    by_cases hin : k + j < width
    · rw [if_pos hin]
    · -- The bits that come from the next field are masked out.
      have hout : mask.testBit j = false := by
        apply Nat.testBit_lt_two_pow
        exact Nat.lt_of_lt_of_le hmask (Nat.pow_le_pow_right (by decide) (by omega))
      rw [hout, Bool.and_false, Bool.and_false]
  · rw [if_neg hj, if_neg hj, if_neg (by omega), Nat.testBit_and, Nat.testBit_shiftRight]
    congr 2
    omega

theorem pack_shift_and {k mask : Nat} (hmask : mask < 2 ^ (width - k)) (h : ∀ x ∈ xs, x < 2 ^ width) :
    (pack width xs >>> k) &&& pack width (xs.map fun _ => mask) =
      pack width (xs.map fun x => (x >>> k) &&& mask) := by
  induction xs with
  | nil => exact Nat.and_zero _
  | cons x xs ih =>
      simp only [List.map_cons, pack]
      rw [shift_and (h x List.mem_cons_self) hmask, ih fun y hy => h y (List.mem_cons_of_mem x hy)]

end Pack

section Halves

variable {half : Nat}

-- Both halves of a field.
def halves (half x : Nat) : Nat := x % 2 ^ half + x / 2 ^ half

-- A field whose halves leave a bit free.
def Roomy (half x : Nat) : Prop := 2 * (x % 2 ^ half) < 2 ^ half ∧ 2 * (x / 2 ^ half) < 2 ^ half

instance (half x : Nat) : Decidable (Roomy half x) := inferInstanceAs (Decidable (_ ∧ _))

theorem Roomy.lt {x : Nat} (h : Roomy half x) : x < 2 ^ (half + half) := by
  have hdiv : x / 2 ^ half < 2 ^ half := by
    have := h.2
    omega
  rw [Nat.pow_add]
  exact (Nat.div_lt_iff_lt_mul (Nat.two_pow_pos half)).mp hdiv

-- What one field and the lowest half of the rest add to the folded number.
theorem fold_cons {x rest : Nat} :
    (2 ^ (half + half) * rest + x) + (2 ^ (half + half) * rest + x) / 2 ^ half =
      2 ^ (half + half) * (rest + rest / 2 ^ half) +
        (2 ^ half * (rest % 2 ^ half + x / 2 ^ half) + halves half x) := by
  have hpos := Nat.two_pow_pos half
  have hdiv : (2 ^ (half + half) * rest + x) / 2 ^ half = 2 ^ half * rest + x / 2 ^ half := by
    rw [Nat.pow_add, Nat.mul_assoc, Nat.mul_add_div hpos]
  have hx := Nat.div_add_mod x (2 ^ half)
  have hrest := Nat.div_add_mod rest (2 ^ half)
  rw [hdiv, halves, Nat.pow_add]
  generalize 2 ^ half = b at *
  generalize x / b = xhigh at *
  generalize x % b = xlow at *
  generalize rest / b = high at *
  generalize rest % b = low at *
  subst hx hrest
  ring

theorem pack_mod {x : Nat} {xs : List Nat} : pack (half + half) (x :: xs) % 2 ^ half = x % 2 ^ half := by
  rw [pack, Nat.pow_add, Nat.mul_assoc, Nat.mul_add_mod]

-- Adding a number to itself, moved by half a field, leaves the sum of both
-- halves in every field.
theorem pack_halves {xs : List Nat} (h : ∀ x ∈ xs, Roomy half x) :
    (pack (half + half) xs + pack (half + half) xs >>> half) &&&
        pack (half + half) (xs.map fun _ => 2 ^ half - 1) =
      pack (half + half) (xs.map (halves half)) := by
  have hpos := Nat.two_pow_pos half
  induction xs with
  | nil => exact Nat.and_zero _
  | cons x xs ih =>
      obtain ⟨hlow, hhigh⟩ := h x List.mem_cons_self
      have hrest : 2 * (pack (half + half) xs % 2 ^ half) < 2 ^ half := by
        cases xs with
        | nil => simp [pack]
        | cons y ys =>
            rw [pack_mod]
            exact (h y (List.mem_cons_of_mem x List.mem_cons_self)).1
      have hhalves : halves half x < 2 ^ half := by
        rw [halves]
        omega
      have hcarry : pack (half + half) xs % 2 ^ half + x / 2 ^ half + 1 ≤ 2 ^ half := by omega
      have hfield : 2 ^ half * (pack (half + half) xs % 2 ^ half + x / 2 ^ half) + halves half x <
          2 ^ (half + half) := by
        have hmul := Nat.mul_le_mul_left (2 ^ half) hcarry
        rw [Nat.mul_succ, ← Nat.pow_add] at hmul
        omega
      have hmask : 2 ^ half - 1 < 2 ^ (half + half - 0) := by
        have hle : 2 ^ half ≤ 2 ^ (half + half - 0) := Nat.pow_le_pow_right (by decide) (by omega)
        omega
      have hand := @shift_and (half + half) 0 (pack (half + half) xs + pack (half + half) xs / 2 ^ half)
        (pack (half + half) (xs.map fun _ => 2 ^ half - 1)) _ (2 ^ half - 1) hfield hmask
      have hih := ih fun y hy => h y (List.mem_cons_of_mem x hy)
      simp only [Nat.shiftRight_zero] at hand
      rw [Nat.shiftRight_eq_div_pow] at hih ⊢
      simp only [List.map_cons, pack]
      rw [fold_cons, hand, hih, Nat.and_two_pow_sub_one_eq_mod, Nat.mul_add_mod, Nat.mod_eq_of_lt hhalves]

end Halves

end Fields
