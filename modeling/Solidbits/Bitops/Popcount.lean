import Solidbits.Bitops.Defs
import Solidbits.Lib.Fields
import Mathlib.Algebra.BigOperators.Fin
import Mathlib.Algebra.BigOperators.Intervals
import Mathlib.Algebra.Order.BigOperators.Group.Finset

namespace Solidbits

open Fields

section Ones

-- The number of set bits.
def ones (byte : UInt8) : Nat := ((Finset.range 8).filter fun k : Nat => bitOf byte k = 1).card

def onesIn (bytes : Bytes) : Nat := (bytes.map ones).sum

@[simp] theorem onesIn_append (xs ys : Bytes) : onesIn (xs ++ ys) = onesIn xs + onesIn ys := by
  simp [onesIn]

theorem bitsinbyte_ones : bitsinbyte = (List.range 256).map fun n => ones (UInt8.ofNat n) := by
  decide +kernel

theorem bitsinbyte_eq (byte : UInt8) : bitsinbyte.getD byte.toNat 0 = ones byte := by
  rw [bitsinbyte_ones, List.getD_eq_getElem?_getD, List.getElem?_map, List.getElem?_range byte.toNat_lt]
  exact congrArg ones UInt8.ofNat_toNat

end Ones

section Word

variable {word : UInt32} {xs : List Nat}

-- The number of set bits in either half of a byte.
def pairBits (x : Nat) : Nat :=
  let x := x - ((x >>> 1) &&& 0x55)
  (x &&& 0x33) + ((x >>> 2) &&& 0x33)

theorem pairBits_halves : ∀ x < 256, Roomy 4 (pairBits x) ∧ halves 4 (pairBits x) = ones (UInt8.ofNat x) := by
  decide +kernel

-- A word with a number in every byte.
structure Packs (word : UInt32) (xs : List Nat) : Prop where
  toNat : word.toNat = pack 8 xs
  length : xs.length = 4
  bytes : ∀ x ∈ xs, x < 2 ^ 8

theorem Packs.of_mod (h : word.toNat = pack 8 xs % 2 ^ 32) (hlength : xs.length = 4)
    (hbytes : ∀ x ∈ xs, x < 2 ^ 8) : Packs word xs := by
  have hlt := pack_lt hbytes
  rw [hlength] at hlt
  exact ⟨h.trans (Nat.mod_eq_of_lt hlt), hlength, hbytes⟩

theorem packs_mask (h : xs.length = 4) {mask : UInt32} {m : Nat} (hmask : mask.toNat = pack 8 [m, m, m, m]) :
    mask.toNat = pack 8 (xs.map fun _ => m) := by
  rw [hmask, List.map_const', h]
  rfl

theorem Packs.shiftMask (h : Packs word xs) {shift mask : UInt32} {k m : Nat} (hshift : shift.toNat % 32 = k)
    (hmask : mask.toNat = pack 8 [m, m, m, m]) (hm : m < 2 ^ (8 - k)) :
    Packs ((word >>> shift) &&& mask) (xs.map fun x => (x >>> k) &&& m) := by
  refine ⟨?_, by simp [h.length], ?_⟩
  · rw [UInt32.toNat_and, UInt32.toNat_shiftRight, hshift, h.toNat, packs_mask h.length hmask,
      pack_shift_and hm h.bytes]
  · intro x hx
    obtain ⟨y, _, rfl⟩ := List.mem_map.mp hx
    exact Nat.lt_of_le_of_lt Nat.and_le_right
      (Nat.lt_of_lt_of_le hm (Nat.pow_le_pow_right (by decide) (by omega)))

theorem Packs.mask (h : Packs word xs) {mask : UInt32} {m : Nat} (hmask : mask.toNat = pack 8 [m, m, m, m])
    (hm : m < 2 ^ 8) : Packs (word &&& mask) (xs.map fun x => x &&& m) := by
  have hshift := @Packs.shiftMask word xs h 0 mask 0 m rfl hmask hm
  rwa [UInt32.shiftRight_zero] at hshift

variable {left right : UInt32} {f g : Nat → Nat}

theorem Packs.add (hl : Packs left (xs.map f)) (hr : Packs right (xs.map g))
    (hlt : ∀ x ∈ xs, f x + g x < 2 ^ 8) : Packs (left + right) (xs.map fun x => f x + g x) := by
  refine Packs.of_mod ?_ (by simpa using hl.length) (by simpa using hlt)
  rw [UInt32.toNat_add, hl.toNat, hr.toNat, pack_map_add]

theorem Packs.sub (hl : Packs left xs) (hr : Packs right (xs.map g)) (hle : ∀ x ∈ xs, g x ≤ x) :
    Packs (left - right) (xs.map fun x => x - g x) := by
  have hback : right.toNat + pack 8 (xs.map fun x => x - g x) = left.toNat := by
    have hsame : (xs.map fun x => g x + (x - g x)) = xs :=
      (List.map_congr_left fun x hx => Nat.add_sub_cancel' (hle x hx)).trans (List.map_id xs)
    rw [hr.toNat, hl.toNat, pack_map_add, hsame]
  have hle : right ≤ left := UInt32.le_iff_toNat_le.mpr (by omega)
  refine ⟨?_, by simpa using hl.length, ?_⟩
  · rw [UInt32.toNat_sub_of_le _ _ hle]
    omega
  · intro x hx
    obtain ⟨y, hy, rfl⟩ := List.mem_map.mp hx
    exact Nat.lt_of_le_of_lt (Nat.sub_le _ _) (hl.bytes y hy)

theorem sumPairs_packs (h : Packs word xs) : Packs (sumPairs word) (xs.map pairBits) := by
  have hsub := h.sub (@Packs.shiftMask word xs h 1 0x55555555 1 0x55 rfl rfl (by decide))
    fun x _ => Nat.le_trans Nat.and_le_left (Nat.shiftRight_le x 1)
  have hlow := @Packs.mask _ _ hsub 0x33333333 0x33 rfl (by decide)
  have hhigh := @Packs.shiftMask _ _ hsub 2 0x33333333 2 0x33 rfl rfl (by decide)
  rw [List.map_map] at hlow hhigh
  exact hlow.add hhigh fun x hx => (pairBits_halves x (h.bytes x hx)).1.lt

theorem sumNibbles_packs (h : Packs word xs) (hroomy : ∀ x ∈ xs, Roomy 4 x) :
    Packs (sumNibbles word) (xs.map (halves 4)) := by
  have hbytes : ∀ x ∈ xs.map (halves 4), x < 2 ^ 4 := by
    intro x hx
    obtain ⟨y, hy, rfl⟩ := List.mem_map.mp hx
    obtain ⟨hlow, hhigh⟩ := hroomy y hy
    rw [halves]
    omega
  refine ⟨?_, by simp [h.length], fun x hx => Nat.lt_trans (hbytes x hx) (by decide)⟩
  have hmask : (0x0F0F0F0F : UInt32).toNat = pack 8 (xs.map fun _ => 2 ^ 4 - 1) := packs_mask h.length rfl
  have hfold : word.toNat + word.toNat >>> 4 &&& (0x0F0F0F0F : UInt32).toNat = pack 8 (xs.map (halves 4)) := by
    rw [hmask, h.toNat]
    exact pack_halves hroomy
  have hfits : (0x0F0F0F0F : UInt32).toNat % 2 ^ 32 = (0x0F0F0F0F : UInt32).toNat := rfl
  have hlt : word.toNat + word.toNat >>> 4 &&& (0x0F0F0F0F : UInt32).toNat < 2 ^ 32 :=
    Nat.lt_of_le_of_lt Nat.and_le_right (by decide)
  rw [sumNibbles, UInt32.toNat_and, UInt32.toNat_add, UInt32.toNat_shiftRight, ← hfold, ← hfits,
    ← Nat.and_mod_two_pow, hfits]
  exact Nat.mod_eq_of_lt hlt

-- The count of a word is the counts of its bytes.
theorem counts_packs (h : Packs word xs) :
    Packs (sumNibbles (sumPairs word)) (xs.map fun x => ones (UInt8.ofNat x)) := by
  have hroomy : ∀ x ∈ xs.map pairBits, Roomy 4 x := by
    intro x hx
    obtain ⟨y, hy, rfl⟩ := List.mem_map.mp hx
    exact (pairBits_halves y (h.bytes y hy)).1
  have hcounts : (xs.map pairBits).map (halves 4) = xs.map fun x => ones (UInt8.ofNat x) := by
    rw [List.map_map]
    exact List.map_congr_left fun x hx => (pairBits_halves x (h.bytes x hx)).2
  rw [← hcounts]
  exact sumNibbles_packs (sumPairs_packs h) hroomy

theorem or_shiftLeft {low i : Nat} (h : low < 2 ^ i) (x : Nat) : low ||| x <<< i = 2 ^ i * x + low := by
  rw [Nat.or_comm, ← Nat.shiftLeft_add_eq_or_of_lt h, Nat.shiftLeft_eq, Nat.mul_comm]

theorem byte_shiftLeft (byte : UInt8) {shift : UInt32} {i : Nat} (hshift : shift.toNat % 32 = i) (hi : i ≤ 24) :
    (byte.toUInt32 <<< shift).toNat = byte.toNat <<< i := by
  have hlt : byte.toNat <<< i < 2 ^ 32 := by
    have hpow : 2 ^ i ≤ 2 ^ 24 := Nat.pow_le_pow_right (by decide) hi
    have hmul := Nat.mul_le_mul (Nat.le_of_lt_succ byte.toNat_lt) hpow
    rw [Nat.shiftLeft_eq]
    omega
  rw [UInt32.toNat_shiftLeft, hshift, UInt8.toNat_toUInt32, Nat.mod_eq_of_lt hlt]

theorem join_packs (b0 b1 b2 b3 : UInt8) :
    Packs (b0.toUInt32 ||| b1.toUInt32 <<< 8 ||| b2.toUInt32 <<< 16 ||| b3.toUInt32 <<< 24)
      [b0.toNat, b1.toNat, b2.toNat, b3.toNat] := by
  have h0 := b0.toNat_lt
  have h1 := b1.toNat_lt
  have h2 := b2.toNat_lt
  refine ⟨?_, rfl, ?_⟩
  · simp only [UInt32.toNat_or, UInt8.toNat_toUInt32]
    rw [@byte_shiftLeft _ 8 8 rfl (by decide), @byte_shiftLeft _ 16 16 rfl (by decide),
      @byte_shiftLeft _ 24 24 rfl (by decide)]
    generalize b0.toNat = b0 at *
    generalize b1.toNat = b1 at *
    generalize b2.toNat = b2 at *
    rw [@or_shiftLeft b0 8 h0 b1, @or_shiftLeft (2 ^ 8 * b1 + b0) 16 (by omega) b2,
      @or_shiftLeft (2 ^ 16 * b2 + (2 ^ 8 * b1 + b0)) 24 (by omega)]
    simp only [pack]
    omega
  · simp only [List.mem_cons, List.not_mem_nil, or_false]
    rintro x (rfl | rfl | rfl | rfl) <;> exact UInt8.toNat_lt _

end Word

section Blocks

variable {word : UInt32} {p : Bytes}

theorem ones_le (byte : UInt8) : ones byte ≤ 8 := Finset.card_filter_le _ _

theorem onesIn_take (p : Bytes) (n : Nat) :
    onesIn (p.take n) = ∑ j ∈ Finset.range n, ones (Padded.get p j) := by
  induction n with
  | zero => rfl
  | succ n ih =>
      have hget : Padded.get p n = p[n]?.getD 0 := List.getD_eq_getElem?_getD
      rw [List.take_add_one, onesIn_append, ih, Finset.sum_range_succ, hget]
      cases p[n]? with
      | none => rfl
      | some byte => exact congrArg _ (List.sum_singleton)

-- The memory offsets of the bytes of a word, the lowest byte first.
def ByteOrder.offsets : ByteOrder → List Nat
  | .little => [0, 1, 2, 3]
  | .big => [3, 2, 1, 0]

theorem load_packs (order : ByteOrder) (p : Bytes) :
    Packs (order.load p) (order.offsets.map fun k => (p.getD k 0).toNat) := by
  cases order with
  | little => exact join_packs _ _ _ _
  | big => exact join_packs _ _ _ _

-- The counts of the i-th word of a block.
def wordCounts (p : Bytes) (i k : Nat) : Nat := ones (Padded.get p (4 * i + k))

-- aux1 to aux7 of the round over a block.
def blockAux (load : Bytes → UInt32) (p : Bytes) (i : Nat) : UInt32 := sumNibbles (sumPairs (load (p.drop (4 * i))))

theorem blockAux_packs (order : ByteOrder) (p : Bytes) (i : Nat) :
    Packs (blockAux order.load p i) (order.offsets.map (wordCounts p i)) := by
  have hpacks := counts_packs (load_packs order (p.drop (4 * i)))
  have hcount : ∀ k, ones (UInt8.ofNat ((p.drop (4 * i)).getD k 0).toNat) = wordCounts p i k := by
    intro k
    rw [UInt8.ofNat_toNat, wordCounts, Padded.get, List.getD_eq_getElem?_getD, List.getD_eq_getElem?_getD,
      List.getElem?_drop]
  rw [List.map_map] at hpacks
  exact List.map_congr_left (fun k _ => hcount k) ▸ hpacks

-- The product adds up the bytes of a word in its highest byte.
theorem packs_product {a b c d : Nat} (h : Packs word [a, b, c, d]) (hlt : a + b + c + d < 2 ^ 8) :
    ((word * 0x01010101) >>> 24).toNat = a + b + c + d := by
  have hword := h.toNat
  have hmul : (0x01010101 : UInt32).toNat = 0x01010101 := rfl
  have hshift : (24 : UInt32).toNat % 32 = 24 := rfl
  have hproduct : word.toNat * 0x01010101 =
      2 ^ 32 * (d * 0x010101 + c * 0x0101 + b) +
        (2 ^ 24 * (a + b + c + d) + (2 ^ 16 * (a + b + c) + 2 ^ 8 * (a + b) + a)) := by
    rw [hword]
    simp only [pack]
    omega
  rw [UInt32.toNat_shiftRight, UInt32.toNat_mul, hmul, hshift, hproduct, Nat.mul_add_mod,
    Nat.mod_eq_of_lt (by omega), Nat.shiftRight_eq_div_pow]
  omega

-- Adding the counts of another word.
theorem Packs.addCounts {order : ByteOrder} {i n : Nat} {f : Nat → Nat} (h : Packs word (order.offsets.map f))
    (hle : ∀ k, f k ≤ 8 * n) (hn : n < 31) (p : Bytes) :
    Packs (word + blockAux order.load p i) (order.offsets.map fun k => f k + wordCounts p i k) ∧
      ∀ k, f k + wordCounts p i k ≤ 8 * (n + 1) := by
  have hsum : ∀ k, f k + wordCounts p i k ≤ 8 * (n + 1) := by
    intro k
    have hfirst := hle k
    have hsecond : wordCounts p i k ≤ 8 := ones_le _
    omega
  refine ⟨h.add (blockAux_packs order p i) fun k _ => ?_, hsum⟩
  have hk := hsum k
  omega

-- The counts of a block, added up byte by byte of the seven words.
theorem block_packs (order : ByteOrder) (p : Bytes) : ∃ f : Nat → Nat,
    Packs (blockAux order.load p 0 + blockAux order.load p 1 + blockAux order.load p 2 + blockAux order.load p 3 +
      blockAux order.load p 4 + blockAux order.load p 5 + blockAux order.load p 6) (order.offsets.map f) ∧
    ∀ k, f k = ∑ i ∈ Finset.range 7, wordCounts p i k := by
  obtain ⟨h1, hle1⟩ := @Packs.addCounts _ order 1 1 _ (blockAux_packs order p 0) (fun k => ones_le _) (by decide) p
  obtain ⟨h2, hle2⟩ := @Packs.addCounts _ order 2 2 _ h1 hle1 (by decide) p
  obtain ⟨h3, hle3⟩ := @Packs.addCounts _ order 3 3 _ h2 hle2 (by decide) p
  obtain ⟨h4, hle4⟩ := @Packs.addCounts _ order 4 4 _ h3 hle3 (by decide) p
  obtain ⟨h5, hle5⟩ := @Packs.addCounts _ order 5 5 _ h4 hle4 (by decide) p
  obtain ⟨h6, hle6⟩ := @Packs.addCounts _ order 6 6 _ h5 hle5 (by decide) p
  refine ⟨_, h6, fun k => ?_⟩
  simp only [Finset.sum_range_succ, Finset.sum_range_zero, Nat.zero_add]

theorem wordCounts_sum_le (p : Bytes) (k : Nat) : ∑ i ∈ Finset.range 7, wordCounts p i k ≤ 56 :=
  Finset.sum_le_card_nsmul _ _ 8 fun _ _ => ones_le _

theorem popcountBlock_eq (order : ByteOrder) (p : Bytes) : popcountBlock order.load p = onesIn (p.take 28) := by
  obtain ⟨f, hpacks, hf⟩ := block_packs order p
  have hle : ∀ k, f k ≤ 56 := fun k => hf k ▸ wordCounts_sum_le p k
  have h0 := hle 0
  have h1 := hle 1
  have h2 := hle 2
  have h3 := hle 3
  have hsum : onesIn (p.take 28) = f 0 + f 1 + f 2 + f 3 := by
    rw [onesIn_take, hf, hf, hf, hf]
    simp only [wordCounts, Finset.sum_range_succ, Finset.sum_range_zero, Nat.reduceMul, Nat.reduceAdd]
    omega
  rw [hsum]
  cases order with
  | little => exact packs_product hpacks (by omega)
  | big =>
      refine (packs_product hpacks (by omega)).trans ?_
      omega

-- Unfolding both sides at once keeps the kernel from evaluating a block.
theorem popcountBlocks_succ (load : Bytes → UInt32) (n : Nat) (p : Bytes) (bits : Nat) :
    popcountBlocks load (n + 1) p bits = popcountBlocks load n (p.drop 28) (bits + popcountBlock load p) := by
  delta popcountBlocks
  rfl

theorem popcountBlocks_eq (order : ByteOrder) {n : Nat} {p : Bytes} (bits : Nat) :
    popcountBlocks order.load n p bits = (bits + onesIn (p.take (28 * n)), p.drop (28 * n)) := by
  induction n generalizing p bits with
  | zero => rfl
  | succ n ih =>
      rw [popcountBlocks_succ, ih, popcountBlock_eq, List.drop_drop, Nat.mul_succ, Nat.add_comm (28 * n),
        List.take_add, onesIn_append, Nat.add_assoc]

theorem foldl_bitsinbyte (bytes : Bytes) (bits : Nat) :
    bytes.foldl (fun bits byte => bits + bitsinbyte.getD byte.toNat 0) bits = bits + onesIn bytes := by
  induction bytes generalizing bits with
  | nil => rfl
  | cons byte bytes ih =>
      rw [List.foldl_cons, ih, bitsinbyte_eq, Nat.add_assoc]
      rfl

-- Blocks and single bytes together count the set bits.
theorem redisPopcountWith_eq (order : ByteOrder) (s : Bytes) (count : Nat) :
    redisPopcountWith order.load s count = onesIn (s.take count) := by
  have hcount : 28 * (count / 28) + count % 28 = count := Nat.div_add_mod count 28
  rw [redisPopcountWith, popcountBlocks_eq, Nat.zero_add]
  simp only
  rw [foldl_bitsinbyte, ← onesIn_append, ← List.take_add, hcount]

theorem redisPopcount_eq (s : Bytes) (count : Nat) : redisPopcount s count = onesIn (s.take count) :=
  redisPopcountWith_eq .little s count

end Blocks

section Lanes

variable {word : UInt32} {xs : List Nat}

-- A byte lane of a word.
def lane (word : UInt32) (k : Nat) : Nat := word.toNat / 2 ^ (8 * k) % 2 ^ 8

theorem Packs.lane (h : Packs word xs) (k : Nat) : lane word k = xs.getD k 0 := by
  rw [Solidbits.lane, h.toNat, pack_field h.bytes]

-- The seven words of a block are added up without a carry out of a lane, and so
-- are the four lanes in the product.
structure Carryless (load : Bytes → UInt32) (p : Bytes) : Prop where
  lanes : ∀ k < 4, ∑ i ∈ Finset.range 7, lane (blockAux load p i) k < 2 ^ 8
  product : ∑ k ∈ Finset.range 4, ∑ i ∈ Finset.range 7, lane (blockAux load p i) k < 2 ^ 8

theorem lane_le (order : ByteOrder) (p : Bytes) (i k : Nat) : lane (blockAux order.load p i) k ≤ 8 := by
  rw [(blockAux_packs order p i).lane, List.getD_eq_getElem?_getD, List.getElem?_map]
  cases order.offsets[k]? with
  | none => exact Nat.zero_le 8
  | some offset => exact ones_le _

theorem carryless (order : ByteOrder) (p : Bytes) : Carryless order.load p := by
  have hlane : ∀ k, ∑ i ∈ Finset.range 7, lane (blockAux order.load p i) k ≤ 56 := fun k =>
    Finset.sum_le_card_nsmul _ _ 8 fun i _ => lane_le order p i k
  constructor
  · exact fun k _ => Nat.lt_of_le_of_lt (hlane k) (by decide)
  · have hsum := Finset.sum_le_card_nsmul (Finset.range 4) _ 56 fun k _ => hlane k
    exact Nat.lt_of_le_of_lt hsum (by decide)

-- In either byte order the fast path adds up the counts of the bytes, and no
-- block of it carries from one lane into the next.
theorem popcount_sums_ones (order : ByteOrder) (s : Bytes) (count : Nat) (hcount : count ≤ s.length) :
    redisPopcountWith order.load s count = ∑ i : Fin count, ones (s.get (i.castLE hcount)) ∧
      ∀ block < count / 28, Carryless order.load (s.drop (28 * block)) := by
  refine ⟨?_, fun block _ => carryless order _⟩
  rw [redisPopcountWith_eq, onesIn_take, Finset.sum_range]
  refine Finset.sum_congr rfl fun i _ => ?_
  have hlt : (i : Nat) < s.length := Nat.lt_of_lt_of_le i.isLt hcount
  rw [Padded.get, List.getD_eq_getElem?_getD, List.getElem?_eq_getElem hlt]
  rfl

theorem popcount_sums_ones_thirty :
    redisPopcountWith ByteOrder.big.load (List.replicate 30 255) 30 =
        ∑ i : Fin 30, ones ((List.replicate 30 255).get (i.castLE (by decide))) ∧
      ∀ block < 30 / 28, Carryless ByteOrder.big.load ((List.replicate 30 255).drop (28 * block)) :=
  popcount_sums_ones .big (List.replicate 30 255) 30 (by decide)

end Lanes

end Solidbits
