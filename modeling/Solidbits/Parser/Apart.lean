import Solidbits.Parser.Prefix
import Mathlib.Data.List.Pairwise

namespace Solidbits

open Mixing Fields

section Steps

variable {x y : UInt64} {p q : Bytes}

theorem rotl_injective {r : UInt64} (hpos : 0 < r.toNat) (hlt : r.toNat < 64) (h : xxhRotl64 x r = xxhRotl64 y r) :
    x = y := by
  have hinverse : ∀ x : UInt64, (xxhRotl64 x r).toBitVec >>> r.toNat |||
      (xxhRotl64 x r).toBitVec <<< (64 - r.toNat) = x.toBitVec := by
    intro x
    have hback : (64 - r).toNat = 64 - r.toNat := UInt64.toNat_sub_of_le _ _ (UInt64.le_iff_toNat_le.mpr hlt.le)
    have hword : (xxhRotl64 x r).toBitVec = x.toBitVec <<< r.toNat ||| x.toBitVec >>> (64 - r.toNat) := by
      apply BitVec.eq_of_toNat_eq
      have hleft : r.toNat % 64 = r.toNat := Nat.mod_eq_of_lt hlt
      have hright : (64 - r.toNat) % 64 = 64 - r.toNat := Nat.mod_eq_of_lt (by omega)
      rw [UInt64.toNat_toBitVec, xxhRotl64, UInt64.toNat_or, UInt64.toNat_shiftLeft, UInt64.toNat_shiftRight, hback,
        hleft, hright, BitVec.toNat_or, BitVec.toNat_shiftLeft, BitVec.toNat_ushiftRight]
      rfl
    rw [hword]
    exact rotate_inverse hlt.le x.toBitVec
  apply UInt64.toBitVec_inj.mp
  rw [← hinverse x, h, hinverse]

theorem prime5_unit : PRIME64_5 * 14236653164957433613 = 1 := by decide

theorem round_injective (h : xxh64Round 0 x = xxh64Round 0 y) : x = y := by
  simp only [xxh64Round, UInt64.zero_add] at h
  exact mul_injective prime2_unit (rotl_injective (by decide) (by decide) (mul_injective prime1_unit h))

theorem process8_injective (h : process8 x p = process8 y q) :
    x ^^^ xxh64Round 0 (xxhGet64bits p) = y ^^^ xxh64Round 0 (xxhGet64bits q) :=
  rotl_injective (by decide) (by decide) (mul_injective prime1_unit ((UInt64.add_left_inj PRIME64_4).mp h))

theorem process4_injective (h : process4 x p = process4 y q) :
    x ^^^ xxhGet32bits p * PRIME64_1 = y ^^^ xxhGet32bits q * PRIME64_1 :=
  rotl_injective (by decide) (by decide) (mul_injective prime2_unit ((UInt64.add_left_inj PRIME64_3).mp h))

theorem getBits_injective (hlen : p.length = q.length) (hshort : p.length ≤ 8) (h : xxhGetBits p = xxhGetBits q) :
    p = q := by
  have hnat := congrArg UInt64.toNat h
  rw [getBits_toNat p hshort, getBits_toNat q (hlen ▸ hshort)] at hnat
  have hbytes : ∀ p : Bytes, ∀ x ∈ p.map UInt8.toNat, x < 2 ^ 8 :=
    fun p => by simpa using fun byte _ => byte.toNat_lt
  have hsame := pack_injective (hbytes p) (hbytes q) (by simp [hlen]) hnat
  exact (List.map_inj_right fun _ _ he => UInt8.toNat_inj.mp he).mp hsame

-- What the hash makes of the next eight, four or single bytes.
def absorb (h64 : UInt64) (piece : Bytes) : UInt64 :=
  if piece.length = 8 then process8 h64 piece
  else if piece.length = 4 then process4 h64 piece
  else piece.foldl process1 h64

theorem process1_state_injective {byte : UInt8} (h : process1 x byte = process1 y byte) : x = y :=
  (UInt64.xor_left_inj _).mp (process1_injective h)

theorem foldl_process1_injective (h : p.foldl process1 x = p.foldl process1 y) : x = y := by
  induction p generalizing x y with
  | nil => exact h
  | cons byte p ih => exact process1_state_injective (ih h)

-- A piece takes different states to different ones, and a state different pieces.
theorem absorb_state_injective (h : absorb x p = absorb y p) : x = y := by
  unfold absorb at h
  split at h
  · exact (UInt64.xor_left_inj _).mp (process8_injective h)
  · split at h
    · exact (UInt64.xor_left_inj _).mp (process4_injective h)
    · exact foldl_process1_injective h

theorem absorb_piece_injective (hlen : p.length = q.length) (hsize : p.length = 8 ∨ p.length = 4 ∨ p.length = 1)
    (h : absorb x p = absorb x q) : p = q := by
  unfold absorb at h
  rw [← hlen] at h
  rcases hsize with height | hfour | hone
  · rw [if_pos height, if_pos height] at h
    have hword := round_injective ((UInt64.xor_right_inj _).mp (process8_injective h))
    rw [xxhGet64bits, xxhGet64bits, List.take_of_length_le (by omega), List.take_of_length_le (by omega)] at hword
    exact getBits_injective hlen (by omega) hword
  · have hnot : ¬p.length = 8 := by omega
    rw [if_neg hnot, if_neg hnot, if_pos hfour, if_pos hfour] at h
    have hword := mul_injective prime1_unit ((UInt64.xor_right_inj _).mp (process4_injective h))
    exact get32bits_injective hfour (hlen ▸ hfour) hword
  · have hnot : ¬p.length = 8 := by omega
    have hnot' : ¬p.length = 4 := by omega
    rw [if_neg hnot, if_neg hnot, if_neg hnot', if_neg hnot'] at h
    obtain ⟨byte, rfl⟩ := List.length_eq_one_iff.mp hone
    obtain ⟨byte', rfl⟩ := List.length_eq_one_iff.mp (hlen ▸ hone)
    have hbyte := mul_injective prime5_unit ((UInt64.xor_right_inj _).mp (process1_injective h))
    rw [List.singleton_inj]
    exact UInt8.toUInt64_inj.mp hbyte

end Steps

section Spans

-- Where the pieces of the last bytes are: their offsets and lengths.
def finalSpans (n : Nat) : List (Nat × Nat) :=
  (List.range (n / 8)).map (fun k => (8 * k, 8)) ++ (if 4 ≤ n % 8 then [(8 * (n / 8), 4)] else []) ++
    (List.range (n % 4)).map fun k => (4 * (n / 4) + k, 1)

-- The pieces of a key that are not in the blocks of 32 bytes.
def spans (n : Nat) : List (Nat × Nat) :=
  (finalSpans (n % 32)).map fun span => (32 * (n / 32) + span.1, span.2)

example : spans 45 = [(32, 8), (40, 4), (44, 1)] := by decide

def absorbSpan (p : Bytes) (h64 : UInt64) (span : Nat × Nat) : UInt64 :=
  absorb h64 (Padded.slice p span.1 span.2)

variable {p q : Bytes} {h64 : UInt64}

theorem slice_drop (p : Bytes) (a b count : Nat) : Padded.slice (p.drop a) b count = Padded.slice p (a + b) count := by
  rw [Padded.slice, Padded.slice, List.drop_drop]

theorem foldl_drop (p : Bytes) (a : Nat) (ts : List (Nat × Nat)) (h64 : UInt64) :
    ts.foldl (absorbSpan (p.drop a)) h64 = (ts.map fun span => (a + span.1, span.2)).foldl (absorbSpan p) h64 := by
  rw [List.foldl_map]
  exact foldl_same (fun span _ h64 => congrArg (absorb h64) (slice_drop p a span.1 span.2)) h64

theorem process8_span (h : 8 ≤ p.length) : absorbSpan p h64 (0, 8) = process8 h64 p := by
  have hlen : (Padded.slice p 0 8).length = 8 := by
    rw [Padded.slice, List.drop_zero, List.length_take]
    omega
  rw [absorbSpan, absorb, if_pos hlen, process8, process8, xxhGet64bits, xxhGet64bits, Padded.slice, List.drop_zero,
    List.take_take, Nat.min_self]

theorem process4_span (h : 4 ≤ p.length) : absorbSpan p h64 (0, 4) = process4 h64 p := by
  have hlen : (Padded.slice p 0 4).length = 4 := by
    rw [Padded.slice, List.drop_zero, List.length_take]
    omega
  have hnot : ¬(Padded.slice p 0 4).length = 8 := by omega
  rw [absorbSpan, absorb, if_neg hnot, if_pos hlen, process4, process4, xxhGet32bits, xxhGet32bits,
    Padded.slice, List.drop_zero, List.take_take, Nat.min_self]

theorem process8Loop_eq (n : Nat) (h : 8 * n ≤ p.length) : process8Loop n h64 p =
    (((List.range n).map fun k => (8 * k, 8)).foldl (absorbSpan p) h64, p.drop (8 * n)) := by
  induction n generalizing h64 p with
  | zero => rfl
  | succ n ih =>
      have hspans : (List.range (n + 1)).map (fun k => (8 * k, 8)) =
          (0, 8) :: ((List.range n).map fun k => (8 * k, 8)).map fun span => (8 + span.1, span.2) := by
        rw [List.range_succ_eq_map, List.map_cons, List.map_map, List.map_map]
        refine congrArg _ (List.map_congr_left fun k _ => ?_)
        simp only [Function.comp_apply, Prod.mk.injEq, and_true]
        omega
      rw [process8Loop, ih (by rw [List.length_drop]; omega), hspans, List.foldl_cons, process8_span (by omega),
        foldl_drop, List.drop_drop]
      congr 2
      omega

theorem foldl_process1_eq (p : Bytes) (h64 : UInt64) :
    p.foldl process1 h64 = ((List.range p.length).map fun k => (k, 1)).foldl (absorbSpan p) h64 := by
  induction p generalizing h64 with
  | nil => rfl
  | cons byte p ih =>
      have hspans : (List.range (p.length + 1)).map (fun k => (k, 1)) =
          (0, 1) :: ((List.range p.length).map fun k => (k, 1)).map fun span => (1 + span.1, span.2) := by
        rw [List.range_succ_eq_map, List.map_cons, List.map_map, List.map_map]
        refine congrArg _ (List.map_congr_left fun k _ => ?_)
        simp only [Function.comp_apply, Prod.mk.injEq, and_true]
        omega
      have hfirst : absorbSpan (byte :: p) h64 (0, 1) = process1 h64 byte := rfl
      rw [List.length_cons, hspans, List.foldl_cons, List.foldl_cons, hfirst, ← foldl_drop, ih]
      rfl

theorem finalize_eq (h64 : UInt64) (p : Bytes) :
    xxh64Finalize h64 p = xxh64Avalanche ((finalSpans p.length).foldl (absorbSpan p) h64) := by
  have heights := @process8Loop_eq p h64 (p.length / 8) (by omega)
  have hsingles : ∀ (a : Nat) (h64 : UInt64), (p.drop a).foldl process1 h64 =
      ((List.range (p.length - a)).map fun k => (a + k, 1)).foldl (absorbSpan p) h64 := by
    intro a h64
    rw [foldl_process1_eq, foldl_drop, List.map_map, List.length_drop]
    rfl
  unfold xxh64Finalize finalSpans
  simp only [heights, List.foldl_append, List.length_drop]
  by_cases hfour : 4 ≤ p.length % 8
  · have hrest : 4 ≤ p.length - 8 * (p.length / 8) := by omega
    have hsize : p.length - (8 * (p.length / 8) + 4) = p.length % 4 := by omega
    have hstart : 8 * (p.length / 8) + 4 = 4 * (p.length / 4) := by omega
    have hword := fun h64 => @process4_span (p.drop (8 * (p.length / 8))) h64 (by rw [List.length_drop]; omega)
    simp only [if_pos hfour, if_pos hrest, List.drop_drop, hsingles, hsize, List.foldl_cons, List.foldl_nil]
    rw [← hword, hstart, absorbSpan, slice_drop]
    rfl
  · have hrest : ¬4 ≤ p.length - 8 * (p.length / 8) := by omega
    have hsize : p.length - 8 * (p.length / 8) = p.length % 4 := by omega
    have hstart : 8 * (p.length / 8) = 4 * (p.length / 4) := by omega
    rw [if_neg hfour, if_neg hrest]
    simp only [hsingles, hsize, List.foldl_nil]
    rw [hstart]

theorem finalSpans_spec {n : Nat} {span : Nat × Nat} (h : span ∈ finalSpans n) :
    span.1 + span.2 ≤ n ∧ (span.2 = 8 ∨ span.2 = 4 ∨ span.2 = 1) := by
  rcases List.mem_append.mp h with h | h
  · rcases List.mem_append.mp h with h | h
    · obtain ⟨k, hk, rfl⟩ := List.mem_map.mp h
      have hlt := List.mem_range.mp hk
      exact ⟨by simp only; omega, Or.inl rfl⟩
    · split at h
      · rw [List.mem_singleton.mp h]
        exact ⟨by simp only; omega, Or.inr (Or.inl rfl)⟩
      · cases h
  · obtain ⟨k, hk, rfl⟩ := List.mem_map.mp h
    have hlt := List.mem_range.mp hk
    exact ⟨by simp only; omega, Or.inr (Or.inr rfl)⟩

-- The pieces follow one another.
theorem finalSpans_pairwise (n : Nat) :
    (finalSpans n).Pairwise fun span other => 0 < span.2 ∧ span.1 + span.2 ≤ other.1 := by
  have hrange : ∀ (a size m : Nat), 0 < size → ((List.range m).map fun k => (a + size * k, size)).Pairwise
      fun span other => 0 < span.2 ∧ span.1 + span.2 ≤ other.1 := by
    intro a size m hsize
    rw [List.pairwise_map]
    refine List.pairwise_lt_range.imp fun {i j} hlt => ⟨hsize, ?_⟩
    have hle : size * (i + 1) ≤ size * j := Nat.mul_le_mul_left size hlt
    rw [Nat.mul_succ] at hle
    omega
  refine List.pairwise_append.mpr ⟨List.pairwise_append.mpr ⟨?_, ?_, ?_⟩, ?_, ?_⟩
  · have heights := hrange 0 8 (n / 8) (by decide)
    simpa only [Nat.zero_add] using heights
  · split
    · exact List.pairwise_singleton _ _
    · exact List.Pairwise.nil
  · intro span hspan other hother
    obtain ⟨k, hk, rfl⟩ := List.mem_map.mp hspan
    have hlt := List.mem_range.mp hk
    split at hother
    · rw [List.mem_singleton.mp hother]
      exact ⟨Nat.succ_pos _, by simp only; omega⟩
    · cases hother
  · have hsingles := hrange (4 * (n / 4)) 1 (n % 4) (by decide)
    simpa only [Nat.one_mul] using hsingles
  · intro span hspan other hother
    obtain ⟨j, _, rfl⟩ := List.mem_map.mp hother
    rcases List.mem_append.mp hspan with hspan | hspan
    · obtain ⟨k, hk, rfl⟩ := List.mem_map.mp hspan
      have hlt := List.mem_range.mp hk
      exact ⟨Nat.succ_pos _, by simp only; omega⟩
    · split at hspan
      · rw [List.mem_singleton.mp hspan]
        exact ⟨Nat.succ_pos _, by simp only; omega⟩
      · cases hspan

end Spans

section Apart

variable {p q key other : Bytes} {h64 : UInt64} {seed : UInt64} {span : Nat × Nat}

theorem slice_same {a count : Nat} (h : ∀ i, a ≤ i → i < a + count → p[i]? = q[i]?) :
    Padded.slice p a count = Padded.slice q a count := by
  apply List.ext_getElem?
  intro i
  rw [Padded.slice, Padded.slice, List.getElem?_take, List.getElem?_take, List.getElem?_drop, List.getElem?_drop]
  split
  · exact h (a + i) (Nat.le_add_right a i) (by omega)
  · rfl

-- Bytes that differ in one piece only.
theorem finalize_apart (hlen : p.length = q.length) (hspan : span ∈ finalSpans p.length)
    (hsame : ∀ i, ¬(span.1 ≤ i ∧ i < span.1 + span.2) → p[i]? = q[i]?) (hne : p ≠ q) :
    xxh64Finalize h64 p ≠ xxh64Finalize h64 q := by
  have hkeeps : ∀ (x y : UInt64) (span : Nat × Nat), absorbSpan p x span = absorbSpan p y span → x = y :=
    fun _ _ _ h => absorb_state_injective h
  have hnodup : (finalSpans p.length).Nodup := by
    refine (finalSpans_pairwise p.length).imp ?_
    rintro span _ ⟨hpos, hle⟩ rfl
    omega
  have hothers : ∀ u ∈ finalSpans p.length, u ≠ span → ∀ x, absorbSpan p x u = absorbSpan q x u := by
    intro u hu hother x
    have hdisjoint : (finalSpans p.length).Pairwise fun a b => a.1 + a.2 ≤ b.1 ∨ b.1 + b.2 ≤ a.1 :=
      (finalSpans_pairwise p.length).imp fun hle => Or.inl hle.2
    have hsymm : Std.Symm fun a b : Nat × Nat => a.1 + a.2 ≤ b.1 ∨ b.1 + b.2 ≤ a.1 := ⟨fun _ _ => Or.symm⟩
    have happart := hdisjoint.forall hspan hu (Ne.symm hother)
    refine congrArg (absorb x) (slice_same fun i hlow hhigh => hsame i ?_)
    omega
  have hdiffers : ∀ x, absorbSpan p x span ≠ absorbSpan q x span := by
    intro x hpiece
    obtain ⟨hinside, hsize⟩ := finalSpans_spec hspan
    have hslice : (Padded.slice p span.1 span.2).length = span.2 := by
      rw [Padded.slice, List.length_take, List.length_drop]
      omega
    have hslice' : (Padded.slice q span.1 span.2).length = span.2 := by
      rw [Padded.slice, List.length_take, List.length_drop]
      omega
    have hpieces := absorb_piece_injective (hslice.trans hslice'.symm) (by rwa [hslice]) hpiece
    apply hne
    apply List.ext_getElem?
    intro i
    by_cases hin : span.1 ≤ i ∧ i < span.1 + span.2
    · have hget := congrArg (·[i - span.1]?) hpieces
      have hback : span.1 + (i - span.1) = i := by omega
      simp only [Padded.slice, List.getElem?_take, List.getElem?_drop, hback] at hget
      rwa [if_pos (by omega), if_pos (by omega)] at hget
    · exact hsame i hin
  rw [finalize_eq, finalize_eq, ← hlen]
  intro h
  exact foldl_apart hkeeps hnodup hspan hothers hdiffers h64 (avalanche_injective h)

theorem get64_take (p : Bytes) {a m : Nat} (h : a + 8 ≤ m) :
    xxhGet64bits (p.drop a) = xxhGet64bits ((p.take m).drop a) := by
  rw [xxhGet64bits, xxhGet64bits, List.drop_take, List.take_take, Nat.min_eq_left (by omega)]

theorem blocks_same (n : Nat) (lanes : Lanes) (h : p.take (32 * n) = q.take (32 * n)) :
    (xxh64Blocks n lanes p).1 = (xxh64Blocks n lanes q).1 := by
  induction n generalizing lanes p q with
  | zero => rfl
  | succ n ih =>
      have hword : ∀ a, a + 8 ≤ 32 → xxhGet64bits (p.drop a) = xxhGet64bits (q.drop a) := by
        intro a ha
        rw [get64_take p (show a + 8 ≤ 32 * (n + 1) by omega), h, ← get64_take q (by omega)]
      have hzero := hword 0 (by decide)
      rw [List.drop_zero, List.drop_zero] at hzero
      simp only [xxh64Blocks, hzero, hword 8 (by decide), hword 16 (by decide), hword 24 (by decide)]
      apply ih
      have hrest := congrArg (List.drop 32) h
      rw [List.drop_take, List.drop_take] at hrest
      exact hrest

theorem blocks_rest (n : Nat) (lanes : Lanes) (p : Bytes) : (xxh64Blocks n lanes p).2 = p.drop (32 * n) := by
  induction n generalizing lanes p with
  | zero => rfl
  | succ n ih =>
      rw [xxh64Blocks, ih, List.drop_drop]
      congr 1
      omega

-- Keys that begin with the same blocks come to the rest in one state.
theorem xxh64_rest (seed : UInt64) (hlen : key.length = other.length)
    (hblocks : key.take (32 * (key.length / 32)) = other.take (32 * (key.length / 32))) :
    ∃ h64, xxh64 key seed = xxh64Finalize h64 (key.drop (32 * (key.length / 32))) ∧
      xxh64 other seed = xxh64Finalize h64 (other.drop (32 * (key.length / 32))) := by
  unfold xxh64
  rw [← hlen]
  by_cases hlong : 32 ≤ key.length
  · simp only [if_pos hlong, blocks_rest, blocks_same _ _ hblocks]
    exact ⟨_, rfl, rfl⟩
  · have hzero : key.length / 32 = 0 := Nat.div_eq_of_lt (Nat.not_le.mp hlong)
    simp only [if_neg hlong, hzero, Nat.mul_zero, List.drop_zero]
    exact ⟨_, rfl, rfl⟩

-- Keys of one length that differ within one piece have different hashes.
theorem hash_apart (seed : UInt64) (hlen : key.length = other.length) (hspan : span ∈ spans key.length)
    (hsame : ∀ i, ¬(span.1 ≤ i ∧ i < span.1 + span.2) → key[i]? = other[i]?) (hne : key ≠ other) :
    xxh64 key seed ≠ xxh64 other seed := by
  obtain ⟨rest, hrest, rfl⟩ := List.mem_map.mp hspan
  have hsize : (key.drop (32 * (key.length / 32))).length = key.length % 32 := by
    rw [List.length_drop]
    omega
  have hblocks : key.take (32 * (key.length / 32)) = other.take (32 * (key.length / 32)) := by
    apply List.ext_getElem?
    intro i
    rw [List.getElem?_take, List.getElem?_take]
    split
    · exact hsame i (by simp only; omega)
    · rfl
  obtain ⟨h64, hkey, hother⟩ := xxh64_rest seed hlen hblocks
  rw [hkey, hother]
  refine finalize_apart (by rw [List.length_drop, List.length_drop, hlen]) (hsize.symm ▸ hrest) ?_ ?_
  · intro i hout
    rw [List.getElem?_drop, List.getElem?_drop]
    exact hsame _ (by simp only; omega)
  · intro he
    apply hne
    rw [← List.take_append_drop (32 * (key.length / 32)) key, hblocks, he, List.take_append_drop]

-- Two numbered keys.
theorem hash_apart_numbered : xxh64 (str "user:0001") 0 ≠ xxh64 (str "user:0002") 0 := by
  refine @hash_apart (str "user:0001") (str "user:0002") (8, 1) 0 (by decide) (by decide) ?_ (by decide)
  intro i hout
  rcases Nat.lt_or_ge i 8 with hlt | hge
  · have hfirst : ∀ i < 8, (str "user:0001")[i]? = (str "user:0002")[i]? := by decide
    exact hfirst i hlt
  · rw [List.getElem?_eq_none, List.getElem?_eq_none]
    · change 9 ≤ i
      omega
    · change 9 ≤ i
      omega

end Apart

end Solidbits
