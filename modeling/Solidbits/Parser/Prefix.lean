import Solidbits.Lib.Fields
import Solidbits.Lib.Mixing
import Solidbits.Parser.Request

namespace Solidbits

open Mixing Fields

section Hash

variable {h64 x y : UInt64}

-- The last steps of the hash lose nothing.
theorem xorShift_33 (h : x ^^^ x >>> 33 = y ^^^ y >>> 33) : x = y := by
  apply UInt64.toBitVec_inj.mp
  exact xorShift_injective (k := 33) (by decide) (congrArg UInt64.toBitVec h)

theorem xorShift_29 (h : x ^^^ x >>> 29 = y ^^^ y >>> 29) : x = y := by
  apply UInt64.toBitVec_inj.mp
  exact xorShift_injective (k := 29) (by decide) (congrArg UInt64.toBitVec h)

theorem xorShift_32 (h : x ^^^ x >>> 32 = y ^^^ y >>> 32) : x = y := by
  apply UInt64.toBitVec_inj.mp
  exact xorShift_injective (k := 32) (by decide) (congrArg UInt64.toBitVec h)

theorem prime1_unit : PRIME64_1 * 614540362697595703 = 1 := by decide

theorem prime2_unit : PRIME64_2 * 839798700976720815 = 1 := by decide

theorem prime3_unit : PRIME64_3 * 16855272203555305545 = 1 := by decide

theorem avalanche_injective (h : xxh64Avalanche x = xxh64Avalanche y) : x = y :=
  xorShift_33 (mul_injective prime2_unit (xorShift_29 (mul_injective prime3_unit (xorShift_32 h))))

theorem rotate_11 (h : xxhRotl64 x 11 = xxhRotl64 y 11) : x = y := by
  have hinverse : ∀ x : UInt64, (xxhRotl64 x 11 >>> 11 ||| xxhRotl64 x 11 <<< 53) = x := by
    intro x
    exact UInt64.toBitVec_inj.mp (rotate_inverse (k := 11) (by decide) x.toBitVec)
  rw [← hinverse x, h, hinverse]

theorem process1_injective {byte byte' : UInt8} (h : process1 x byte = process1 y byte') :
    x ^^^ byte.toUInt64 * PRIME64_5 = y ^^^ byte'.toUInt64 * PRIME64_5 :=
  rotate_11 (mul_injective prime1_unit h)

-- Four bytes can be read back from what process4 makes of them.
def unprocess4 (h64 x : UInt64) : UInt64 :=
  let y := (x - PRIME64_3) * 839798700976720815
  ((y >>> 23 ||| y <<< 41) ^^^ h64) * 614540362697595703

theorem unprocess4_process4 (h64 : UInt64) (p : Bytes) : unprocess4 h64 (process4 h64 p) = xxhGet32bits p := by
  have hrotate : ∀ x : UInt64, (xxhRotl64 x 23 >>> 23 ||| xxhRotl64 x 23 <<< 41) = x := by
    intro x
    exact UInt64.toBitVec_inj.mp (rotate_inverse (k := 23) (by decide) x.toBitVec)
  simp only [unprocess4, process4, UInt64.add_sub_cancel, mul_inverse prime2_unit, hrotate]
  rw [UInt64.xor_comm h64, xor_cancel, mul_inverse prime1_unit]

theorem getBits_toNat (p : Bytes) (h : p.length ≤ 8) :
    (xxhGetBits p).toNat = pack 8 (p.map UInt8.toNat) := by
  induction p with
  | nil => rfl
  | cons byte rest ih =>
      have hrest : pack 8 (rest.map UInt8.toNat) < 2 ^ 56 := by
        have hlt := @pack_lt 8 (rest.map UInt8.toNat) (by simpa using fun byte _ => byte.toNat_lt)
        rw [List.length_map] at hlt
        refine Nat.lt_of_lt_of_le hlt (Nat.pow_le_pow_right (by decide) ?_)
        rw [List.length_cons] at h
        omega
      have hbyte : byte.toNat < 2 ^ 8 := byte.toNat_lt
      have hshift : (8 : UInt64).toNat % 64 = 8 := rfl
      have hfits : pack 8 (rest.map UInt8.toNat) <<< 8 < 2 ^ 64 := by
        rw [Nat.shiftLeft_eq]
        omega
      rw [xxhGetBits, UInt64.toNat_or, UInt64.toNat_shiftLeft, ih (by rw [List.length_cons] at h; omega), hshift,
        Nat.mod_eq_of_lt hfits, UInt8.toNat_toUInt64, Nat.or_comm, ← Nat.shiftLeft_add_eq_or_of_lt hbyte,
        Nat.shiftLeft_eq, List.map_cons, pack, Nat.mul_comm]

theorem get32bits_injective {p q : Bytes} (hp : p.length = 4) (hq : q.length = 4)
    (h : xxhGet32bits p = xxhGet32bits q) : p = q := by
  have hnat := congrArg UInt64.toNat h
  rw [xxhGet32bits, xxhGet32bits, List.take_of_length_le (by omega), List.take_of_length_le (by omega),
    getBits_toNat p (by omega), getBits_toNat q (by omega)] at hnat
  have hbytes : ∀ p : Bytes, ∀ x ∈ p.map UInt8.toNat, x < 2 ^ 8 :=
    fun p => by simpa using fun byte _ => byte.toNat_lt
  have hsame := pack_injective (hbytes p) (hbytes q) (by simp [hp, hq]) hnat
  exact (List.map_inj_right fun _ _ he => UInt8.toNat_inj.mp he).mp hsame

theorem xxh64_five (a b c d e : UInt8) : xxh64 [a, b, c, d, e] 0 =
    xxh64Avalanche (process1 (process4 (PRIME64_5 + 5) [a, b, c, d]) e) := by
  have hshort : ¬32 ≤ [a, b, c, d, e].length := by simp
  have hblocks : [a, b, c, d, e].length / 8 = 0 := by simp
  have hfour : 4 ≤ [a, b, c, d, e].length := by simp
  simp only [xxh64, hshort, ite_false, xxh64Finalize, hblocks, process8Loop, hfour, ite_true,
    List.drop_succ_cons, List.drop_zero, List.foldl_cons, List.foldl_nil, UInt64.zero_add]
  congr 2

-- Whether some first four bytes, with this last one, have the hash of others.
def collides (first : Bytes) (last byte : UInt8) : Bool :=
  let target := process4 (PRIME64_5 + 5) first ^^^ last.toUInt64 * PRIME64_5 ^^^ byte.toUInt64 * PRIME64_5
  (unprocess4 (PRIME64_5 + 5) target).toNat < 2 ^ 32

theorem collides_of_hash {a b c d e a' b' c' d' e' : UInt8} (h : xxh64 [a, b, c, d, e] 0 = xxh64 [a', b', c', d', e'] 0) :
    collides [a', b', c', d'] e' e = true ∧ (e = e' → [a, b, c, d] = [a', b', c', d']) := by
  rw [xxh64_five, xxh64_five] at h
  have hlast := process1_injective (avalanche_injective h)
  have hword : ∀ p : Bytes, p.length = 4 → (xxhGet32bits p).toNat < 2 ^ 32 := by
    intro p hp
    rw [xxhGet32bits, List.take_of_length_le (by omega), getBits_toNat p (by omega)]
    have hlt := @pack_lt 8 (p.map UInt8.toNat) (by simpa using fun byte _ => byte.toNat_lt)
    rwa [List.length_map, hp] at hlt
  constructor
  · simp only [collides, ← hlast, xor_cancel, unprocess4_process4, decide_eq_true_eq]
    exact hword [a, b, c, d] rfl
  · rintro rfl
    have hfirst : process4 (PRIME64_5 + 5) [a, b, c, d] = process4 (PRIME64_5 + 5) [a', b', c', d'] := by
      rw [← xor_cancel (process4 _ [a, b, c, d]) (e.toUInt64 * PRIME64_5), hlast, xor_cancel]
    apply get32bits_injective rfl rfl
    rw [← unprocess4_process4 (PRIME64_5 + 5), hfirst, unprocess4_process4]

end Hash

section Prefix

def Command.name : Command → Bytes
  | .SETBIT => str "SETBIT"
  | .GETBIT => str "GETBIT"
  | .BITOP => str "BITOP"
  | .BITCOUNT => str "BITCOUNT"
  | .BITPOS => str "BITPOS"
  | .BITFIELD => str "BITFIELD"

-- The part of the name that the switch looks at.
def Command.start (command : Command) : Bytes := command.name.take 5

theorem start_alone (command : Command) : ∀ n, n < 256 →
    collides (command.start.take 4) (command.start.getD 4 0) n.toUInt8 = true → n.toUInt8 = command.start.getD 4 0 := by
  cases command <;> decide +kernel

-- The constants of the switch are the hashes of these five bytes.
theorem hash_of_commandOf {h64 : UInt64} {command : Command} (h : commandOf h64 = some command) :
    h64 = xxh64 command.start 0 := by
  unfold commandOf at h
  split at h
  · rename_i hhash
    cases h
    exact hhash.trans (by decide +kernel)
  · split at h
    · rename_i hhash
      cases h
      exact hhash.trans (by decide +kernel)
    · split at h
      · rename_i hhash
        cases h
        exact hhash.trans (by decide +kernel)
      · split at h
        · rename_i hhash
          cases h
          exact hhash.trans (by decide +kernel)
        · split at h
          · rename_i hhash
            cases h
            exact hhash.trans (by decide +kernel)
          · split at h
            · rename_i hhash
              cases h
              exact hhash.trans (by decide +kernel)
            · cases h

theorem five_bytes {p : Bytes} (h : p.length = 5) : ∃ a b c d e, p = [a, b, c, d, e] := by
  match p, h with
  | [a, b, c, d, e], _ => exact ⟨a, b, c, d, e, rfl⟩

theorem start_length (command : Command) : command.start.length = 5 := by
  cases command <;> decide

-- No other five bytes lead to a command.
theorem start_of_commandOf {p : Bytes} (hlen : p.length = 5) {command : Command}
    (h : commandOf (xxh64 p 0) = some command) : p = command.start := by
  obtain ⟨a, b, c, d, e, rfl⟩ := five_bytes hlen
  obtain ⟨a', b', c', d', e', hstart⟩ := five_bytes (start_length command)
  have hhash := hash_of_commandOf h
  have halone := start_alone command e.toNat e.toNat_lt
  rw [hstart] at hhash halone ⊢
  obtain ⟨hcollides, hfirst⟩ := collides_of_hash hhash
  rw [Nat.toUInt8_eq, UInt8.ofNat_toNat] at halone
  have hlast : e = e' := halone hcollides
  have hfour := hfirst hlast
  rw [hlast]
  exact congrArg (· ++ [e']) hfour

end Prefix

end Solidbits
