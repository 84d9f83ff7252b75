import Solidbits.Serial.Bits
import Solidbits.Serial.Overwrite
import Mathlib.Algebra.Group.Nat.Even

namespace Solidbits

open Prog Transition

section Bits

variable {offset : Int} {j n : Nat} {contents : List Bytes}

theorem bitOf_and (x y : UInt8) : bitOf (x &&& y) offset = 1 ↔ bitOf x offset = 1 ∧ bitOf y offset = 1 := by
  simp [bitOf_eq]

theorem bitOf_or (x y : UInt8) : bitOf (x ||| y) offset = 1 ↔ bitOf x offset = 1 ∨ bitOf y offset = 1 := by
  simp only [bitOf_eq, UInt8.toBitVec_or, BitVec.getLsbD_or]
  cases x.toBitVec.getLsbD (bitIndex offset) <;> simp

theorem bitOf_xor (x y : UInt8) : bitOf (x ^^^ y) offset = 1 ↔ (bitOf x offset = 1 ↔ bitOf y offset ≠ 1) := by
  simp only [bitOf_eq, UInt8.toBitVec_xor, BitVec.getLsbD_xor]
  cases x.toBitVec.getLsbD (bitIndex offset) <;> simp

theorem bitOf_not (x : UInt8) : bitOf (~~~x) offset = 1 ↔ bitOf x offset ≠ 1 := by
  have hlt := bitIndex_lt offset
  simp [bitOf_eq, hlt]

theorem byte_eq_iff {x y : UInt8} : x = y ↔ ∀ k : Nat, k < 8 → (bitOf x k = 1 ↔ bitOf y k = 1) := by
  constructor
  · rintro rfl k _
    exact Iff.rfl
  · intro h
    apply UInt8.toBitVec_inj.mp
    apply BitVec.eq_of_getLsbD_eq
    intro i hi
    have hbit := h (7 - i) (by omega)
    have hindex : bitIndex ((7 - i : Nat) : Int) = i := by
      unfold bitIndex
      omega
    rw [bitOf_eq, bitOf_eq, hindex] at hbit
    rw [Bool.eq_iff_iff]
    simpa using hbit

-- A bitmap is its bits and its length.
theorem bytes_eq_iff {xs ys : Bytes} (hlen : xs.length = ys.length) :
    xs = ys ↔ ∀ offset : Nat, bitAt xs offset = 1 ↔ bitAt ys offset = 1 := by
  constructor
  · rintro rfl offset
    exact Iff.rfl
  · intro h
    apply Padded.ext hlen
    intro i _
    rw [byte_eq_iff]
    intro k hk
    rw [← bitAt_byte xs i hk, ← bitAt_byte ys i hk]
    exact h _

theorem foldl_and_bit (ps : List Buf) (x : UInt8) :
    bitOf (ps.foldl (fun x p => opByte .AND x (p j)) x) offset = 1 ↔
      bitOf x offset = 1 ∧ ∀ p ∈ ps, bitOf (p j) offset = 1 := by
  induction ps generalizing x with
  | nil => simp
  | cons p ps ih => rw [List.foldl_cons, ih, opByte, bitOf_and, List.forall_mem_cons, and_assoc]

theorem foldl_or_bit (ps : List Buf) (x : UInt8) :
    bitOf (ps.foldl (fun x p => opByte .OR x (p j)) x) offset = 1 ↔
      bitOf x offset = 1 ∨ ∃ p ∈ ps, bitOf (p j) offset = 1 := by
  induction ps generalizing x with
  | nil => simp
  | cons p ps ih =>
      rw [List.foldl_cons, ih, opByte, bitOf_or]
      simp only [List.mem_cons, exists_eq_or_imp, or_assoc]

theorem foldl_xor_bit (ps : List Buf) (x : UInt8) :
    bitOf (ps.foldl (fun x p => opByte .XOR x (p j)) x) offset = 1 ↔
      (bitOf x offset = 1 ↔ Even (ps.countP fun p => bitOf (p j) offset = 1)) := by
  induction ps generalizing x with
  | nil => simp
  | cons p ps ih =>
      rw [List.foldl_cons, ih, opByte, bitOf_xor, List.countP_cons]
      by_cases hp : bitOf (p j) offset = 1
      · simp only [hp, decide_true, if_true, Nat.even_add_one]
        tauto
      · simp only [hp, decide_false, Bool.false_eq_true, if_false, Nat.add_zero]
        tauto

-- The bits of a result inside its length.
theorem bitAt_bitop {option : OpOption} (hj : byteOffset offset < n) :
    bitAt (bitop option contents n) offset =
      bitOf (opBytes option (contents.map bufOf) (byteOffset offset)) offset := by
  rw [bitAt, bitop_byte option contents hj]

theorem bitAt_and (hne : contents ≠ []) (hj : byteOffset offset < n) :
    bitAt (bitop .AND contents n) offset = 1 ↔ ∀ content ∈ contents, bitAt content offset = 1 := by
  rw [bitAt_bitop hj]
  cases contents with
  | nil => exact absurd rfl hne
  | cons content contents =>
      rw [List.map_cons, opBytes, if_neg (by decide), foldl_and_bit, List.forall_mem_map, List.forall_mem_cons]
      rfl

theorem bitAt_or (hj : byteOffset offset < n) :
    bitAt (bitop .OR contents n) offset = 1 ↔ ∃ content ∈ contents, bitAt content offset = 1 := by
  rw [bitAt_bitop hj]
  cases contents with
  | nil => simp [opBytes, bitOf_zero]
  | cons content contents =>
      rw [List.map_cons, opBytes, if_neg (by decide), foldl_or_bit]
      simp only [List.mem_cons, List.mem_map, exists_eq_or_imp, exists_exists_and_eq_and]
      rfl

theorem bitAt_xor (hj : byteOffset offset < n) :
    bitAt (bitop .XOR contents n) offset = 1 ↔ ¬Even (contents.countP fun content => bitAt content offset = 1) := by
  rw [bitAt_bitop hj]
  cases contents with
  | nil => simp [opBytes, bitOf_zero]
  | cons content contents =>
      rw [List.map_cons, opBytes, if_neg (by decide), foldl_xor_bit, List.countP_map, List.countP_cons]
      show (bitAt content offset = 1 ↔ Even (contents.countP fun content => bitAt content offset = 1)) ↔ _
      by_cases hbit : bitAt content offset = 1
      · simp only [hbit, decide_true, if_true, Nat.even_add_one]
        tauto
      · simp only [hbit, decide_false, Bool.false_eq_true, if_false, Nat.add_zero]
        tauto

theorem bitAt_not {content : Bytes} (hj : byteOffset offset < n) :
    bitAt (bitop .NOT (content :: contents) n) offset = 1 ↔ bitAt content offset ≠ 1 := by
  rw [bitAt_bitop hj, List.map_cons, opBytes, if_pos rfl, bitOf_not]
  rfl

end Bits

section Sources

theorem splitArgs_length (count : Nat) (rest : Bytes) : (splitArgs count rest).length = count := by
  induction count generalizing rest with
  | zero => rfl
  | succ count ih => rw [splitArgs, List.length_cons, ih]

-- NOT takes one source.
theorem bitopRequest_not {line : Bytes} {c : Nat} {cmd : BitopCmd} {keys : List Bytes}
    (h : bitopRequest line c = .bitop cmd keys) (hnot : cmd.option = .NOT) : keys.length = 1 := by
  have hone : c = 4 → ((splitFill line c).drop 2).length = 1 := by
    rintro rfl
    rw [List.length_drop, splitFill, splitArgs_length]
  simp only [bitopRequest] at h
  split at h
  · cases h
  · split at h
    · cases h
    · split at h
      · cases h
      · rename_i option _ hcount
        have hkeys : option = .NOT → ((splitFill line c).drop 2).length = 1 :=
          fun hoption => hone (of_not_not fun hc => hcount ⟨hoption, hc⟩)
        split at h
        · split at h
          · obtain ⟨rfl, rfl⟩ := Request.bitop.inj h
            exact hkeys hnot
          · split at h
            · obtain ⟨rfl, rfl⟩ := Request.bitop.inj h
              exact hkeys hnot
            · cases h
        · split at h
          · cases h
          · obtain ⟨rfl, rfl⟩ := Request.bitop.inj h
            exact hkeys hnot

theorem request_not {line : Bytes} {cmd : BitopCmd} {keys : List Bytes}
    (h : request line = .bitop cmd keys) (hnot : cmd.option = .NOT) : keys.length = 1 := by
  have hcommand : (request line).command = some .BITOP := by rw [h]; rfl
  obtain ⟨_, _, hcase⟩ := request_of_command hcommand
  exact bitopRequest_not (hcase.symm.trans h) hnot

end Sources

section Sparing

variable {m : Contents} {hash : UInt64} {keys : List Bytes} {offset n : Nat}

def Contents.bit (m : Contents) (hash : UInt64) (offset : Nat) : Int := bitAt ((m hash).getD []) offset

-- The bits of a destination that is among the sources make no difference to the
-- result: no offset has a one in every source; every one of the destination
-- stands in another source too; the destination is named an even number of
-- times, or has no ones.
def Spared (m : Contents) (hash : UInt64) (keys : List Bytes) : OpOption → Prop
  | .AND => ∀ offset, ∃ key ∈ keys, m.bit (xxh64 (cstr key) 0) offset ≠ 1
  | .OR => ∀ offset, m.bit hash offset = 1 →
      ∃ key ∈ keys, xxh64 (cstr key) 0 ≠ hash ∧ m.bit (xxh64 (cstr key) 0) offset = 1
  | .XOR => Even (keys.countP fun key => xxh64 (cstr key) 0 = hash) ∨ ∀ offset, m.bit hash offset ≠ 1
  | .NOT => ∀ offset, m.bit hash offset ≠ 1

-- The bit of a source once the destination has been emptied.
theorem emptied_bit (m : Contents) (hash other : UInt64) (offset : Nat) :
    Contents.bit (Function.update m hash (some [])) other offset =
      if other = hash then 0 else m.bit other offset := by
  unfold Contents.bit
  by_cases he : other = hash
  · rw [if_pos he, he, Function.update_self]
    exact bitAt_nil offset
  · rw [if_neg he, Function.update_of_ne he]

theorem bitop_eq_iff (option : OpOption) (contents contents' : List Bytes) (n : Nat) :
    bitop option contents n = bitop option contents' n ↔ ∀ offset : Nat, byteOffset offset < n →
      (bitAt (bitop option contents n) offset = 1 ↔ bitAt (bitop option contents' n) offset = 1) := by
  rw [bytes_eq_iff (by simp)]
  refine forall_congr' fun offset => ⟨fun h _ => h, fun h => ?_⟩
  by_cases hin : byteOffset offset < n
  · exact h hin
  · have hpast : ∀ contents, bitAt (bitop option contents n) offset = 0 :=
      fun contents => bitAt_past (by rw [bitop_length]; exact Nat.not_lt.mp hin)
    rw [hpast, hpast]

-- No source has a one behind the longest of them.
def Inside (m : Contents) (keys : List Bytes) (n : Nat) : Prop :=
  ∀ key ∈ keys, m.length (xxh64 (cstr key) 0) ≤ n

theorem Inside.bit (h : Inside m keys n) {key : Bytes} (hkey : key ∈ keys)
    (hbit : m.bit (xxh64 (cstr key) 0) offset = 1) : byteOffset offset < n := by
  by_contra hpast
  have hzero : m.bit (xxh64 (cstr key) 0) offset = 0 :=
    bitAt_past (Nat.le_trans (h key hkey) (Nat.not_lt.mp hpast))
  rw [hzero] at hbit
  exact absurd hbit (by decide)

-- What the result has at an offset, by the bits of its sources.
theorem sources_and (hkeys : keys ≠ []) (hin : byteOffset offset < n) :
    bitAt (bitop .AND (sourceContents m keys) n) offset = 1 ↔
      ∀ key ∈ keys, m.bit (xxh64 (cstr key) 0) offset = 1 := by
  have hne : sourceContents m keys ≠ [] := fun h => hkeys (List.map_eq_nil_iff.mp h)
  rw [bitAt_and hne hin, sourceContents, List.forall_mem_map]
  rfl

theorem sources_or (hin : byteOffset offset < n) :
    bitAt (bitop .OR (sourceContents m keys) n) offset = 1 ↔
      ∃ key ∈ keys, m.bit (xxh64 (cstr key) 0) offset = 1 := by
  rw [bitAt_or hin, sourceContents]
  simp only [List.mem_map, exists_exists_and_eq_and]
  rfl

theorem sources_xor (hin : byteOffset offset < n) :
    bitAt (bitop .XOR (sourceContents m keys) n) offset = 1 ↔
      ¬Even (keys.countP fun key => m.bit (xxh64 (cstr key) 0) offset = 1) := by
  rw [bitAt_xor hin, sourceContents, List.countP_map]
  rfl

theorem sources_not {key : Bytes} (hin : byteOffset offset < n) :
    bitAt (bitop .NOT (sourceContents m [key]) n) offset = 1 ↔ m.bit (xxh64 (cstr key) 0) offset ≠ 1 :=
  bitAt_not hin

theorem spared_and (hinside : Inside m keys n) (hsource : ∃ key ∈ keys, xxh64 (cstr key) 0 = hash) :
    bitop .AND (sourceContents (Function.update m hash (some [])) keys) n =
        bitop .AND (sourceContents m keys) n ↔ Spared m hash keys .AND := by
  obtain ⟨mine, hmine, hname⟩ := hsource
  have hkeys : keys ≠ [] := List.ne_nil_of_mem hmine
  have hlost : ∀ offset, ¬∀ key ∈ keys,
      Contents.bit (Function.update m hash (some [])) (xxh64 (cstr key) 0) offset = 1 := by
    intro offset h
    have hone := h mine hmine
    rw [emptied_bit, if_pos hname] at hone
    exact absurd hone (by decide)
  rw [bitop_eq_iff]
  constructor
  · intro h offset
    by_contra hall
    push Not at hall
    have hin := hinside.bit hmine (hall mine hmine)
    have hset := (sources_and hkeys hin).mpr hall
    exact hlost offset ((sources_and hkeys hin).mp ((h offset hin).mpr hset))
  · intro h offset hin
    obtain ⟨key, hkey, hbit⟩ := h offset
    rw [sources_and hkeys hin, sources_and hkeys hin]
    exact iff_of_false (hlost offset) fun hall => hbit (hall key hkey)

theorem spared_or (hinside : Inside m keys n) (hsource : ∃ key ∈ keys, xxh64 (cstr key) 0 = hash) :
    bitop .OR (sourceContents (Function.update m hash (some [])) keys) n =
        bitop .OR (sourceContents m keys) n ↔ Spared m hash keys .OR := by
  obtain ⟨mine, hmine, hname⟩ := hsource
  have hleft : ∀ offset key, Contents.bit (Function.update m hash (some [])) (xxh64 (cstr key) 0) offset = 1 ↔
      xxh64 (cstr key) 0 ≠ hash ∧ m.bit (xxh64 (cstr key) 0) offset = 1 := by
    intro offset key
    rw [emptied_bit]
    split <;> simp [*]
  rw [bitop_eq_iff]
  constructor
  · intro h offset hbit
    rw [← hname] at hbit
    have hin := hinside.bit hmine hbit
    have hset := (sources_or hin).mpr ⟨mine, hmine, hbit⟩
    obtain ⟨key, hkey, hone⟩ := (sources_or hin).mp ((h offset hin).mpr hset)
    exact ⟨key, hkey, (hleft offset key).mp hone⟩
  · intro h offset hin
    rw [sources_or hin, sources_or hin]
    simp only [hleft]
    constructor
    · rintro ⟨key, hkey, _, hone⟩
      exact ⟨key, hkey, hone⟩
    · rintro ⟨key, hkey, hone⟩
      by_cases he : xxh64 (cstr key) 0 = hash
      · exact h offset (he ▸ hone)
      · exact ⟨key, hkey, he, hone⟩

-- The ones at an offset are those of the destination and those of the others.
theorem count_ones (m : Contents) (hash : UInt64) (keys : List Bytes) (offset : Nat) :
    keys.countP (fun key => m.bit (xxh64 (cstr key) 0) offset = 1) =
      keys.countP (fun key =>
          Contents.bit (Function.update m hash (some [])) (xxh64 (cstr key) 0) offset = 1) +
        if m.bit hash offset = 1 then keys.countP fun key => xxh64 (cstr key) 0 = hash else 0 := by
  induction keys with
  | nil => simp
  | cons key keys ih =>
      rw [List.countP_cons, List.countP_cons, List.countP_cons, ih, emptied_bit]
      by_cases he : xxh64 (cstr key) 0 = hash
      · rw [he]
        by_cases hbit : m.bit hash offset = 1 <;> simp [hbit]
        omega
      · by_cases hbit : m.bit (xxh64 (cstr key) 0) offset = 1 <;> simp [he, hbit]
        omega

theorem spared_xor (hinside : Inside m keys n) (hsource : ∃ key ∈ keys, xxh64 (cstr key) 0 = hash) :
    bitop .XOR (sourceContents (Function.update m hash (some [])) keys) n =
        bitop .XOR (sourceContents m keys) n ↔ Spared m hash keys .XOR := by
  obtain ⟨mine, hmine, hname⟩ := hsource
  rw [bitop_eq_iff]
  constructor
  · intro h
    by_contra hspared
    obtain ⟨hodd, offset, hbit⟩ : ¬Even (keys.countP fun key => xxh64 (cstr key) 0 = hash) ∧
        ∃ offset, m.bit hash offset = 1 := by simpa [Spared] using hspared
    have hin := hinside.bit hmine (hname ▸ hbit)
    have hsame := h offset hin
    rw [sources_xor hin, sources_xor hin, count_ones m hash keys offset, if_pos hbit, Nat.even_add] at hsame
    tauto
  · intro h offset hin
    rw [sources_xor hin, sources_xor hin, count_ones m hash keys offset, Nat.even_add]
    rcases h with heven | hzero
    · split <;> simp [heven]
    · simp [hzero offset]

theorem spared_not (hinside : Inside m keys n) (hsource : ∃ key ∈ keys, xxh64 (cstr key) 0 = hash)
    (hone : keys.length = 1) :
    bitop .NOT (sourceContents (Function.update m hash (some [])) keys) n =
        bitop .NOT (sourceContents m keys) n ↔ Spared m hash keys .NOT := by
  obtain ⟨key, rfl⟩ := List.length_eq_one_iff.mp hone
  obtain ⟨mine, hmine, hname⟩ := hsource
  obtain rfl := List.mem_singleton.mp hmine
  rw [bitop_eq_iff]
  constructor
  · intro h offset hbit
    have hin := hinside.bit hmine (hname ▸ hbit)
    have hsame := h offset hin
    rw [sources_not hin, sources_not hin, emptied_bit, if_pos hname, hname, hbit] at hsame
    exact absurd hsame (by decide)
  · intro h offset hin
    rw [sources_not hin, sources_not hin, emptied_bit, if_pos hname, hname]
    exact iff_of_true (by decide) (h offset)

-- The result is the same with an empty destination exactly if its bits make no
-- difference.
theorem spared_iff {option : OpOption} (hinside : Inside m keys n)
    (hsource : ∃ key ∈ keys, xxh64 (cstr key) 0 = hash) (hnot : option = .NOT → keys.length = 1) :
    bitop option (sourceContents (Function.update m hash (some [])) keys) n =
        bitop option (sourceContents m keys) n ↔ Spared m hash keys option := by
  cases option with
  | AND => exact spared_and hinside hsource
  | OR => exact spared_or hinside hsource
  | XOR => exact spared_xor hinside hsource
  | NOT => exact spared_not hinside hsource (hnot rfl)

end Sparing

section Runs

variable {clock : Nat → Nat} {disk : Contents} {before : List Bytes} {line : Bytes} {cmd : BitopCmd}
  {keys : List Bytes} {s s' : Server} {reply : Bytes}

-- A BITOP whose destination is a source gets the sources as they were exactly if
-- the lookup finds the destination, or its own bits make no difference.
theorem bitop_in_place_iff
    (h : BitopRun clock disk before line cmd keys s s' reply)
    (hsource : ∃ key ∈ keys, xxh64 (cstr key) 0 = xxh64 cmd.key 0) :
    reply = numberText (longestSource s.store.size keys) ∧
      (Overwritten s.store s'.store cmd keys ↔
        s.store.recorded (xxh64 cmd.key 0) ≠ none ∨
          Spared s.store.bitmap (xxh64 cmd.key 0) keys cmd.option) := by
  obtain ⟨g, last, hserves, hserved, hnumber, hrecorded, hfiles⟩ := h.combined
  have hbitmap : s.store.bitmap = g.files := funext hserves.bitmap
  have hsize : s.store.size = g.files.length := by
    funext hash
    rw [Store.size, hbitmap, Contents.length]
  obtain ⟨key, hkey, hname⟩ := hsource
  have hle : g.files.length (xxh64 cmd.key 0) ≤ longestSource g.files.length keys := by
    apply le_longestOf
    rw [← hname]
    exact List.mem_map_of_mem hkey
  have hlength : g.lengthAt (xxh64 cmd.key 0) = g.files.length (xxh64 cmd.key 0) := by
    have hexact := h.exact key hkey
    rw [hname, hserves.recordedOf, hsize] at hexact
    rw [Desk.lengthAt]
    cases hrec : g.recorded (xxh64 cmd.key 0) with
    | none => rfl
    | some length => exact hexact length hrec
  rw [overwrite_bitop _ _ (Nat.le_trans (emptied_length_le g _ _) hle)] at hfiles
  rw [hlength, Nat.max_eq_right hle] at hrecorded
  have hstored : Overwritten s.store s'.store cmd keys ↔
      bitop cmd.option (sourceContents (g.emptied (xxh64 cmd.key 0)) keys) (longestSource g.files.length keys) =
        bitop cmd.option (sourceContents g.files keys) (longestSource g.files.length keys) := by
    constructor
    · rintro ⟨hstored, _⟩
      rw [hserved.bitmap, hfiles, hbitmap, hsize] at hstored
      exact Option.some.inj hstored
    · intro hsame
      constructor
      · rw [hserved.bitmap, hfiles, hbitmap, hsize, hsame]
      · rw [hserved.recordedOf, hrecorded, hsize]
  rw [hstored, hserves.recordedOf, hbitmap, hsize]
  refine ⟨hnumber, ?_⟩
  have hinside : Inside g.files keys (longestSource g.files.length keys) :=
    fun _ hkey => le_longestOf (List.mem_map_of_mem hkey)
  by_cases hclosed : g.recorded (xxh64 cmd.key 0) = none
  · rw [Desk.emptied, if_pos hclosed, spared_iff hinside ⟨key, hkey, hname⟩ (request_not h.parsed)]
    exact (or_iff_right fun hopen => hopen hclosed).symm
  · rw [Desk.emptied, if_neg hclosed]
    exact iff_of_true rfl (Or.inl hclosed)

-- A destination that has just been read, and a longer source beside it.
theorem bitop_in_place_open :
    let disk : Contents := fun hash =>
      if hash = xxh64 (str "d") 0 then some [128] else if hash = xxh64 (str "a") 0 then some [1, 2] else none
    let s := run (Server.serve id) (Server.start disk) [str "GETBIT d 0"]
    let s' := s.serve id (str "BITOP OR d a d")
    Overwritten s.store s'.store { key := str "d", count := 2, hook := .NONE, option := .OR }
      [str "a", str "d"] := by
  intro disk s s'
  have hrun : BitopRun id disk [str "GETBIT d 0"] (str "BITOP OR d a d")
      { key := str "d", count := 2, hook := .NONE, option := .OR } [str "a", str "d"] s s' (numberText 2) :=
    ⟨by decide +kernel, rfl, rfl, by decide +kernel, rfl, by decide +kernel, by decide +kernel,
      by decide +kernel⟩
  exact (bitop_in_place_iff hrun ⟨str "d", by decide +kernel, by decide +kernel⟩).2.mpr
    (Or.inl (by decide +kernel))

-- The same request on the same data, with the destination on disk only.
theorem bitop_in_place_closed :
    let disk : Contents := fun hash => if hash = xxh64 (str "d") 0 then some [128] else none
    let s := Server.start disk
    let s' := s.serve id (str "BITOP OR d d")
    let cmd : BitopCmd := { key := str "d", count := 1, hook := .NONE, option := .OR }
    BitopRun id disk [] (str "BITOP OR d d") cmd [str "d"] s s' (numberText 1) ∧
      s'.store.bitmap (xxh64 cmd.key 0) = some [0] ∧
      ¬Overwritten s.store s'.store cmd [str "d"] := by
  intro disk s s' cmd
  have hlost : s'.store.bitmap (xxh64 cmd.key 0) = some [0] := by decide +kernel
  refine ⟨?_, hlost, ?_⟩
  · exact ⟨by decide +kernel, rfl, rfl, by decide +kernel, rfl, by decide +kernel, by decide +kernel,
      by decide +kernel⟩
  · intro h
    exact absurd (hlost.symm.trans h.bitmap) (by decide +kernel)

end Runs

end Solidbits
