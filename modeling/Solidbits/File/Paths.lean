import Solidbits.Parser.Decimal

namespace Solidbits

def DIR_LENGTH_LIMIT : Nat := 237
def FILENAME_SIZE : Nat := 256

section Defs

-- What stat, access and mkdir answer for a path.
structure Directories where
  isDir : Bytes → Bool
  access : Bytes → Bool
  mkdirFails : Bytes → Bool

def checkDir (env : Directories) (path : Bytes) : Int :=
  if env.isDir path then if env.access path then 0 else -1 else -2

-- Whether the -d option takes a directory.
def acceptsDir (env : Directories) (optarg : Bytes) : Bool :=
  !(DIR_LENGTH_LIMIT < optarg.length) && checkDir env optarg = 0

def SLASH : UInt8 := 47

def hexDigit (digit : Nat) : UInt8 := UInt8.ofNat (if digit < 10 then 48 + digit else 87 + digit)

-- snprintf(hex, 17, "%016llx", hash), without the NUL.
def hexOf (hash : UInt64) : Bytes := (List.range 16).map fun i => hexDigit (hash.toNat / 16 ^ (15 - i) % 16)

-- memcpy into a buffer; a write behind its end has no value.
def copyInto (buf : Bytes) (offset : Nat) (src : Bytes) : Option Bytes :=
  if offset + src.length ≤ buf.length then some (buf.take offset ++ src ++ buf.drop (offset + src.length)) else none

-- The string in a buffer; without a NUL it is read behind its end.
def readString (buf : Bytes) : Option Bytes := if 0 ∈ buf then some (cstr buf) else none

-- check_dir and mkdir for one of the two levels; not 0 is the code that gen_path
-- returns.
def makeLevel (env : Directories) (path : Bytes) : Int :=
  if checkDir env path = -2 then if env.mkdirFails path then -2 else 0
  else if checkDir env path = -1 then -1
  else 0

def genPath (env : Directories) (dir : Bytes) (path : Bytes) (hash : UInt64) : Option (Int × Bytes) := do
  let hex := hexOf hash
  let path ← copyInto path 0 dir
  let path ← copyInto path dir.length [SLASH]
  let path ← copyInto path (dir.length + 1) (hex.take 2)
  let r := makeLevel env (← readString path)
  if r ≠ 0 then return (r, path)
  let path ← copyInto path (dir.length + 3) [SLASH]
  let path ← copyInto path (dir.length + 4) ((hex.drop 2).take 2)
  let r := makeLevel env (← readString path)
  if r ≠ 0 then return (r, path)
  let path ← copyInto path (dir.length + 6) [SLASH]
  let path ← copyInto path (dir.length + 7) ((hex.drop 4).take 12)
  return (0, path)

-- open_file's buffer.
def filename : Bytes := List.replicate FILENAME_SIZE 0

-- The two levels of directories and the path of a file.
def levelOne (dir : Bytes) (hash : UInt64) : Bytes := dir ++ [SLASH] ++ (hexOf hash).take 2

def levelTwo (dir : Bytes) (hash : UInt64) : Bytes := levelOne dir hash ++ [SLASH] ++ ((hexOf hash).drop 2).take 2

def pathOf (dir : Bytes) (hash : UInt64) : Bytes := levelTwo dir hash ++ [SLASH] ++ ((hexOf hash).drop 4).take 12

-- A directory that is there or can be made.
def Available (env : Directories) (path : Bytes) : Prop :=
  env.isDir path = true ∧ env.access path = true ∨ env.isDir path = false ∧ env.mkdirFails path = false

-- gen_path stays in the buffer and leaves the path there as a string, and no
-- other hash has the same.
structure NamesFile (env : Directories) (dir : Bytes) (hash : UInt64) : Prop where
  written : ∃ path, genPath env dir filename hash = some (0, path) ∧ path.length = FILENAME_SIZE ∧
    readString path = some (pathOf dir hash)
  unique : ∀ other path, genPath env dir filename other = some (0, path) → other ≠ hash →
    readString path ≠ some (pathOf dir hash)

end Defs

section Hex

theorem hexDigit_injective : ∀ x < 16, ∀ y < 16, hexDigit x = hexDigit y → x = y := by decide

theorem hexDigit_ne_zero : ∀ x < 16, hexDigit x ≠ 0 := by decide

@[simp] theorem hexOf_length (hash : UInt64) : (hexOf hash).length = 16 := by simp [hexOf]

theorem zero_not_mem_hexOf (hash : UInt64) : 0 ∉ hexOf hash := by
  intro hm
  obtain ⟨i, _, he⟩ := List.mem_map.mp hm
  exact hexDigit_ne_zero _ (Nat.mod_lt _ (by decide)) he

-- Numbers with the same digits are the same.
theorem eq_of_digits {n m : Nat} (k : Nat) (h : ∀ i < k, n / 16 ^ i % 16 = m / 16 ^ i % 16) :
    n % 16 ^ k = m % 16 ^ k := by
  induction k with
  | zero => rw [Nat.pow_zero, Nat.mod_one, Nat.mod_one]
  | succ k ih =>
      rw [Nat.pow_succ, Nat.mod_mul, Nat.mod_mul, ih fun i hi => h i (Nat.lt_succ_of_lt hi), h k (Nat.lt_succ_self k)]

theorem hexOf_injective {hash other : UInt64} (h : hexOf hash = hexOf other) : hash = other := by
  have hdigits : ∀ i < 16, hash.toNat / 16 ^ i % 16 = other.toNat / 16 ^ i % 16 := by
    intro i hi
    have hget := congrArg (fun digits => digits[15 - i]?) h
    have hback : 15 - (15 - i) = i := by omega
    simp only [hexOf, List.getElem?_map, List.getElem?_range (show 15 - i < 16 by omega), Option.map_some, hback] at hget
    exact hexDigit_injective _ (Nat.mod_lt _ (by decide)) _ (Nat.mod_lt _ (by decide)) (Option.some.inj hget)
  have hsame := eq_of_digits 16 hdigits
  have hlt : hash.toNat < 16 ^ 16 := hash.toNat_lt
  have hlt' : other.toNat < 16 ^ 16 := other.toNat_lt
  rw [Nat.mod_eq_of_lt hlt, Nat.mod_eq_of_lt hlt'] at hsame
  exact UInt64.toNat_inj.mp hsame

theorem hexOf_split (hash : UInt64) :
    hexOf hash = (hexOf hash).take 2 ++ (((hexOf hash).drop 2).take 2 ++ ((hexOf hash).drop 4).take 12) := by
  have htail : ((hexOf hash).drop 4).take 12 = ((hexOf hash).drop 2).drop 2 := by
    rw [List.drop_drop, List.take_of_length_le (by simp)]
  rw [htail, List.take_append_drop, List.take_append_drop]

theorem pathOf_injective {dir : Bytes} {hash other : UInt64} (h : pathOf dir hash = pathOf dir other) :
    hash = other := by
  simp only [pathOf, levelTwo, levelOne, List.append_assoc, List.append_cancel_left_eq] at h
  obtain ⟨hfirst, h⟩ := List.append_inj h (by simp)
  obtain ⟨hsecond, h⟩ := List.append_inj (List.append_cancel_left h) (by simp)
  have hthird := List.append_cancel_left h
  apply hexOf_injective
  rw [hexOf_split hash, hexOf_split other, hfirst, hsecond, hthird]

theorem pathOf_length (dir : Bytes) (hash : UInt64) : (pathOf dir hash).length = dir.length + 19 := by
  simp [pathOf, levelTwo, levelOne]

theorem zero_not_mem_pathOf {dir : Bytes} (hdir : 0 ∉ dir) (hash : UInt64) : 0 ∉ pathOf dir hash := by
  have hhex := zero_not_mem_hexOf hash
  have hslash : (0 : UInt8) ≠ SLASH := by decide
  simp only [pathOf, levelTwo, levelOne, List.mem_append, List.mem_singleton, not_or]
  exact ⟨⟨⟨⟨⟨⟨hdir, hslash⟩, fun h => hhex (List.mem_of_mem_take h)⟩, hslash⟩,
    fun h => hhex (List.mem_of_mem_drop (List.mem_of_mem_take h))⟩, hslash⟩,
    fun h => hhex (List.mem_of_mem_drop (List.mem_of_mem_take h))⟩

end Hex

section Buffer

variable {text src : Bytes} {offset k : Nat}

-- Text in front of the zeros that are left of the buffer.
theorem copyInto_text (hoffset : offset = text.length) (h : src.length ≤ k) :
    copyInto (text ++ List.replicate k 0) offset src = some (text ++ src ++ List.replicate (k - src.length) 0) := by
  rw [hoffset, copyInto, if_pos (by simp; omega), List.take_left, ← List.drop_drop, List.drop_left,
    List.drop_replicate]

theorem readString_text (hplain : 0 ∉ text) (hk : 0 < k) : readString (text ++ List.replicate k 0) = some text := by
  obtain ⟨k, rfl⟩ := Nat.exists_eq_succ_of_ne_zero (Nat.ne_of_gt hk)
  rw [readString, if_pos (by simp [List.replicate_succ]), List.replicate_succ, cstr,
    List.takeWhile_append_of_pos fun byte hm => ?_, List.takeWhile_cons_of_neg (by simp), List.append_nil]
  simpa using fun hzero : byte = 0 => hplain (hzero ▸ hm)

theorem readString_full (hplain : 0 ∉ text) : readString text = none := if_neg hplain

end Buffer

section Paths

variable {env : Directories} {dir : Bytes} {hash : UInt64}

-- For every directory that is accepted the path fits the buffer, whether or not
-- a NUL is left behind it.
theorem genPath_eq (hdir : 0 ∉ dir) (hlen : dir.length ≤ 237) :
    ∃ one two, genPath env dir filename hash = some (
      if makeLevel env (levelOne dir hash) ≠ 0 then (makeLevel env (levelOne dir hash), one)
      else if makeLevel env (levelTwo dir hash) ≠ 0 then (makeLevel env (levelTwo dir hash), two)
      else (0, pathOf dir hash ++ List.replicate (237 - dir.length) 0)) := by
  have hplain := zero_not_mem_pathOf hdir hash
  have hone : 0 ∉ levelOne dir hash := fun h => hplain (by simp [pathOf, levelTwo, h])
  have htwo : 0 ∉ levelTwo dir hash := fun h => hplain (by simp [pathOf, h])
  have h0 : copyInto filename 0 dir = some (dir ++ List.replicate (256 - dir.length) 0) :=
    @copyInto_text [] dir 0 256 rfl (by omega)
  have h1 : copyInto (dir ++ List.replicate (256 - dir.length) 0) dir.length [SLASH] =
      some (dir ++ [SLASH] ++ List.replicate (256 - dir.length - 1) 0) := copyInto_text rfl (by simp; omega)
  have h2 : copyInto (dir ++ [SLASH] ++ List.replicate (256 - dir.length - 1) 0) (dir.length + 1)
      ((hexOf hash).take 2) = some (levelOne dir hash ++ List.replicate (253 - dir.length) 0) := by
    rw [copyInto_text (by simp) (by simp; omega), levelOne]
    simp only [List.length_take, hexOf_length]
    congr 3
    omega
  have h3 : copyInto (levelOne dir hash ++ List.replicate (253 - dir.length) 0) (dir.length + 3) [SLASH] =
      some (levelOne dir hash ++ [SLASH] ++ List.replicate (253 - dir.length - 1) 0) :=
    copyInto_text (by simp [levelOne]) (by simp; omega)
  have h4 : copyInto (levelOne dir hash ++ [SLASH] ++ List.replicate (253 - dir.length - 1) 0) (dir.length + 4)
      (((hexOf hash).drop 2).take 2) = some (levelTwo dir hash ++ List.replicate (250 - dir.length) 0) := by
    rw [copyInto_text (by simp [levelOne]) (by simp; omega), levelTwo]
    simp only [List.length_take, List.length_drop, hexOf_length]
    congr 3
    omega
  have h5 : copyInto (levelTwo dir hash ++ List.replicate (250 - dir.length) 0) (dir.length + 6) [SLASH] =
      some (levelTwo dir hash ++ [SLASH] ++ List.replicate (250 - dir.length - 1) 0) :=
    copyInto_text (by simp [levelTwo, levelOne]) (by simp; omega)
  have h6 : copyInto (levelTwo dir hash ++ [SLASH] ++ List.replicate (250 - dir.length - 1) 0) (dir.length + 7)
      (((hexOf hash).drop 4).take 12) = some (pathOf dir hash ++ List.replicate (237 - dir.length) 0) := by
    rw [copyInto_text (by simp [levelTwo, levelOne]) (by simp; omega), pathOf]
    simp only [List.length_take, List.length_drop, hexOf_length]
    congr 3
    omega
  have hread1 := @readString_text (levelOne dir hash) (253 - dir.length) hone (by omega)
  have hread2 := @readString_text (levelTwo dir hash) (250 - dir.length) htwo (by omega)
  refine ⟨levelOne dir hash ++ List.replicate (253 - dir.length) 0,
    levelTwo dir hash ++ List.replicate (250 - dir.length) 0, ?_⟩
  simp only [genPath, h0, h1, h2, h3, h4, h5, h6, hread1, hread2, Option.bind_eq_bind, Option.bind_some,
    Option.pure_def]
  split
  · rfl
  · split
    · rfl
    · rfl

theorem makeLevel_available (h : Available env dir) : makeLevel env dir = 0 := by
  rcases h with ⟨hdir, haccess⟩ | ⟨hdir, hmkdir⟩
  · have hcheck : checkDir env dir = 0 := by simp [checkDir, hdir, haccess]
    simp [makeLevel, hcheck]
  · have hcheck : checkDir env dir = -2 := by simp [checkDir, hdir]
    simp [makeLevel, hcheck, hmkdir]

theorem unterminated (hdir : 0 ∉ dir) (hlen : dir.length = 237) (hone : Available env (levelOne dir hash))
    (htwo : Available env (levelTwo dir hash)) : ¬NamesFile env dir hash := by
  intro h
  obtain ⟨path, hgen, _, hread⟩ := h.written
  obtain ⟨_, _, hpath⟩ := @genPath_eq env dir hash hdir (Nat.le_of_eq hlen)
  rw [makeLevel_available hone, makeLevel_available htwo, if_neg (by simp), if_neg (by simp), hgen, hlen] at hpath
  have hfull : path = pathOf dir hash := (Prod.mk.inj (Option.some.inj hpath)).2.trans (List.append_nil _)
  rw [hfull, readString_full (zero_not_mem_pathOf hdir hash)] at hread
  cases hread

-- A path is well formed and the only one of its hash, exactly if the directory
-- leaves room for the NUL: 236 bytes, one less than the check allows.
theorem names_file_iff (hdir : 0 ∉ dir) (haccepted : acceptsDir env dir = true)
    (hone : Available env (levelOne dir hash)) (htwo : Available env (levelTwo dir hash)) :
    NamesFile env dir hash ↔ dir.length ≤ 236 := by
  have hlen : dir.length ≤ 237 := by
    by_contra hlong
    simp [acceptsDir, DIR_LENGTH_LIMIT, Nat.not_le.mp hlong] at haccepted
  obtain ⟨_, _, hpath⟩ := @genPath_eq env dir hash hdir hlen
  rw [makeLevel_available hone, makeLevel_available htwo, if_neg (by simp), if_neg (by simp)] at hpath
  constructor
  · intro h
    by_contra hlong
    exact unterminated hdir (by omega) hone htwo h
  · intro hshort
    refine ⟨⟨_, hpath, ?_, readString_text (zero_not_mem_pathOf hdir hash) (by omega)⟩, ?_⟩
    · rw [List.length_append, pathOf_length, List.length_replicate, FILENAME_SIZE]
      omega
    · intro other path hgen hne hread
      obtain ⟨_, _, hother⟩ := @genPath_eq env dir other hdir hlen
      rw [hgen] at hother
      have hpair := Option.some.inj hother
      split at hpair
      · rename_i hfails
        exact hfails (Prod.mk.inj hpair).1.symm
      · split at hpair
        · rename_i hfails
          exact hfails (Prod.mk.inj hpair).1.symm
        · rw [(Prod.mk.inj hpair).2, readString_text (zero_not_mem_pathOf hdir other) (by omega)] at hread
          exact hne (pathOf_injective (Option.some.inj hread))

-- A short directory.
theorem names_file_short : NamesFile ⟨fun _ => true, fun _ => true, fun _ => false⟩ [47, 100] 1 :=
  (names_file_iff (by decide) (by decide) (Or.inl ⟨rfl, rfl⟩) (Or.inl ⟨rfl, rfl⟩)).mpr (by decide)

-- The longest directory that is accepted leaves no room for the NUL.
theorem longest_directory_unterminated :
    let env : Directories := ⟨fun _ => true, fun _ => true, fun _ => false⟩
    let dir : Bytes := List.replicate 237 100
    acceptsDir env dir = true ∧ 0 ∉ dir ∧ Available env (levelOne dir 1) ∧ Available env (levelTwo dir 1) ∧
      ¬NamesFile env dir 1 := by
  intro env dir
  have hdir : 0 ∉ dir := fun hm => absurd (List.eq_of_mem_replicate hm) (by decide)
  have hlen : dir.length = 237 := List.length_replicate
  have haccepted : acceptsDir env dir = true := by
    rw [acceptsDir, hlen]
    rfl
  have havailable : ∀ path, Available env path := fun _ => Or.inl ⟨rfl, rfl⟩
  exact ⟨haccepted, hdir, havailable _, havailable _,
    unterminated hdir hlen (havailable _) (havailable _)⟩

end Paths

end Solidbits
