import Solidbits.Parser.Request

namespace Solidbits

section Bitmaps

-- The bit at an offset; past the end of a bitmap there are zeros.
def bitAt (content : Bytes) (offset : Int) : Int :=
  bitOf (Padded.get content (byteOffset offset)) offset

-- Setting a bit; a zero past the end is not stored.
def setBit (content : Bytes) (offset value : Int) : Bytes :=
  if content.length ≤ byteOffset offset ∧ value = 0 then content
  else Padded.overwrite content (byteOffset offset)
    [withBit (Padded.get content (byteOffset offset)) offset value]

-- The bits of a byte range, counted in buffers.
def countBits (content : Bytes) : Nat → Nat → Nat → Nat → Nat
  | 0, _, _, bits => bits
  | fuel + 1, remaining, o, bits =>
      if remaining = 0 then bits
      else
        let s := Padded.slice content o (min remaining FILE_BUFFER_SIZE)
        if s.length = 0 then bits
        else countBits content fuel (remaining - s.length) (o + s.length) (bits + redisPopcount s s.length)

def bitCount (content : Bytes) (start stop : Int) : Int :=
  if start < 0 ∧ stop < 0 ∧ start > stop then 0
  else
    let (start, stop) := bitcountRange { start := start, stop := stop } content.length
    if start > stop then 0
    else countBits content (stop - start + 1).toNat (stop - start + 1).toNat start.toNat 0

def numberText (result : Int) : Bytes :=
  let text := str (toString result ++ "\n")
  (text.take 15 ++ [0]).take text.length

def resultText (result : Int) : Bytes :=
  if result < 0 then (str "ERR:FILE ACCESS FAILED\n").take 23 else numberText result

end Bitmaps

section Plain

variable {ν : Type} [DecidableEq ν] (name : Bytes → ν)

-- A request against a plain map from names to bitmaps, with its reply. BITOP
-- has no part in it.
def Request.plain (m : ν → Option Bytes) : Request → (ν → Option Bytes) × List Bytes
  | .fail text len => (m, [(str text).take len])
  | .setbit cmd =>
      let content := (m (name cmd.key)).getD []
      (Function.update m (name cmd.key) (some (setBit content cmd.offset cmd.value)),
        [resultText (bitAt content cmd.offset)])
  | .getbit cmd => (m, [resultText (bitAt ((m (name cmd.key)).getD []) cmd.offset)])
  | .bitcount key c args =>
      let content := (m (name key)).getD []
      let start := if c = 2 then 0 else atol (args.getD 1 [])
      let stop := if c = 4 then atol (args.getD 2 []) else (content.length : Int) - 1
      (m, [resultText (if content.length = 0 then 0 else bitCount content start stop)])
  | _ => (m, [])

def plainServe (state : (ν → Option Bytes) × List Bytes) (line : Bytes) :
    (ν → Option Bytes) × List Bytes :=
  let (m, replies) := (request line).plain name state.1
  (m, state.2 ++ replies)

-- The names of the bitmaps do not matter as long as they are different.
theorem plain_rename {ν' : Type} [DecidableEq ν'] (name' : Bytes → ν') (keys : Bytes → Prop)
    (hinj : ∀ key key', keys key → keys key' → name' key = name' key' → name key = name key')
    (hsame : ∀ key key', keys key → keys key' → name key = name key' → name' key = name' key')
    {m : ν → Option Bytes} {m' : ν' → Option Bytes} (hm : ∀ key, keys key → m (name key) = m' (name' key))
    (request : Request) (hkeys : ∀ key ∈ request.keys, keys key) :
    (request.plain name m).2 = (request.plain name' m').2 ∧
      ∀ key, keys key → (request.plain name m).1 (name key) = (request.plain name' m').1 (name' key) := by
  cases request with
  | setbit cmd =>
      have hkey := hkeys cmd.key (List.mem_singleton_self _)
      simp only [Request.plain, hm cmd.key hkey, true_and]
      intro key hk
      by_cases he : name key = name cmd.key
      · rw [he, hsame _ _ hk hkey he, Function.update_self, Function.update_self]
      · have he' : name' key ≠ name' cmd.key := fun h => he (hinj _ _ hk hkey h)
        rw [Function.update_of_ne he, Function.update_of_ne he', hm key hk]
  | getbit cmd =>
      have hkey := hkeys cmd.key (List.mem_singleton_self _)
      simp only [Request.plain, hm cmd.key hkey, true_and]
      exact hm
  | bitcount key c args =>
      have hkey := hkeys key (List.mem_singleton_self _)
      simp only [Request.plain, hm key hkey, true_and]
      exact hm
  | fail text len => exact ⟨rfl, hm⟩
  | bitop cmd keys => exact ⟨rfl, hm⟩
  | silent => exact ⟨rfl, hm⟩

end Plain

end Solidbits
