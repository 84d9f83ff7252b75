import Solidbits.Cmd
import Mathlib.Data.Int.Notation

namespace Solidbits

structure SetbitCmd where
  key : Bytes := []
  offset : Int := 0
  value : Int := 0
  deriving DecidableEq

structure GetbitCmd where
  key : Bytes := []
  offset : Int := 0
  deriving DecidableEq

structure BitcountCmd where
  key : Bytes := []
  start : Int := 0
  stop : Int := 0
  deriving DecidableEq

inductive OpOption where
  | AND
  | OR
  | XOR
  | NOT
  deriving DecidableEq

inductive OpHook where
  | NONE
  | COUNTOP
  | GETOP
  deriving DecidableEq

structure BitopCmd where
  key : Bytes := []
  count : Nat
  hook : OpHook
  option : OpOption
  deriving DecidableEq

section Bits

-- offset >> 3 and 1 << (7 - (offset & 7)): the first bit of a byte is its
-- highest.
def byteOffset (offset : Int) : Nat := (offset / 8).toNat

def bitMask (offset : Int) : UInt8 := 1 <<< (7 - (offset % 8).toNat.toUInt8)

def bitOf (byteval : UInt8) (offset : Int) : Int := if byteval &&& bitMask offset ≠ 0 then 1 else 0

def withBit (byteval : UInt8) (offset value : Int) : UInt8 :=
  (byteval &&& ~~~(bitMask offset)) ||| if value % 2 ≠ 0 then bitMask offset else 0

-- Writing the byte that holds the bit and returning the bit as it was read.
def setbitWrite (cmd : SetbitCmd) (dt : Slot) (byteval : UInt8) : Cmd Int := do
  let r ← Cmd.writeTo dt [withBit byteval cmd.offset cmd.value] (byteOffset cmd.offset)
  if r = 0 then return -1 else return bitOf byteval cmd.offset

def setbitCommand (cmd : SetbitCmd) (dt : Slot) : Cmd Int := do
  let length ← Cmd.descLength dt
  if byteOffset cmd.offset < length then
    let dst ← Cmd.readFrom dt 1 (byteOffset cmd.offset)
    if dst.r = 0 then return -1 else setbitWrite cmd dt (Padded.get dst.buf 0)
  else if cmd.value = 0 then return 0
  else setbitWrite cmd dt 0

def getbitCommand (cmd : GetbitCmd) (dt : Slot) : Cmd Int := do
  let length ← Cmd.descLength dt
  if byteOffset cmd.offset < length then
    let dst ← Cmd.readFrom dt 1 (byteOffset cmd.offset)
    if dst.r = 0 then return -1 else return bitOf (Padded.get dst.buf 0) cmd.offset
  else return 0

end Bits

section Popcount

def bitsinbyte : List Nat :=
  [0, 1, 1, 2, 1, 2, 2, 3, 1, 2, 2, 3, 2, 3, 3, 4, 1, 2, 2, 3, 2, 3, 3, 4, 2, 3, 3, 4, 3, 4, 4, 5,
   1, 2, 2, 3, 2, 3, 3, 4, 2, 3, 3, 4, 3, 4, 4, 5, 2, 3, 3, 4, 3, 4, 4, 5, 3, 4, 4, 5, 4, 5, 5, 6,
   1, 2, 2, 3, 2, 3, 3, 4, 2, 3, 3, 4, 3, 4, 4, 5, 2, 3, 3, 4, 3, 4, 4, 5, 3, 4, 4, 5, 4, 5, 5, 6,
   2, 3, 3, 4, 3, 4, 4, 5, 3, 4, 4, 5, 4, 5, 5, 6, 3, 4, 4, 5, 4, 5, 5, 6, 4, 5, 5, 6, 5, 6, 6, 7,
   1, 2, 2, 3, 2, 3, 3, 4, 2, 3, 3, 4, 3, 4, 4, 5, 2, 3, 3, 4, 3, 4, 4, 5, 3, 4, 4, 5, 4, 5, 5, 6,
   2, 3, 3, 4, 3, 4, 4, 5, 3, 4, 4, 5, 4, 5, 5, 6, 3, 4, 4, 5, 4, 5, 5, 6, 4, 5, 5, 6, 5, 6, 6, 7,
   2, 3, 3, 4, 3, 4, 4, 5, 3, 4, 4, 5, 4, 5, 5, 6, 3, 4, 4, 5, 4, 5, 5, 6, 4, 5, 5, 6, 5, 6, 6, 7,
   3, 4, 4, 5, 4, 5, 5, 6, 4, 5, 5, 6, 5, 6, 6, 7, 4, 5, 5, 6, 5, 6, 6, 7, 5, 6, 6, 7, 6, 7, 7, 8]

-- A 32-bit word in memory order, here little-endian.
def loadWord32 (p : Bytes) : UInt32 :=
  (p.getD 0 0).toUInt32 ||| (p.getD 1 0).toUInt32 <<< 8 ||| (p.getD 2 0).toUInt32 <<< 16 |||
    (p.getD 3 0).toUInt32 <<< 24

def loadWord32Big (p : Bytes) : UInt32 :=
  (p.getD 3 0).toUInt32 ||| (p.getD 2 0).toUInt32 <<< 8 ||| (p.getD 1 0).toUInt32 <<< 16 |||
    (p.getD 0 0).toUInt32 <<< 24

inductive ByteOrder where
  | little
  | big

def ByteOrder.load : ByteOrder → Bytes → UInt32
  | .little => loadWord32
  | .big => loadWord32Big

def sumPairs (aux : UInt32) : UInt32 :=
  let aux : UInt32 := aux - ((aux >>> 1) &&& (0x55555555 : UInt32))
  (aux &&& (0x33333333 : UInt32)) + ((aux >>> 2) &&& (0x33333333 : UInt32))

def sumNibbles (aux : UInt32) : UInt32 := (aux + (aux >>> 4)) &&& (0x0F0F0F0F : UInt32)

-- One round of the loop over 28 bytes, for a given way to load a word.
def popcountBlock (load : Bytes → UInt32) (p : Bytes) : Nat :=
  let aux := fun (i : Nat) => sumNibbles (sumPairs (load (p.drop (4 * i))))
  (((aux 0 + aux 1 + aux 2 + aux 3 + aux 4 + aux 5 + aux 6) * 0x01010101) >>> 24).toNat

def popcountBlocks (load : Bytes → UInt32) : Nat → Bytes → Nat → Nat × Bytes
  | 0, p, bits => (bits, p)
  | n + 1, p, bits => popcountBlocks load n (p.drop 28) (bits + popcountBlock load p)

def redisPopcountWith (load : Bytes → UInt32) (s : Bytes) (count : Nat) : Nat :=
  let (bits, p) := popcountBlocks load (count / 28) s 0
  (p.take (count % 28)).foldl (fun bits byte => bits + bitsinbyte.getD byte.toNat 0) bits

def redisPopcount (s : Bytes) (count : Nat) : Nat := redisPopcountWith loadWord32 s count

end Popcount

section Bitcount

-- Every round reads at least one byte or ends the loop, so the number of bytes
-- still wanted is fuel enough.
def bitcountLoop (dt : Slot) : Nat → Nat → Nat → Nat → Cmd Int
  | 0, _, _, bits => return bits
  | fuel + 1, remaining, o, bits =>
      if remaining = 0 then return bits
      else do
        let s ← Cmd.readFrom dt (min remaining FILE_BUFFER_SIZE) o
        if s.r = 0 then return bits
        else bitcountLoop dt fuel (remaining - s.r) (o + s.r) (bits + redisPopcount s.buf s.r)

-- The byte range after the three clamps, for a file of the given length.
def bitcountRange (cmd : BitcountCmd) (strlen : Int) : Int × Int :=
  let start := if cmd.start < 0 then max 0 (strlen + cmd.start) else cmd.start
  let stop := if cmd.stop < 0 then max 0 (strlen + cmd.stop) else cmd.stop
  (start, if strlen ≤ stop then strlen - 1 else stop)

def bitcountCommand (cmd : BitcountCmd) (dt : Slot) : Cmd Int := do
  let strlen ← Cmd.descLength dt
  if cmd.start < 0 ∧ cmd.stop < 0 ∧ cmd.start > cmd.stop then return 0
  else
    let (start, stop) := bitcountRange cmd strlen
    if start > stop then return 0
    else
      let count := (stop - start + 1).toNat
      let ok ← Cmd.posixMemalign
      if !ok then return -1
      else bitcountLoop dt count count start.toNat 0

end Bitcount

section Bitop

-- A buffer of FILE_BUFFER_SIZE bytes, zeroed before each read.
abbrev Buf := Nat → UInt8

def bufOf (data : Bytes) : Buf := Padded.get data

-- An unsigned long in the buffer, little-endian.
def loadWord (p : Buf) (i : Nat) : BitVec 64 :=
  (p (i + 7)).toBitVec ++ (p (i + 6)).toBitVec ++ (p (i + 5)).toBitVec ++ (p (i + 4)).toBitVec ++
    (p (i + 3)).toBitVec ++ (p (i + 2)).toBitVec ++ (p (i + 1)).toBitVec ++ (p i).toBitVec

def storeWord (p : Buf) (i : Nat) (word : BitVec 64) : Buf := fun j =>
  if i ≤ j ∧ j < i + 8 then UInt8.ofBitVec (word.extractLsb' (8 * (j - i)) 8) else p j

def opWord (option : OpOption) (x y : BitVec 64) : BitVec 64 :=
  match option with
  | .AND => x &&& y
  | .OR => x ||| y
  | .XOR => x ^^^ y
  | .NOT => ~~~x

def opByte (option : OpOption) (x y : UInt8) : UInt8 :=
  match option with
  | .AND => x &&& y
  | .OR => x ||| y
  | .XOR => x ^^^ y
  | .NOT => ~~~x

-- Four words of one source into the first buffer.
def opWords (option : OpOption) (idx : Nat) (p0 p : Buf) : Buf :=
  [0, 8, 16, 24].foldl
    (fun p0 k => storeWord p0 (idx + k) (opWord option (loadWord p0 (idx + k)) (loadWord p (idx + k)))) p0

def wordStep (option : OpOption) (idx : Nat) (p0 : Buf) (ps : List Buf) : Buf :=
  if option = .NOT then opWords option idx p0 p0
  else ps.foldl (opWords option idx) p0

def wordLoop (option : OpOption) : Nat → Nat → Buf → List Buf → Buf
  | 0, _, p0, _ => p0
  | times + 1, idx, p0, ps => wordLoop option times (idx + 32) (wordStep option idx p0 ps) ps

def byteStep (option : OpOption) (idx : Nat) (p0 : Buf) (ps : List Buf) : Buf :=
  if option = .NOT then Function.update p0 idx (~~~(p0 idx))
  else ps.foldl (fun p0 p => Function.update p0 idx (opByte option (p0 idx) (p idx))) p0

def byteLoop (option : OpOption) : Nat → Nat → Buf → List Buf → Buf
  | 0, _, p0, _ => p0
  | size + 1, idx, p0, ps => byteLoop option size (idx + 1) (byteStep option idx p0 ps) ps

-- One chunk: the words first, then the bytes left over. The first buffer ends
-- up with the result.
def opChunk (option : OpOption) (bufs : List Buf) (size : Nat) : Bytes :=
  match bufs with
  | [] => []
  | p0 :: ps =>
      let times := size / 32
      let p0 := wordLoop option times 0 p0 ps
      let p0 := byteLoop option (size - 32 * times) (32 * times) p0 ps
      (List.range size).map p0

-- Per source: the reads still to make and the size of the last one.
structure Source where
  dt : Option Slot
  t : Nat := 0
  r : Nat := 0

-- The loop over the sources; dt->length is read again at every mention.
def opScan : List (Option Slot) → Nat → Nat → Nat → List Source → Cmd (List Source × Nat × Nat)
  | [], _, maxidx, maxlen, sources => return (sources, maxidx, maxlen)
  | none :: dts, i, maxidx, maxlen, sources =>
      opScan dts (i + 1) maxidx maxlen (sources ++ [{ dt := none }])
  | some dt :: dts, i, maxidx, maxlen, sources => do
      let length₁ ← Cmd.descLength dt
      let length₂ ← Cmd.descLength dt
      let source : Source :=
        if length₂ % FILE_BUFFER_SIZE ≠ 0 then
          { dt := some dt, t := length₁ / FILE_BUFFER_SIZE + 1, r := length₂ % FILE_BUFFER_SIZE }
        else { dt := some dt, t := length₁ / FILE_BUFFER_SIZE, r := FILE_BUFFER_SIZE }
      let length₃ ← Cmd.descLength dt
      if maxlen < length₃ then
        let length₄ ← Cmd.descLength dt
        opScan dts (i + 1) i length₄ (sources ++ [source])
      else opScan dts (i + 1) maxidx maxlen (sources ++ [source])

def opMalloc : Nat → Cmd Bool
  | 0 => return true
  | count + 1 => do
      let ok ← Cmd.posixMemalign
      if !ok then return false else opMalloc count

-- Filling the buffers of one round. What a read does not bring stays zero, and
-- whether it failed is not looked at.
def opRead (offset : Int) : List Source → Cmd (List Buf × List Source)
  | [] => return ([], [])
  | source :: sources => do
      match source.dt with
      | none =>
          let (bufs, rest) ← opRead offset sources
          return (bufOf [] :: bufs, source :: rest)
      | some dt =>
          if source.t = 0 then
            let (bufs, rest) ← opRead offset sources
            return (bufOf [] :: bufs, source :: rest)
          else
            let data ← Cmd.readFrom dt (if source.t = 1 then source.r else FILE_BUFFER_SIZE) offset
            let (bufs, rest) ← opRead offset sources
            return (bufOf data.buf :: bufs, { source with t := source.t - 1 } :: rest)

-- An int holds the low 32 bits of what is added up.
def toInt (x : Int) : Int := x.bmod (2 ^ 32)

-- The loop while t[maxidx] is not zero; `left` is t[maxidx] after the reads of
-- the round.
def opLoop (cmd : BitopCmd) (dest : Option Slot) (rmax : Nat) : Nat → List Source → Int → Nat → Cmd Int
  | 0, _, offset, bits => return if cmd.hook = .COUNTOP then bits else offset
  | left + 1, sources, offset, bits => do
      let (bufs, sources) ← opRead offset sources
      let size := if left ≠ 0 then FILE_BUFFER_SIZE else rmax
      let p0 := opChunk cmd.option bufs size
      match cmd.hook, dest with
      | .NONE, some dest =>
          let r ← Cmd.writeTo dest p0 offset
          if r = 0 then return -1
          else opLoop cmd dest rmax left sources (toInt (offset + size)) bits
      | .NONE, none => return -1
      | .COUNTOP, _ =>
          opLoop cmd dest rmax left sources (toInt (offset + size)) (bits + redisPopcount p0 size)
      | .GETOP, _ => opLoop cmd dest rmax left sources (toInt (offset + size)) bits

def bitopCommand (cmd : BitopCmd) (dest : Option Slot) (dts : List (Option Slot)) : Cmd Int := do
  let (sources, maxidx, maxlen) ← opScan dts 0 0 0 []
  if maxlen = 0 then return 0
  else
    let ok ← opMalloc cmd.count
    if !ok then return -1
    else
      match sources[maxidx]? with
      | none => return 0
      | some longest => opLoop cmd dest longest.r longest.t sources 0 0

end Bitop

end Solidbits
