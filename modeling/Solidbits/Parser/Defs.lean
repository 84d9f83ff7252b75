import Solidbits.Bitops.Defs

namespace Solidbits

def CMD_MININUM : Nat := 10
def LONG_MAX : Int := 2 ^ 63 - 1
def LONG_MIN : Int := -2 ^ 63

section Text

def str (s : String) : Bytes := s.toList.map fun c => c.toNat.toUInt8

def SPACE : UInt8 := 32

-- A C string ends at its first NUL.
def cstr (arg : Bytes) : Bytes := arg.takeWhile (· ≠ 0)

def isspace (c : UInt8) : Bool := c = SPACE ∨ (9 ≤ c ∧ c ≤ 13)

def isdigit (c : UInt8) : Bool := 48 ≤ c ∧ c ≤ 57

def tolower (c : UInt8) : UInt8 := if 65 ≤ c ∧ c ≤ 90 then c + 32 else c

-- Whether strcasecmp returns 0.
def strcasecmpEq (a b : Bytes) : Bool := (cstr a).map tolower = (cstr b).map tolower

def decimalValue (digits : Bytes) : Int :=
  digits.foldl (fun n c => 10 * n + ((c - 48).toNat : Int)) 0

-- atol and atoll: leading white space, a sign, digits, and saturation.
def atol (arg : Bytes) : Int :=
  let s := (cstr arg).dropWhile isspace
  let n := match s with
    | 45 :: rest => -decimalValue (rest.takeWhile isdigit)
    | 43 :: rest => decimalValue (rest.takeWhile isdigit)
    | rest => decimalValue (rest.takeWhile isdigit)
  max LONG_MIN (min LONG_MAX n)

-- get_arg_count walks the line with the offset i, the offset l after the last
-- space and the count c; `prev` is str[i - 1].
def getArgCountLoop : Bytes → Option UInt8 → Nat → Nat → Nat → Nat × Nat × Nat
  | [], _, i, l, c => (i, l, c)
  | char :: rest, prev, i, l, c =>
      if char = SPACE then
        getArgCountLoop rest (some char) (i + 1) (i + 1) (if prev.any (· ≠ SPACE) then c + 1 else c)
      else getArgCountLoop rest (some char) (i + 1) l c

def getArgCount (line : Bytes) : Nat :=
  let (i, l, c) := getArgCountLoop line none 0 0 0
  if l < i then c + 1 else c

def splitArgs : Nat → Bytes → List Bytes
  | 0, _ => []
  | count + 1, rest =>
      let rest := rest.dropWhile (· = SPACE)
      rest.takeWhile (· ≠ SPACE) :: splitArgs count (rest.dropWhile (· ≠ SPACE))

-- The cursor is the rest of the line; the command name is skipped first.
def splitFill (line : Bytes) (count : Nat) : List Bytes :=
  splitArgs (count - 1) ((line.dropWhile (· = SPACE)).dropWhile (· ≠ SPACE))

def copyKey (src : Bytes) : Option Bytes :=
  if 64 < (cstr src).length then none else some (cstr src)

def parseOption (arg : Bytes) : Option OpOption :=
  let first := arg.headD 0
  if (first = 97 ∨ first = 65) ∧ strcasecmpEq arg (str "and") then some .AND
  else if (first = 111 ∨ first = 79) ∧ strcasecmpEq arg (str "or") then some .OR
  else if (first = 120 ∨ first = 88) ∧ strcasecmpEq arg (str "xor") then some .XOR
  else if (first = 110 ∨ first = 78) ∧ strcasecmpEq arg (str "not") then some .NOT
  else none

end Text

section Requests

def replyStr (s : String) (len : Nat) : Cmd Unit := do
  let _ ← Cmd.reply (str s) len
  return ()

-- reply(buf, snprintf(buf, 16, "%ld\n", result)): at most 15 bytes and a NUL are
-- stored, the full length is passed on.
def replyNumber (result : Int) : Cmd Unit := do
  let text := str (toString result ++ "\n")
  let _ ← Cmd.reply (text.take 15 ++ [0]) text.length
  return ()

def replyResult (result : Int) : Cmd Unit :=
  if result < 0 then replyStr "ERR:FILE ACCESS FAILED\n" 23 else replyNumber result

def releaseAllDescs : List (Option Slot) → Cmd Unit
  | [] => return ()
  | none :: descs => releaseAllDescs descs
  | some dt :: descs => do
      Cmd.releaseDesc dt
      releaseAllDescs descs

-- The loop of prepare_files runs from the last key to the first; the pins of a
-- run that fails stay in the array that is dropped.
def prepareFilesLoop : List Bytes → List (Option Slot) → Cmd (Option (List (Option Slot)))
  | [], tmp => return some tmp
  | key :: keys, tmp => do
      match ← Cmd.prepareFile (cstr key) 1 with
      | .ok dt => prepareFilesLoop keys (some dt :: tmp)
      | .error .missing => prepareFilesLoop keys (none :: tmp)
      | .error .failed => return none

def prepareFiles (keys : List Bytes) : Cmd (Option (List (Option Slot))) :=
  prepareFilesLoop keys.reverse []

def setbitExecute (cmd : SetbitCmd) : Cmd Unit := do
  match ← Cmd.prepareFile cmd.key 0 with
  | .error _ =>
      replyStr "ERR:FILESYSTEM FAILED\n" 22
      releaseAllDescs []
  | .ok dt =>
      let result ← setbitCommand cmd dt
      replyResult result
      releaseAllDescs [some dt]

def setbitCase (line : Bytes) (c : Nat) : Cmd Unit :=
  if c ≠ 4 then replyStr "ERR:ARG TOO MANY OR FEW\n" 24
  else
    let args := splitFill line c
    let offset := atol (args.getD 1 [])
    if offset / 8 < 0 ∨ offset / 8 > FILE_SIZE_LIMIT then replyStr "ERR:OFFSET OUT OF RANGE\n" 24
    else
      let value := atol (args.getD 2 [])
      if value ≠ 0 ∧ value ≠ 1 then replyStr "ERR:SETBIT(3) MUST BE 1 OR 0\n" 29
      else
        match copyKey (args.getD 0 []) with
        | none => replyStr "ERR:KEY TOO LONG\n" 17
        | some key => setbitExecute { key := key, offset := offset, value := value }

def getbitExecute (cmd : GetbitCmd) : Cmd Unit := do
  match ← Cmd.prepareFile cmd.key 1 with
  | .error .missing => replyStr "0\n" 2
  | .error .failed =>
      replyStr "ERR:FILESYSTEM FAILED\n" 22
      releaseAllDescs []
  | .ok dt =>
      let result ← getbitCommand cmd dt
      replyResult result
      releaseAllDescs [some dt]

def getbitCase (line : Bytes) (c : Nat) : Cmd Unit :=
  if c ≠ 3 then replyStr "ERR:ARGS TOO MANY OR FEW\n" 25
  else
    let args := splitFill line c
    let offset := atol (args.getD 1 [])
    if offset / 8 < 0 ∨ offset / 8 > FILE_SIZE_LIMIT then replyStr "ERR:OFFSET OUT OF RANGE\n" 24
    else
      match copyKey (args.getD 0 []) with
      | none => replyStr "ERR:KEY TOO LONG\n" 17
      | some key => getbitExecute { key := key, offset := offset }

-- The part of BITOP that all hooks share: open the sources, compute, reply.
def bitopSources (cmd : BitopCmd) (dest : Option Slot) (keys : List Bytes) : Cmd Unit := do
  match ← prepareFiles keys with
  | none =>
      replyStr "ERR:FILESYSTEM FAILED\n" 22
      releaseAllDescs [dest]
  | some dts =>
      let result ← bitopCommand cmd dest dts
      replyResult result
      releaseAllDescs (dest :: dts)

def bitopExecute (cmd : BitopCmd) (keys : List Bytes) : Cmd Unit :=
  match cmd.hook with
  | .NONE => do
      match ← Cmd.prepareFile cmd.key 2 with
      | .error _ =>
          replyStr "ERR:FILESYSTEM FAILED\n" 22
          releaseAllDescs []
      | .ok dest => bitopSources cmd (some dest) keys
  | .COUNTOP => bitopSources cmd none keys
  | .GETOP => bitopSources cmd none keys

def bitopCase (line : Bytes) (c : Nat) : Cmd Unit :=
  if c < 4 ∨ c > 19 then replyStr "ERR:ARGS TOO MANY OR FEW\n" 25
  else
    let args := splitFill line c
    let dest := args.getD 1 []
    match parseOption (args.getD 0 []) with
    | none => replyStr "ERR:UKNOW OPTION\n" 17
    | some option =>
        if option = .NOT ∧ c ≠ 4 then replyStr "ERR:BITOP NOT JUST NEEDS ONE SOURCE\n" 36
        else if dest.headD 0 = 5 then
          if strcasecmpEq (dest.drop 1) (str "COUNTOP") then
            bitopExecute { count := c - 3, hook := .COUNTOP, option := option } (args.drop 2)
          else if strcasecmpEq (dest.drop 1) (str "GETOP") then
            bitopExecute { count := c - 3, hook := .GETOP, option := option } (args.drop 2)
          else replyStr "ERR:UKNOW OPTION\n" 17
        else
          match copyKey dest with
          | none => replyStr "ERR:KEY TOO LONG\n" 17
          | some key =>
              bitopExecute { key := key, count := c - 3, hook := .NONE, option := option } (args.drop 2)

-- The missing start and end are filled in from the length of the file.
def bitcountExecute (key : Bytes) (c : Nat) (args : List Bytes) : Cmd Unit := do
  match ← Cmd.prepareFile key 1 with
  | .error .missing => replyStr "0\n" 2
  | .error .failed =>
      replyStr "ERR:FILESYSTEM FAILED\n" 22
      releaseAllDescs []
  | .ok dt =>
      let length ← Cmd.descLength dt
      if length = 0 then
        replyStr "0\n" 2
        releaseAllDescs [some dt]
      else
        let stop ← if c = 4 then pure (atol (args.getD 2 [])) else do
          let length ← Cmd.descLength dt
          pure ((length : Int) - 1)
        let start := if c = 2 then 0 else atol (args.getD 1 [])
        let result ← bitcountCommand { key := key, start := start, stop := stop } dt
        replyResult result
        releaseAllDescs [some dt]

def bitcountCase (line : Bytes) (c : Nat) : Cmd Unit :=
  if c < 2 ∨ c > 4 then replyStr "ERR:ARGS TOO MANY OR FEW\n" 25
  else
    let args := splitFill line c
    match copyKey (args.getD 0 []) with
    | none => replyStr "ERR:KEY TOO LONG\n" 17
    | some key => bitcountExecute key c args

-- The bounds of BITPOS exclude each other.
def bitposCase (c : Nat) : Cmd Unit :=
  if c < 3 ∧ c > 5 then replyStr "ERR:ARGS TOO MANY OR FEW\n" 25 else return ()

def bitfieldCase (c : Nat) : Cmd Unit :=
  if c < 5 then replyStr "ERR:ARGS TOO FEW\n" 17 else return ()

inductive Command where
  | SETBIT
  | GETBIT
  | BITOP
  | BITCOUNT
  | BITPOS
  | BITFIELD
  deriving DecidableEq

-- The cases of the switch on the hash of the first five bytes.
def commandOf (hash : UInt64) : Option Command :=
  if hash = 13964470052823109277 then some .SETBIT
  else if hash = 4534844053247176213 then some .GETBIT
  else if hash = 2226304069708374537 then some .BITOP
  else if hash = 9951046379166068647 then some .BITCOUNT
  else if hash = 16475154490487774448 then some .BITPOS
  else if hash = 16283480983475320022 then some .BITFIELD
  else none

def parseAndExecute (line : Bytes) : Cmd Unit :=
  if line.length < CMD_MININUM then replyStr "ERR:CMD TOO SHORT\n" 18
  else
    let c := getArgCount line
    match commandOf (xxh64 (line.take 5) 0) with
    | some .SETBIT => setbitCase line c
    | some .GETBIT => getbitCase line c
    | some .BITOP => bitopCase line c
    | some .BITCOUNT => bitcountCase line c
    | some .BITPOS => bitposCase c
    | some .BITFIELD => bitfieldCase c
    | none => replyStr "ERR:UNKNOW CMD\n" 15

end Requests

end Solidbits
