import Solidbits.Parser.Decimal
import Solidbits.Parser.Request

namespace Solidbits

section Calls

-- str.join of the client.
def join (words : List Bytes) : Bytes := [SPACE].intercalate words

-- The calls of the Python client. A key is the bytes it is encoded to, and stop
-- is the argument end.
inductive ClientCall where
  | setbit (key : Bytes) (offset value : Int)
  | getbit (key : Bytes) (offset : Int)
  | bitcount (key : Bytes) (start stop : Option Int)
  | bitop (op dest : Bytes) (srcs : List Bytes)
  | bitcop (op : Bytes) (srcs : List Bytes)

-- The line that is sent, without the newline.
def ClientCall.line : ClientCall → Bytes
  | .setbit key offset value => str "SETBIT " ++ key ++ str " " ++ printed offset ++ str " " ++ printed value
  | .getbit key offset => str "GETBIT " ++ key ++ str " " ++ printed offset
  | .bitcount key start stop =>
      let parts := [str "BITCOUNT", key]
      let parts := match start with
        | some start => parts ++ [printed start]
        | none => parts
      let parts := match stop with
        | some stop => parts ++ [printed stop]
        | none => parts
      join parts
  | .bitop op dest srcs => str "BITOP " ++ op ++ str " " ++ dest ++ str " " ++ join srcs
  | .bitcop op srcs => str "BITOP " ++ op ++ str " \x05COUNTOP " ++ join srcs

end Calls

section Meaning

-- A key that is not empty, is not too long, does not end early and is no hook.
structure Key (key : Bytes) : Prop where
  nonempty : key ≠ []
  length : key.length ≤ 64
  space : SPACE ∉ key
  newline : 10 ∉ key
  zero : 0 ∉ key
  hook : key.head? ≠ some 5

def OpOption.name : OpOption → Bytes
  | .AND => str "and"
  | .OR => str "or"
  | .XOR => str "xor"
  | .NOT => str "not"

def Spells (op : Bytes) (option : OpOption) : Prop := op.map tolower = option.name

def ClientCall.Valid : ClientCall → Prop
  | .setbit key offset value =>
      Key key ∧ 0 ≤ offset / 8 ∧ offset / 8 ≤ FILE_SIZE_LIMIT ∧ (value = 0 ∨ value = 1)
  | .getbit key offset => Key key ∧ 0 ≤ offset / 8 ∧ offset / 8 ≤ FILE_SIZE_LIMIT
  | .bitcount key start stop => Key key ∧ (∀ n ∈ start, LONG_MIN ≤ n ∧ n ≤ LONG_MAX) ∧
      ∀ n ∈ stop, LONG_MIN ≤ n ∧ n ≤ LONG_MAX
  | .bitop op dest srcs => (∃ option, Spells op option) ∧ Key dest ∧ (∀ src ∈ srcs, Key src) ∧
      1 ≤ srcs.length ∧ srcs.length ≤ 16
  | .bitcop op srcs => (∃ option, Spells op option) ∧ (∀ src ∈ srcs, Key src) ∧
      1 ≤ srcs.length ∧ srcs.length ≤ 16

-- The command that BITCOUNT runs on a file of this length.
def bitcountCmd (key : Bytes) (c : Nat) (args : List Bytes) (length : Nat) : BitcountCmd :=
  { key := key
    start := if c = 2 then 0 else atol (args.getD 1 [])
    stop := if c = 4 then atol (args.getD 2 []) else (length : Int) - 1 }

-- Whether a request is what the caller meant: an omitted start is the first
-- byte of the file, an omitted end the last one.
def ClientCall.Means : ClientCall → Request → Prop
  | .setbit key offset value, .setbit cmd => cmd = { key := key, offset := offset, value := value }
  | .getbit key offset, .getbit cmd => cmd = { key := key, offset := offset }
  | .bitcount key start stop, .bitcount key' c args => ∀ length : Nat, bitcountCmd key' c args length =
      { key := key, start := start.getD 0, stop := stop.getD ((length : Int) - 1) }
  | .bitop op dest srcs, .bitop cmd keys => Spells op cmd.option ∧ cmd.hook = .NONE ∧ cmd.key = dest ∧
      cmd.count = srcs.length ∧ keys.map cstr = srcs
  | .bitcop op srcs, .bitop cmd keys => Spells op cmd.option ∧ cmd.hook = .COUNTOP ∧
      cmd.count = srcs.length ∧ keys.map cstr = srcs
  | _, _ => False

-- What bitcountExecute passes on.
theorem bitcountExecute_eq (key : Bytes) (c : Nat) (args : List Bytes) : bitcountExecute key c args = (do
    match ← Cmd.prepareFile key 1 with
    | .error .missing => replyStr "0\n" 2
    | .error .failed =>
        replyStr "ERR:FILESYSTEM FAILED\n" 22
        releaseAllDescs []
    | .ok dt =>
        let length ← Cmd.descLength dt
        if length = 0 then
          replyStr "0\n" 2
          releaseAllDescs [some dt]
        else
          let length ← if c = 4 then pure length else Cmd.descLength dt
          let result ← bitcountCommand (bitcountCmd key c args length) dt
          replyResult result
          releaseAllDescs [some dt]) := by
  refine congrArg (Prog.act (Act.prepareFile key 1)) (funext fun answer => ?_)
  cases answer with
  | error error =>
      cases error with
      | missing => rfl
      | failed => rfl
  | ok dt =>
      refine congrArg (Prog.act (Act.descLength dt)) (funext fun length => ?_)
      by_cases hfour : c = 4
      · simp [bitcountCmd, hfour]
      · simp [bitcountCmd, hfour]

end Meaning

end Solidbits
