import Solidbits.Parser.Defs

namespace Solidbits

section Request

-- What a line asks for once it is split and checked.
inductive Request where
  | fail (text : String) (len : Nat)
  | setbit (cmd : SetbitCmd)
  | getbit (cmd : GetbitCmd)
  | bitop (cmd : BitopCmd) (keys : List Bytes)
  | bitcount (key : Bytes) (c : Nat) (args : List Bytes)
  | silent
  deriving DecidableEq

def Request.execute : Request → Cmd Unit
  | .fail text len => replyStr text len
  | .setbit cmd => setbitExecute cmd
  | .getbit cmd => getbitExecute cmd
  | .bitop cmd keys => bitopExecute cmd keys
  | .bitcount key c args => bitcountExecute key c args
  | .silent => return ()

-- The keys whose files are opened.
def Request.keys : Request → List Bytes
  | .setbit cmd => [cmd.key]
  | .getbit cmd => [cmd.key]
  | .bitop cmd keys => (if cmd.hook = .NONE then [cmd.key] else []) ++ keys.map cstr
  | .bitcount key _ _ => [key]
  | _ => []

def Request.isBitop : Request → Bool
  | .bitop _ _ => true
  | _ => false

def setbitRequest (line : Bytes) (c : Nat) : Request :=
  if c ≠ 4 then .fail "ERR:ARG TOO MANY OR FEW\n" 24
  else
    let args := splitFill line c
    let offset := atol (args.getD 1 [])
    if offset / 8 < 0 ∨ offset / 8 > FILE_SIZE_LIMIT then .fail "ERR:OFFSET OUT OF RANGE\n" 24
    else
      let value := atol (args.getD 2 [])
      if value ≠ 0 ∧ value ≠ 1 then .fail "ERR:SETBIT(3) MUST BE 1 OR 0\n" 29
      else
        match copyKey (args.getD 0 []) with
        | none => .fail "ERR:KEY TOO LONG\n" 17
        | some key => .setbit { key := key, offset := offset, value := value }

def getbitRequest (line : Bytes) (c : Nat) : Request :=
  if c ≠ 3 then .fail "ERR:ARGS TOO MANY OR FEW\n" 25
  else
    let args := splitFill line c
    let offset := atol (args.getD 1 [])
    if offset / 8 < 0 ∨ offset / 8 > FILE_SIZE_LIMIT then .fail "ERR:OFFSET OUT OF RANGE\n" 24
    else
      match copyKey (args.getD 0 []) with
      | none => .fail "ERR:KEY TOO LONG\n" 17
      | some key => .getbit { key := key, offset := offset }

def bitopRequest (line : Bytes) (c : Nat) : Request :=
  if c < 4 ∨ c > 19 then .fail "ERR:ARGS TOO MANY OR FEW\n" 25
  else
    let args := splitFill line c
    let dest := args.getD 1 []
    match parseOption (args.getD 0 []) with
    | none => .fail "ERR:UKNOW OPTION\n" 17
    | some option =>
        if option = .NOT ∧ c ≠ 4 then .fail "ERR:BITOP NOT JUST NEEDS ONE SOURCE\n" 36
        else if dest.headD 0 = 5 then
          if strcasecmpEq (dest.drop 1) (str "COUNTOP") then
            .bitop { count := c - 3, hook := .COUNTOP, option := option } (args.drop 2)
          else if strcasecmpEq (dest.drop 1) (str "GETOP") then
            .bitop { count := c - 3, hook := .GETOP, option := option } (args.drop 2)
          else .fail "ERR:UKNOW OPTION\n" 17
        else
          match copyKey dest with
          | none => .fail "ERR:KEY TOO LONG\n" 17
          | some key =>
              .bitop { key := key, count := c - 3, hook := .NONE, option := option } (args.drop 2)

def bitcountRequest (line : Bytes) (c : Nat) : Request :=
  if c < 2 ∨ c > 4 then .fail "ERR:ARGS TOO MANY OR FEW\n" 25
  else
    let args := splitFill line c
    match copyKey (args.getD 0 []) with
    | none => .fail "ERR:KEY TOO LONG\n" 17
    | some key => .bitcount key c args

def bitposRequest (c : Nat) : Request :=
  if c < 3 ∧ c > 5 then .fail "ERR:ARGS TOO MANY OR FEW\n" 25 else .silent

def bitfieldRequest (c : Nat) : Request :=
  if c < 5 then .fail "ERR:ARGS TOO FEW\n" 17 else .silent

def request (line : Bytes) : Request :=
  if line.length < CMD_MININUM then .fail "ERR:CMD TOO SHORT\n" 18
  else
    let c := getArgCount line
    match commandOf (xxh64 (line.take 5) 0) with
    | some .SETBIT => setbitRequest line c
    | some .GETBIT => getbitRequest line c
    | some .BITOP => bitopRequest line c
    | some .BITCOUNT => bitcountRequest line c
    | some .BITPOS => bitposRequest c
    | some .BITFIELD => bitfieldRequest c
    | none => .fail "ERR:UNKNOW CMD\n" 15

theorem execute_ite {p : Prop} [Decidable p] (a b : Request) :
    (if p then a else b).execute = if p then a.execute else b.execute :=
  apply_ite Request.execute p a b

theorem setbitCase_eq (line : Bytes) (c : Nat) : setbitCase line c = (setbitRequest line c).execute := by
  simp only [setbitCase, setbitRequest, execute_ite]
  cases copyKey ((splitFill line c).getD 0 []) <;> rfl

theorem getbitCase_eq (line : Bytes) (c : Nat) : getbitCase line c = (getbitRequest line c).execute := by
  simp only [getbitCase, getbitRequest, execute_ite]
  cases copyKey ((splitFill line c).getD 0 []) <;> rfl

theorem bitopCase_eq (line : Bytes) (c : Nat) : bitopCase line c = (bitopRequest line c).execute := by
  simp only [bitopCase, bitopRequest, execute_ite]
  cases parseOption ((splitFill line c).getD 0 []) with
  | none => rfl
  | some option =>
      simp only [execute_ite]
      cases copyKey ((splitFill line c).getD 1 []) <;> rfl

theorem bitcountCase_eq (line : Bytes) (c : Nat) :
    bitcountCase line c = (bitcountRequest line c).execute := by
  simp only [bitcountCase, bitcountRequest, execute_ite]
  cases copyKey ((splitFill line c).getD 0 []) <;> rfl

-- A line is parsed first and executed afterwards.
theorem parseAndExecute_eq (line : Bytes) : parseAndExecute line = (request line).execute := by
  simp only [parseAndExecute, request, execute_ite]
  cases commandOf (xxh64 (line.take 5) 0) with
  | none => rfl
  | some command =>
      cases command with
      | SETBIT => simp only [setbitCase_eq]; rfl
      | GETBIT => simp only [getbitCase_eq]; rfl
      | BITOP => simp only [bitopCase_eq]; rfl
      | BITCOUNT => simp only [bitcountCase_eq]; rfl
      | BITPOS => simp only [bitposCase, bitposRequest, execute_ite]; rfl
      | BITFIELD => simp only [bitfieldCase, bitfieldRequest, execute_ite]; rfl

theorem setbitRequest_setbit {line : Bytes} {c : Nat} {cmd : SetbitCmd}
    (h : setbitRequest line c = .setbit cmd) :
    0 ≤ cmd.offset / 8 ∧ cmd.offset / 8 ≤ FILE_SIZE_LIMIT ∧ (cmd.value = 0 ∨ cmd.value = 1) := by
  simp only [setbitRequest] at h
  split at h
  · cases h
  · split at h
    · cases h
    · rename_i hoffset
      split at h
      · cases h
      · rename_i hvalue
        split at h
        · cases h
        · rw [← Request.setbit.inj h]
          simp only
          omega

-- The command that a request belongs to.
def Request.command : Request → Option Command
  | .setbit _ => some .SETBIT
  | .getbit _ => some .GETBIT
  | .bitop _ _ => some .BITOP
  | .bitcount _ _ _ => some .BITCOUNT
  | _ => none

-- What each case of the switch makes of a line.
def Command.request (line : Bytes) (c : Nat) : Command → Request
  | .SETBIT => setbitRequest line c
  | .GETBIT => getbitRequest line c
  | .BITOP => bitopRequest line c
  | .BITCOUNT => bitcountRequest line c
  | .BITPOS => bitposRequest c
  | .BITFIELD => bitfieldRequest c

-- A case rejects the line or asks for its own command.
theorem command_request (line : Bytes) (c : Nat) (command : Command) :
    (command.request line c).command = none ∨ (command.request line c).command = some command := by
  cases command with
  | SETBIT =>
      simp only [Command.request, setbitRequest]
      split
      · exact Or.inl rfl
      · split
        · exact Or.inl rfl
        · split
          · exact Or.inl rfl
          · cases copyKey ((splitFill line c).getD 0 []) with
            | none => exact Or.inl rfl
            | some key => exact Or.inr rfl
  | GETBIT =>
      simp only [Command.request, getbitRequest]
      split
      · exact Or.inl rfl
      · split
        · exact Or.inl rfl
        · cases copyKey ((splitFill line c).getD 0 []) with
          | none => exact Or.inl rfl
          | some key => exact Or.inr rfl
  | BITOP =>
      simp only [Command.request, bitopRequest]
      split
      · exact Or.inl rfl
      · cases parseOption ((splitFill line c).getD 0 []) with
        | none => exact Or.inl rfl
        | some option =>
            simp only
            split
            · exact Or.inl rfl
            · split
              · split
                · exact Or.inr rfl
                · split
                  · exact Or.inr rfl
                  · exact Or.inl rfl
              · cases copyKey ((splitFill line c).getD 1 []) with
                | none => exact Or.inl rfl
                | some key => exact Or.inr rfl
  | BITCOUNT =>
      simp only [Command.request, bitcountRequest]
      split
      · exact Or.inl rfl
      · cases copyKey ((splitFill line c).getD 0 []) with
        | none => exact Or.inl rfl
        | some key => exact Or.inr rfl
  | BITPOS =>
      simp only [Command.request, bitposRequest]
      split <;> exact Or.inl rfl
  | BITFIELD =>
      simp only [Command.request, bitfieldRequest]
      split <;> exact Or.inl rfl

theorem request_eq (line : Bytes) : request line =
    if line.length < CMD_MININUM then .fail "ERR:CMD TOO SHORT\n" 18
    else
      match commandOf (xxh64 (line.take 5) 0) with
      | some command => command.request line (getArgCount line)
      | none => .fail "ERR:UNKNOW CMD\n" 15 := by
  unfold request
  cases commandOf (xxh64 (line.take 5) 0) with
  | none => rfl
  | some command => cases command <;> rfl

-- A command is asked for only by the case of the switch that is its own.
theorem request_of_command {line : Bytes} {command : Command} (h : (request line).command = some command) :
    CMD_MININUM ≤ line.length ∧ commandOf (xxh64 (line.take 5) 0) = some command ∧
      request line = command.request line (getArgCount line) := by
  rw [request_eq] at h ⊢
  split at h
  · cases h
  · rename_i hlength
    rw [if_neg hlength]
    cases hcase : commandOf (xxh64 (line.take 5) 0) with
    | none =>
        rw [hcase] at h
        cases h
    | some found =>
        rw [hcase] at h
        rcases command_request line (getArgCount line) found with hnone | hsome
        · cases h.symm.trans hnone
        · have hsame : found = command := Option.some.inj (hsome.symm.trans h)
          rw [hsame]
          exact ⟨Nat.not_lt.mp hlength, rfl, rfl⟩

theorem request_setbit {line : Bytes} {cmd : SetbitCmd} (h : request line = .setbit cmd) :
    0 ≤ cmd.offset / 8 ∧ cmd.offset / 8 ≤ FILE_SIZE_LIMIT ∧ (cmd.value = 0 ∨ cmd.value = 1) := by
  obtain ⟨_, _, hcase⟩ := request_of_command (show (request line).command = some .SETBIT by rw [h]; rfl)
  exact setbitRequest_setbit (hcase.symm.trans h)

end Request

end Solidbits
