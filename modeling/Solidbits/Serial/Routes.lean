import Solidbits.Jobs.Discipline
import Solidbits.Parser.Prefix
import Solidbits.Parser.Tokens
import Solidbits.Serial.Cache
import Solidbits.Serial.Failing

namespace Solidbits

open Prog Tokens Transition

section Keys

-- The tokens of a line that name the files of its command. A destination that
-- begins with Ctrl-E names a hook instead.
def Command.route (line : List Bytes) : Command → List Bytes
  | .SETBIT => [line.getD 1 []]
  | .GETBIT => [line.getD 1 []]
  | .BITOP => (if (line.getD 2 []).headD 0 = 5 then [] else [line.getD 2 []]) ++ line.drop 3
  | .BITCOUNT => [line.getD 1 []]
  | .BITPOS => []
  | .BITFIELD => []

theorem copyKey_eq {src key : Bytes} (h : copyKey src = some key) : key = cstr src := by
  unfold copyKey at h
  split at h
  · cases h
  · exact (Option.some.inj h).symm

theorem splitFill_getD (line : Bytes) (i : Nat) :
    (splitFill line (getArgCount line)).getD i [] = (tokens SPACE line).getD (i + 1) [] := by
  rw [splitFill_eq, List.getD_eq_getElem?_getD, List.getElem?_drop, Nat.add_comm 1 i, ← List.getD_eq_getElem?_getD]

theorem setbitRequest_keys {line : Bytes} {cmd : SetbitCmd}
    (h : setbitRequest line (getArgCount line) = .setbit cmd) : cmd.key = cstr ((tokens SPACE line).getD 1 []) := by
  simp only [setbitRequest] at h
  split at h
  · cases h
  · split at h
    · cases h
    · split at h
      · cases h
      · split at h
        · cases h
        · rename_i key hkey
          rw [← splitFill_getD, ← Request.setbit.inj h]
          exact copyKey_eq hkey

theorem getbitRequest_keys {line : Bytes} {cmd : GetbitCmd}
    (h : getbitRequest line (getArgCount line) = .getbit cmd) : cmd.key = cstr ((tokens SPACE line).getD 1 []) := by
  simp only [getbitRequest] at h
  split at h
  · cases h
  · split at h
    · cases h
    · split at h
      · cases h
      · rename_i key hkey
        rw [← splitFill_getD, ← Request.getbit.inj h]
        exact copyKey_eq hkey

theorem bitcountRequest_keys {line key : Bytes} {c : Nat} {args : List Bytes}
    (h : bitcountRequest line (getArgCount line) = .bitcount key c args) :
    key = cstr ((tokens SPACE line).getD 1 []) := by
  simp only [bitcountRequest] at h
  split at h
  · cases h
  · split at h
    · cases h
    · rename_i copied hkey
      rw [← splitFill_getD, ← (Request.bitcount.inj h).1]
      exact copyKey_eq hkey

theorem bitopRequest_keys {line : Bytes} {cmd : BitopCmd} {keys : List Bytes}
    (h : bitopRequest line (getArgCount line) = .bitop cmd keys) :
    keys = (tokens SPACE line).drop 3 ∧
      (if cmd.hook = .NONE then [cmd.key] else []) =
        (if ((tokens SPACE line).getD 2 []).headD 0 = 5 then []
          else [cstr ((tokens SPACE line).getD 2 [])]) := by
  have hdrop : (splitFill line (getArgCount line)).drop 2 = (tokens SPACE line).drop 3 := by
    rw [splitFill_eq, List.drop_drop]
  simp only [bitopRequest, splitFill_getD, hdrop] at h
  split at h
  · cases h
  · split at h
    · cases h
    · split at h
      · cases h
      · split at h
        · rename_i hhook
          rw [if_pos hhook]
          split at h
          · obtain ⟨rfl, rfl⟩ := Request.bitop.inj h
            exact ⟨rfl, rfl⟩
          · split at h
            · obtain ⟨rfl, rfl⟩ := Request.bitop.inj h
              exact ⟨rfl, rfl⟩
            · cases h
        · rename_i hhook
          rw [if_neg hhook]
          split at h
          · cases h
          · rename_i key hkey
            obtain ⟨rfl, rfl⟩ := Request.bitop.inj h
            exact ⟨rfl, congrArg (fun key => [key]) (copyKey_eq hkey)⟩

-- The files of a request are those its line names.
theorem request_keys {line : Bytes} {command : Command} (h : (request line).command = some command) :
    (request line).keys = (command.route (tokens SPACE line)).map cstr := by
  obtain ⟨_, _, hcase⟩ := request_of_command h
  cases hr : request line with
  | setbit cmd =>
      rw [hr] at h hcase
      cases h
      rw [Request.keys, setbitRequest_keys hcase.symm]
      rfl
  | getbit cmd =>
      rw [hr] at h hcase
      cases h
      rw [Request.keys, getbitRequest_keys hcase.symm]
      rfl
  | bitop cmd keys =>
      rw [hr] at h hcase
      cases h
      obtain ⟨hsources, hdest⟩ := bitopRequest_keys hcase.symm
      rw [Request.keys, hsources, hdest, Command.route, List.map_append]
      split <;> rfl
  | bitcount key c args =>
      rw [hr] at h hcase
      cases h
      rw [Request.keys, bitcountRequest_keys hcase.symm]
      rfl
  | fail text len => rw [hr] at h; cases h
  | silent => rw [hr] at h; cases h

end Keys

section Actions

-- Only files of these keys are opened.
def Asks (keys : List Bytes) : Act → Prop
  | .prepareFile key _ => key ∈ keys
  | _ => True

variable {keys : List Bytes}

theorem asks_of_opensNothing {action : Act} (h : OpensNothing action) : Asks keys action := by
  cases action with
  | prepareFile key mode => exact h.elim
  | releaseDesc dt => trivial
  | descLength dt => trivial
  | readFrom dt size offset => trivial
  | writeTo dt buf offset => trivial
  | posixMemalign => trivial
  | reply text len => trivial

theorem only_asks {α : Type} {post : α → Prop} {prog : Cmd α} (h : prog.Only OpensNothing post) :
    prog.Only (Asks keys) post :=
  h.mono (fun _ => asks_of_opensNothing) fun _ => id

theorem failed_asks (text : String) (len : Nat) (descs : List (Option Slot)) : (do
    replyStr text len
    releaseAllDescs descs).Only (Asks keys) fun _ => True :=
  only_asks (only_ask trivial fun _ => releaseAllDescs_opensNothing descs)

theorem prepareFilesLoop_asks (opened : List Bytes) (tmp : List (Option Slot))
    (h : ∀ key ∈ opened, cstr key ∈ keys) : (prepareFilesLoop opened tmp).Only (Asks keys) fun _ => True := by
  induction opened generalizing tmp with
  | nil => trivial
  | cons key opened ih =>
      have hrest := fun key hm => h key (List.mem_cons_of_mem _ hm)
      refine only_ask (h key List.mem_cons_self) fun answer => ?_
      split
      · exact ih _ hrest
      · exact ih _ hrest
      · trivial

theorem bitopSources_asks (cmd : BitopCmd) (dest : Option Slot) (sources : List Bytes)
    (h : ∀ key ∈ sources, cstr key ∈ keys) : (bitopSources cmd dest sources).Only (Asks keys) fun _ => True := by
  have hopened := prepareFilesLoop_asks sources.reverse [] fun key hm => h key (List.mem_reverse.mp hm)
  refine only_bind hopened fun answer _ => ?_
  split
  · exact failed_asks _ _ _
  · exact only_asks (command_opensNothing (bitopCommand_accesses cmd fun _ _ => trivial) _)

theorem request_asks (request : Request) : request.execute.Only (Asks request.keys) fun _ => True := by
  cases request with
  | fail text len => exact ⟨trivial, fun _ => trivial⟩
  | setbit cmd =>
      refine only_ask (List.mem_singleton_self _) fun answer => ?_
      split
      · exact failed_asks _ _ _
      · exact only_asks (command_opensNothing (setbitCommand_accesses trivial cmd) _)
  | getbit cmd =>
      refine only_ask (List.mem_singleton_self _) fun answer => ?_
      split
      · exact ⟨trivial, fun _ => trivial⟩
      · exact failed_asks _ _ _
      · exact only_asks (command_opensNothing (getbitCommand_accesses trivial cmd) _)
  | bitop cmd sources =>
      have hsources : ∀ key ∈ sources, cstr key ∈ (Request.bitop cmd sources).keys :=
        fun key hm => List.mem_append_right _ (List.mem_map_of_mem hm)
      simp only [Request.execute, bitopExecute]
      split
      · rename_i hhook
        have hdest : cmd.key ∈ (Request.bitop cmd sources).keys := by simp [Request.keys, hhook]
        refine only_ask hdest fun answer => ?_
        split
        · exact failed_asks _ _ _
        · exact bitopSources_asks cmd _ sources hsources
      · exact bitopSources_asks cmd none sources hsources
      · exact bitopSources_asks cmd none sources hsources
  | bitcount key c args =>
      refine only_ask (List.mem_singleton_self _) fun answer => ?_
      split
      · exact ⟨trivial, fun _ => trivial⟩
      · exact failed_asks _ _ _
      · refine only_ask trivial fun length => ?_
        split
        · exact failed_asks _ _ _
        · by_cases hfour : c = 4
          · simp only [hfour, ite_true, pure_eq, ret_bind]
            exact only_asks (command_opensNothing (bitcountCommand_accesses trivial _) _)
          · simp only [hfour, ite_false]
            exact only_ask trivial fun length =>
              only_asks (command_opensNothing (bitcountCommand_accesses trivial _) _)
  | silent => trivial

end Actions

section Lines

theorem start_no_space (command : Command) : SPACE ∉ command.start := by
  cases command <;> decide

-- A line that asks for no command is answered and changes nothing.
theorem serve_none {line : Bytes} (h : (request line).command = none) (choices : Nat → Choice) (s : Server) :
    (s.tryServe choices line).store = s.store := by
  rw [Server.tryServe, parseAndExecute_eq]
  cases hr : request line with
  | fail text len => rfl
  | silent => rfl
  | setbit cmd => rw [hr] at h; cases h
  | getbit cmd => rw [hr] at h; cases h
  | bitop cmd keys => rw [hr] at h; cases h
  | bitcount key c args => rw [hr] at h; cases h

-- A command is run only for a line whose first token begins with its prefix, and
-- then only on descriptors it was handed for the keys of the line.
theorem line_routed (line : Bytes) :
    parseAndExecute line = (request line).execute ∧
      (parseAndExecute line).wp (pinContract.restrict (Asks (request line).keys)) (fun after _ => after.Returned) {} ∧
      match (request line).command with
      | none => ∀ choices (s : Server), (s.tryServe choices line).store = s.store
      | some command =>
          (∃ first, (tokens SPACE line).head? = some first ∧ command.start <+: first) ∧
            (request line).keys = (command.route (tokens SPACE line)).map cstr := by
  refine ⟨parseAndExecute_eq line, ?_, ?_⟩
  · rw [parseAndExecute_eq]
    exact wp_restrict (pin_request (request line)) (request_asks (request line))
  · split
    · exact fun choices s => serve_none ‹_› choices s
    · rename_i command hcommand
      obtain ⟨hlength, hhash, _⟩ := request_of_command hcommand
      have hfive : (line.take 5).length = 5 := by
        rw [List.length_take]
        simp only [CMD_MININUM] at hlength
        omega
      have hstart : command.start <+: line := start_of_commandOf hfive hhash ▸ List.take_prefix 5 line
      have hne : command.start ≠ [] := List.ne_nil_of_length_pos (by rw [start_length]; decide)
      exact ⟨tokens_first hne (start_no_space command) hstart, request_keys hcommand⟩

-- The name is not looked at behind its fifth byte.
theorem glued_name_sets :
    (request (str "SETBITX k 0 1")).command = some .SETBIT ∧
      (tokens SPACE (str "SETBITX k 0 1")).head? ≠ some Command.SETBIT.name ∧
      (run (Server.serve id) (Server.start fun _ => none) [str "SETBITX k 0 1", str "GETBIT k 0"]).replies =
        [str "0\n", str "1\n"] := by
  decide +kernel

end Lines

end Solidbits
