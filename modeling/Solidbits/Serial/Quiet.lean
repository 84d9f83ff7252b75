import Solidbits.Bitops.Sizes
import Solidbits.Parser.Request

namespace Solidbits

open Prog

section Looks

-- Nothing but memory is touched.
def Looks : Act → Prop
  | .descLength _ => True
  | .readFrom _ _ _ => True
  | .posixMemalign => True
  | _ => False

theorem getbitCommand_looks (cmd : GetbitCmd) (dt : Slot) :
    (getbitCommand cmd dt).Only Looks fun _ => True := by
  refine only_ask trivial fun length => ?_
  split
  · refine only_ask trivial fun dst => ?_
    split <;> trivial
  · trivial

theorem bitcountLoop_looks (dt : Slot) (fuel remaining o bits : Nat) :
    (bitcountLoop dt fuel remaining o bits).Only Looks fun _ => True := by
  induction fuel generalizing remaining o bits with
  | zero => trivial
  | succ fuel ih =>
      unfold bitcountLoop
      split
      · trivial
      · refine only_ask trivial fun s => ?_
        split
        · trivial
        · exact ih _ _ _

theorem bitcountCommand_looks (cmd : BitcountCmd) (dt : Slot) :
    (bitcountCommand cmd dt).Only Looks fun _ => True := by
  refine only_ask trivial fun strlen => ?_
  split
  · trivial
  · simp only
    split
    · trivial
    · refine only_ask trivial fun ok => ?_
      split
      · trivial
      · exact bitcountLoop_looks dt _ _ _ _

-- The source of which the scan has kept the index ends with a read of at least
-- one byte, whatever lengths the scan is told.
def Pointed (sources : List Source) (maxidx maxlen : Nat) : Prop :=
  maxlen = 0 ∨ ∃ source, sources[maxidx]? = some source ∧ 0 < source.r

theorem Pointed.append {sources : List Source} {maxidx maxlen : Nat} (h : Pointed sources maxidx maxlen)
    (more : List Source) : Pointed (sources ++ more) maxidx maxlen := by
  rcases h with h | ⟨source, hs, hr⟩
  · exact Or.inl h
  · refine Or.inr ⟨source, ?_, hr⟩
    rw [List.getElem?_append_left (List.getElem?_eq_some_iff.mp hs).1, hs]

theorem opScan_looks (dts : List (Option Slot)) {maxidx maxlen : Nat} {sources : List Source}
    (h : Pointed sources maxidx maxlen) :
    (opScan dts sources.length maxidx maxlen sources).Only Looks
      fun result => Pointed result.1 result.2.1 result.2.2 := by
  induction dts generalizing maxidx maxlen sources with
  | nil => exact h
  | cons first dts ih =>
      have hlength : ∀ source : Source, sources.length + 1 = (sources ++ [source]).length := by simp
      cases first with
      | none =>
          rw [opScan, hlength { dt := none }]
          exact ih (h.append _)
      | some dt =>
          refine only_ask trivial fun length₁ => only_ask trivial fun length₂ => only_ask trivial fun length₃ => ?_
          generalize hsource : (if length₂ % FILE_BUFFER_SIZE ≠ 0 then
            { dt := some dt, t := length₁ / FILE_BUFFER_SIZE + 1, r := length₂ % FILE_BUFFER_SIZE }
            else { dt := some dt, t := length₁ / FILE_BUFFER_SIZE, r := FILE_BUFFER_SIZE } : Source) = source
          have hlast : 0 < source.r := by
            rw [← hsource]
            split
            · exact Nat.pos_of_ne_zero ‹_›
            · exact (by decide : 0 < FILE_BUFFER_SIZE)
          rw [hlength source]
          split
          · refine only_ask trivial fun length₄ => ih (Or.inr ⟨source, ?_, hlast⟩)
            simp
          · exact ih (h.append _)

theorem opMalloc_looks (count : Nat) : (opMalloc count).Only Looks fun _ => True := by
  induction count with
  | zero => trivial
  | succ count ih =>
      refine only_ask trivial fun ok => ?_
      split
      · trivial
      · exact ih

-- There is a buffer for every source.
theorem opRead_looks (offset : Int) (sources : List Source) :
    (opRead offset sources).Only Looks
      fun result => result.1.length = sources.length ∧ result.2.length = sources.length := by
  induction sources with
  | nil => exact ⟨rfl, rfl⟩
  | cons source sources ih =>
      unfold opRead
      split
      · refine only_bind ih fun result hresult => ?_
        exact ⟨congrArg (· + 1) hresult.1, congrArg (· + 1) hresult.2⟩
      · split
        · refine only_bind ih fun result hresult => ?_
          exact ⟨congrArg (· + 1) hresult.1, congrArg (· + 1) hresult.2⟩
        · refine only_ask trivial fun data => only_bind ih fun result hresult => ?_
          exact ⟨congrArg (· + 1) hresult.1, congrArg (· + 1) hresult.2⟩

theorem opLoop_looks {cmd : BitopCmd} (hhook : cmd.hook ≠ .NONE) (dest : Option Slot) (rmax left : Nat)
    (sources : List Source) (offset : Int) (bits : Nat) :
    (opLoop cmd dest rmax left sources offset bits).Only Looks fun _ => True := by
  induction left generalizing sources offset bits with
  | zero => trivial
  | succ left ih =>
      refine only_bind (opRead_looks offset sources) fun result _ => ?_
      cases hook : cmd.hook with
      | NONE => exact absurd hook hhook
      | COUNTOP => simpa only [hook] using ih _ _ _
      | GETOP => simpa only [hook] using ih _ _ _

theorem bitopCommand_looks {cmd : BitopCmd} (hhook : cmd.hook ≠ .NONE) (dest : Option Slot)
    (dts : List (Option Slot)) : (bitopCommand cmd dest dts).Only Looks fun _ => True := by
  refine only_bind (@opScan_looks dts 0 0 [] (Or.inl rfl)) fun result _ => ?_
  simp only
  split
  · trivial
  · refine only_bind (opMalloc_looks cmd.count) fun ok _ => ?_
    split
    · trivial
    · split
      · trivial
      · exact opLoop_looks hhook dest _ _ _ _ _

end Looks

section Quiet

-- No file is created, truncated or written.
def Quiet : Act → Prop
  | .prepareFile _ mode => mode = 1
  | .writeTo _ _ _ => False
  | _ => True

theorem Looks.quiet {action : Act} (h : Looks action) : Quiet action := by
  cases action with
  | prepareFile key mode => exact h.elim
  | writeTo dt buf offset => exact h.elim
  | releaseDesc dt => trivial
  | descLength dt => trivial
  | readFrom dt size offset => trivial
  | posixMemalign => trivial
  | reply text len => trivial

theorem only_quiet {α : Type} {post : α → Prop} {prog : Cmd α} (h : prog.Only Looks post) :
    prog.Only Quiet post :=
  h.mono (fun _ => Looks.quiet) fun _ => id

theorem replyStr_quiet (text : String) (len : Nat) : (replyStr text len).Only Quiet fun _ => True :=
  only_ask trivial fun _ => trivial

theorem replyResult_quiet (result : Int) : (replyResult result).Only Quiet fun _ => True := by
  unfold replyResult
  split
  · exact replyStr_quiet _ _
  · exact only_ask trivial fun _ => trivial

theorem releaseAllDescs_quiet (descs : List (Option Slot)) :
    (releaseAllDescs descs).Only Quiet fun _ => True := by
  induction descs with
  | nil => trivial
  | cons first descs ih =>
      cases first with
      | none => exact ih
      | some dt => exact only_ask trivial fun _ => ih

-- Only files that are there are opened.
def Finds : Act → Prop
  | .prepareFile _ mode => mode = 1
  | _ => False

theorem prepareFilesLoop_finds (keys : List Bytes) (tmp : List (Option Slot)) :
    (prepareFilesLoop keys tmp).Only Finds fun _ => True := by
  induction keys generalizing tmp with
  | nil => trivial
  | cons key keys ih =>
      refine only_ask rfl fun answer => ?_
      split
      · exact ih _
      · exact ih _
      · trivial

theorem Finds.quiet {action : Act} (h : Finds action) : Quiet action := by
  cases action with
  | prepareFile key mode => exact h
  | releaseDesc dt => exact h.elim
  | descLength dt => exact h.elim
  | readFrom dt size offset => exact h.elim
  | writeTo dt buf offset => exact h.elim
  | posixMemalign => exact h.elim
  | reply text len => exact h.elim

end Quiet

section Ends

variable {p : Act → Prop}

-- The end of a request: the reply, then the pins are given back.
theorem finish_only (hquiet : ∀ action, Quiet action → p action) {command : Cmd Int}
    (h : command.Only p fun _ => True) (descs : List (Option Slot)) :
    (do
      let result ← command
      replyResult result
      releaseAllDescs descs).Only p fun _ => True := by
  refine only_bind h fun result _ => ?_
  refine Only.mono hquiet (fun _ => id) ?_
  exact only_bind (replyResult_quiet result) fun _ _ => releaseAllDescs_quiet descs

theorem failed_only (hquiet : ∀ action, Quiet action → p action) (text : String) (len : Nat)
    (descs : List (Option Slot)) :
    (do
      replyStr text len
      releaseAllDescs descs).Only p fun _ => True := by
  refine Only.mono hquiet (fun _ => id) ?_
  exact only_bind (replyStr_quiet text len) fun _ _ => releaseAllDescs_quiet descs

theorem bitopSources_only (hquiet : ∀ action, Quiet action → p action) {cmd : BitopCmd} {dest : Option Slot}
    (h : ∀ dts, (bitopCommand cmd dest dts).Only p fun _ => True) (keys : List Bytes) :
    (bitopSources cmd dest keys).Only p fun _ => True := by
  have hfinds := Only.mono (fun action h => hquiet action (Finds.quiet h)) (fun _ => id)
    (prepareFilesLoop_finds keys.reverse [])
  refine only_bind hfinds fun answer _ => ?_
  split
  · exact failed_only hquiet _ _ _
  · exact finish_only hquiet (h _) _

end Ends

section Stores

-- Every write stores something, and no file is truncated.
def Stores : Act → Prop
  | .prepareFile _ mode => mode < 2
  | .writeTo _ buf _ => buf ≠ []
  | _ => True

theorem Quiet.stores {action : Act} (h : Quiet action) : Stores action := by
  cases action with
  | prepareFile key mode => exact Nat.lt_of_le_of_lt (Nat.le_of_eq h) (by decide)
  | writeTo dt buf offset => exact h.elim
  | releaseDesc dt => trivial
  | descLength dt => trivial
  | readFrom dt size offset => trivial
  | posixMemalign => trivial
  | reply text len => trivial

theorem only_stores {α : Type} {post : α → Prop} {prog : Cmd α} (h : prog.Only Quiet post) :
    prog.Only Stores post :=
  h.mono (fun _ => Quiet.stores) fun _ => id

theorem setbitWrite_stores (cmd : SetbitCmd) (dt : Slot) (byteval : UInt8) :
    (setbitWrite cmd dt byteval).Only Stores fun _ => True := by
  refine only_ask (List.cons_ne_nil _ _) fun r => ?_
  split <;> trivial

theorem setbitCommand_stores (cmd : SetbitCmd) (dt : Slot) :
    (setbitCommand cmd dt).Only Stores fun _ => True := by
  refine only_ask trivial fun length => ?_
  split
  · refine only_ask trivial fun dst => ?_
    split
    · trivial
    · exact setbitWrite_stores cmd dt _
  · split
    · trivial
    · exact setbitWrite_stores cmd dt 0

theorem opLoop_stores (cmd : BitopCmd) (dest : Option Slot) {rmax : Nat} (hrmax : 0 < rmax) (left : Nat)
    {sources : List Source} (hsources : 0 < sources.length) (offset : Int) (bits : Nat) :
    (opLoop cmd dest rmax left sources offset bits).Only Stores fun _ => True := by
  induction left generalizing sources offset bits with
  | zero => trivial
  | succ left ih =>
      refine only_bind (only_stores (only_quiet (opRead_looks offset sources))) fun result hresult => ?_
      obtain ⟨hbufs, hnext⟩ := hresult
      have hsize : 0 < if left ≠ 0 then FILE_BUFFER_SIZE else rmax := by
        split
        · exact (by decide : 0 < FILE_BUFFER_SIZE)
        · exact hrmax
      have hne : result.1 ≠ [] := List.ne_nil_of_length_pos (by omega)
      have hchunk := (@opChunk_length cmd.option result.1 (if left ≠ 0 then FILE_BUFFER_SIZE else rmax)).2 hne
      simp only
      split
      · refine only_ask (List.ne_nil_of_length_pos (by omega)) fun r => ?_
        split
        · trivial
        · exact ih (by omega) _ _
      · trivial
      · exact ih (by omega) _ _
      · exact ih (by omega) _ _

theorem bitopCommand_stores (cmd : BitopCmd) (dest : Option Slot) (dts : List (Option Slot)) :
    (bitopCommand cmd dest dts).Only Stores fun _ => True := by
  refine only_bind (only_stores (only_quiet (@opScan_looks dts 0 0 [] (Or.inl rfl)))) fun result hpointed => ?_
  obtain ⟨sources, maxidx, maxlen⟩ := result
  simp only
  split
  · trivial
  · rename_i hmaxlen
    refine only_bind (only_stores (only_quiet (opMalloc_looks cmd.count))) fun ok _ => ?_
    obtain ⟨source, hs, hr⟩ := hpointed.resolve_left hmaxlen
    split
    · trivial
    · simp only [hs]
      have hlt : maxidx < sources.length := (List.getElem?_eq_some_iff.mp hs).1
      exact opLoop_stores cmd dest hr _ (by omega) _ _

end Stores

section Requests

-- Only a BITOP that has a destination truncates, and that with its first action.
def Request.truncates : Request → Option Bytes
  | .bitop cmd _ => if cmd.hook = .NONE then some cmd.key else none
  | _ => none

-- A request that may change the data of a key.
def Request.changes : Request → Bool
  | .setbit _ => true
  | .bitop cmd _ => cmd.hook = .NONE
  | _ => false

theorem bitcountExecute_quiet (key : Bytes) (c : Nat) (args : List Bytes) :
    (bitcountExecute key c args).Only Quiet fun _ => True := by
  have hquiet : ∀ action, Quiet action → Quiet action := fun _ => id
  refine only_ask rfl fun answer => ?_
  split
  · exact replyStr_quiet _ _
  · exact failed_only hquiet _ _ _
  · refine only_ask trivial fun length => ?_
    split
    · exact failed_only hquiet _ _ _
    · simp only
      split
      · exact finish_only hquiet (only_quiet (bitcountCommand_looks _ _)) _
      · refine only_ask trivial fun length => ?_
        exact finish_only hquiet (only_quiet (bitcountCommand_looks _ _)) _

theorem request_quiet {request : Request} (h : request.changes = false) :
    request.execute.Only Quiet fun _ => True := by
  have hquiet : ∀ action, Quiet action → Quiet action := fun _ => id
  cases request with
  | fail text len => exact replyStr_quiet text len
  | setbit cmd => cases h
  | getbit cmd =>
      refine only_ask rfl fun answer => ?_
      split
      · exact replyStr_quiet _ _
      · exact failed_only hquiet _ _ _
      · exact finish_only hquiet (only_quiet (getbitCommand_looks cmd _)) _
  | bitop cmd keys =>
      have hhook : cmd.hook ≠ .NONE := by simpa [Request.changes] using h
      simp only [Request.execute, bitopExecute]
      split
      · exact absurd ‹_› hhook
      · exact bitopSources_only hquiet (fun dts => only_quiet (bitopCommand_looks hhook none dts)) keys
      · exact bitopSources_only hquiet (fun dts => only_quiet (bitopCommand_looks hhook none dts)) keys
  | bitcount key c args => exact bitcountExecute_quiet key c args
  | silent => trivial

theorem request_stores {request : Request} (h : request.truncates = none) :
    request.execute.Only Stores fun _ => True := by
  cases hchanges : request.changes with
  | false => exact only_stores (request_quiet hchanges)
  | true =>
      cases request with
      | setbit cmd =>
          refine only_ask (by decide : 0 < 2) fun answer => ?_
          split
          · exact failed_only (fun _ => Quiet.stores) _ _ _
          · exact finish_only (fun _ => Quiet.stores) (setbitCommand_stores cmd _) _
      | bitop cmd keys =>
          have hhook : cmd.hook = .NONE := by simpa [Request.changes] using hchanges
          simp [Request.truncates, hhook] at h
      | fail text len => cases hchanges
      | getbit cmd => cases hchanges
      | bitcount key c args => cases hchanges
      | silent => cases hchanges

theorem truncates_eq {request : Request} {key : Bytes} (h : request.truncates = some key) :
    ∃ cmd keys, request = .bitop cmd keys ∧ cmd.hook = .NONE ∧ cmd.key = key := by
  cases request with
  | bitop cmd keys =>
      simp only [Request.truncates] at h
      split at h
      · exact ⟨cmd, keys, rfl, ‹_›, Option.some.inj h⟩
      · cases h
  | fail text len => cases h
  | setbit cmd => cases h
  | getbit cmd => cases h
  | bitcount key c args => cases h
  | silent => cases h

-- A BITOP with a destination: the open, and then a program that only stores.
theorem bitopExecute_NONE {cmd : BitopCmd} (hhook : cmd.hook = .NONE) (keys : List Bytes) :
    ∃ next, bitopExecute cmd keys = .act (.prepareFile cmd.key 2) next ∧
      ∀ answer, (next answer).Only Stores fun _ => True := by
  unfold bitopExecute
  rw [hhook]
  refine ⟨_, rfl, fun answer => ?_⟩
  cases answer with
  | error error => exact failed_only (fun _ => Quiet.stores) _ _ _
  | ok dest => exact bitopSources_only (fun _ => Quiet.stores) (bitopCommand_stores cmd (some dest)) keys

end Requests

end Solidbits
