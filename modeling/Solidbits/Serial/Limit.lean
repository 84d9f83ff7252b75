import Solidbits.Bitops.Sizes
import Solidbits.File.Limit
import Solidbits.Serial.Alone
import Solidbits.Serial.Failing

namespace Solidbits

open Prog Transition

section Requests

variable {limit : Nat} {works : Slot → Prop} {length : Slot → Nat}

theorem wp_sizes_prepareFile {α : Type} {key : Bytes} {mode : Nat} {f : Except OpenError Slot → Cmd α}
    {post : (Slot → Nat) → α → Prop} (hmode : mode ≤ 2)
    (hf : ∀ answer after, BoundedBy limit after → (f answer).wp (sizes limit works) post after) :
    (Cmd.prepareFile key mode >>= f).wp (sizes limit works) post length :=
  (wp_ask (sizes limit works) post (Act.prepareFile key mode) f length).mpr ⟨hmode, hf⟩

theorem wp_sizes_replyStr (hlength : BoundedBy limit length) (text : String) (len : Nat) :
    (replyStr text len).wp (sizes limit works) (fun after _ => BoundedBy limit after) length := by
  refine (wp_ask (sizes limit works) _ (Act.reply (str text) len) _ length).mpr ⟨trivial, ?_⟩
  rintro _ _ rfl
  exact hlength

theorem wp_sizes_replyResult (hlength : BoundedBy limit length) (result : Int) :
    (replyResult result).wp (sizes limit works) (fun after _ => BoundedBy limit after) length := by
  unfold replyResult
  split
  · exact wp_sizes_replyStr hlength _ _
  · refine (wp_ask (sizes limit works) _ (Act.reply _ _) _ length).mpr ⟨trivial, ?_⟩
    rintro _ _ rfl
    exact hlength

theorem wp_sizes_releaseAllDescs (hlength : BoundedBy limit length) (descs : List (Option Slot)) :
    (releaseAllDescs descs).wp (sizes limit works) (fun after _ => BoundedBy limit after) length := by
  induction descs generalizing length with
  | nil => exact hlength
  | cons first descs ih =>
      cases first with
      | none => exact ih hlength
      | some dt =>
          refine (wp_ask (sizes limit works) _ (Act.releaseDesc dt) _ length).mpr ⟨trivial, ?_⟩
          exact fun _ _ hafter => ih hafter

theorem wp_sizes_prepareFilesLoop (hlength : BoundedBy limit length) (keys : List Bytes)
    (tmp : List (Option Slot)) :
    (prepareFilesLoop keys tmp).wp (sizes limit works) (fun after _ => BoundedBy limit after) length := by
  induction keys generalizing length tmp with
  | nil => exact hlength
  | cons key keys ih =>
      apply wp_sizes_prepareFile (by decide)
      intro answer after hafter
      split
      · exact ih hafter _
      · exact ih hafter _
      · exact hafter

theorem wp_sizes_bitopSources (hlimit : limit < 2 ^ 31) (hlength : BoundedBy limit length) (cmd : BitopCmd)
    (dest : Option Slot) (keys : List Bytes) :
    (bitopSources cmd dest keys).wp (sizes limit works) (fun after _ => BoundedBy limit after) length := by
  apply wp_seq (wp_sizes_prepareFilesLoop hlength keys.reverse [])
  intro after dts hafter
  split
  · apply wp_seq (wp_sizes_replyStr hafter _ _)
    exact fun last _ hlast => wp_sizes_releaseAllDescs hlast _
  · apply wp_seq (wp_sizes_bitopCommand hlimit hafter cmd dest)
    rintro last result ⟨hlast, _⟩
    apply wp_seq (wp_sizes_replyResult hlast result)
    exact fun _ _ hend => wp_sizes_releaseAllDescs hend _

-- A SETBIT that sets a 1 stays below the limit.
def InRange (limit : Nat) : Request → Prop
  | .setbit cmd => cmd.value ≠ 0 → byteOffset cmd.offset < limit
  | _ => True

-- A command on one descriptor, with its reply.
theorem wp_sizes_single {command : Cmd Int} (dt : Slot)
    (hcommand : command.wp (sizes limit works) (fun after _ => BoundedBy limit after) length) :
    (do
      let result ← command
      replyResult result
      releaseAllDescs [some dt]).wp (sizes limit works) (fun after _ => BoundedBy limit after) length := by
  apply wp_seq hcommand
  intro after result hafter
  apply wp_seq (wp_sizes_replyResult hafter result)
  exact fun last _ hlast => wp_sizes_releaseAllDescs hlast _

theorem wp_sizes_failed (hlength : BoundedBy limit length) (text : String) (len : Nat)
    (descs : List (Option Slot)) :
    (do
      replyStr text len
      releaseAllDescs descs).wp (sizes limit works) (fun after _ => BoundedBy limit after) length := by
  apply wp_seq (wp_sizes_replyStr hlength text len)
  exact fun last _ hlast => wp_sizes_releaseAllDescs hlast descs

theorem wp_sizes_bitcountExecute (key : Bytes) (c : Nat) (args : List Bytes) :
    (bitcountExecute key c args).wp (sizes limit works) (fun after _ => BoundedBy limit after) length := by
  apply wp_sizes_prepareFile (by decide)
  intro answer after hafter
  split
  · exact wp_sizes_replyStr hafter _ _
  · exact wp_sizes_failed hafter _ _ _
  · rename_i dt
    have hmeasured := sizes_measured limit works after dt
    apply hmeasured.wp
    split
    · exact wp_sizes_failed hafter _ _ _
    · simp only
      split
      · exact wp_sizes_single dt (wp_sizes_bitcountCommand hafter _)
      · apply hmeasured.wp
        exact wp_sizes_single dt (wp_sizes_bitcountCommand hafter _)

-- Every request whose SETBIT is in range keeps the recorded lengths within the
-- limit.
theorem wp_sizes_request (hlimit : limit < 2 ^ 31) (hlength : BoundedBy limit length) {request : Request}
    (hrange : InRange limit request) :
    request.execute.wp (sizes limit works) (fun after _ => BoundedBy limit after) length := by
  cases request with
  | fail text len => exact wp_sizes_replyStr hlength text len
  | setbit cmd =>
      apply wp_sizes_prepareFile (by decide)
      intro answer after hafter
      split
      · exact wp_sizes_failed hafter _ _ _
      · exact wp_sizes_single _ (wp_sizes_setbitCommand hafter cmd hrange)
  | getbit cmd =>
      apply wp_sizes_prepareFile (by decide)
      intro answer after hafter
      split
      · exact wp_sizes_replyStr hafter _ _
      · exact wp_sizes_failed hafter _ _ _
      · exact wp_sizes_single _ (wp_sizes_getbitCommand hafter cmd)
  | bitop cmd keys =>
      simp only [Request.execute, bitopExecute]
      split
      · apply wp_sizes_prepareFile (by decide)
        intro answer after hafter
        split
        · exact wp_sizes_failed hafter _ _ _
        · exact wp_sizes_bitopSources hlimit hafter cmd _ keys
      · exact wp_sizes_bitopSources hlimit hlength cmd none keys
      · exact wp_sizes_bitopSources hlimit hlength cmd none keys
  | bitcount key c args => exact wp_sizes_bitcountExecute key c args
  | silent => exact hlength

end Requests

section Contained

variable {limit : Nat} {length : Slot → Nat} {st : Store} {s : Server} {dest : Slot}

def INT_MAX : Nat := 2147483647

def Store.Writable (st : Store) (dt : Slot) : Prop :=
  ∃ n path, (st.descs dt).fd = some n ∧ st.fs.names n = some (path, false)

-- No file grows beyond the limit, whether on disk or as its FILE object shows
-- it, and the int variables of bitopCommand hold what is computed with them:
-- t[i] and r[i] of every descriptor, and in any run of the command the offset
-- of every access and the end of it. A run that stores its result and does not
-- fail returns the length of the longest source.
structure Store.Contained (st : Store) : Prop where
  disk : ∀ path content, st.fs.disk path = some content → content.length ≤ FILE_SIZE_LIMIT
  shown : ∀ n file, st.fs.files n = some file →
    (file.applied (st.fs.content file.path)).length ≤ FILE_SIZE_LIMIT
  counters : ∀ dt, reads (st.descs dt).length ≤ INT_MAX ∧ lastRead (st.descs dt).length ≤ INT_MAX
  offsets : ∀ choices cmd dest dts, (bitopCommand cmd dest dts).Along (Server.tryAct choices)
    (fun _ action => Fits INT_MAX action) { store := st }
  returned : ∀ cmd dest dts, cmd.hook = .NONE → st.Writable dest →
    ((bitopCommand cmd (some dest) dts).alone st).1 = longestOf (dts.map (lengthIn fun dt => (st.descs dt).length))

-- The recorded lengths of a server whose files stay within the limit.
structure Sized (limit : Nat) (length : Slot → Nat) (st : Store) : Prop where
  within : st.Within limit
  lengths : ∀ slot, length slot = (st.descs slot).length

theorem Store.Within.sized (h : st.Within limit) : Sized limit (fun slot => (st.descs slot).length) st :=
  ⟨h, fun _ => rfl⟩

theorem Store.Within.act (h : st.Within limit) (choice : Choice) (action : Act) (hfits : Fits limit action) :
    (execAct choice action st).2.Within limit := by
  cases action with
  | prepareFile key mode => exact h.prepareHashed choice (xxh64 key 0) hfits
  | releaseDesc dt =>
      apply h.setDesc
      exact h.lengths dt
  | descLength dt => exact h
  | readFrom dt size offset => exact h.readFrom choice dt size offset
  | writeTo dt buf offset => exact h.writeTo choice dt hfits.2
  | posixMemalign => exact h
  | reply text len => exact h

theorem readFrom_descs (choice : Choice) (dt : Slot) (size : Nat) (offset : Int) (st : Store) :
    (readFrom choice dt size offset st).2.descs = st.descs := by
  simp only [readFrom]
  split <;> rfl

-- The table answers every action as the contract says.
theorem Sized.act (h : Sized limit length st) (choice : Choice) (action : Act) (hfits : Fits limit action) :
    ∃ after, sizeAnswers limit (fun _ => False) length action (execAct choice action st).1 after ∧
      Sized limit after (execAct choice action st).2 := by
  have hwithin := h.within.act choice action hfits
  have hbounded : BoundedBy limit fun slot => ((execAct choice action st).2.descs slot).length :=
    hwithin.lengths
  cases action with
  | prepareFile key mode => exact ⟨_, hbounded, hwithin.sized⟩
  | releaseDesc dt => exact ⟨_, hbounded, hwithin.sized⟩
  | descLength dt => exact ⟨length, ⟨(h.lengths dt).symm, rfl⟩, h⟩
  | readFrom dt size offset =>
      refine ⟨length, rfl, hwithin, ?_⟩
      intro slot
      show _ = ((readFrom choice dt size offset st).2.descs slot).length
      rw [readFrom_descs]
      exact h.lengths slot
  | writeTo dt buf offset => exact ⟨_, ⟨False.elim, hbounded⟩, hwithin.sized⟩
  | posixMemalign => exact ⟨length, ⟨fun ⟨_, h⟩ => h.elim, rfl⟩, h⟩
  | reply text len => exact ⟨length, rfl, h⟩

theorem readFrom_names (dt : Slot) (size : Nat) (offset : Int) (st : Store) :
    (readFrom {} dt size offset st).2.fs.names = st.fs.names := by
  have hread := names_fread (st.fs.fseek false (st.descs dt).fd offset).2 0 (st.descs dt).fd size
  rw [names_fseek] at hread
  simp only [readFrom]
  split
  · exact hread
  · exact hread

theorem writeTo_names (dt : Slot) (buf : Bytes) (offset : Int) (st : Store) :
    (writeTo {} dt buf offset st).2.fs.names = st.fs.names ∧
      ∀ slot, ((writeTo {} dt buf offset st).2.descs slot).fd = (st.descs slot).fd := by
  have hseek := names_fseek st.fs (st.descs dt).fd offset
  simp only [writeTo]
  split
  · rename_i fs hs
    rw [hs] at hseek
    exact ⟨hseek, fun _ => rfl⟩
  · rename_i fs hs
    rw [hs] at hseek
    have hwrite := (names_fwrite fs 0 (st.descs dt).fd buf).trans hseek
    split
    · exact ⟨hwrite, fun _ => rfl⟩
    · split
      · refine ⟨hwrite, fun slot => ?_⟩
        by_cases hs : slot = dt
        · rw [hs, setDesc_self]
        · rw [setDesc_of_ne _ _ hs]
      · exact ⟨hwrite, fun _ => rfl⟩

-- A write without failures stores all its bytes.
theorem Store.Writable.writes (h : st.Writable dest) (buf : Bytes) {offset : Int} (ho : 0 ≤ offset) :
    (writeTo {} dest buf offset st).1 = buf.length := by
  obtain ⟨n, path, hfd, hn⟩ := h
  obtain ⟨file, hf, _, _⟩ := files_of_names hn
  have hseek := fseek_ok hf offset.toNat
  rw [Int.toNat_of_nonneg ho] at hseek
  have hnames := names_fseek st.fs (some n) offset
  simp only [writeTo]
  rw [hfd]
  rw [hseek] at hnames ⊢
  simp only
  generalize (st.fs.fflush false (some n)).setFile (some n) _ = sought at hnames ⊢
  have hn' : sought.names n = some (path, false) := by rw [hnames, hn]
  have hwritten := ferror_of_names ((congrFun (names_fwrite sought 0 (some n) buf) n).trans hn')
  obtain ⟨file, hf, _, _⟩ := files_of_names hn'
  have hfile : sought.file (some n) = some file := hf
  have hlength : (sought.fwrite false 0 (some n) buf).1 = buf.length := by
    simp only [Fs.fwrite, hfile, Bool.false_eq_true, ite_false]
  rw [hwritten]
  simp only [Bool.false_eq_true, ite_false]
  split
  · exact hlength
  · exact hlength

-- The same without failures, for a command that only accesses descriptors.
theorem Sized.access (h : Sized limit length st ∧ st.Writable dest) (action : Act)
    (hfits : Fits limit action) (haccess : Accesses (fun _ => True) action) :
    ∃ after, sizeAnswers limit (· = dest) length action (execAct {} action st).1 after ∧
      Sized limit after (execAct {} action st).2 ∧ (execAct {} action st).2.Writable dest := by
  obtain ⟨hsized, n, path, hfd, hn⟩ := h
  obtain ⟨after, hanswer, hafter⟩ := hsized.act {} action hfits
  refine ⟨after, ?_, hafter, ?_⟩
  · cases action with
    | writeTo dt buf offset =>
        refine ⟨?_, hanswer.2⟩
        rintro rfl
        exact Store.Writable.writes ⟨n, path, hfd, hn⟩ buf hfits.1
    | posixMemalign => exact ⟨fun _ => rfl, hanswer.2⟩
    | descLength dt => exact hanswer
    | readFrom dt size offset => exact hanswer
    | prepareFile key mode => exact haccess.elim
    | releaseDesc dt => exact haccess.elim
    | reply text len => exact haccess.elim
  · cases action with
    | readFrom dt size offset =>
        refine ⟨n, path, ?_, ?_⟩
        · show ((readFrom {} dt size offset st).2.descs dest).fd = _
          rw [readFrom_descs, hfd]
        · show (readFrom {} dt size offset st).2.fs.names n = _
          rw [readFrom_names, hn]
    | writeTo dt buf offset =>
        obtain ⟨hnames, hfds⟩ := writeTo_names dt buf offset st
        exact ⟨n, path, (hfds dest).trans hfd, (congrFun hnames n).trans hn⟩
    | posixMemalign => exact ⟨n, path, hfd, hn⟩
    | descLength dt => exact ⟨n, path, hfd, hn⟩
    | prepareFile key mode => exact haccess.elim
    | releaseDesc dt => exact haccess.elim
    | reply text len => exact haccess.elim

theorem Store.Within.contained (h : st.Within FILE_SIZE_LIMIT) : st.Contained := by
  have hsmall : FILE_SIZE_LIMIT < 2 ^ 31 := by decide
  constructor
  · exact h.files.disk
  · exact fun n file hf => h.files.applied hf
  · intro dt
    have hlength := h.lengths dt
    have hreads := reads_mono hlength
    have hmost : reads FILE_SIZE_LIMIT ≤ INT_MAX := by decide
    have hbuffer : FILE_BUFFER_SIZE ≤ INT_MAX := by decide
    exact ⟨Nat.le_trans hreads hmost, Nat.le_trans (lastRead_pos _).2 hbuffer⟩
  · intro choices cmd dest dts
    have hwp : (bitopCommand cmd dest dts).wp (sizes FILE_SIZE_LIMIT fun _ => False)
        (fun _ _ => True) fun slot => (st.descs slot).length :=
      wp_mono (fun _ _ _ => trivial) (wp_sizes_bitopCommand hsmall h.lengths cmd dest)
    refine @wp_along _ _ _ _ _ _ (Server.tryAct choices)
      (fun length s => Sized FILE_SIZE_LIMIT length s.store) _ ?_ ?_ _ _ _ { store := st } hwp h.sized
    · exact fun _ s action hsized hfits => hsized.act (choices s.tick) action hfits
    · exact fun _ _ _ _ hfits => hfits
  · intro cmd dest dts hhook hwritable
    have hwp := @wp_sizes_bitopCommand FILE_SIZE_LIMIT (· = dest) (fun slot => (st.descs slot).length) dts
      hsmall h.lengths cmd (some dest)
    have haccess : Held (fun _ => True) (some dest :: dts) := fun _ _ => trivial
    obtain ⟨_, ⟨_, hreturns⟩, _⟩ := @wp_exec _ _ _ _ _ _ (execAct {})
      (fun length st => Sized FILE_SIZE_LIMIT length st ∧ st.Writable dest) _
      (fun _ _ action hrelated hfits haccess => Sized.access hrelated action hfits haccess)
      _ _ _ _ hwp ⟨h.sized, hwritable⟩
      ((bitopCommand_accesses cmd haccess).along (fun _ _ haccess => haccess) st)
    exact hreturns hhook ⟨dest, rfl, rfl⟩

end Contained

section Runs

variable {choices : Nat → Choice} {lines : List Bytes}

-- No SETBIT sets a bit in the byte behind the last one that FILE_SIZE_LIMIT
-- leaves room for.
def BelowLimit (line : Bytes) : Prop :=
  ∀ cmd, request line = .setbit cmd → cmd.value ≠ 0 → byteOffset cmd.offset ≠ FILE_SIZE_LIMIT

theorem BelowLimit.inRange {line : Bytes} (h : BelowLimit line) : InRange FILE_SIZE_LIMIT (request line) := by
  unfold InRange
  split
  · rename_i cmd hrequest
    intro hone
    have hne := h cmd hrequest hone
    obtain ⟨_, hle, _⟩ := request_setbit hrequest
    unfold byteOffset at hne ⊢
    omega
  · trivial

theorem wp_sizes_line {line : Bytes} (h : BelowLimit line) {st : Store} (hst : st.Within FILE_SIZE_LIMIT) :
    (parseAndExecute line).wp (sizes FILE_SIZE_LIMIT fun _ => False)
      (fun after _ => BoundedBy FILE_SIZE_LIMIT after) fun slot => (st.descs slot).length := by
  rw [parseAndExecute_eq]
  exact wp_sizes_request (by decide) hst.lengths h.inRange

theorem tryServe_within {s : Server} {line : Bytes} (h : s.store.Within FILE_SIZE_LIMIT) (hline : BelowLimit line) :
    (s.tryServe choices line).store.Within FILE_SIZE_LIMIT := by
  obtain ⟨_, _, hafter⟩ := @wp_exec _ _ _ _ _ _ (Server.tryAct choices)
    (fun length s => Sized FILE_SIZE_LIMIT length s.store) (fun _ _ => True)
    (fun _ s action hsized hfits _ => hsized.act (choices s.tick) action hfits)
    _ _ _ s (wp_sizes_line hline h) h.sized
    ((Prog.Only.of_true (parseAndExecute line)).along (fun _ _ _ => trivial) s)
  exact hafter.within

-- Whatever fails on the way: no file outgrows the limit and no BITOP overflows,
-- in every state between and within the requests of a run, as long as no
-- SETBIT sets a bit in the byte at FILE_SIZE_LIMIT.
theorem files_contained (choices : Nat → Choice) (lines : List Bytes) (hlines : ∀ line ∈ lines, BelowLimit line) :
    AllStates (Server.tryServe choices) (fun s => s.store.Contained) (Server.start fun _ => none) lines ∧
    AllSteps (Server.tryServe choices) (fun s line =>
      (parseAndExecute line).Along (Server.tryAct choices) (fun s _ => s.store.Contained) s)
      (Server.start fun _ => none) lines := by
  have hgood := AllSteps.of_labels (Server.tryServe choices) hlines (Server.start fun _ => none)
  have hstart : (Server.start fun _ => none).store.Within FILE_SIZE_LIMIT :=
    ⟨⟨nofun, nofun⟩, fun _ => Nat.zero_le _⟩
  have hstep : ∀ s line, Store.Within (Server.store s) FILE_SIZE_LIMIT → BelowLimit line →
      (Server.tryServe choices s line).store.Within FILE_SIZE_LIMIT :=
    fun s line h hline => tryServe_within h hline
  constructor
  · refine (allStates_of_invariant (Server.tryServe choices) _ hstep hstart hgood).mono _ ?_
    exact fun s h => h.contained
  · refine allSteps_of_invariant (Server.tryServe choices) _ hstep ?_ hstart hgood
    intro s line h hline
    refine @wp_along _ _ _ _ _ _ (Server.tryAct choices)
      (fun length s => Sized FILE_SIZE_LIMIT length s.store) _ ?_ ?_ _ _ _ s (wp_sizes_line hline h) h.sized
    · exact fun _ s action hsized hfits => hsized.act (choices s.tick) action hfits
    · exact fun _ _ _ hsized _ => hsized.within.contained

-- Two requests on a fresh server.
theorem files_contained_two :
    let lines := [str "SETBIT k 17179869175 1", str "BITOP OR d k"]
    AllStates (Server.tryServe fun _ => {}) (fun s => s.store.Contained) (Server.start fun _ => none) lines := by
  intro lines
  have hbelow : ∀ line ∈ lines, BelowLimit line := by
    have hset : request (str "SETBIT k 17179869175 1") =
        .setbit { key := str "k", offset := 17179869175, value := 1 } := by
      decide +kernel
    have hor : request (str "BITOP OR d k") =
        .bitop { key := str "d", count := 1, hook := .NONE, option := .OR } [str "k"] := by
      decide +kernel
    intro line hline cmd hrequest _
    rcases List.mem_cons.mp hline with rfl | hline
    · rw [← Request.setbit.inj (hset.symm.trans hrequest)]
      decide
    · rw [List.mem_singleton] at hline
      subst hline
      cases hor.symm.trans hrequest
  exact (files_contained (fun _ => {}) lines hbelow).1

-- The parser lets one byte too many pass: the first bit of it makes a file of
-- 2147483648 bytes.
theorem setbit_outgrows_limit :
    let s := (Server.start fun _ => none).tryServe (fun _ => {}) (str "SETBIT k 17179869176 1")
    s.replies = [str "0\n"] ∧ ¬s.store.Contained := by
  intro s
  have hfile : s.store.fs.files 0 = some
      { path := xxh64 (str "k") 0, pos := 2147483648, pending := [(2147483647, [128])] } := by
    decide +kernel
  refine ⟨by decide +kernel, fun h => ?_⟩
  have hshown := h.shown 0 _ hfile
  rw [File.applied, List.foldl_cons, List.foldl_nil,
    Padded.overwrite_length _ _ _ (List.cons_ne_nil _ _)] at hshown
  have hend : 2147483648 ≤ FILE_SIZE_LIMIT := Nat.le_trans (Nat.le_max_right _ _) hshown
  exact absurd hend (by decide)

end Runs

end Solidbits
