import Solidbits.Serial.Transparency
import Solidbits.Bitops.Access

namespace Solidbits

open Prog Transition

section Runs

variable {clock : Nat → Nat} {g : Desk} {s : Server} {line : Bytes}

-- The reference: every file is flushed and closed behind the request, and the
-- next request starts with an empty table.
def Server.reopen (s : Server) : Server :=
  { s with store := initFile (closeFiles (fun _ => false) s.store).fs.disk }

def Server.serveReopened (clock : Nat → Nat) (s : Server) (line : Bytes) : Server :=
  (s.serve clock line).reopen

def keysOf (lines : List Bytes) : List Bytes := lines.flatMap fun line => (request line).keys

-- A line that is not BITOP, and whose keys have hashes that are not zero.
def Served (line : Bytes) : Prop :=
  (request line).isBitop = false ∧ ∀ key ∈ (request line).keys, xxh64 key 0 ≠ 0

instance (line : Bytes) : Decidable (Served line) := inferInstanceAs (Decidable (_ ∧ _))

-- The state between two requests, next to the plain map and the replies.
def Follows (clock : Nat → Nat) (s : Server) (plain : Contents × List Bytes) : Prop :=
  ∃ g : Desk, Serves clock g s ∧ g.timed ∧ g.Idle ∧ g.Exact ∧ plain = (g.files, g.replies)

theorem follows_initFile {clock : Nat → Nat} (hc : StrictMono clock) (disk : Contents) (tick : Nat) (replies : List Bytes) :
    Follows clock { store := initFile disk, tick := tick, replies := replies } (disk, replies) := by
  exact ⟨_, serves_initFile clock disk tick replies, hc, fun _ => rfl, nofun, rfl⟩

-- One request.
theorem leaves_serve {plain : Contents × List Bytes}
    (h : Follows clock s plain) (hserved : Served line) (hcalm : Calm clock s line) :
    ∃ g last, plain = (g.files, g.replies) ∧ Leaves g (request line) last ∧
      Serves clock last (s.serve clock line) ∧ last.timed := by
  obtain ⟨g, hserves, htimed, hidle, hexact, rfl⟩ := h
  have hwp : (parseAndExecute line).wp deskContract
      (fun last _ => Leaves g (request line) last) g := by
    rw [parseAndExecute_eq]
    exact wp_execute htimed hidle hexact _ hserved.1
  obtain ⟨last, hleaves, hafter, htimed⟩ := @wp_exec _ _ _ _ _ _ (Server.act clock)
    (fun g s => Serves clock g s ∧ g.timed) _
    (fun _ _ action hserves hallowed hgood => by
      obtain ⟨after, ha, hafter⟩ := hserves.1.act action hallowed hgood
      exact ⟨after, ha, hafter, (deskAnswers_timed action _ ha).symm ▸ hserves.2⟩)
    _ _ _ _ hwp ⟨hserves, htimed⟩ hcalm
  exact ⟨g, last, rfl, hleaves, hafter, htimed⟩

theorem follows_serve {plain : Contents × List Bytes}
    (h : Follows clock s plain) (hserved : Served line) (hcalm : Calm clock s line) :
    Follows clock (s.serve clock line) (plainServe (fun key => xxh64 key 0) plain line) := by
  obtain ⟨g, last, rfl, hleaves, hafter, htimed⟩ := leaves_serve h hserved hcalm
  exact ⟨last, hafter, htimed, hleaves.idle, hleaves.exact, by rw [plainServe, hleaves.files, hleaves.replies]⟩

-- A file that the request has named is open behind it.
theorem found_serve {plain : Contents × List Bytes}
    (h : Follows clock s plain) (hserved : Served line) (hcalm : Calm clock s line) {key : Bytes}
    (hkey : key ∈ (request line).keys)
    (hshown : (plainServe (fun key => xxh64 key 0) plain line).1 (xxh64 key 0) ≠ none) :
    ∃ slot, lookup (s.serve clock line).store (xxh64 key 0) = .found slot := by
  obtain ⟨g, last, rfl, hleaves, hafter, _⟩ := leaves_serve h hserved hcalm
  have hopen := hleaves.found key hkey (hleaves.files.symm ▸ hshown)
  cases hlookup : lookup (s.serve clock line).store (xxh64 key 0) with
  | found slot => exact ⟨slot, rfl⟩
  | absent _ _ => exact absurd (hafter.closed (hafter.sound.indexed.absent (misses_of_absent hlookup))) hopen

theorem follows_reopen {plain : Contents × List Bytes} (h : Follows clock s plain) :
    Follows clock s.reopen plain := by
  obtain ⟨g, hserves, htimed, _, _, rfl⟩ := h
  rw [Server.reopen, hserves.sound.closeFiles, ← hserves.replies]
  exact follows_initFile (hserves.dated htimed).strict g.files s.tick s.replies

end Runs

section Calmness

variable {clock : Nat → Nat} {s : Server}

-- Every action but prepare_file.
def OpensNothing : Act → Prop
  | .prepareFile _ _ => False
  | _ => True

theorem replyResult_opensNothing (result : Int) {rest : Cmd Unit}
    (h : rest.Only OpensNothing fun _ => True) :
    (do replyResult result; rest).Only OpensNothing fun _ => True := by
  unfold replyResult
  split
  · exact ⟨trivial, fun _ => h⟩
  · exact ⟨trivial, fun _ => h⟩

theorem releaseAllDescs_opensNothing (descs : List (Option Slot)) :
    (releaseAllDescs descs).Only OpensNothing fun _ => True := by
  induction descs with
  | nil => trivial
  | cons first descs ih =>
      cases first with
      | none => exact ih
      | some dt => exact only_ask trivial fun _ => ih

-- A command and the end of its request open no more files.
theorem command_opensNothing {command : Cmd Int}
    (h : command.Only (Accesses fun _ => True) fun _ => True) (descs : List (Option Slot)) : (do
      let result ← command
      replyResult result
      releaseAllDescs descs).Only OpensNothing fun _ => True := by
  refine only_bind (h.mono ?_ fun _ h => h) fun result _ => ?_
  · intro action ha
    cases action <;> trivial
  · exact replyResult_opensNothing result (releaseAllDescs_opensNothing descs)

theorem calmAct_of_opensNothing (s : Server) (action : Act) (h : OpensNothing action) :
    CalmAct clock s action := by
  cases action <;> trivial

theorem calm_of_open {line : Bytes} (hbitop : (request line).isBitop = false)
    (h : ∀ key ∈ (request line).keys, ∀ mode,
      CalmOpen (onTime (clock s.tick) (clock (s.tick + 1))) s.store (xxh64 key 0) mode) :
    Calm clock s line := by
  have hfirst : ∀ (key : Bytes) (mode : Nat) (next : Except OpenError Slot → Cmd Unit),
      key ∈ (request line).keys → (∀ answer, (next answer).Only OpensNothing fun _ => True) →
      (Cmd.prepareFile key mode >>= next).Along (Server.act clock) (CalmAct clock) s :=
    fun key mode next hkey hnext => ⟨h key hkey mode, (hnext _).along calmAct_of_opensNothing _⟩
  rw [Calm, parseAndExecute_eq]
  cases hr : request line with
  | fail text len => exact ⟨trivial, trivial⟩
  | setbit cmd =>
      apply hfirst
      · simp [hr, Request.keys]
      · intro answer
        cases answer with
        | error error => exact ⟨trivial, fun _ => trivial⟩
        | ok dt => exact command_opensNothing (setbitCommand_accesses trivial cmd) _
  | getbit cmd =>
      apply hfirst
      · simp [hr, Request.keys]
      · intro answer
        cases answer with
        | error error => cases error <;> exact ⟨trivial, fun _ => trivial⟩
        | ok dt => exact command_opensNothing (getbitCommand_accesses trivial cmd) _
  | bitop cmd keys => rw [hr] at hbitop; cases hbitop
  | bitcount key c args =>
      apply hfirst
      · simp [hr, Request.keys]
      · intro answer
        cases answer with
        | error error => cases error <;> exact ⟨trivial, fun _ => trivial⟩
        | ok dt =>
            refine only_ask trivial fun length => ?_
            split
            · exact ⟨trivial, fun _ => ⟨trivial, fun _ => trivial⟩⟩
            · by_cases hfour : c = 4
              · simp only [hfour, ite_true, pure_eq, ret_bind]
                exact command_opensNothing (bitcountCommand_accesses trivial _) _
              · simp only [hfour, ite_false]
                exact only_ask trivial fun length =>
                  command_opensNothing (bitcountCommand_accesses trivial _) _
  | silent => trivial

-- An empty table has a free descriptor and empty buckets.
theorem calm_initFile (disk : Contents) (hstore : s.store = initFile disk) {line : Bytes}
    (hserved : Served line) : Calm clock s line := by
  apply calm_of_open hserved.1
  intro key hkey mode _ _
  rw [hstore]
  exact ⟨hserved.2 key hkey, ⟨0, scanned_cursor (fun hl => absurd rfl hl)⟩, rfl⟩

end Calmness

section Transparency

variable {clock : Nat → Nat} {disk : Contents} {lines : List Bytes}

theorem replies_cached (hc : StrictMono clock) (hserved : ∀ line ∈ lines, Served line)
    (hcalm : AllSteps (Server.serve clock) (Calm clock) (Server.start disk) lines) :
    (run (Server.serve clock) (Server.start disk) lines).replies =
      (run (plainServe fun key => xxh64 key 0) (disk, []) lines).2 := by
  have hgood := hcalm.and (Server.serve clock) (AllSteps.of_labels (Server.serve clock) hserved _)
  obtain ⟨g, hserves, _, _, _, hplain⟩ := run_related (Server.serve clock) (Follows clock)
    (fun _ _ _ h hgood => follows_serve h hgood.2 hgood.1) (follows_initFile hc disk 0 []) hgood
  rw [hplain]
  exact hserves.replies

theorem replies_reopened (hc : StrictMono clock) (hserved : ∀ line ∈ lines, Served line) :
    (run (Server.serveReopened clock) (Server.start disk) lines).replies =
      (run (plainServe fun key => xxh64 key 0) (disk, []) lines).2 := by
  have hstart : Follows clock (Server.start disk) (disk, []) ∧
      ∃ disk', (Server.start disk).store = initFile disk' :=
    ⟨follows_initFile hc disk 0 [], disk, rfl⟩
  obtain ⟨⟨g, hserves, _, _, _, hplain⟩, _⟩ := run_related (Server.serveReopened clock)
    (fun s plain => Follows clock s plain ∧ ∃ disk, s.store = initFile disk)
    (fun s plain line h hserved => by
      obtain ⟨h, disk, hstore⟩ := h
      have hcalm : Calm clock s line := calm_initFile disk hstore hserved
      exact ⟨follows_reopen (follows_serve h hserved hcalm), _, rfl⟩)
    hstart (AllSteps.of_labels (Server.serveReopened clock) hserved _)
  rw [hplain]
  exact hserves.replies

-- Two plain maps, one by hash and one by key, that agree on the keys in use.
def Agree (keys : List Bytes) (byHash : Contents × List Bytes)
    (byKey : (Bytes → Option Bytes) × List Bytes) : Prop :=
  byHash.2 = byKey.2 ∧ ∀ key ∈ keys, byHash.1 (xxh64 key 0) = byKey.1 key

-- The hash of a key is as good as the key.
theorem replies_named (hdistinct : ∀ key ∈ keysOf lines, ∀ key' ∈ keysOf lines,
      xxh64 key 0 = xxh64 key' 0 → key = key') :
    (run (plainServe fun key => xxh64 key 0) (disk, []) lines).2 =
      (run (plainServe id) (fun key => disk (xxh64 key 0), []) lines).2 := by
  have hkeys : ∀ line ∈ lines, ∀ key ∈ (request line).keys, key ∈ keysOf lines :=
    fun line hl key hk => List.mem_flatMap.mpr ⟨line, hl, hk⟩
  have hstep : ∀ byHash byKey line, Agree (keysOf lines) byHash byKey →
      (∀ key ∈ (request line).keys, key ∈ keysOf lines) →
      Agree (keysOf lines) (plainServe (fun key => xxh64 key 0) byHash line) (plainServe id byKey line) := by
    rintro byHash byKey line ⟨hreplies, hfiles⟩ hline
    obtain ⟨hreply, hfiles⟩ := plain_rename (fun key => xxh64 key 0) id (· ∈ keysOf lines)
      (fun _ _ _ _ he => congrArg (xxh64 · 0) he) (fun key key' hk hk' he => hdistinct key hk key' hk' he)
      hfiles (request line) hline
    exact ⟨congrArg₂ (· ++ ·) hreplies hreply, hfiles⟩
  have hstart : Agree (keysOf lines) (disk, []) (fun key => disk (xxh64 key 0), []) :=
    ⟨rfl, fun _ _ => rfl⟩
  exact (run_related (plainServe fun key => xxh64 key 0) (Agree (keysOf lines)) hstep hstart
    (AllSteps.of_labels (plainServe fun key => xxh64 key 0) hkeys _)).1

-- With the cache every reply is the one without it, and the one of the plain
-- map, in every run whose requests find an empty bucket and a free descriptor
-- whenever they create one.
theorem cache_transparent (hc : StrictMono clock) (hserved : ∀ line ∈ lines, Served line)
    (hdistinct : ∀ key ∈ keysOf lines, ∀ key' ∈ keysOf lines, xxh64 key 0 = xxh64 key' 0 → key = key')
    (hcalm : AllSteps (Server.serve clock) (Calm clock) (Server.start disk) lines) :
    (run (Server.serve clock) (Server.start disk) lines).replies =
        (run (Server.serveReopened clock) (Server.start disk) lines).replies ∧
      (run (Server.serve clock) (Server.start disk) lines).replies =
        (run (plainServe id) (fun key => disk (xxh64 key 0), []) lines).2 := by
  have hcached := replies_cached hc hserved hcalm
  refine ⟨?_, ?_⟩
  · rw [hcached, replies_reopened hc hserved]
  · rw [hcached, replies_named hdistinct]

-- Setting a bit and reading it back.
theorem cache_transparent_one_key :
    (run (Server.serve id) (Server.start fun _ => none) [str "SETBIT a 0 1", str "GETBIT a 0"]).replies =
      (run (plainServe id) (fun _ => none, []) [str "SETBIT a 0 1", str "GETBIT a 0"]).2 := by
  have hserved : ∀ line ∈ [str "SETBIT a 0 1", str "GETBIT a 0"], Served line := by decide +kernel
  have hfirst : Calm id (Server.start fun _ => none) (str "SETBIT a 0 1") :=
    calm_initFile (fun _ => none) rfl (by decide +kernel)
  have hsecond : Calm id ((Server.start fun _ => none).serve id (str "SETBIT a 0 1")) (str "GETBIT a 0") := by
    apply calm_of_open (by decide +kernel)
    intro key hkey mode hmiss
    have hfound : lookup ((Server.start fun _ => none).serve id (str "SETBIT a 0 1")).store
        (xxh64 (str "a") 0) = .found 0 := by decide +kernel
    have hkeys : (request (str "GETBIT a 0")).keys = [str "a"] := by decide +kernel
    rw [hkeys, List.mem_singleton] at hkey
    rw [hkey] at hmiss
    exact absurd hfound (hmiss 0)
  exact (cache_transparent (fun _ _ h => h) hserved (by decide +kernel) ⟨hfirst, hsecond, trivial⟩).2

-- The keys bf and sf share a bucket: opening the second takes the descriptor of
-- the first out of the table, and its unwritten bit with it.
theorem shared_bucket_hides_write :
    StrictMono (id : Nat → Nat) ∧
    (∀ line ∈ [str "SETBIT bf 0 1", str "SETBIT sf 0 1", str "GETBIT bf 0"], Served line) ∧
    (∀ key ∈ keysOf [str "SETBIT bf 0 1", str "SETBIT sf 0 1", str "GETBIT bf 0"],
      ∀ key' ∈ keysOf [str "SETBIT bf 0 1", str "SETBIT sf 0 1", str "GETBIT bf 0"],
        xxh64 key 0 = xxh64 key' 0 → key = key') ∧
    (run (Server.serve id) (Server.start fun _ => none)
        [str "SETBIT bf 0 1", str "SETBIT sf 0 1", str "GETBIT bf 0"]).replies ≠
      (run (Server.serveReopened id) (Server.start fun _ => none)
        [str "SETBIT bf 0 1", str "SETBIT sf 0 1", str "GETBIT bf 0"]).replies := by
  have hc : StrictMono (id : Nat → Nat) := fun _ _ h => h
  have hserved : ∀ line ∈ [str "SETBIT bf 0 1", str "SETBIT sf 0 1", str "GETBIT bf 0"], Served line := by
    decide +kernel
  refine ⟨hc, hserved, by decide +kernel, ?_⟩
  rw [replies_reopened hc hserved]
  decide +kernel

end Transparency

end Solidbits
