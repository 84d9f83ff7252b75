import Solidbits.Serial.Quiet
import Solidbits.Serial.Views
import Solidbits.Serial.Transparency

namespace Solidbits

open Prog Transition

section Lengths

-- Every live descriptor records the length of its file, with the writes that
-- its FILE object still holds back.
def Store.ExactLengths (st : Store) : Prop :=
  ∀ slot, st.live slot → ∃ file, st.fs.file (st.descs slot).fd = some file ∧
    (st.descs slot).length = (file.applied (st.fs.content file.path)).length

-- A BITOP with a destination finds it open, or nothing to truncate.
def Request.Fresh (st : Store) : Request → Prop
  | .bitop cmd _ => cmd.hook = .NONE →
      st.recorded (xxh64 cmd.key 0) ≠ none ∨ st.size (xxh64 cmd.key 0) = 0
  | _ => True

instance (st : Store) (request : Request) : Decidable (request.Fresh st) :=
  match request with
  | .bitop _ _ => inferInstanceAs (Decidable (_ → _ ∨ _))
  | .fail _ _ => isTrue trivial
  | .setbit _ => isTrue trivial
  | .getbit _ => isTrue trivial
  | .bitcount _ _ _ => isTrue trivial
  | .silent => isTrue trivial

variable {clock : Nat → Nat} {g g' : Desk} {s : Server}

theorem Serves.exactLengths_iff (h : Serves clock g s) : s.store.ExactLengths ↔ g.Exact := by
  have hfile : ∀ slot, s.store.live slot → ∃ file, s.store.fs.file (s.store.descs slot).fd = some file ∧
      (file.applied (s.store.fs.content file.path)).length = g.files.length (s.store.hashOf slot) := by
    intro slot hl
    obtain ⟨n, hfd, hn⟩ := h.sound.opened slot hl
    obtain ⟨file, hf, hp, _⟩ := files_of_names hn
    refine ⟨file, by rw [hfd]; exact hf, ?_⟩
    rw [Contents.length, ← hp, h.sound.shown.opened n file hf]
    rfl
  constructor
  · intro hexact hash length hlength
    obtain ⟨slot, hl, rfl, rfl⟩ := (h.recorded hash length).mp hlength
    obtain ⟨file, hf, hlen⟩ := hexact slot hl
    obtain ⟨file', hf', hlen'⟩ := hfile slot hl
    cases hf.symm.trans hf'
    exact hlen.trans hlen'
  · intro hexact slot hl
    obtain ⟨file, hf, hlen⟩ := hfile slot hl
    exact ⟨file, hf, (hexact _ _ ((h.recorded _ _).mpr ⟨slot, hl, rfl, rfl⟩)).trans hlen.symm⟩

-- What an open leaves behind, in any mode, if it does not truncate a file that
-- has bytes.
theorem Desk.Exact.handed (h : g.Exact) {hash : UInt64} {mode : Nat} {answer : Except OpenError Slot}
    (hmode : mode < 2 ∨ g.recorded hash ≠ none ∨ g.files.length hash = 0)
    (ha : Handed g hash mode answer g') : g'.Exact := by
  cases ha with
  | found slot hopen hshown hpin => exact h
  | opened slot hclosed hpin hmissing =>
      have hlength : (g.files.opened hash mode).length hash = g.files.length hash := by
        unfold Contents.opened
        split
        · rename_i hempty
          have hzero : g.files.length hash = 0 := by
            rcases hempty with htwo | hnone
            · rcases hmode with hone | hopen | hzero
              · omega
              · exact absurd hclosed hopen
              · exact hzero
            · rw [Contents.length, hnone]
              rfl
          rw [hzero, Contents.length, Function.update_self]
          rfl
        · rfl
      intro other length hrecorded
      simp only [Desk.pin, Desk.create] at hrecorded ⊢
      by_cases ho : other = hash
      · rw [ho, Function.update_self] at hrecorded
        rw [ho, hlength]
        exact (Option.some.inj hrecorded).symm
      · rw [Function.update_of_ne ho] at hrecorded
        rw [Contents.length, opened_of_ne _ _ ho]
        exact h other length hrecorded
  | missing recorded hclosed hnone hone hkept =>
      intro other length hrecorded
      rcases hkept other with hsame | ⟨hdropped, _⟩
      · exact h other length (hsame.symm.trans hrecorded)
      · cases hdropped.symm.trans hrecorded
  | full hclosed hpinned => exact h

-- An action that stores keeps the lengths exact.
theorem Desk.Exact.answer (h : g.Exact) (hopen : g.Open) (action : Act) {answer : Res action}
    (hallowed : deskAllowed g action) (hstores : Stores action) (ha : deskAnswers g action answer g') :
    g'.Exact := by
  cases action with
  | prepareFile key mode => exact h.handed (Or.inl hstores) ha
  | releaseDesc dt =>
      rw [show g' = g.unpin dt from ha]
      exact h
  | descLength dt =>
      rw [ha.2]
      exact h
  | readFrom dt size offset =>
      rw [ha.2]
      exact h
  | writeTo dt buf offset =>
      simp only [deskAnswers] at ha
      split at ha
      · rw [ha.2]
        exact h
      · rw [ha.2]
        exact h.write (hopen dt hallowed) hstores _
  | posixMemalign =>
      rw [ha.2]
      exact h
  | reply text len =>
      rw [ha.2]
      exact h

-- The lengths after an action.
def exactAfter (clock : Nat → Nat) (s : Server) (action : Act) : Prop :=
  (Server.act clock action s).2.store.ExactLengths

-- The server and what a request sees of it, with exact lengths.
structure ServesExactly (clock : Nat → Nat) (g : Desk) (s : Server) : Prop where
  serves : Serves clock g s
  exact : g.Exact

theorem ServesExactly.act (h : ServesExactly clock g s) (action : Act)
    (hallowed : deskAllowed g action ∧ Stores action) (hcalm : CalmAct clock s action) :
    ∃ after, deskAnswers g action (Server.act clock action s).1 after ∧
      ServesExactly clock after (Server.act clock action s).2 := by
  obtain ⟨after, hanswer, hserves⟩ := h.serves.act action hallowed.1 hcalm
  exact ⟨after, hanswer, hserves, h.exact.answer h.serves.opened action hallowed.1 hallowed.2 hanswer⟩

-- A program that only stores.
theorem ServesExactly.stores (h : ServesExactly clock g s) {prog : Cmd Unit}
    (hwp : prog.wp deskContract (fun _ _ => True) g) (honly : prog.Only Stores fun _ => True)
    (hcalm : prog.Along (Server.act clock) (CalmAct clock) s) :
    prog.Along (Server.act clock) (exactAfter clock) s ∧
      ∃ g', ServesExactly clock g' (prog.exec (Server.act clock) s).2 := by
  have hrestricted := wp_restrict hwp honly
  constructor
  · refine wp_along_good (fun _ _ action h => h.act action) ?_ hrestricted h hcalm
    intro g s action h hallowed hgood
    obtain ⟨after, _, hafter⟩ := h.act action hallowed hgood
    exact hafter.serves.exactLengths_iff.mpr hafter.exact
  · obtain ⟨last, _, hlast⟩ := wp_exec (fun _ _ action h => h.act action) hrestricted h hcalm
    exact ⟨last, hlast⟩

-- A calm call that may create is handed a descriptor.
theorem Serves.prepare_ok (h : Serves clock g s) {key : Bytes} {mode : Nat} (hmode : mode ≤ 2) (hone : mode ≠ 1)
    (hcalm : CalmAct clock s (.prepareFile key mode)) :
    ∃ slot, (Server.act clock (.prepareFile key mode) s).1 = .ok slot := by
  have hprepared := h.sound.prepare hmode hcalm
  show ∃ slot, (prepareHashed _ (xxh64 key 0) mode s.store).1 = .ok slot
  generalize (prepareHashed _ (xxh64 key 0) mode s.store).1 = answer at hprepared ⊢
  generalize (prepareHashed _ (xxh64 key 0) mode s.store).2 = after at hprepared
  cases hprepared with
  | found slot hl hh => exact ⟨slot, rfl⟩
  | created slot after hm hmode hfree hl hs hnew hother => exact ⟨slot, rfl⟩
  | missing after hm hnone hmode hs hkept => exact absurd hmode hone
  | full hm hfull =>
      have hmiss : s.store.misses (xxh64 key 0) := by
        intro slot hl
        obtain ⟨hlive, hh⟩ := h.sound.lookup_found hl
        exact hm slot hlive hh
      have hcan : canOpen (onTime (clock s.tick) (clock (s.tick + 1))) (xxh64 key 0) mode s.store.fs = true := by
        unfold canOpen
        cases s.store.fs.disk (xxh64 key 0) <;> simp [onTime, hone]
      obtain ⟨_, ⟨new, hnew⟩, _⟩ := hcalm hmiss hcan
      cases hfull.symm.trans hnew

end Lengths

section Runs

variable {clock : Nat → Nat} {disk : Contents} {lines : List Bytes} {g : Desk} {s : Server} {line : Bytes}

theorem fresh_of_stores {request : Request} (h : request.truncates = none) (st : Store) : request.Fresh st := by
  cases request with
  | bitop cmd keys =>
      intro hhook
      simp [Request.truncates, hhook] at h
  | fail text len => trivial
  | setbit cmd => trivial
  | getbit cmd => trivial
  | bitcount key c args => trivial
  | silent => trivial

-- One request keeps the lengths exact throughout if it is fresh.
theorem ServesExactly.request (h : ServesExactly clock g s) {request : Request} (hfresh : request.Fresh s.store)
    (hcalm : request.execute.Along (Server.act clock) (CalmAct clock) s) :
    request.execute.Along (Server.act clock) (exactAfter clock) s ∧
      ∃ g', ServesExactly clock g' (request.execute.exec (Server.act clock) s).2 := by
  cases htruncates : request.truncates with
  | none => exact h.stores (wp_request g request) (request_stores htruncates) hcalm
  | some key =>
      obtain ⟨cmd, keys, rfl, hhook, rfl⟩ := truncates_eq htruncates
      have hwp := wp_request g (.bitop cmd keys)
      obtain ⟨next, hnext, hstores⟩ := bitopExecute_NONE hhook keys
      simp only [Request.execute, hnext] at hcalm hwp ⊢
      obtain ⟨after, hanswer, hafter⟩ := h.serves.act (.prepareFile cmd.key 2) hwp.1 hcalm.1
      have hclean : g.recorded (xxh64 cmd.key 0) ≠ none ∨ g.files.length (xxh64 cmd.key 0) = 0 := by
        have hclean := hfresh hhook
        rwa [Store.size, h.serves.bitmap, h.serves.recordedOf] at hclean
      have hexact := h.exact.handed (Or.inr hclean) hanswer
      obtain ⟨hrest, hlast⟩ := ServesExactly.stores ⟨hafter, hexact⟩ (hwp.2 _ after hanswer) (hstores _) hcalm.2
      exact ⟨⟨hafter.exactLengths_iff.mpr hexact, hrest⟩, hlast⟩

-- A truncated file keeps its old length in the table.
theorem Handed.stale {g' : Desk} {hash : UInt64} {slot : Slot} (h : Handed g hash 2 (.ok slot) g')
    (hclosed : g.recorded hash = none) (hlength : g.files.length hash ≠ 0) : ¬g'.Exact := by
  cases h with
  | found slot hopen hshown hpin => exact absurd hclosed hopen
  | opened slot hclosed hpin hmissing =>
      intro hexact
      have hstale := hexact hash (g.files.length hash) (Function.update_self _ _ _)
      apply hlength
      rw [hstale]
      simp [Desk.pin, Desk.create, Contents.opened, Contents.length]

theorem ServesExactly.request_iff (h : ServesExactly clock g s)
    {request : Request} (hcalm : request.execute.Along (Server.act clock) (CalmAct clock) s) :
    request.execute.Along (Server.act clock) (exactAfter clock) s ↔ request.Fresh s.store := by
  refine ⟨fun hexact => ?_, fun hfresh => (h.request hfresh hcalm).1⟩
  cases htruncates : request.truncates with
  | none => exact fresh_of_stores htruncates s.store
  | some key =>
      obtain ⟨cmd, keys, rfl, hhook, rfl⟩ := truncates_eq htruncates
      intro _
      by_contra hstale
      rw [not_or, not_not, Store.size, h.serves.bitmap, h.serves.recordedOf] at hstale
      obtain ⟨next, hnext, _⟩ := bitopExecute_NONE hhook keys
      simp only [Request.execute, hnext] at hcalm hexact
      obtain ⟨after, hanswer, hafter⟩ := h.serves.act (.prepareFile cmd.key 2) (Nat.le_refl 2) hcalm.1
      obtain ⟨slot, hslot⟩ := h.serves.prepare_ok (Nat.le_refl 2) (by decide) hcalm.1
      rw [hslot] at hanswer
      exact Handed.stale hanswer hstale.1 hstale.2 (hafter.exactLengths_iff.mp hexact.1)

-- The recorded lengths are exact after every action of every request of a run
-- exactly if no BITOP of the run truncates a file that has bytes.
theorem lengths_exact_iff (hcalm : AllSteps (Server.serve clock) (Calm clock) (Server.start disk) lines) :
    AllSteps (Server.serve clock) (fun s line =>
        (parseAndExecute line).Along (Server.act clock) (fun s action =>
          (Server.act clock action s).2.store.ExactLengths) s) (Server.start disk) lines ↔
      AllSteps (Server.serve clock) (fun s line => (request line).Fresh s.store) (Server.start disk) lines := by
  refine allSteps_iff (Server.serve clock) (fun s => ∃ g, ServesExactly clock g s) ?_ ?_ ?_ hcalm
  · rintro s line ⟨g, h⟩ hcalm hfresh
    rw [Calm, parseAndExecute_eq] at hcalm
    rw [Server.serve, parseAndExecute_eq]
    exact (h.request hfresh hcalm).2
  · rintro s line ⟨g, h⟩ hcalm
    rw [Calm, parseAndExecute_eq] at hcalm
    rw [parseAndExecute_eq]
    exact h.request_iff hcalm
  · exact ⟨_, serves_initFile clock disk 0 [], fun hash length hlength => by cases hlength⟩

-- A BITOP into a key that has been read.
theorem lengths_exact_open :
    let disk : Contents := fun hash => if hash = xxh64 (str "d") 0 then some [128, 1] else none
    let lines := [str "SETBIT a 3 1", str "GETBIT d 3", str "BITOP OR d a", str "BITOP OR e a d"]
    AllSteps (Server.serve id) (fun s line =>
      (parseAndExecute line).Along (Server.act id) (fun s action =>
        (Server.act id action s).2.store.ExactLengths) s) (Server.start disk) lines := by
  intro disk lines
  exact (lengths_exact_iff (by decide +kernel)).mpr (by decide +kernel)

-- A BITOP into a file of two bytes that is not open: they are truncated, and
-- still recorded.
theorem truncated_length_stays :
    let disk : Contents := fun hash =>
      if hash = xxh64 (str "d") 0 then some [128, 1] else if hash = xxh64 (str "a") 0 then some [1] else none
    let s' := (Server.start disk).serve id (str "BITOP OR d a")
    Calm id (Server.start disk) (str "BITOP OR d a") ∧
      s'.replies = [str "1\n"] ∧ s'.store.bitmap (xxh64 (str "d") 0) = some [1] ∧
      s'.store.recorded (xxh64 (str "d") 0) = some 2 ∧ ¬s'.store.ExactLengths := by
  intro disk s'
  refine ⟨by decide +kernel, by decide +kernel, by decide +kernel, by decide +kernel, ?_⟩
  intro h
  have hlive : s'.store.live 0 := by decide +kernel
  obtain ⟨file, hf, hlength⟩ := h 0 hlive
  have hfile : s'.store.fs.file (s'.store.descs 0).fd =
      some { path := xxh64 (str "d") 0, pos := 1, pending := [(0, [1])] } := by
    decide +kernel
  cases hfile.symm.trans hf
  exact absurd hlength (by decide +kernel)

end Runs

end Solidbits
