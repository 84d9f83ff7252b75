import Solidbits.File.Attempt
import Solidbits.Serial.Views

namespace Solidbits

open Prog Transition

section Failing

-- What goes into the reply of the request. A reply that finds no memory is lost.
def answered : (action : Act) → Res action → List Bytes
  | .reply s len, true => [s.take len]
  | _, _ => []

-- A server whose surroundings choose for every action which of its calls fail.
def Server.tryAct (choices : Nat → Choice) (action : Act) (s : Server) : Res action × Server :=
  let (answer, store) := execAct (choices s.tick) action s.store
  (answer, { store := store, tick := s.tick + 1, replies := s.replies ++ answered action answer })

def Server.tryServe (choices : Nat → Choice) (s : Server) (line : Bytes) : Server :=
  ((parseAndExecute line).exec (Server.tryAct choices) s).2

variable {clock : Nat → Nat}

-- The surroundings of a server without failures.
def timely (clock : Nat → Nat) (n : Nat) : Choice := onTime (clock (2 * n)) (clock (2 * n + 1))

structure SameServer (s s' : Server) : Prop where
  store : s.store = s'.store
  tick : s.tick = 2 * s'.tick
  replies : s.replies = s'.replies

theorem SameServer.act {s s' : Server} (h : SameServer s s') (action : Act) :
    (Server.act clock action s).1 = (Server.tryAct (timely clock) action s').1 ∧
      SameServer (Server.act clock action s).2 (Server.tryAct (timely clock) action s').2 := by
  have hchoice : onTime (clock s.tick) (clock (s.tick + 1)) = timely clock s'.tick := by
    rw [h.tick, timely]
  have hexec : execAct (onTime (clock s.tick) (clock (s.tick + 1))) action s.store =
      execAct (timely clock s'.tick) action s'.store := by
    rw [hchoice, h.store]
  have hreplied : replied action = answered action (execAct (timely clock s'.tick) action s'.store).1 := by
    cases action <;> rfl
  simp only [Server.act, Server.tryAct, hexec]
  refine ⟨trivial, rfl, ?_, ?_⟩
  · show s.tick + 2 = 2 * (s'.tick + 1)
    rw [h.tick]
    omega
  · show s.replies ++ _ = s'.replies ++ _
    rw [h.replies, hreplied]

-- The server without failures is one of the servers that may fail.
theorem SameServer.exec {α : Type} {s s' : Server} (h : SameServer s s') (prog : Cmd α) :
    SameServer (prog.exec (Server.act clock) s).2 (prog.exec (Server.tryAct (timely clock)) s').2 := by
  induction prog generalizing s s' with
  | ret value => exact h
  | act action next ih =>
      obtain ⟨hanswer, hsame⟩ := h.act action
      rw [exec_act, exec_act, hanswer]
      exact ih _ hsame

theorem serve_same (disk : Contents) (lines : List Bytes) :
    SameServer (run (Server.serve clock) (Server.start disk) lines)
      (run (Server.tryServe (timely clock)) (Server.start disk) lines) := by
  refine run_related (Server.serve clock) SameServer ?_ ⟨rfl, rfl, rfl⟩
    (AllSteps.trivial (Server.serve clock) _ lines)
  exact fun s s' line h _ => h.exec (parseAndExecute line)

end Failing

section Trying

-- Nothing but the opening of files and the allocation of memory fails.
def Choice.Writes (choice : Choice) : Prop := choice.seekFails = false ∧ choice.ioFails = false

instance (choice : Choice) : Decidable choice.Writes := inferInstanceAs (Decidable (_ ∧ _))

-- No action of a request has to evict a descriptor, or creates one in a bucket
-- that is taken.
def RoomAct (choices : Nat → Choice) (s : Server) : Act → Prop
  | .prepareFile key mode => RoomOpen (choices s.tick) s.store (xxh64 key 0) mode
  | _ => True

def Roomy (choices : Nat → Choice) (s : Server) (line : Bytes) : Prop :=
  (parseAndExecute line).Along (Server.tryAct choices) (RoomAct choices) s

instance (choices : Nat → Choice) (s : Server) (action : Act) : Decidable (RoomAct choices s action) :=
  match action with
  | .prepareFile _ _ => inferInstanceAs (Decidable (RoomOpen _ _ _ _))
  | .releaseDesc _ => isTrue trivial
  | .descLength _ => isTrue trivial
  | .readFrom _ _ _ => isTrue trivial
  | .writeTo _ _ _ => isTrue trivial
  | .posixMemalign => isTrue trivial
  | .reply _ _ => isTrue trivial

instance (choices : Nat → Choice) (s : Server) (line : Bytes) : Decidable (Roomy choices s line) :=
  inferInstanceAs (Decidable (Prog.Along _ _ _ _))

-- The answers when memory may be short; an open that fails is among those of
-- the contract without a clock. What is recorded stays.
def tryAnswers (g : Desk) : (action : Act) → Res action → Desk → Prop
  | .prepareFile key mode, answer, g' => Handed g (xxh64 key 0) mode answer g' ∧
      ∀ hash length, g.recorded hash = some length → g'.recorded hash = some length
  | .posixMemalign, _, g' => g' = g
  | .reply s len, answer, g' => g' = if answer = true then g.reply (s.take len) else g
  | action, answer, g' => deskAnswers g action answer g'

def tryContract : Contract Act Res Desk where
  allowed := deskAllowed
  answers := tryAnswers

variable {clock : Nat → Nat} {choices : Nat → Choice} {g g' : Desk} {s : Server}

theorem tryAnswers_timed (action : Act) (answer : Res action) (ha : tryAnswers g action answer g') :
    g'.timed = g.timed := by
  cases action with
  | prepareFile key mode => exact deskAnswers_timed (.prepareFile key mode) answer ha.1
  | releaseDesc dt => exact deskAnswers_timed (.releaseDesc dt) answer ha
  | descLength dt => exact deskAnswers_timed (.descLength dt) answer ha
  | readFrom dt size offset => exact deskAnswers_timed (.readFrom dt size offset) answer ha
  | writeTo dt buf offset => exact deskAnswers_timed (.writeTo dt buf offset) answer ha
  | posixMemalign => rw [show g' = g from ha]
  | reply text len =>
      rw [show g' = if answer = true then g.reply (text.take len) else g from ha]
      split <;> rfl

-- Access to a descriptor goes as without failures.
theorem execAct_writes {choice : Choice} (hwrites : choice.Writes) (scanUs stampUs : Nat) (st : Store) :
    (∀ dt, execAct choice (.releaseDesc dt) st = execAct (onTime scanUs stampUs) (.releaseDesc dt) st) ∧
    (∀ dt, execAct choice (.descLength dt) st = execAct (onTime scanUs stampUs) (.descLength dt) st) ∧
    (∀ dt size offset, execAct choice (.readFrom dt size offset) st =
      execAct (onTime scanUs stampUs) (.readFrom dt size offset) st) ∧
    ∀ dt buf offset, execAct choice (.writeTo dt buf offset) st =
      execAct (onTime scanUs stampUs) (.writeTo dt buf offset) st := by
  refine ⟨fun _ => rfl, fun _ => rfl, fun dt size offset => ?_, fun dt buf offset => ?_⟩
  · simp only [execAct, readFrom, hwrites.1, hwrites.2, onTime]
    rfl
  · simp only [execAct, writeTo, hwrites.1, hwrites.2, onTime]
    rfl

theorem handed_keeps {hash : UInt64} {mode : Nat} {slot : Slot} (h : Handed g hash mode (.ok slot) g') :
    ∀ other length, g.recorded other = some length → g'.recorded other = some length := by
  intro other length hlength
  cases h with
  | found slot hopen hshown hpin => exact hlength
  | opened slot hclosed hpin hmode =>
      have ho : other ≠ hash := by
        rintro rfl
        cases hclosed.symm.trans hlength
      simpa [Desk.pin, Desk.create, Function.update_of_ne ho] using hlength

theorem Serves.tryPrepare (h : Serves clock g s) (htimed : ¬g.timed) (key : Bytes) {mode : Nat} (hmode : mode ≤ 2)
    (hroom : RoomOpen (choices s.tick) s.store (xxh64 key 0) mode) :
    ∃ after, tryAnswers g (.prepareFile key mode) (Server.tryAct choices (.prepareFile key mode) s).1 after ∧
      Serves clock after (Server.tryAct choices (.prepareFile key mode) s).2 := by
  have hattempt := h.sound.attempt hmode hroom
  generalize hs : (Server.tryAct choices (.prepareFile key mode) s).2 = s'
  have hreplies : s'.replies = s.replies := by rw [← hs]; exact List.append_nil _
  have hstore : (prepareHashed (choices s.tick) (xxh64 key 0) mode s.store).2 = s'.store := by rw [← hs]; rfl
  show ∃ after, tryAnswers g (.prepareFile key mode) (prepareHashed (choices s.tick) (xxh64 key 0) mode s.store).1 after ∧ _
  rw [hstore] at hattempt
  generalize (prepareHashed (choices s.tick) (xxh64 key 0) mode s.store).1 = answer at hattempt
  generalize hst : s'.store = st' at hattempt
  cases hattempt with
  | prepared slot _ hp hworks =>
      subst hst
      obtain ⟨after, hanswer, hafter⟩ := h.prepare hp (fun ht => absurd ht htimed) (fun ht => absurd ht htimed) hreplies
      exact ⟨after, ⟨hanswer, handed_keeps hanswer⟩, hafter⟩
  | missing _ hm hnone hone hsound hdescs =>
      subst hst
      refine ⟨g, ⟨.missing g.recorded (h.closed hm) hnone hone fun _ => Or.inl rfl, fun _ _ hl => hl⟩, ?_⟩
      exact h.step hsound hdescs (fun ht => absurd ht htimed) hreplies
  | failed _ hm hsound hkept hfails =>
      subst hst
      refine ⟨g, ⟨.full (h.closed hm) fun ht => absurd ht htimed, fun _ _ hl => hl⟩, ?_⟩
      exact h.kept hsound hkept (fun ht => absurd ht htimed) hreplies

-- Opening a file that is not open, to truncate it.
theorem Serves.truncate_fails (h : Serves clock g s) {key : Bytes} (hclosed : g.recorded (xxh64 key 0) = none)
    (hroom : RoomOpen (choices s.tick) s.store (xxh64 key 0) 2) :
    (∃ error, (Server.tryAct choices (.prepareFile key 2) s).1 = .error error) ↔
      (choices s.tick).pathFails = true ∨ (choices s.tick).fopenFails = true := by
  have hattempt := h.sound.attempt (Nat.le_refl 2) hroom
  have hm : ∀ slot, s.store.live slot → s.store.hashOf slot ≠ xxh64 key 0 := by
    intro slot hl hh
    cases hclosed.symm.trans ((h.recorded _ _).mpr ⟨slot, hl, hh, rfl⟩)
  show (∃ error, (prepareHashed (choices s.tick) (xxh64 key 0) 2 s.store).1 = .error error) ↔ _
  generalize (prepareHashed (choices s.tick) (xxh64 key 0) 2 s.store).1 = answer at hattempt
  cases hattempt with
  | prepared slot _ hp hworks =>
      obtain ⟨hpath, hfopen⟩ := hworks hm
      simp [hpath, hfopen]
  | missing _ hm hnone hone => cases hone
  | failed _ hm hs hkept hfails => exact iff_of_true ⟨_, rfl⟩ hfails

-- The time is of no concern to who does not rely on it.
theorem Serves.untimed {s' : Server} (h : Serves clock g s) (htimed : ¬g.timed) (hstore : s'.store = s.store)
    (hreplies : s'.replies = s.replies) : Serves clock g s' := by
  refine h.kept ?_ (fun slot => Or.inl ?_) (fun ht => absurd ht htimed) hreplies
  · rw [hstore]
    exact h.sound
  · rw [hstore]

theorem Serves.trySame (h : Serves clock g s) (htimed : ¬g.timed) (action : Act) (hallowed : deskAllowed g action)
    (hcalm : CalmAct clock s action) (hsame : execAct (choices s.tick) action s.store =
      execAct (onTime (clock s.tick) (clock (s.tick + 1))) action s.store)
    (hreplied : ∀ answer, answered action answer = replied action) :
    ∃ after, deskAnswers g action (Server.tryAct choices action s).1 after ∧
      Serves clock after (Server.tryAct choices action s).2 := by
  obtain ⟨after, hanswer, hafter⟩ := h.act action hallowed hcalm
  have htimed' : ¬after.timed := by rwa [deskAnswers_timed action _ hanswer]
  refine ⟨after, ?_, hafter.untimed htimed' ?_ ?_⟩
  · simp only [Server.tryAct, hsame]
    exact hanswer
  · simp only [Server.tryAct, hsame]
    rfl
  · simp only [Server.tryAct, Server.act, hreplied]

-- The server answers every action as the contract says, whatever fails to open
-- and whenever memory is short.
theorem Serves.tryAct (h : Serves clock g s) (htimed : ¬g.timed) (hwrites : (choices s.tick).Writes) (action : Act)
    (hallowed : deskAllowed g action) (hroom : RoomAct choices s action) :
    ∃ after, tryAnswers g action (Server.tryAct choices action s).1 after ∧
      Serves clock after (Server.tryAct choices action s).2 := by
  obtain ⟨hrelease, hlength, hread, hwrite⟩ :=
    execAct_writes hwrites (clock s.tick) (clock (s.tick + 1)) s.store
  cases action with
  | prepareFile key mode => exact h.tryPrepare htimed key hallowed hroom
  | releaseDesc dt => exact h.trySame htimed (.releaseDesc dt) hallowed trivial (hrelease dt) fun _ => rfl
  | descLength dt => exact h.trySame htimed (.descLength dt) hallowed trivial (hlength dt) fun _ => rfl
  | readFrom dt size offset =>
      exact h.trySame htimed (.readFrom dt size offset) hallowed trivial (hread dt size offset) fun _ => rfl
  | writeTo dt buf offset =>
      exact h.trySame htimed (.writeTo dt buf offset) hallowed trivial (hwrite dt buf offset) fun _ => rfl
  | posixMemalign => exact ⟨g, rfl, h.untimed htimed rfl (List.append_nil _)⟩
  | reply text len =>
      refine ⟨_, rfl, ?_⟩
      show Serves clock (if (!(choices s.tick).memoryFails) = true then g.reply (text.take len) else g) _
      cases hmemory : (choices s.tick).memoryFails with
      | true =>
          refine h.untimed htimed rfl ?_
          simp only [Server.tryAct, execAct, hmemory]
          exact List.append_nil _
      | false =>
          obtain ⟨_, ⟨_, rfl⟩, hafter⟩ := h.act (.reply text len) trivial trivial
          refine hafter.untimed htimed rfl ?_
          simp only [Server.tryAct, Server.act, execAct, hmemory]
          rfl

end Trying

end Solidbits
