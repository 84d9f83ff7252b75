import Solidbits.Serial.Sources
import Solidbits.Jobs.Discipline

namespace Solidbits

open Prog Transition

section Views

-- What the next reader of a path sees: the file on disk, with the writes on top
-- that the FILE object of its descriptor still holds back.
def Store.bitmap (st : Store) (hash : UInt64) : Option Bytes :=
  match lookup st hash with
  | .found slot =>
      (st.fs.file (st.descs slot).fd).map fun file => file.applied (st.fs.content file.path)
  | .absent _ _ => st.fs.disk hash

-- The length recorded for a path that is open.
def Store.recorded (st : Store) (hash : UInt64) : Option Nat :=
  match lookup st hash with
  | .found slot => some (st.descs slot).length
  | .absent _ _ => none

def Store.size (st : Store) (hash : UInt64) : Nat := ((st.bitmap hash).getD []).length

-- The length a request goes by: the recorded one, else that of the file.
def Store.length (st : Store) (hash : UInt64) : Nat := (st.recorded hash).getD (st.size hash)

variable {clock : Nat → Nat} {g : Desk} {s : Server}

theorem Serves.bitmap (h : Serves clock g s) (hash : UInt64) : s.store.bitmap hash = g.files hash := by
  unfold Store.bitmap
  split
  · rename_i slot hl
    obtain ⟨hlive, rfl⟩ := h.sound.lookup_found hl
    obtain ⟨n, hfd, hn⟩ := h.sound.opened slot hlive
    obtain ⟨file, hf, hp, _⟩ := files_of_names hn
    have hshown := h.sound.shown.opened n file hf
    rw [hp] at hshown
    rw [hshown, hfd, Fs.file, Option.bind_some, hf, Option.map_some, hp]
  · rename_i hl
    exact h.sound.disk_of_absent (h.sound.indexed.absent (misses_of_absent hl))

theorem Serves.recordedOf (h : Serves clock g s) (hash : UInt64) :
    s.store.recorded hash = g.recorded hash := by
  unfold Store.recorded
  split
  · rename_i slot hl
    obtain ⟨hlive, hh⟩ := h.sound.lookup_found hl
    exact ((h.recorded hash _).mpr ⟨slot, hlive, hh, rfl⟩).symm
  · rename_i hl
    exact (h.closed (h.sound.indexed.absent (misses_of_absent hl))).symm

theorem Serves.opened (h : Serves clock g s) : g.Open := by
  intro slot hp
  obtain ⟨hl, hh⟩ := h.held slot hp
  rw [(h.recorded _ _).mpr ⟨slot, hl, hh, rfl⟩]
  exact nofun

-- No path shows more than the length recorded for it.
theorem Serves.fits (h : Serves clock g s) {hash : UInt64} {length : Nat}
    (hlength : g.recorded hash = some length) : g.files.length hash ≤ length := by
  obtain ⟨slot, hl, rfl, rfl⟩ := (h.recorded hash length).mp hlength
  exact h.sound.bounded slot hl

end Views

section Requests

variable {g after : Desk}

theorem covers_single {dt : Slot} (h : 0 < g.pins dt) : g.Covers [some dt] := by
  intro slot
  by_cases hs : slot = dt
  · subst hs
    simpa using Nat.succ_le_of_lt h
  · rw [List.count_cons_of_ne (by simpa using fun he => hs he.symm), List.count_nil]
    exact Nat.zero_le _

-- The server pins a descriptor at least as often as a request holds it.
def Holds (held : Holding) (g : Desk) : Prop := ∀ slot, held.count slot ≤ g.pins slot

theorem Holds.pin {held : Holding} (h : Holds held g) (pin : Pin) :
    Holds (held.pin pin) (g.pin pin.slot pin.hash) := by
  intro slot
  have hslot := h slot
  rw [pin_count]
  simp only [Desk.pin]
  by_cases hs : pin.slot = slot
  · subst hs
    simpa using hslot
  · simpa [hs, Function.update_of_ne (Ne.symm hs)] using hslot

theorem Holds.answer {held : Holding} (h : Holds held g) (action : Act) (answer : Res action)
    (ha : deskAnswers g action answer after) : ∃ st, Holds (record st held action answer) after := by
  refine ⟨initFile fun _ => none, ?_⟩
  cases action with
  | prepareFile key mode =>
      simp only [deskAnswers] at ha
      cases ha with
      | found slot hopen hshown hpin => exact h.pin _
      | opened slot hclosed hpin hmode => exact (show Holds held (g.create _ mode) from h).pin _
      | missing recorded hclosed hnone hmode hkept => exact h
      | full hclosed hpinned => exact h
  | releaseDesc dt =>
      have hafter : after = g.unpin dt := ha
      intro slot
      have hslot := h slot
      simp only [record, release_count, hafter, Desk.unpin]
      by_cases hs : dt = slot
      · subst hs
        simp only [ite_true, Function.update_self]
        omega
      · simp only [hs, ite_false, Function.update_of_ne (Ne.symm hs)]
        omega
  | descLength dt => rwa [ha.2]
  | readFrom dt size offset => rwa [ha.2]
  | writeTo dt buf offset =>
      simp only [deskAnswers] at ha
      split at ha
      · rwa [ha.2]
      · rw [ha.2]
        exact h
  | posixMemalign => rwa [ha.2]
  | reply text len =>
      rw [ha.2]
      exact h

theorem Holds.allowed {held : Holding} (h : Holds held g) {action : Act} (hallowed : pinAllowed held action) :
    deskAllowed g action := by
  cases action with
  | prepareFile key mode => exact hallowed
  | releaseDesc dt => exact Nat.lt_of_lt_of_le hallowed (h dt)
  | descLength dt => exact Nat.lt_of_lt_of_le hallowed (h dt)
  | readFrom dt size offset => exact Nat.lt_of_lt_of_le hallowed (h dt)
  | writeTo dt buf offset => exact Nat.lt_of_lt_of_le hallowed (h dt)
  | posixMemalign => trivial
  | reply text len => trivial

-- Every request stays within the contract.
theorem wp_request (g : Desk) (request : Request) :
    request.execute.wp deskContract (fun _ _ => True) g := by
  have hstart : Holds {} g := fun slot => Nat.zero_le _
  refine wp_transfer Holds ?_ ?_ (fun _ _ _ _ _ => trivial) hstart (pin_request request)
  · exact fun held g action h hallowed => h.allowed hallowed
  · intro held g action answer after h _ ha
    obtain ⟨st, hafter⟩ := h.answer action answer ha
    exact ⟨_, ⟨st, rfl⟩, hafter⟩

end Requests

section Serving

variable {clock : Nat → Nat} {disk : Contents} {s : Server} {line : Bytes} {lines : List Bytes}

-- One request, whatever it is.
theorem serves_serve (h : ∃ g, Serves clock g s) (hcalm : Calm clock s line) :
    ∃ g, Serves clock g (s.serve clock line) := by
  obtain ⟨g, hserves⟩ := h
  have hwp : (parseAndExecute line).wp deskContract (fun _ _ => True) g := by
    rw [parseAndExecute_eq]
    exact wp_request g _
  obtain ⟨last, _, hafter⟩ := wp_exec
    (fun _ _ action hserves hallowed hgood => hserves.act action hallowed hgood)
    hwp hserves hcalm
  exact ⟨last, hafter⟩

-- A run of calm requests.
theorem serves_run
    (hcalm : AllSteps (Server.serve clock) (Calm clock) (Server.start disk) lines) :
    ∃ g, Serves clock g (run (Server.serve clock) (Server.start disk) lines) := by
  have hinit : ∃ g, Serves clock g (Server.start disk) := ⟨_, serves_initFile clock disk 0 []⟩
  exact run_invariant (Server.serve clock) (fun s => ∃ g, Serves clock g s)
    (fun _ _ h hcalm => serves_serve h hcalm) hinit hcalm

end Serving

end Solidbits
