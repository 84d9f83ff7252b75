import Solidbits.Net.Isolation
import Solidbits.Serial.Once

namespace Solidbits

open Prog Transition

section Losses

-- What stands under a path; a file that is not there is an empty one.
def bitmapOf (m : Contents) (hash : UInt64) : Bytes := (m hash).getD []

-- A file holds what the lines make of it, or what they make of it but for the
-- last one that changed it.
inductive AllButLast (disk : Contents) (lines : List Bytes) (hash : UInt64) (content : Bytes) : Prop
  | all (h : content = bitmapOf (plainMap hashed disk lines) hash)
  | last (before : List Bytes) (line : Bytes) (after : List Bytes) (hlines : lines = before ++ line :: after)
      (h : content = bitmapOf (plainMap hashed disk before) hash)
      (hrest : bitmapOf (plainMap hashed disk lines) hash = bitmapOf (plainMap hashed disk (before ++ [line])) hash)

variable {disk : Contents} {lines more : List Bytes} {hash : UInt64} {content : Bytes}

theorem AllButLast.grow (h : AllButLast disk lines hash content)
    (hsame : bitmapOf (plainMap hashed disk (lines ++ more)) hash = bitmapOf (plainMap hashed disk lines) hash) :
    AllButLast disk (lines ++ more) hash content := by
  cases h with
  | all h => exact .all (h.trans hsame.symm)
  | last before line after hlines h hrest =>
      refine .last before line (after ++ more) ?_ h (hsame.trans hrest)
      rw [hlines, List.append_assoc, List.cons_append]

end Losses

section Connections

variable {ι : Type} {own : ι → UInt64 → Prop} {disk : Contents} {i : ι} {l l' : Ledger} {prog : Cmd Unit}
variable {files : Contents} {fs fs' : Fs} {finished more : List Bytes} {written : Bool} {desk desk' : Desk}
variable {thread : Thread Act Res Unit (Option WorkReq)}

-- The files of a connection while the last of its lines may be under way: on disk
-- stands at least what all finished lines but one have made of them.
structure Saved (own : ι → UInt64 → Prop) (disk : Contents) (i : ι) (l : Ledger) (prog : Cmd Unit) (files : Contents)
    (fs : Fs) (finished more : List Bytes) (written : Bool) : Prop where
  lines : l.lines = finished ++ more
  one : more.length ≤ 1
  idle : l.works = [] → more = []
  once : prog.wp onceContract (fun _ _ => True) written
  shown : ∀ hash, own i hash → bitmapOf files hash = bitmapOf (plainMap hashed disk finished) hash
  kept : ∀ hash, own i hash → AllButLast disk finished hash (fs.content hash)

-- The files on disk are brought up to what is shown, or stay.
theorem Saved.trails (h : Saved own disk i l prog files fs finished more written)
    (hdisk : ∀ hash, own i hash → fs'.content hash = fs.content hash ∨ fs'.content hash = bitmapOf files hash) :
    Saved own disk i l prog files fs' finished more written := by
  refine ⟨h.lines, h.one, h.idle, h.once, h.shown, fun hash hown => ?_⟩
  rcases hdisk hash hown with he | he
  · rw [he]
    exact h.kept hash hown
  · exact .all (he.trans (h.shown hash hown))

-- The last line is finished.
theorem Saved.completes (h : Saved own disk i l prog files fs finished more written)
    (hfiles : files = plainMap hashed disk l.lines) (hlines : l'.lines = l.lines) :
    Saved own disk i l' prog files fs l.lines [] written := by
  refine ⟨by rw [hlines, List.append_nil], Nat.zero_le 1, fun _ => rfl, h.once, fun hash _ => by rw [hfiles], ?_⟩
  intro hash hown
  have hshown := h.shown hash hown
  rw [hfiles, h.lines] at hshown
  rw [h.lines]
  exact (h.kept hash hown).grow hshown

theorem Saved.goes (h : Saved own disk i l thread.prog files fs finished more written) (hstep : l.Goes l')
    (hlines : ∀ line ∈ l'.lines, Admitted own i line) :
    ∃ finished more written, Saved own disk i l' (hire thread l.works l'.works).prog files fs finished more written := by
  cases hstep with
  | stays =>
      rw [hire_same]
      exact ⟨finished, more, written, h⟩
  | closes =>
      rw [hire_same]
      exact ⟨finished, more, written, h.lines, h.one, h.idle, h.once, h.shown, h.kept⟩
  | takes line hidle hopen =>
      have hline := hlines line (List.mem_append_right _ (List.mem_singleton_self line))
      have hmore := h.idle hidle.1
      refine ⟨finished, [line], false, ?_, Nat.le_refl 1, fun hnone => absurd hnone (List.cons_ne_nil _ _), ?_,
        h.shown, h.kept⟩
      · simp only [Ledger.dispatch, h.lines, hmore, List.append_nil]
      · rw [hidle.1]
        show (parseAndExecute line).wp onceContract _ false
        rw [parseAndExecute_eq]
        exact request_once hline.1

theorem Saved.step (h : Saved own disk i l thread.prog desk.files fs finished more written)
    (hsession : Session own disk i l thread desk) {event : Event} (hstep : l.Step event l')
    (hevent : Completes disk l thread event) (hlines : ∀ line ∈ l'.lines, Admitted own i line) :
    ∃ finished more written,
      Saved own disk i l' (hire thread l.works l'.works).prog desk.files fs finished more written := by
  have hkept : ∀ works : List WorkReq, hire thread works [] = thread := by
    intro works
    cases works <;> rfl
  have hends : thread.prog.Finished → l'.lines = l.lines → l'.works = [] → ∃ finished more written,
      Saved own disk i l' (hire thread l.works l'.works).prog desk.files fs finished more written := by
    intro hdone hsame hnone
    rw [hnone, hkept]
    exact ⟨l.lines, [], written, h.completes (hsession.done hdone).files hsame⟩
  cases hstep with
  | goes hstep => exact h.goes hstep hlines
  | silent w hworks hwrites hsilent => exact hends hevent.2.2.1 rfl rfl
  | refused hworks hwrites => exact hends hevent.2.2.1 rfl rfl
  | handed w hworks hwrites hopen => exact hends hevent.2.2.1 rfl rfl
  | failed hworks hwrites =>
      rw [hire_same]
      exact ⟨finished, more, written, h.lines, h.one, h.idle, h.once, h.shown, h.kept⟩
  | flushed w hworks hwrites hgoes =>
      have hmid : Saved own disk i { l with writes := [], answered := l.answered ++ [(w.line, w.resp)] } thread.prog
          desk.files fs finished more written := ⟨h.lines, h.one, h.idle, h.once, h.shown, h.kept⟩
      have hgoes := hmid.goes hgoes hlines
      exact hgoes

-- An action of the worker. A write is the last thing that the request does to
-- its files, and what it overwrites is on disk.
theorem Saved.act {action : Act} {next : Res action → Cmd Unit} {answer : Res action} {ghost : Option WorkReq}
    (h : Saved own disk i l (.act action next) desk.files fs finished more written)
    (hanswer : deskAnswers desk action answer desk') (hsession : Session own disk i l ⟨next answer, ghost⟩ desk')
    (hdisk : ∀ hash, own i hash → fs'.content hash = fs.content hash ∨ fs'.content hash = bitmapOf desk.files hash)
    (hwrite : ∀ dt buf offset, action = .writeTo dt buf offset →
      fs'.content (desk.hash dt) = bitmapOf desk.files (desk.hash dt)) :
    ∃ finished more written, Saved own disk i l (next answer) desk'.files fs' finished more written := by
  obtain ⟨hallowed, hnext⟩ := h.once
  have hkeeps := onceAllowed_keeps hallowed
  have htrails := h.trails hdisk
  by_cases hwrites : ∃ dt buf offset, action = .writeTo dt buf offset
  · obtain ⟨dt, buf, offset, rfl⟩ := hwrites
    have honce := hnext answer true rfl
    have hend := files_at_end (wp_mono (fun last _ hdone => hdone.files) hsession.kept) honce
    refine ⟨l.lines, [], true, (List.append_nil _).symm, Nat.zero_le 1, fun _ => rfl, honce,
      fun hash _ => by rw [hend], ?_⟩
    intro hash hown
    rw [h.lines]
    by_cases hh : hash = desk.hash dt
    · have hcontent := (hwrite dt buf offset rfl).trans (h.shown _ (hh ▸ hown))
      rw [← hh] at hcontent
      cases hmore : more with
      | nil => exact .all (by rw [hcontent, List.append_nil])
      | cons line rest =>
          have hrest : rest = [] := by
            have hone := h.one
            rw [hmore, List.length_cons] at hone
            exact List.eq_nil_of_length_eq_zero (by omega)
          rw [hrest]
          exact .last finished line [] rfl hcontent rfl
    · have hother : ∀ dt' buf' offset', Act.writeTo dt buf offset = .writeTo dt' buf' offset' → hash ≠ desk.hash dt' := by
        rintro _ _ _ ⟨⟩
        exact hh
      have hsame := deskAnswers_bitmap hanswer hkeeps hother
      rw [hend, h.lines] at hsame
      exact (htrails.kept hash hown).grow (hsame.trans (h.shown hash hown))
  · have hafter : onceAnswers written action answer written := by
      cases action with
      | writeTo dt buf offset => exact absurd ⟨dt, buf, offset, rfl⟩ hwrites
      | _ => rfl
    refine ⟨finished, more, written, h.lines, h.one, h.idle, hnext answer written hafter, ?_, htrails.kept⟩
    intro hash hown
    rw [← h.shown hash hown]
    exact deskAnswers_bitmap hanswer hkeeps fun dt buf offset he => absurd ⟨dt, buf, offset, he⟩ hwrites

end Connections

section Runs

variable {ι : Type} {own : ι → UInt64 → Prop} {disk : Contents} {service service' : Service ι}
variable {g g' : Desk} {desks desks' : ι → Desk}

-- What a process leaves that ends without closing its files.
def Service.killed (service : Service ι) : Contents := service.workers.shared.fs.disk

def Service.Keeps (own : ι → UInt64 → Prop) (disk : Contents) (service : Service ι) (desks : ι → Desk) : Prop :=
  ∀ i, ∃ finished more written, Saved own disk i (service.conns i).ledger (service.workers.threads i).prog
    (desks i).files service.workers.shared.fs finished more written

variable [DecidableEq ι]

theorem Service.Keeps.passes (h : service.Keeps own disk desks) (hdivided : service.Divided own disk g desks)
    (hpasses : Service.Passes disk service desks service' desks') (hafter : service'.Divided own disk g' desks')
    (hlines : ∀ i, ∀ line ∈ (service'.conns i).lines, Admitted own i line) : service'.Keeps own disk desks' := by
  cases hpasses with
  | stays => exact h
  | called i event desk hevent hcleared =>
      intro other
      rw [callback_threads]
      by_cases hi : other = i
      · subst hi
        have hmine := hlines other
        simp only [Service.callback, Function.update_self] at hmine ⊢
        obtain ⟨finished, more, written, hkept⟩ := h other
        have hfiles : desk.files = (desks other).files := by
          rcases hcleared with rfl | rfl <;> rfl
        rw [hfiles]
        exact hkept.step (hdivided.sessions other) (next_ledger (hdivided.framed other).toShape event) hevent hmine
      · simp only [Service.callback, Function.update_of_ne hi]
        exact h other
  | acted i choice action next desk hfine hprog hanswer =>
      have hthread : (service.workers.threads (i, choice).1).prog = .act action next := hprog
      have hsound := hdivided.carried.serves.sound
      have hsession := hafter.sessions i
      obtain ⟨finished, more, written, hsaved⟩ := h i
      rw [hprog] at hsaved
      have hallowed := (hdivided.sessions i).kept
      rw [hprog] at hallowed
      have hdisk : ∀ j hash, own j hash →
          (execAct choice action service.workers.shared).2.fs.content hash = service.workers.shared.fs.content hash ∨
            (execAct choice action service.workers.shared).2.fs.content hash = bitmapOf (desks j).files hash := by
        intro j hash hown
        rw [bitmapOf, hdivided.shared.files j hash hown]
        exact execAct_trails hsound.shown choice (onceAllowed_keeps hsaved.once.1) hash
      simp only [Service.next, Pool.step_act execAct (fun _ => noteReply) hthread] at hsession ⊢
      intro other
      by_cases hi : other = i
      · subst hi
        simp only [Function.update_self] at hsession ⊢
        refine hsaved.act hanswer hsession (hdisk other) ?_
        rintro dt buf offset rfl
        have hp : 0 < (desks other).pins dt := hallowed.1
        obtain ⟨hown, hhash, hpins⟩ := hdivided.shared.pinned other dt hp
        obtain ⟨hlive, hheld⟩ := hdivided.carried.serves.held dt (hpins ▸ hp)
        have hflushed := hsound.write_flushes hlive hfine.2.2.1 hsaved.once.1.2 offset
        rw [hheld, hhash] at hflushed
        rw [bitmapOf, hdivided.shared.files other _ hown]
        exact hflushed
      · simp only [Function.update_of_ne hi]
        obtain ⟨finished, more, written, hsaved⟩ := h other
        exact ⟨finished, more, written, hsaved.trails (hdisk other)⟩

omit [DecidableEq ι] in
theorem keeps_start (own : ι → UInt64 → Prop) (disk : Contents) :
    (Service.start disk : Service ι).Keeps own disk fun _ => Desk.start disk :=
  fun _ => ⟨[], [], false, rfl, Nat.zero_le 1, fun _ => rfl, trivial, fun _ _ => rfl, fun _ _ => .all rfl⟩

-- Whenever the process is killed, with files open and writes held back, the files
-- of a connection have everything that its finished lines did but for the last
-- one that changed the file.
theorem crash_loses_last (hapart : Apart own) (moves : List (Move ι))
    (hadmits : AllSteps Service.next (Service.Admits own) (Service.start disk) moves)
    (hcalm : AllSteps Service.next Service.Undisturbed (Service.start disk) moves) :
    AllStates Service.next
      (fun service => ∀ i, ∃ finished more, (service.conns i).lines = finished ++ more ∧
        more.length ≤ (service.conns i).works.length ∧
        ∀ hash, own i hash → AllButLast disk finished hash (bitmapOf service.killed hash))
      (Service.start disk) moves := by
  refine (allStates_of_invariant Service.next
    (fun service => ∃ g desks, service.Divided own disk g desks ∧ service.Keeps own disk desks) ?_ ?_
    (hadmits.and Service.next hcalm)).mono Service.next ?_
  · rintro service move ⟨g, desks, hdivided, hkeeps⟩ ⟨hfits, hcalm⟩
    obtain ⟨g', desks', hpasses, hafter⟩ := hdivided.passes hapart hfits hcalm
    exact ⟨g', desks', hafter, hkeeps.passes hdivided hpasses hafter hfits⟩
  · obtain ⟨g, hdivided⟩ := divided_start own disk
    exact ⟨g, _, hdivided, keeps_start own disk⟩
  · rintro service ⟨g, desks, _, hkeeps⟩ i
    obtain ⟨finished, more, written, hsaved⟩ := hkeeps i
    refine ⟨finished, more, hsaved.lines, ?_, hsaved.kept⟩
    by_cases hnone : (service.conns i).works = []
    · rw [hsaved.idle hnone]
      exact Nat.zero_le _
    · exact Nat.le_trans hsaved.one (List.length_pos_iff.mpr hnone)

-- The server is killed when the second of two SETBITs has been answered: the
-- first one is on disk, the second one is not.
theorem crash_loses_last_two_bits :
    let service := run Service.next (Service.start (fun _ => none) : Service Unit)
      [.read () (str "SETBIT a 0 1\n") false false, .act () {}, .act () {}, .act () {}, .act () {}, .act () {},
        .afterWork () false, .onWrite () 0 false, .read () (str "SETBIT a 1 1\n") false false, .act () {},
        .act () {}, .act () {}, .act () {}, .act () {}, .act () {}, .afterWork () false, .onWrite () 0 false]
    bitmapOf service.killed (hashed (str "a")) = [128] ∧ (service.conns ()).answered.length = 2 ∧
      ∃ finished more, (service.conns ()).lines = finished ++ more ∧ more.length ≤ (service.conns ()).works.length ∧
        AllButLast (fun _ => none) finished (hashed (str "a")) (bitmapOf service.killed (hashed (str "a"))) := by
  intro service
  have hapart : Apart fun (_ : Unit) (_ : UInt64) => True := fun _ _ _ _ _ => rfl
  have h := (@crash_loses_last Unit (fun _ _ => True) (fun _ => none) _ hapart
    [.read () (str "SETBIT a 0 1\n") false false, .act () {}, .act () {}, .act () {}, .act () {}, .act () {},
      .afterWork () false, .onWrite () 0 false, .read () (str "SETBIT a 1 1\n") false false, .act () {},
      .act () {}, .act () {}, .act () {}, .act () {}, .act () {}, .afterWork () false, .onWrite () 0 false]
    (by decide +kernel) (by decide +kernel)).last
  have hrun : bitmapOf service.killed (hashed (str "a")) = [128] ∧ (service.conns ()).answered.length = 2 := by
    decide +kernel
  obtain ⟨finished, more, hlines, hmore, hlast⟩ := h ()
  exact ⟨hrun.1, hrun.2, finished, more, hlines, hmore, hlast _ trivial⟩

end Runs

end Solidbits
