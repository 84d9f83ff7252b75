import Solidbits.Serial.Routes
import Solidbits.Serial.Unchanged

namespace Solidbits

open Prog

section Shares

variable {ι : Type} {own : ι → UInt64 → Prop} {g g' desk : Desk} {desks : ι → Desk} {i : ι} {hash : UInt64} {slot : Slot}

-- No path belongs to two owners.
def Apart (own : ι → UInt64 → Prop) : Prop := ∀ i j hash, own i hash → own j hash → i = j

-- The server as several owners see it that open only paths of their own. Each
-- has a desk to itself; what lies on it of other paths does not matter.
structure Shares (own : ι → UInt64 → Prop) (g : Desk) (desks : ι → Desk) : Prop where
  files : ∀ i hash, own i hash → (desks i).files hash = g.files hash
  recorded : ∀ i hash, own i hash → (desks i).recorded hash = g.recorded hash
  pinned : ∀ i slot, 0 < (desks i).pins slot →
    own i ((desks i).hash slot) ∧ g.hash slot = (desks i).hash slot ∧ g.pins slot = (desks i).pins slot
  holder : ∀ slot, 0 < g.pins slot → ∃ i, 0 < (desks i).pins slot

theorem Shares.holds (h : Shares own g desks) (hp : 0 < (desks i).pins slot) :
    (desks i).length slot = g.length slot ∧ (desks i).content slot = g.content slot := by
  obtain ⟨hown, hhash, _⟩ := h.pinned i slot hp
  rw [Desk.length, Desk.length, Desk.content, Desk.content, hhash, h.recorded i _ hown, h.files i _ hown]
  exact ⟨rfl, rfl⟩

theorem Shares.allowed (h : Shares own g desks) {action : Act} (hallowed : deskAllowed (desks i) action) :
    deskAllowed g action := by
  have hpin : ∀ slot, 0 < (desks i).pins slot → 0 < g.pins slot := by
    intro slot hp
    rw [(h.pinned i slot hp).2.2]
    exact hp
  cases action with
  | prepareFile key mode => exact hallowed
  | releaseDesc dt => exact hpin dt hallowed
  | descLength dt => exact hpin dt hallowed
  | readFrom dt size offset => exact hpin dt hallowed
  | writeTo dt buf offset => exact hpin dt hallowed
  | posixMemalign => trivial
  | reply text len => trivial

-- A descriptor of an own path that is pinned at all is pinned by its owner.
theorem Shares.pins_eq (h : Shares own g desks) (hapart : Apart own)
    (howner : 0 < g.pins slot → own i (g.hash slot)) : g.pins slot = (desks i).pins slot := by
  by_cases hp : 0 < g.pins slot
  · obtain ⟨j, hj⟩ := h.holder slot hp
    obtain ⟨hown, hhash, hpins⟩ := h.pinned j slot hj
    rw [← hhash] at hown
    rw [hapart i j _ (howner hp) hown]
    exact hpins
  · by_cases hmine : 0 < (desks i).pins slot
    · exact (h.pinned i slot hmine).2.2
    · omega

variable [DecidableEq ι]

-- An owner changes a path of its own.
theorem Shares.change (h : Shares own g desks) (hapart : Apart own) (hown : own i hash)
    (hg : ∀ other, other ≠ hash → g'.files other = g.files other ∧ g'.recorded other = g.recorded other)
    (hdesk : ∀ other, other ≠ hash →
      desk.files other = (desks i).files other ∧ desk.recorded other = (desks i).recorded other)
    (hsame : desk.files hash = g'.files hash ∧ desk.recorded hash = g'.recorded hash)
    (hpins : g'.pins = g.pins ∧ desk.pins = (desks i).pins)
    (hhash : g'.hash = g.hash ∧ desk.hash = (desks i).hash) : Shares own g' (Function.update desks i desk) := by
  have hmine : ∀ other, own i other → desk.files other = g'.files other ∧ desk.recorded other = g'.recorded other := by
    intro other hother
    by_cases ho : other = hash
    · rw [ho]
      exact hsame
    · rw [(hg other ho).1, (hg other ho).2, (hdesk other ho).1, (hdesk other ho).2]
      exact ⟨h.files i other hother, h.recorded i other hother⟩
  have htheirs : ∀ j, j ≠ i → ∀ other, own j other →
      (desks j).files other = g'.files other ∧ (desks j).recorded other = g'.recorded other := by
    intro j hj other hother
    have ho : other ≠ hash := by
      rintro rfl
      exact hj (hapart j i other hother hown)
    rw [(hg other ho).1, (hg other ho).2]
    exact ⟨h.files j other hother, h.recorded j other hother⟩
  constructor
  · exact (Function.forall_update_iff desks fun j d => ∀ other, own j other → d.files other = g'.files other).mpr
      ⟨fun other ho => (hmine other ho).1, fun j hj other ho => (htheirs j hj other ho).1⟩
  · exact (Function.forall_update_iff desks fun j d => ∀ other, own j other →
      d.recorded other = g'.recorded other).mpr
      ⟨fun other ho => (hmine other ho).2, fun j hj other ho => (htheirs j hj other ho).2⟩
  · rw [hpins.1, hhash.1]
    refine (Function.forall_update_iff desks fun j d => ∀ slot, 0 < d.pins slot →
      own j (d.hash slot) ∧ g.hash slot = d.hash slot ∧ g.pins slot = d.pins slot).mpr ⟨?_, fun j _ => h.pinned j⟩
    rw [hpins.2, hhash.2]
    exact h.pinned i
  · intro slot hp
    rw [hpins.1] at hp
    obtain ⟨j, hj⟩ := h.holder slot hp
    refine ⟨j, ?_⟩
    by_cases hi : j = i
    · subst hi
      rwa [Function.update_self, hpins.2]
    · rwa [Function.update_of_ne hi]

-- An owner pins or unpins a descriptor that nobody else holds.
theorem Shares.repin (h : Shares own g desks) (hapart : Apart own)
    (hg : ∀ other, other ≠ slot → g'.pins other = g.pins other ∧ g'.hash other = g.hash other)
    (hdesk : ∀ other, other ≠ slot →
      desk.pins other = (desks i).pins other ∧ desk.hash other = (desks i).hash other)
    (hfiles : g'.files = g.files ∧ desk.files = (desks i).files)
    (hrecorded : g'.recorded = g.recorded ∧ desk.recorded = (desks i).recorded)
    (halone : g.pins slot = (desks i).pins slot) (hpins : g'.pins slot = desk.pins slot)
    (hheld : 0 < desk.pins slot → own i (desk.hash slot) ∧ g'.hash slot = desk.hash slot) :
    Shares own g' (Function.update desks i desk) := by
  have hfree : ∀ j, j ≠ i → (desks j).pins slot = 0 := by
    intro j hj
    by_contra hp
    have hp := Nat.pos_of_ne_zero hp
    obtain ⟨hown, hhash, hsame⟩ := h.pinned j slot hp
    rw [← hsame, halone] at hp
    obtain ⟨hown', hhash', _⟩ := h.pinned i slot hp
    rw [← hhash] at hown
    rw [← hhash'] at hown'
    exact hj (hapart j i _ hown hown')
  constructor
  · rw [hfiles.1]
    refine (Function.forall_update_iff desks fun j d => ∀ other, own j other →
      d.files other = g.files other).mpr ⟨?_, fun j _ => h.files j⟩
    rw [hfiles.2]
    exact h.files i
  · rw [hrecorded.1]
    refine (Function.forall_update_iff desks fun j d => ∀ other, own j other →
      d.recorded other = g.recorded other).mpr ⟨?_, fun j _ => h.recorded j⟩
    rw [hrecorded.2]
    exact h.recorded i
  · refine (Function.forall_update_iff desks fun j d => ∀ other, 0 < d.pins other →
      own j (d.hash other) ∧ g'.hash other = d.hash other ∧ g'.pins other = d.pins other).mpr ⟨?_, ?_⟩
    · intro other hp
      by_cases ho : other = slot
      · subst ho
        exact ⟨(hheld hp).1, (hheld hp).2, hpins⟩
      · rw [(hdesk other ho).1] at hp ⊢
        rw [(hdesk other ho).2, (hg other ho).1, (hg other ho).2]
        exact h.pinned i other hp
    · intro j hj other hp
      have ho : other ≠ slot := by
        rintro rfl
        rw [hfree j hj] at hp
        exact absurd hp (Nat.lt_irrefl 0)
      rw [(hg other ho).1, (hg other ho).2]
      exact h.pinned j other hp
  · intro other hp
    by_cases ho : other = slot
    · subst ho
      refine ⟨i, ?_⟩
      rwa [Function.update_self, ← hpins]
    · rw [(hg other ho).1] at hp
      obtain ⟨j, hj⟩ := h.holder other hp
      refine ⟨j, ?_⟩
      by_cases hi : j = i
      · subst hi
        rwa [Function.update_self, (hdesk other ho).1]
      · rwa [Function.update_of_ne hi]

-- What is said to the client, and what is relied on, concerns nobody else.
theorem Shares.rewrite (h : Shares own g desks) (hg : g'.files = g.files ∧ g'.recorded = g.recorded ∧
      g'.pins = g.pins ∧ g'.hash = g.hash)
    (hdesk : desk.files = (desks i).files ∧ desk.recorded = (desks i).recorded ∧ desk.pins = (desks i).pins ∧
      desk.hash = (desks i).hash) : Shares own g' (Function.update desks i desk) := by
  obtain ⟨hgf, hgr, hgp, hgh⟩ := hg
  obtain ⟨hdf, hdr, hdp, hdh⟩ := hdesk
  have hpins : ∀ j slot, (Function.update desks i desk j).pins slot = (desks j).pins slot := by
    intro j slot
    by_cases hi : j = i
    · subst hi
      rw [Function.update_self, hdp]
    · rw [Function.update_of_ne hi]
  constructor
  · rw [hgf]
    refine (Function.forall_update_iff desks fun j d => ∀ other, own j other →
      d.files other = g.files other).mpr ⟨?_, fun j _ => h.files j⟩
    rw [hdf]
    exact h.files i
  · rw [hgr]
    refine (Function.forall_update_iff desks fun j d => ∀ other, own j other →
      d.recorded other = g.recorded other).mpr ⟨?_, fun j _ => h.recorded j⟩
    rw [hdr]
    exact h.recorded i
  · rw [hgp, hgh]
    refine (Function.forall_update_iff desks fun j d => ∀ slot, 0 < d.pins slot →
      own j (d.hash slot) ∧ g.hash slot = d.hash slot ∧ g.pins slot = d.pins slot).mpr ⟨?_, fun j _ => h.pinned j⟩
    rw [hdp, hdh]
    exact h.pinned i
  · intro slot hp
    rw [hgp] at hp
    obtain ⟨j, hj⟩ := h.holder slot hp
    exact ⟨j, by rwa [hpins]⟩

-- The path of a request belongs to its owner.
def Owns (own : ι → UInt64 → Prop) (i : ι) : Act → Prop
  | .prepareFile key _ => own i (xxh64 key 0)
  | _ => True

-- A file is opened unless it is not there, and then nothing changes.
def Unfailing (g g' : Desk) : (action : Act) → Res action → Prop
  | .prepareFile _ _, answer => ∀ error, answer = .error error → error = .missing ∧ g' = g
  | _, _ => True

def plainAnswers (g : Desk) (action : Act) (answer : Res action) (g' : Desk) : Prop :=
  deskAnswers g action answer g' ∧ Unfailing g g' action answer

theorem Shares.prepare (h : Shares own g desks) (hapart : Apart own) {mode : Nat} (hown : own i hash)
    {answer : Except OpenError Slot} (ha : Handed g hash mode answer g')
    (hkept : ∀ error, answer = .error error → error = .missing ∧ g' = g) :
    ∃ desk, Handed (desks i) hash mode answer desk ∧ Shares own g' (Function.update desks i desk) := by
  have hrecorded := h.recorded i hash hown
  have hfiles := h.files i hash hown
  have hpinned : ∀ g desks, Shares own g desks → ∀ slot, (0 < g.pins slot → g.hash slot = hash) →
      Shares own (g.pin slot hash) (Function.update desks i ((desks i).pin slot hash)) := by
    intro g desks h slot hpin
    have hsame := h.pins_eq (i := i) hapart fun hp => by rwa [hpin hp]
    apply @Shares.repin _ _ _ _ _ _ i slot _ h hapart
    · intro other ho
      simp only [Desk.pin, Function.update_of_ne ho, and_self]
    · intro other ho
      simp only [Desk.pin, Function.update_of_ne ho, and_self]
    · exact ⟨rfl, rfl⟩
    · exact ⟨rfl, rfl⟩
    · exact hsame
    · simp only [Desk.pin, Function.update_self, hsame]
    · intro _
      simp only [Desk.pin, Function.update_self]
      exact ⟨hown, trivial⟩
  cases ha with
  | found slot hopen hshown hpin =>
      refine ⟨(desks i).pin slot hash, .found slot ?_ ?_ ?_, hpinned g desks h slot hpin⟩
      · rwa [hrecorded]
      · rwa [hfiles]
      · intro hp
        obtain ⟨_, hhash, hpins⟩ := h.pinned i slot hp
        rw [← hhash]
        exact hpin (by rwa [hpins])
  | opened slot hclosed hpin hmode =>
      have hmine : (desks i).pins slot = 0 := by
        by_contra hp
        have hpins := (h.pinned i slot (Nat.pos_of_ne_zero hp)).2.2
        exact hp (hpins.symm.trans hpin)
      refine ⟨((desks i).create hash mode).pin slot hash, .opened slot (hrecorded.trans hclosed) hmine ?_, ?_⟩
      · rwa [hfiles]
      · have hcreate : Shares own (g.create hash mode) (Function.update desks i ((desks i).create hash mode)) := by
          apply h.change hapart hown
          · intro other ho
            exact ⟨opened_of_ne g.files mode ho, Function.update_of_ne ho _ _⟩
          · intro other ho
            exact ⟨opened_of_ne (desks i).files mode ho, Function.update_of_ne ho _ _⟩
          · simp only [Desk.create, Contents.opened, Contents.length, hfiles, Function.update_self, and_true]
            split
            · simp only [Function.update_self]
            · exact hfiles
          · exact ⟨rfl, rfl⟩
          · exact ⟨rfl, rfl⟩
        have hboth := hpinned _ _ hcreate slot fun hp => absurd hp (by simp [Desk.create, hpin])
        rwa [Function.update_self, Function.update_idem] at hboth
  | missing recorded hclosed hnone hmode hother =>
      obtain ⟨_, hsame⟩ := hkept .missing rfl
      refine ⟨desks i, ?_, ?_⟩
      · exact .missing (desks i).recorded (hrecorded.trans hclosed) (hfiles.trans hnone) hmode fun _ => Or.inl rfl
      · rw [hsame, Function.update_eq_self]
        exact h
  | full hclosed hpinned =>
      cases (hkept .failed rfl).1

-- What an owner is answered is right for its desk, and nobody else notices.
theorem Shares.answer (h : Shares own g desks) (hapart : Apart own) (action : Act)
    (hallowed : deskAllowed (desks i) action) (howns : Owns own i action) {answer : Res action}
    (ha : plainAnswers g action answer g') :
    ∃ desk, deskAnswers (desks i) action answer desk ∧ Shares own g' (Function.update desks i desk) := by
  obtain ⟨ha, hkept⟩ := ha
  have hsame : Shares own g (Function.update desks i (desks i)) := by rwa [Function.update_eq_self]
  cases action with
  | prepareFile key mode => exact h.prepare hapart howns ha hkept
  | releaseDesc dt =>
      have hp : 0 < (desks i).pins dt := hallowed
      obtain ⟨hown, hhash, hpins⟩ := h.pinned i dt hp
      have hafter : g' = g.unpin dt := ha
      refine ⟨(desks i).unpin dt, rfl, ?_⟩
      rw [hafter]
      apply @Shares.repin _ _ _ _ _ _ i dt _ h hapart
      · intro other ho
        simp only [Desk.unpin, Function.update_of_ne ho, and_self]
      · intro other ho
        simp only [Desk.unpin, Function.update_of_ne ho, and_self]
      · exact ⟨rfl, rfl⟩
      · exact ⟨rfl, rfl⟩
      · exact hpins
      · simp only [Desk.unpin, Function.update_self, hpins]
      · exact fun _ => ⟨hown, hhash⟩
  | descLength dt =>
      obtain ⟨hlength, _⟩ := h.holds hallowed
      obtain ⟨hanswer, rfl⟩ := ha
      exact ⟨desks i, ⟨hanswer.trans hlength.symm, rfl⟩, hsame⟩
  | readFrom dt size offset =>
      obtain ⟨_, hcontent⟩ := h.holds hallowed
      obtain ⟨hanswer, rfl⟩ := ha
      refine ⟨desks i, ⟨fun ho => ?_, rfl⟩, hsame⟩
      rw [hanswer ho, hcontent]
  | writeTo dt buf offset =>
      have hp : 0 < (desks i).pins dt := hallowed
      obtain ⟨hlength, hcontent⟩ := h.holds hp
      obtain ⟨hown, hhash, _⟩ := h.pinned i dt hp
      by_cases ho : offset < 0
      · simp only [deskAnswers, ho, ite_true] at ha
        obtain ⟨hanswer, rfl⟩ := ha
        refine ⟨desks i, ?_, hsame⟩
        simp only [deskAnswers, ho, ite_true]
        exact ⟨hanswer, trivial⟩
      · simp only [deskAnswers, ho, ite_false] at ha
        obtain ⟨hanswer, rfl⟩ := ha
        refine ⟨(desks i).write dt offset.toNat buf, ?_, ?_⟩
        · simp only [deskAnswers, ho, ite_false]
          exact ⟨hanswer, trivial⟩
        · apply h.change hapart hown
          · intro other hother
            rw [← hhash] at hother
            simp only [Desk.write, Function.update_of_ne hother, and_self]
          · intro other hother
            simp only [Desk.write, Function.update_of_ne hother, and_self]
          · simp only [Desk.write, hhash, hlength, hcontent, Function.update_self, and_self]
          · exact ⟨rfl, rfl⟩
          · exact ⟨rfl, rfl⟩
  | posixMemalign =>
      obtain ⟨hanswer, rfl⟩ := ha
      exact ⟨desks i, ⟨hanswer, rfl⟩, hsame⟩
  | reply text len =>
      obtain ⟨hanswer, rfl⟩ := ha
      exact ⟨(desks i).reply (text.take len), ⟨hanswer, rfl⟩, h.rewrite ⟨rfl, rfl, rfl, rfl⟩ ⟨rfl, rfl, rfl, rfl⟩⟩

end Shares

section Carries

variable {g : Desk} {st : Store}

-- The store holds what is on the desk, whatever the time is.
def Carries (g : Desk) (st : Store) : Prop := Tries g { store := st, replies := g.replies }

-- An action that finds room in the table if it has to open a file.
def RoomFor (choice : Choice) (st : Store) : Act → Prop
  | .prepareFile key mode => RoomOpen choice st (xxh64 key 0) mode
  | _ => True

instance (choice : Choice) (st : Store) (action : Act) : Decidable (RoomFor choice st action) :=
  match action with
  | .prepareFile _ _ => inferInstanceAs (Decidable (RoomOpen _ _ _ _))
  | .releaseDesc _ => isTrue trivial
  | .descLength _ => isTrue trivial
  | .readFrom _ _ _ => isTrue trivial
  | .writeTo _ _ _ => isTrue trivial
  | .posixMemalign => isTrue trivial
  | .reply _ _ => isTrue trivial

theorem Carries.prepare (h : Carries g st) (scanUs stampUs : Nat) {hash : UInt64} {mode : Nat} (hmode : mode ≤ 2)
    (hroom : RoomOpen (onTime scanUs stampUs) st hash mode) :
    ∃ after, Handed g hash mode (prepareHashed (onTime scanUs stampUs) hash mode st).1 after ∧
      (∀ error, (prepareHashed (onTime scanUs stampUs) hash mode st).1 = .error error → error = .missing ∧ after = g) ∧
      Carries after (prepareHashed (onTime scanUs stampUs) hash mode st).2 := by
  have hattempt := h.serves.sound.attempt hmode hroom
  generalize (prepareHashed (onTime scanUs stampUs) hash mode st).1 = answer at hattempt
  generalize (prepareHashed (onTime scanUs stampUs) hash mode st).2 = st' at hattempt
  cases hattempt with
  | prepared slot _ hp hworks =>
      obtain ⟨after, hanswer, hafter⟩ := @Serves.prepare _ _ _ { store := st', replies := g.replies } h.serves
        _ _ _ _ _ hp (fun ht => absurd ht h.untimed) (fun ht => absurd ht h.untimed) rfl
      have hreplies : after.replies = g.replies := by cases hanswer <;> rfl
      have htimed : after.timed = g.timed := by cases hanswer <;> rfl
      refine ⟨after, hanswer, nofun, ?_, by rw [htimed]; exact h.untimed⟩
      rwa [hreplies]
  | missing _ hm hnone hone hsound hdescs =>
      refine ⟨g, .missing g.recorded (h.serves.closed hm) hnone hone fun _ => Or.inl rfl, ?_, ?_, h.untimed⟩
      · rintro error ⟨⟩
        exact ⟨rfl, rfl⟩
      · exact @Serves.step _ _ _ { store := st', replies := g.replies } h.serves hsound hdescs
          (fun ht => absurd ht h.untimed) rfl
  | failed _ hm hsound hkept hfails =>
      rcases hfails with hfails | hfails
      · cases hfails
      · cases hfails

theorem Carries.act (h : Carries g st) (scanUs stampUs : Nat) (action : Act) (hallowed : deskAllowed g action)
    (hroom : RoomFor (onTime scanUs stampUs) st action) :
    ∃ after, plainAnswers g action (execAct (onTime scanUs stampUs) action st).1 after ∧
      Carries after (execAct (onTime scanUs stampUs) action st).2 := by
  have hother : CalmAct (fun _ => 0) { store := st, replies := g.replies } action →
      execAct (onTime 0 0) action st = execAct (onTime scanUs stampUs) action st →
      ∃ after, deskAnswers g action (execAct (onTime scanUs stampUs) action st).1 after ∧
        Carries after (execAct (onTime scanUs stampUs) action st).2 := by
    intro hcalm hsame
    obtain ⟨after, hanswer, hafter⟩ := h.serves.act action hallowed hcalm
    rw [← hsame]
    have htimed := deskAnswers_timed action _ hanswer
    have huntimed : ¬after.timed := by
      rw [htimed]
      exact h.untimed
    exact ⟨after, hanswer, hafter.untimed huntimed rfl hafter.replies.symm, huntimed⟩
  cases action with
  | prepareFile key mode =>
      obtain ⟨after, hanswer, hkept, hafter⟩ := h.prepare scanUs stampUs hallowed hroom
      exact ⟨after, ⟨hanswer, hkept⟩, hafter⟩
  | releaseDesc dt =>
      obtain ⟨after, hanswer, hafter⟩ := hother trivial rfl
      exact ⟨after, ⟨hanswer, trivial⟩, hafter⟩
  | descLength dt =>
      obtain ⟨after, hanswer, hafter⟩ := hother trivial rfl
      exact ⟨after, ⟨hanswer, trivial⟩, hafter⟩
  | readFrom dt size offset =>
      obtain ⟨after, hanswer, hafter⟩ := hother trivial rfl
      exact ⟨after, ⟨hanswer, trivial⟩, hafter⟩
  | writeTo dt buf offset =>
      obtain ⟨after, hanswer, hafter⟩ := hother trivial rfl
      exact ⟨after, ⟨hanswer, trivial⟩, hafter⟩
  | posixMemalign =>
      obtain ⟨after, hanswer, hafter⟩ := hother trivial rfl
      exact ⟨after, ⟨hanswer, trivial⟩, hafter⟩
  | reply text len =>
      obtain ⟨after, hanswer, hafter⟩ := hother trivial rfl
      exact ⟨after, ⟨hanswer, trivial⟩, hafter⟩

theorem carries_initFile (disk : Contents) :
    Carries ⟨disk, fun _ => none, fun _ => 0, fun _ => 0, [], False⟩ (initFile disk) := by
  have h := serves_initFile (fun _ => 0) disk 0 []
  refine ⟨⟨h.sound, h.recorded, h.refs, h.held, False.elim, rfl⟩, id⟩

end Carries

end Solidbits
