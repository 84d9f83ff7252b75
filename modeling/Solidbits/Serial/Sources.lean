import Solidbits.Serial.Bitop

namespace Solidbits

open Prog

section Discipline

variable {g : Desk}

-- Every descriptor of a list is held as often as the list mentions it.
def Desk.Covers (g : Desk) (descs : List (Option Slot)) : Prop :=
  ∀ slot, descs.count (some slot) ≤ g.pins slot

def Desk.unpinAll (g : Desk) : List (Option Slot) → Desk
  | [] => g
  | none :: descs => g.unpinAll descs
  | some dt :: descs => (g.unpin dt).unpinAll descs

@[simp] theorem unpinAll_files (g : Desk) (descs : List (Option Slot)) : (g.unpinAll descs).files = g.files := by
  fun_induction Desk.unpinAll g descs <;> simp_all [Desk.unpin]

@[simp] theorem unpinAll_recorded (g : Desk) (descs : List (Option Slot)) :
    (g.unpinAll descs).recorded = g.recorded := by
  fun_induction Desk.unpinAll g descs <;> simp_all [Desk.unpin]

@[simp] theorem unpinAll_replies (g : Desk) (descs : List (Option Slot)) :
    (g.unpinAll descs).replies = g.replies := by
  fun_induction Desk.unpinAll g descs <;> simp_all [Desk.unpin]

theorem Desk.Covers.held {descs : List (Option Slot)} (h : g.Covers descs) :
    Held (fun dt => 0 < g.pins dt) descs := by
  intro dt hm
  exact Nat.lt_of_lt_of_le (List.count_pos_iff.mpr hm) (h dt)

theorem wp_releaseAllDescs {descs : List (Option Slot)} (h : g.Covers descs) {post : Desk → Unit → Prop}
    (hpost : post (g.unpinAll descs) ()) : (releaseAllDescs descs).wp deskContract post g := by
  induction descs generalizing g with
  | nil => exact hpost
  | cons first descs ih =>
      cases first with
      | none =>
          apply ih
          · intro slot
            have hslot := h slot
            rwa [List.count_cons_of_ne (by simp)] at hslot
          · exact hpost
      | some dt =>
          have hdt := h dt
          rw [List.count_cons_self] at hdt
          apply wp_releaseDesc (by omega)
          apply ih
          · intro slot
            have hslot := h slot
            by_cases hs : slot = dt
            · subst hs
              simp only [Desk.unpin, Function.update_self]
              omega
            · simp only [Desk.unpin, Function.update_of_ne hs]
              rwa [List.count_cons_of_ne (by simpa using fun he => hs he.symm)] at hslot
          · exact hpost

end Discipline

section Sources

variable {g after last : Desk} {hash : UInt64} {keys : List Bytes} {dts : List (Option Slot)}

-- A descriptor that is held has its length recorded.
def Desk.Open (g : Desk) : Prop := ∀ slot, 0 < g.pins slot → g.recorded (g.hash slot) ≠ none

-- What opening sources leaves alone: the files, the replies, and everything
-- about the descriptors already held. A length is recorded anew only from the
-- file itself.
structure Kept (g after : Desk) : Prop where
  files : after.files = g.files
  replies : after.replies = g.replies
  pins : ∀ slot, g.pins slot ≤ after.pins slot
  hash : ∀ slot, 0 < g.pins slot → after.hash slot = g.hash slot
  recorded : ∀ slot, 0 < g.pins slot → after.recorded (g.hash slot) = g.recorded (g.hash slot)
  lengths : ∀ hash length, after.recorded hash = some length →
    g.recorded hash = some length ∨ length = g.files.length hash
  opened : after.Open

theorem Kept.refl (h : g.Open) : Kept g g :=
  ⟨rfl, rfl, fun _ => Nat.le_refl _, fun _ _ => rfl, fun _ _ => rfl, fun _ _ => Or.inl, h⟩

theorem Kept.trans (h : Kept g after) (h' : Kept after last) : Kept g last := by
  have hpin : ∀ slot, 0 < g.pins slot → 0 < after.pins slot :=
    fun slot hp => Nat.lt_of_lt_of_le hp (h.pins slot)
  constructor
  · exact h'.files.trans h.files
  · exact h'.replies.trans h.replies
  · exact fun slot => Nat.le_trans (h.pins slot) (h'.pins slot)
  · exact fun slot hp => (h'.hash slot (hpin slot hp)).trans (h.hash slot hp)
  · intro slot hp
    rw [← h.recorded slot hp, ← h.hash slot hp]
    exact h'.recorded slot (hpin slot hp)
  · intro hash length hlength
    rcases h'.lengths hash length hlength with hlength | hlength
    · exact h.lengths hash length hlength
    · exact Or.inr (by rw [hlength, h.files])
  · exact h'.opened

theorem handed_open (hopen : g.Open) {mode : Nat} {answer : Except OpenError Slot}
    (h : Handed g hash mode answer after) : after.Open := by
  intro other hp
  cases h with
  | found slot hrec hshown hpin =>
      by_cases ho : other = slot
      · subst ho
        simpa [Desk.pin] using hrec
      · simp only [Desk.pin, Function.update_of_ne ho] at hp ⊢
        exact hopen other hp
  | opened slot hclosed hpin hmode =>
      by_cases ho : other = slot
      · subst ho
        simp [Desk.pin, Desk.create]
      · simp only [Desk.pin, Desk.create, Function.update_of_ne ho] at hp ⊢
        rw [Function.update_of_ne]
        · exact hopen other hp
        · intro he
          exact hopen other hp (he ▸ hclosed)
  | missing recorded hclosed hnone hmode hkept =>
      rcases hkept (g.hash other) with hsame | ⟨_, hdropped⟩
      · exact fun hrec => hopen other hp (hsame.symm.trans hrec)
      · exact absurd rfl (hdropped other hp)
  | full hclosed hpinned => exact hopen other hp

-- Opening one source.
theorem handed_source (hopen : g.Open) {answer : Except OpenError Slot} (h : Handed g hash 1 answer after) :
    Kept g after ∧
      ((∃ dt, answer = .ok dt ∧ after.hash dt = hash ∧
          after.pins = Function.update g.pins dt (g.pins dt + 1)) ∨
        (answer = .error .missing ∧ g.files hash = none ∨ answer = .error .failed) ∧
          after.pins = g.pins) := by
  have hafter := handed_open hopen h
  cases h with
  | found slot hrec hshown hpin =>
      have hhash : ∀ other, 0 < g.pins other → (g.pin slot hash).hash other = g.hash other := by
        intro other hp
        simp only [Desk.pin, Function.update_apply]
        split
        · rename_i ho
          rw [ho] at hp ⊢
          exact (hpin hp).symm
        · rfl
      refine ⟨⟨rfl, rfl, ?_, hhash, fun _ _ => rfl, fun _ _ => Or.inl, hafter⟩,
        Or.inl ⟨slot, rfl, ?_, rfl⟩⟩
      · intro other
        simp only [Desk.pin, Function.update_apply]
        split <;> simp_all
      · simp [Desk.pin]
  | opened slot hclosed hpin hmode =>
      have hfiles : g.files.opened hash 1 = g.files := by
        rw [Contents.opened, if_neg]
        rintro (hm | hm)
        · cases hm
        · exact hmode rfl hm
      have hne : ∀ other, 0 < g.pins other → other ≠ slot ∧ g.hash other ≠ hash := by
        intro other hp
        refine ⟨?_, ?_⟩
        · rintro rfl
          omega
        · rintro rfl
          exact hopen other hp hclosed
      refine ⟨⟨hfiles, rfl, ?_, ?_, ?_, ?_, hafter⟩, Or.inl ⟨slot, rfl, ?_, rfl⟩⟩
      · intro other
        simp only [Desk.pin, Desk.create, Function.update_apply]
        split <;> simp_all
      · intro other hp
        simp only [Desk.pin, Desk.create, Function.update_of_ne (hne other hp).1]
      · intro other hp
        simp only [Desk.pin, Desk.create, Function.update_of_ne (hne other hp).2]
      · intro other length hlength
        simp only [Desk.pin, Desk.create, Function.update_apply] at hlength
        split at hlength
        · rename_i ho
          exact Or.inr (by rw [ho, Option.some.inj hlength])
        · exact Or.inl hlength
      · simp [Desk.pin]
  | missing recorded hclosed hnone hmode hkept =>
      refine ⟨⟨rfl, rfl, fun _ => Nat.le_refl _, fun _ _ => rfl, ?_, ?_, hafter⟩,
        Or.inr ⟨Or.inl ⟨rfl, hnone⟩, rfl⟩⟩
      · intro slot hp
        rcases hkept (g.hash slot) with hsame | ⟨_, hdropped⟩
        · exact hsame
        · exact absurd rfl (hdropped slot hp)
      · intro other length hlength
        rcases hkept other with hsame | ⟨hdropped, _⟩
        · exact Or.inl (hsame.symm.trans hlength)
        · cases hdropped.symm.trans hlength
  | full hclosed hpinned => exact ⟨Kept.refl hopen, Or.inr ⟨Or.inr rfl, rfl⟩⟩

-- A source and the descriptor it got, if its file exists.
def Desk.Source (g : Desk) (key : Bytes) : Option Slot → Prop
  | none => g.files (xxh64 (cstr key) 0) = none
  | some dt => g.hash dt = xxh64 (cstr key) 0

-- The state after some sources have been opened.
structure Sourced (g : Desk) (keys : List Bytes) (dts : List (Option Slot)) (after : Desk) : Prop where
  kept : Kept g after
  pins : ∀ slot, after.pins slot = g.pins slot + dts.count (some slot)
  sources : List.Forall₂ after.Source keys dts

theorem Desk.Source.kept {key : Bytes} {dt : Option Slot} (h : g.Source key dt) (hk : Kept g after)
    (hp : ∀ slot, dt = some slot → 0 < g.pins slot) : after.Source key dt := by
  cases dt with
  | none => exact (congrFun hk.files _).trans h
  | some dt => exact (hk.hash dt (hp dt rfl)).trans h

theorem forall₂_mem {α β : Type} {r r' : α → β → Prop} {xs : List α} {ys : List β} (h : List.Forall₂ r xs ys)
    (hr : ∀ x ∈ xs, ∀ y ∈ ys, r x y → r' x y) : List.Forall₂ r' xs ys := by
  induction h with
  | nil => exact List.Forall₂.nil
  | cons hfirst _ ih =>
      refine List.Forall₂.cons (hr _ List.mem_cons_self _ List.mem_cons_self hfirst) (ih ?_)
      exact fun x hx y hy => hr x (List.mem_cons_of_mem _ hx) y (List.mem_cons_of_mem _ hy)

theorem forall₂_right {α β : Type} {r : α → β → Prop} {xs : List α} {ys : List β} (h : List.Forall₂ r xs ys)
    {y : β} (hy : y ∈ ys) : ∃ x ∈ xs, r x y := by
  induction h with
  | nil => cases hy
  | cons hfirst _ ih =>
      rcases List.mem_cons.mp hy with rfl | hy
      · exact ⟨_, List.mem_cons_self, hfirst⟩
      · obtain ⟨x, hx, hr⟩ := ih hy
        exact ⟨x, List.mem_cons_of_mem _ hx, hr⟩

theorem Sourced.step {key : Bytes} (h : Sourced g keys dts after) {answer : Except OpenError Slot}
    (ha : Handed after (xxh64 (cstr key) 0) 1 answer last) :
    (∃ dt, answer = .ok dt ∧ Sourced g (key :: keys) (some dt :: dts) last) ∨
      answer = .error .missing ∧ Sourced g (key :: keys) (none :: dts) last ∨
      answer = .error .failed ∧ Sourced g keys dts last := by
  obtain ⟨hk, hans⟩ := handed_source h.kept.opened ha
  have hsources : List.Forall₂ last.Source keys dts := by
    have hheld : ∀ slot, some slot ∈ dts → 0 < after.pins slot := by
      intro slot hm
      rw [h.pins slot]
      exact Nat.lt_of_lt_of_le (List.count_pos_iff.mpr hm) (Nat.le_add_left _ _)
    refine forall₂_mem h.sources fun key _ dt hm hsource => hsource.kept hk ?_
    rintro slot rfl
    exact hheld slot hm
  have hall := h.kept.trans hk
  rcases hans with ⟨dt, rfl, hhash, hpins⟩ | ⟨hnot, hpins⟩
  · refine Or.inl ⟨dt, rfl, hall, ?_, List.Forall₂.cons hhash hsources⟩
    intro slot
    rw [hpins]
    by_cases hs : slot = dt
    · subst hs
      rw [Function.update_self, h.pins slot, List.count_cons_self]
      omega
    · rw [Function.update_of_ne hs, h.pins slot, List.count_cons_of_ne (by simpa using fun he => hs he.symm)]
  · have hcount : ∀ slot, last.pins slot = g.pins slot + dts.count (some slot) := by
      intro slot
      rw [hpins, h.pins slot]
    rcases hnot with ⟨rfl, hnone⟩ | rfl
    · refine Or.inr (Or.inl ⟨rfl, hall, ?_, List.Forall₂.cons ((congrFun hk.files _).trans hnone) hsources⟩)
      intro slot
      rw [hcount slot, List.count_cons_of_ne (by simp)]
    · exact Or.inr (Or.inr ⟨rfl, hall, hcount, hsources⟩)

theorem wp_prepareFilesLoop {more : List Bytes} (h : Sourced g keys dts after)
    {post : Desk → Option (List (Option Slot)) → Prop}
    (hpost : ∀ dts last, Sourced g (more.reverse ++ keys) dts last → post last (some dts))
    (hfail : ∀ keys dts last, Sourced g keys dts last → post last none) :
    (prepareFilesLoop more dts).wp deskContract post after := by
  induction more generalizing keys dts after with
  | nil => exact hpost dts after h
  | cons key more ih =>
      rw [List.reverse_cons, List.append_assoc] at hpost
      apply wp_prepareFile (by decide)
      intro answer last ha
      rcases h.step ha with ⟨dt, rfl, hnext⟩ | ⟨rfl, hnext⟩ | ⟨rfl, hnext⟩
      · exact ih hnext hpost
      · exact ih hnext hpost
      · exact hfail keys dts last hnext

theorem wp_prepareFiles (hopen : g.Open) {post : Desk → Option (List (Option Slot)) → Prop}
    (hpost : ∀ dts after, Sourced g keys dts after → post after (some dts))
    (hfail : ∀ keys dts after, Sourced g keys dts after → post after none) :
    (prepareFiles keys).wp deskContract post g := by
  have hstart : Sourced g [] [] g := ⟨Kept.refl hopen, fun _ => rfl, List.Forall₂.nil⟩
  apply wp_prepareFilesLoop hstart
  · intro dts last h
    rw [List.reverse_reverse, List.append_nil] at h
    exact hpost dts last h
  · exact hfail

end Sources

end Solidbits
