import Mathlib.Logic.Basic
import Mathlib.Data.List.Basic

namespace Transition

section Run

variable {σ ι : Type} (next : σ → ι → σ)

def run (state : σ) (labels : List ι) : σ :=
  labels.foldl next state

-- Every state of the run has the property, the first and the last included.
def AllStates (property : σ → Prop) : σ → List ι → Prop
  | state, [] => property state
  | state, label :: rest => property state ∧ AllStates property (next state label) rest

-- Every step of the run is good, judged on the label and the state before it.
def AllSteps (good : σ → ι → Prop) : σ → List ι → Prop
  | _, [] => True
  | state, label :: rest => good state label ∧ AllSteps good (next state label) rest

def decideAllSteps {good : σ → ι → Prop} [∀ state label, Decidable (good state label)] :
    (state : σ) → (labels : List ι) → Decidable (AllSteps next good state labels)
  | _, [] => isTrue trivial
  | state, label :: rest => @instDecidableAnd _ _ _ (decideAllSteps (next state label) rest)

instance {good : σ → ι → Prop} [∀ state label, Decidable (good state label)] (state : σ) (labels : List ι) :
    Decidable (AllSteps next good state labels) :=
  decideAllSteps next state labels

@[simp] theorem run_nil (state : σ) : run next state [] = state := rfl

@[simp] theorem run_cons (state : σ) (label : ι) (labels : List ι) :
    run next state (label :: labels) = run next (next state label) labels := rfl

theorem run_append (state : σ) (before after : List ι) :
    run next state (before ++ after) = run next (run next state before) after :=
  List.foldl_append

theorem allSteps_append (good : σ → ι → Prop) (state : σ) (before after : List ι) :
    AllSteps next good state (before ++ after) ↔
      AllSteps next good state before ∧ AllSteps next good (run next state before) after := by
  induction before generalizing state with
  | nil => simp [AllSteps]
  | cons label rest ih => simp only [List.cons_append, AllSteps, ih, run_cons, and_assoc]

-- The states of a run are the end states of its prefixes.
theorem allStates_iff_before (property : σ → Prop) (state : σ) (labels : List ι) :
    AllStates next property state labels ↔
      ∀ before after, labels = before ++ after → property (run next state before) := by
  induction labels generalizing state with
  | nil =>
      constructor
      · intro h before after he
        obtain ⟨rfl, _⟩ := List.append_eq_nil_iff.mp he.symm
        exact h
      · intro h
        exact h [] [] rfl
  | cons label rest ih =>
      constructor
      · rintro ⟨hs, hr⟩ before after he
        cases before with
        | nil => exact hs
        | cons first before =>
            obtain ⟨rfl, hrest⟩ := List.cons.inj he
            exact (ih _).mp hr before after hrest
      · intro h
        refine ⟨h [] _ rfl, (ih _).mpr ?_⟩
        intro before after he
        exact h (label :: before) after (by rw [he]; rfl)

-- The steps of a run, each at the end of the labels before it.
theorem allSteps_iff_before (good : σ → ι → Prop) (state : σ) (labels : List ι) :
    AllSteps next good state labels ↔
      ∀ before label after, labels = before ++ label :: after → good (run next state before) label := by
  induction labels generalizing state with
  | nil => exact iff_of_true True.intro fun before label after he => absurd he (by simp)
  | cons label rest ih =>
      constructor
      · rintro ⟨hs, hr⟩ before other after he
        cases before with
        | nil =>
            obtain ⟨rfl, _⟩ := List.cons.inj he
            exact hs
        | cons first before =>
            obtain ⟨rfl, hrest⟩ := List.cons.inj he
            exact (ih _).mp hr before other after hrest
      · intro h
        refine ⟨h [] label rest rfl, (ih _).mpr ?_⟩
        intro before other after he
        exact h (label :: before) other after (by rw [he]; rfl)

theorem AllStates.last {property : σ → Prop} {state : σ} {labels : List ι}
    (h : AllStates next property state labels) : property (run next state labels) :=
  (allStates_iff_before next property state labels).mp h labels [] (List.append_nil _).symm

theorem AllStates.mono {property weaker : σ → Prop} (hw : ∀ state, property state → weaker state)
    {state : σ} {labels : List ι} (h : AllStates next property state labels) :
    AllStates next weaker state labels := by
  rw [allStates_iff_before] at h ⊢
  exact fun before after he => hw _ (h before after he)

theorem AllSteps.mono {good weaker : σ → ι → Prop}
    (hw : ∀ state label, good state label → weaker state label)
    {state : σ} {labels : List ι} (h : AllSteps next good state labels) :
    AllSteps next weaker state labels := by
  induction labels generalizing state with
  | nil => trivial
  | cons label rest ih => exact ⟨hw _ _ h.1, ih h.2⟩

theorem AllSteps.trivial (state : σ) (labels : List ι) :
    AllSteps next (fun _ _ => True) state labels := by
  induction labels generalizing state with
  | nil => exact True.intro
  | cons label rest ih => exact ⟨True.intro, ih _⟩

theorem AllSteps.and {good other : σ → ι → Prop} {state : σ} {labels : List ι}
    (h : AllSteps next good state labels) (h' : AllSteps next other state labels) :
    AllSteps next (fun state label => good state label ∧ other state label) state labels := by
  induction labels generalizing state with
  | nil => exact True.intro
  | cons label rest ih => exact ⟨⟨h.1, h'.1⟩, ih h.2 h'.2⟩

theorem AllSteps.of_labels {good : ι → Prop} {labels : List ι} (h : ∀ label ∈ labels, good label)
    (state : σ) : AllSteps next (fun _ label => good label) state labels := by
  induction labels generalizing state with
  | nil => exact True.intro
  | cons label rest ih =>
      exact ⟨h label List.mem_cons_self, ih (fun other hm => h other (List.mem_cons_of_mem label hm)) _⟩

-- The induction over a run: what holds at the start and is kept by every good
-- step holds in every state of a run of good steps.
theorem allStates_of_invariant (invariant : σ → Prop) {good : σ → ι → Prop}
    (hstep : ∀ state label, invariant state → good state label → invariant (next state label))
    {state : σ} {labels : List ι} (hstart : invariant state)
    (hgood : AllSteps next good state labels) : AllStates next invariant state labels := by
  induction labels generalizing state with
  | nil => exact hstart
  | cons label rest ih => exact ⟨hstart, ih (hstep _ _ hstart hgood.1) hgood.2⟩

theorem allSteps_of_invariant (invariant : σ → Prop) {good kept : σ → ι → Prop}
    (hstep : ∀ state label, invariant state → good state label → invariant (next state label))
    (hkept : ∀ state label, invariant state → good state label → kept state label)
    {state : σ} {labels : List ι} (hstart : invariant state)
    (hgood : AllSteps next good state labels) : AllSteps next kept state labels := by
  induction labels generalizing state with
  | nil => exact True.intro
  | cons label rest ih =>
      exact ⟨hkept _ _ hstart hgood.1, ih (hstep _ _ hstart hgood.1) hgood.2⟩

theorem run_invariant (invariant : σ → Prop) {good : σ → ι → Prop}
    (hstep : ∀ state label, invariant state → good state label → invariant (next state label))
    {state : σ} {labels : List ι} (hstart : invariant state)
    (hgood : AllSteps next good state labels) : invariant (run next state labels) :=
  (allStates_of_invariant next invariant hstep hstart hgood).last

-- A history that only grows at its end: what it was before each part of the run
-- is the first part of what it is in the end.
theorem run_history {κ : Type} (related : σ → List κ → Prop) {good : σ → ι → Prop}
    (hstep : ∀ state label before, related state before → good state label →
      ∃ more, related (next state label) (before ++ more))
    {state : σ} {labels : List ι} {start : List κ} (hstart : related state start)
    (hgood : AllSteps next good state labels) :
    ∃ more, related (run next state labels) (start ++ more) ∧
      ∀ before after, labels = before ++ after →
        ∃ early late, more = early ++ late ∧ related (run next state before) (start ++ early) := by
  induction labels generalizing state start with
  | nil =>
      refine ⟨[], by rwa [List.append_nil], ?_⟩
      intro before after he
      obtain ⟨rfl, _⟩ := List.append_eq_nil_iff.mp he.symm
      exact ⟨[], [], rfl, by rwa [List.append_nil]⟩
  | cons label rest ih =>
      obtain ⟨first, hfirst⟩ := hstep state label start hstart hgood.1
      obtain ⟨more, hlast, hsplit⟩ := ih hfirst hgood.2
      refine ⟨first ++ more, by rwa [← List.append_assoc], ?_⟩
      intro before after he
      cases before with
      | nil => exact ⟨[], first ++ more, rfl, by rwa [List.append_nil]⟩
      | cons other before =>
          obtain ⟨rfl, hrest⟩ := List.cons.inj he
          obtain ⟨early, late, rfl, hearly⟩ := hsplit before after hrest
          exact ⟨first ++ early, late, by rw [List.append_assoc], by rwa [← List.append_assoc]⟩

-- Two systems that go through related states as long as the steps are good.
theorem run_related {τ : Type} {next' : τ → ι → τ} (related : σ → τ → Prop) {good : σ → ι → Prop}
    (hstep : ∀ state state' label, related state state' → good state label →
      related (next state label) (next' state' label))
    {state : σ} {state' : τ} {labels : List ι} (hstart : related state state')
    (hgood : AllSteps next good state labels) :
    related (run next state labels) (run next' state' labels) := by
  induction labels generalizing state state' with
  | nil => exact hstart
  | cons label rest ih => exact ih (hstep _ _ _ hstart hgood.1) hgood.2

-- What is judged step by step can be judged by another measure that agrees on
-- the steps of a run, as long as the steps before were good.
theorem allSteps_iff (invariant : σ → Prop) {kept admitted good : σ → ι → Prop}
    (hstep : ∀ state label, invariant state → admitted state label → good state label →
      invariant (next state label))
    (hiff : ∀ state label, invariant state → admitted state label → (kept state label ↔ good state label))
    {state : σ} {labels : List ι} (hstart : invariant state)
    (hadmitted : AllSteps next admitted state labels) :
    AllSteps next kept state labels ↔ AllSteps next good state labels := by
  induction labels generalizing state with
  | nil => exact Iff.rfl
  | cons label rest ih =>
      have hhere := hiff _ _ hstart hadmitted.1
      constructor
      · rintro ⟨hkept, hrest⟩
        have hgood := hhere.mp hkept
        exact ⟨hgood, (ih (hstep _ _ hstart hadmitted.1 hgood) hadmitted.2).mp hrest⟩
      · rintro ⟨hgood, hrest⟩
        exact ⟨hhere.mpr hgood, (ih (hstep _ _ hstart hadmitted.1 hgood) hadmitted.2).mpr hrest⟩

-- When a step that is not good breaks the property at once, the property holds
-- throughout a run of admitted steps exactly if all its steps are good.
theorem allStates_iff_allSteps (invariant : σ → Prop) {property : σ → Prop} {admitted good : σ → ι → Prop}
    (hproperty : ∀ state, invariant state → property state)
    (hstep : ∀ state label, invariant state → admitted state label → good state label →
      invariant (next state label))
    (hbreak : ∀ state label, invariant state → admitted state label → ¬good state label →
      ¬property (next state label))
    {state : σ} {labels : List ι} (hstart : invariant state)
    (hadmitted : AllSteps next admitted state labels) :
    AllStates next property state labels ↔ AllSteps next good state labels := by
  induction labels generalizing state with
  | nil => exact iff_of_true (hproperty state hstart) True.intro
  | cons label rest ih =>
      constructor
      · intro h
        have hnext : property (next state label) := by
          cases rest with
          | nil => exact h.2
          | cons _ _ => exact h.2.1
        have hgood : good state label := by
          by_contra hn
          exact hbreak state label hstart hadmitted.1 hn hnext
        exact ⟨hgood, (ih (hstep _ _ hstart hadmitted.1 hgood) hadmitted.2).mp h.2⟩
      · intro h
        have hrest := (ih (hstep _ _ hstart hadmitted.1 h.1) hadmitted.2).mpr h.2
        exact ⟨hproperty state hstart, hrest⟩

end Run

end Transition
