import Solidbits.Lib.Prog
import Solidbits.Lib.Run

-- A pool of programs over one shared state. A label names the program that
-- moves and what the surroundings choose for that action.
structure Thread (Act : Type) (Res : Act → Type) (α γ : Type) where
  prog : Prog Act Res α
  ghost : γ

structure Pool (ι σ : Type) (Act : Type) (Res : Act → Type) (α γ : Type) where
  shared : σ
  threads : ι → Thread Act Res α γ

namespace Pool

section Step

variable {ι σ ω γ α Act : Type} {Res : Act → Type} [DecidableEq ι]
variable (exec : ω → (action : Act) → σ → Res action × σ)
variable (record : σ → γ → (action : Act) → Res action → γ)

-- The thread's own part of an action: it receives the answer and the ghost
-- state notes it, together with the shared state the action left.
def advance (exec : ω → (action : Act) → σ → Res action × σ)
    (record : σ → γ → (action : Act) → Res action → γ)
    (shared : σ) (choice : ω) (ghost : γ) (action : Act) (next : Res action → Prog Act Res α) :
    Thread Act Res α γ :=
  ⟨next (exec choice action shared).1,
    record (exec choice action shared).2 ghost action (exec choice action shared).1⟩

def step (pool : Pool ι σ Act Res α γ) (label : ι × ω) : Pool ι σ Act Res α γ :=
  match (pool.threads label.1).prog with
  | .ret _ => pool
  | .act action next =>
      { shared := (exec label.2 action pool.shared).2
        threads := Function.update pool.threads label.1
          (advance exec record pool.shared label.2 (pool.threads label.1).ghost action next) }

def start (shared : σ) (ghost : γ) (progs : ι → Prog Act Res α) : Pool ι σ Act Res α γ :=
  ⟨shared, fun i => ⟨progs i, ghost⟩⟩

theorem step_ret {pool : Pool ι σ Act Res α γ} {label : ι × ω} {value : α}
    (h : (pool.threads label.1).prog = .ret value) : step exec record pool label = pool := by
  simp only [step, h]

theorem step_act {pool : Pool ι σ Act Res α γ} {label : ι × ω} {action : Act}
    {next : Res action → Prog Act Res α} (h : (pool.threads label.1).prog = .act action next) :
    step exec record pool label =
      { shared := (exec label.2 action pool.shared).2
        threads := Function.update pool.threads label.1
          (advance exec record pool.shared label.2 (pool.threads label.1).ghost action next) } := by
  simp only [step, h]

-- A step is either idle or one action of the named thread.
theorem step_cases (pool : Pool ι σ Act Res α γ) (label : ι × ω) :
    step exec record pool label = pool ∨
    ∃ action next, (pool.threads label.1).prog = .act action next ∧
      step exec record pool label =
        { shared := (exec label.2 action pool.shared).2
          threads := Function.update pool.threads label.1
            (advance exec record pool.shared label.2 (pool.threads label.1).ghost action next) } := by
  cases h : (pool.threads label.1).prog with
  | ret value => exact Or.inl (step_ret exec record h)
  | act action next => exact Or.inr ⟨action, next, rfl, step_act exec record h⟩

def Verified (contract : Prog.Contract Act Res γ) (post : γ → α → Prop)
    (pool : Pool ι σ Act Res α γ) : Prop :=
  ∀ i, (pool.threads i).prog.wp contract post (pool.threads i).ghost

-- The rest of every program stays within its contract as long as the shared
-- state answers within it.
theorem Verified.step {contract : Prog.Contract Act Res γ} {post : γ → α → Prop}
    {pool : Pool ι σ Act Res α γ} (hv : pool.Verified contract post) (label : ι × ω)
    (hanswer : ∀ action next, (pool.threads label.1).prog = .act action next →
      contract.answers (pool.threads label.1).ghost action (exec label.2 action pool.shared).1
        (record (exec label.2 action pool.shared).2 (pool.threads label.1).ghost action
          (exec label.2 action pool.shared).1)) :
    (Pool.step exec record pool label).Verified contract post := by
  rcases step_cases exec record pool label with he | ⟨action, next, hp, he⟩
  · rw [he]; exact hv
  · rw [he]
    intro i
    by_cases hi : i = label.1
    · subst hi
      have hw := hv label.1
      rw [hp] at hw
      simp only [Function.update_self]
      exact hw.2 _ _ (hanswer action next hp)
    · simp only [Function.update_of_ne hi]
      exact hv i

end Step

section Assign

variable {ι σ γ α Act : Type} {Res : Act → Type} [DecidableEq ι]

-- A thread that is given a new program.
def assign (pool : Pool ι σ Act Res α γ) (i : ι) (prog : Prog Act Res α) (ghost : γ) : Pool ι σ Act Res α γ :=
  { pool with threads := Function.update pool.threads i ⟨prog, ghost⟩ }

theorem Verified.assign {contract : Prog.Contract Act Res γ} {post : γ → α → Prop}
    {pool : Pool ι σ Act Res α γ} (hv : pool.Verified contract post) (i : ι) {prog : Prog Act Res α}
    {ghost : γ} (hprog : prog.wp contract post ghost) : (pool.assign i prog ghost).Verified contract post := by
  intro other
  by_cases hi : other = i
  · subst hi
    simpa only [Pool.assign, Function.update_self] using hprog
  · simpa only [Pool.assign, Function.update_of_ne hi] using hv other

end Assign

section Rely

variable {ι σ ω γ α Act : Type} {Res : Act → Type} [DecidableEq ι]
variable {exec : ω → (action : Act) → σ → Res action × σ}
variable {record : σ → γ → (action : Act) → Res action → γ}

-- Every program keeps to the contract, its ghost state is true of the shared
-- state, and the shared state has an invariant.
structure Guarded (contract : Prog.Contract Act Res γ) (post : ι → γ → α → Prop) (true_of : γ → σ → Prop)
    (invariant : σ → Prop) (pool : Pool ι σ Act Res α γ) : Prop where
  shared : invariant pool.shared
  ghosts : ∀ i, true_of (pool.threads i).ghost pool.shared
  verified : ∀ i, (pool.threads i).prog.wp contract (post i) (pool.threads i).ghost

-- An action that is answered within the contract, keeps the invariant and leaves
-- true what other programs know disturbs nobody.
theorem Guarded.step {contract : Prog.Contract Act Res γ} {post : ι → γ → α → Prop} {true_of : γ → σ → Prop}
    {invariant : σ → Prop} {pool : Pool ι σ Act Res α γ} (h : pool.Guarded contract post true_of invariant)
    (label : ι × ω)
    (hact : ∀ ghost action, invariant pool.shared → true_of ghost pool.shared → contract.allowed ghost action →
      contract.answers ghost action (exec label.2 action pool.shared).1
        (record (exec label.2 action pool.shared).2 ghost action (exec label.2 action pool.shared).1) ∧
      true_of (record (exec label.2 action pool.shared).2 ghost action (exec label.2 action pool.shared).1)
        (exec label.2 action pool.shared).2 ∧
      invariant (exec label.2 action pool.shared).2 ∧
      ∀ other, true_of other pool.shared → true_of other (exec label.2 action pool.shared).2) :
    (Pool.step exec record pool label).Guarded contract post true_of invariant := by
  rcases step_cases exec record pool label with he | ⟨action, next, hp, he⟩
  · rw [he]
    exact h
  · have hwp := h.verified label.1
    rw [hp] at hwp
    obtain ⟨hanswer, hmine, hshared, hothers⟩ := hact _ action h.shared (h.ghosts label.1) hwp.1
    rw [he]
    refine ⟨hshared, ?_, ?_⟩
    · exact (Function.forall_update_iff pool.threads fun _ thread => true_of thread.ghost _).mpr
        ⟨hmine, fun other _ => hothers _ (h.ghosts other)⟩
    · exact (Function.forall_update_iff pool.threads fun other thread =>
        thread.prog.wp contract (post other) thread.ghost).mpr ⟨hwp.2 _ _ hanswer, fun other _ => h.verified other⟩

end Rely

end Pool
