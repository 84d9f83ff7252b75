import Mathlib.Logic.Basic
import Mathlib.Logic.Function.Basic

-- A program that acts on its surroundings: it has returned, or it asks for one
-- action and continues with the answer. Every action is atomic.
inductive Prog (Act : Type) (Res : Act → Type) (α : Type) where
  | ret (value : α)
  | act (action : Act) (next : Res action → Prog Act Res α)

namespace Prog

section Monad

variable {Act : Type} {Res : Act → Type} {α β κ : Type}

def bind : Prog Act Res α → (α → Prog Act Res β) → Prog Act Res β
  | .ret value, f => f value
  | .act action next, f => .act action fun answer => (next answer).bind f

instance : Monad (Prog Act Res) where
  pure := .ret
  bind := bind

def ask (action : Act) : Prog Act Res (Res action) :=
  .act action .ret

def Finished : Prog Act Res α → Prop
  | .ret _ => True
  | .act _ _ => False

def returned : Prog Act Res α → Option α
  | .ret value => some value
  | .act _ _ => none

theorem eq_ret_of_returned {prog : Prog Act Res α} {value : α} (h : prog.returned = some value) :
    prog = .ret value := by
  cases prog with
  | ret other => exact congrArg Prog.ret (Option.some.inj h)
  | act action next => cases h

instance : (prog : Prog Act Res α) → Decidable prog.Finished
  | .ret _ => isTrue trivial
  | .act _ _ => isFalse id

@[simp] theorem pure_eq (value : α) : (pure value : Prog Act Res α) = .ret value := rfl

@[simp] theorem ret_bind (value : α) (f : α → Prog Act Res β) :
    (Prog.ret value : Prog Act Res α) >>= f = f value := rfl

@[simp] theorem act_bind (action : Act) (next : Res action → Prog Act Res α)
    (f : α → Prog Act Res β) :
    Prog.act action next >>= f = .act action fun answer => next answer >>= f := rfl

@[simp] theorem ask_bind (action : Act) (f : Res action → Prog Act Res β) :
    (ask action : Prog Act Res (Res action)) >>= f = .act action f := rfl

theorem bind_assoc (prog : Prog Act Res α) (f : α → Prog Act Res β) (g : β → Prog Act Res κ) :
    prog >>= f >>= g = prog >>= fun value => f value >>= g := by
  induction prog with
  | ret value => rfl
  | act action next ih => exact congrArg (Prog.act action) (funext ih)

theorem bind_ret (prog : Prog Act Res α) : prog >>= Prog.ret = prog := by
  induction prog with
  | ret value => rfl
  | act action next ih => exact congrArg (Prog.act action) (funext ih)

instance : LawfulMonad (Prog Act Res) :=
  LawfulMonad.mk' (Prog Act Res) bind_ret (fun _ _ => rfl) bind_assoc

end Monad

section Serial

variable {Act : Type} {Res : Act → Type} {α β σ : Type}

-- Running a program alone: each action is answered by the handler.
def exec (handle : (action : Act) → σ → Res action × σ) : Prog Act Res α → σ → α × σ
  | .ret value, state => (value, state)
  | .act action next, state =>
      (next (handle action state).1).exec handle (handle action state).2

variable (handle : (action : Act) → σ → Res action × σ)

@[simp] theorem exec_ret (value : α) (state : σ) :
    (Prog.ret value : Prog Act Res α).exec handle state = (value, state) := rfl

@[simp] theorem exec_act (action : Act) (next : Res action → Prog Act Res α) (state : σ) :
    (Prog.act action next).exec handle state =
      (next (handle action state).1).exec handle (handle action state).2 := rfl

-- Every action of a serial run is good, judged on the state before it.
def Along (handle : (action : Act) → σ → Res action × σ) (good : σ → Act → Prop) :
    Prog Act Res α → σ → Prop
  | .ret _, _ => True
  | .act action next, state =>
      good state action ∧ (next (handle action state).1).Along handle good (handle action state).2

def decideAlong {handle : (action : Act) → σ → Res action × σ} {good : σ → Act → Prop}
    [∀ state action, Decidable (good state action)] :
    (prog : Prog Act Res α) → (state : σ) → Decidable (prog.Along handle good state)
  | .ret _, _ => isTrue trivial
  | .act _ next, _ => @instDecidableAnd _ _ _ (decideAlong (next _) _)

instance {handle : (action : Act) → σ → Res action × σ} {good : σ → Act → Prop}
    [∀ state action, Decidable (good state action)] (prog : Prog Act Res α) (state : σ) :
    Decidable (prog.Along handle good state) :=
  decideAlong prog state

-- What every action keeps exactly if it is good, holds in the end exactly if all
-- actions were good.
theorem exec_iff_along {handle : (action : Act) → σ → Res action × σ} {good : σ → Act → Prop} {holds : σ → Prop}
    (hstep : ∀ state action, holds (handle action state).2 ↔ holds state ∧ good state action)
    (prog : Prog Act Res α) (state : σ) :
    holds (prog.exec handle state).2 ↔ holds state ∧ prog.Along handle good state := by
  induction prog generalizing state with
  | ret value => exact (and_iff_left True.intro).symm
  | act action next ih =>
      refine (ih _ _).trans ?_
      rw [hstep, and_assoc]
      rfl

end Serial

section Only

variable {Act : Type} {Res : Act → Type} {α β : Type} {p : Act → Prop} {post : α → Prop}

-- All actions of a program are of a kind and all its results have a property,
-- whatever it is answered.
def Only (p : Act → Prop) (post : α → Prop) : Prog Act Res α → Prop
  | .ret value => post value
  | .act action next => p action ∧ ∀ answer, (next answer).Only p post

theorem only_ask {action : Act} {f : Res action → Prog Act Res α} (ha : p action)
    (hf : ∀ answer, (f answer).Only p post) : ((ask action : Prog Act Res _) >>= f).Only p post :=
  ⟨ha, hf⟩

theorem only_bind {middle : β → Prop} {prog : Prog Act Res β} {f : β → Prog Act Res α}
    (hp : prog.Only p middle) (hf : ∀ value, middle value → (f value).Only p post) :
    (prog >>= f).Only p post := by
  induction prog with
  | ret value => exact hf value hp
  | act action next ih => exact ⟨hp.1, fun answer => ih answer (hp.2 answer)⟩

theorem Only.mono {q : Act → Prop} {weaker : α → Prop} (hpq : ∀ action, p action → q action)
    (hw : ∀ value, post value → weaker value) {prog : Prog Act Res α} (h : prog.Only p post) :
    prog.Only q weaker := by
  induction prog with
  | ret value => exact hw value h
  | act action next ih => exact ⟨hpq action h.1, fun answer => ih answer (h.2 answer)⟩

theorem Only.of_true (prog : Prog Act Res α) : prog.Only (fun _ => True) fun _ => True := by
  induction prog with
  | ret value => trivial
  | act action next ih => exact ⟨trivial, ih⟩

theorem Only.along {σ : Type} {handle : (action : Act) → σ → Res action × σ} {good : σ → Act → Prop}
    (hgood : ∀ state action, p action → good state action) {prog : Prog Act Res α} (h : prog.Only p post)
    (state : σ) : prog.Along handle good state := by
  induction prog generalizing state with
  | ret value => trivial
  | act action next ih => exact ⟨hgood state action h.1, ih _ (h.2 _) _⟩

end Only

-- What a program may ask for and what it may be answered, with a ghost state
-- that remembers the past of the program.
structure Contract (Act : Type) (Res : Act → Type) (γ : Type) where
  allowed : γ → Act → Prop
  answers : γ → (action : Act) → Res action → γ → Prop

section Wp

variable {Act : Type} {Res : Act → Type} {α β γ : Type}

-- The program keeps to the contract whatever it is answered, and returns with
-- the postcondition.
def wp (contract : Contract Act Res γ) (post : γ → α → Prop) : Prog Act Res α → γ → Prop
  | .ret value, ghost => post ghost value
  | .act action next, ghost =>
      contract.allowed ghost action ∧ ∀ answer after,
        contract.answers ghost action answer after → (next answer).wp contract post after

variable {contract : Contract Act Res γ}

@[simp] theorem wp_ret (post : γ → α → Prop) (value : α) (ghost : γ) :
    (Prog.ret value : Prog Act Res α).wp contract post ghost ↔ post ghost value := Iff.rfl

@[simp] theorem wp_act (post : γ → α → Prop) (action : Act) (next : Res action → Prog Act Res α)
    (ghost : γ) :
    (Prog.act action next).wp contract post ghost ↔
      contract.allowed ghost action ∧ ∀ answer after,
        contract.answers ghost action answer after → (next answer).wp contract post after :=
  Iff.rfl

variable (contract) in
theorem wp_ask (post : γ → α → Prop) (action : Act) (f : Res action → Prog Act Res α) (ghost : γ) :
    ((ask action : Prog Act Res (Res action)) >>= f).wp contract post ghost ↔
      contract.allowed ghost action ∧ ∀ answer after,
        contract.answers ghost action answer after → (f answer).wp contract post after :=
  Iff.rfl

theorem wp_mono {post weaker : γ → α → Prop} (hw : ∀ ghost value, post ghost value → weaker ghost value)
    {prog : Prog Act Res α} {ghost : γ} (h : prog.wp contract post ghost) :
    prog.wp contract weaker ghost := by
  induction prog generalizing ghost with
  | ret value => exact hw _ _ h
  | act action next ih => exact ⟨h.1, fun answer after ha => ih answer (h.2 answer after ha)⟩

theorem wp_bind (post : γ → β → Prop) (prog : Prog Act Res α) (f : α → Prog Act Res β) (ghost : γ) :
    (prog >>= f).wp contract post ghost ↔
      prog.wp contract (fun after value => (f value).wp contract post after) ghost := by
  induction prog generalizing ghost with
  | ret value => exact Iff.rfl
  | act action next ih =>
      exact and_congr_right fun _ => forall_congr' fun answer => forall_congr' fun after =>
        imp_congr_right fun _ => ih answer after

theorem wp_seq {middle : γ → α → Prop} {post : γ → β → Prop} {prog : Prog Act Res α}
    {f : α → Prog Act Res β} {ghost : γ} (hprog : prog.wp contract middle ghost)
    (hrest : ∀ after value, middle after value → (f value).wp contract post after) :
    (prog >>= f).wp contract post ghost :=
  (wp_bind post prog f ghost).mpr (wp_mono hrest hprog)

-- A program whose actions are all of a kind keeps to the contract that allows
-- only that kind.
def Contract.restrict (contract : Contract Act Res γ) (p : Act → Prop) : Contract Act Res γ where
  allowed := fun ghost action => contract.allowed ghost action ∧ p action
  answers := contract.answers

theorem wp_restrict {p : Act → Prop} {kept : α → Prop} {post : γ → α → Prop} {prog : Prog Act Res α} {ghost : γ}
    (hwp : prog.wp contract post ghost) (honly : prog.Only p kept) :
    prog.wp (contract.restrict p) post ghost := by
  induction prog generalizing ghost with
  | ret value => exact hwp
  | act action next ih =>
      exact ⟨⟨hwp.1, honly.1⟩, fun answer after ha => ih answer (hwp.2 answer after ha) (honly.2 answer)⟩

-- Two contracts at once, each with its own ghost state.
def Contract.both {δ : Type} (contract : Contract Act Res γ) (other : Contract Act Res δ) :
    Contract Act Res (γ × δ) where
  allowed := fun ghost action => contract.allowed ghost.1 action ∧ other.allowed ghost.2 action
  answers := fun ghost action answer after =>
    contract.answers ghost.1 action answer after.1 ∧ other.answers ghost.2 action answer after.2

theorem wp_both {δ : Type} {other : Contract Act Res δ} {post : γ → α → Prop} {post' : δ → α → Prop}
    {prog : Prog Act Res α} {ghost : γ} {ghost' : δ} (hwp : prog.wp contract post ghost)
    (hother : prog.wp other post' ghost') :
    prog.wp (contract.both other) (fun after value => post after.1 value ∧ post' after.2 value) (ghost, ghost') := by
  induction prog generalizing ghost ghost' with
  | ret value => exact ⟨hwp, hother⟩
  | act action next ih =>
      refine ⟨⟨hwp.1, hother.1⟩, ?_⟩
      rintro answer ⟨after, after'⟩ ⟨ha, ha'⟩
      exact ih answer (hwp.2 answer after ha) (hother.2 answer after' ha')

-- The contract that allows everything; that a program keeps to the other one can
-- be proved apart.
def Contract.free (contract : Contract Act Res γ) : Contract Act Res γ where
  allowed := fun _ _ => True
  answers := contract.answers

theorem wp_of_free {other post : γ → α → Prop} {prog : Prog Act Res α} {ghost : γ}
    (hallowed : prog.wp contract other ghost) (hfree : prog.wp contract.free post ghost) :
    prog.wp contract post ghost := by
  induction prog generalizing ghost with
  | ret value => exact hfree
  | act action next ih =>
      exact ⟨hallowed.1, fun answer after ha => ih answer (hallowed.2 answer after ha) (hfree.2 answer after ha)⟩

-- What every action of a kind does to the ghost state, a program of that kind
-- does too.
theorem wp_of_only {p : Act → Prop} {kept : α → Prop} (related : γ → γ → Prop)
    (hrefl : ∀ ghost, related ghost ghost)
    (htrans : ∀ ghost middle after, related ghost middle → related middle after → related ghost after)
    (hstep : ∀ ghost action answer after, p action → contract.answers ghost action answer after →
      related ghost after)
    {prog : Prog Act Res α} {ghost : γ} (h : prog.Only p kept) :
    prog.wp contract.free (fun after value => related ghost after ∧ kept value) ghost := by
  induction prog generalizing ghost with
  | ret value => exact ⟨hrefl ghost, h⟩
  | act action next ih =>
      refine ⟨True.intro, fun answer middle ha => ?_⟩
      have hfirst := hstep ghost action answer middle h.1 ha
      exact wp_mono (fun after _ hlast => ⟨htrans ghost middle after hfirst hlast.1, hlast.2⟩)
        (ih answer (h.2 answer))

-- What is proved against one contract holds against another that allows as much
-- and answers no more, as the ghost states correspond.
theorem wp_transfer {δ : Type} {contract' : Contract Act Res δ} (related : γ → δ → Prop)
    (hallowed : ∀ ghost ghost' action, related ghost ghost' → contract.allowed ghost action →
      contract'.allowed ghost' action)
    (hanswers : ∀ ghost ghost' action answer after', related ghost ghost' →
      contract.allowed ghost action → contract'.answers ghost' action answer after' →
      ∃ after, contract.answers ghost action answer after ∧ related after after')
    {post : γ → α → Prop} {post' : δ → α → Prop}
    (hpost : ∀ ghost ghost' value, related ghost ghost' → post ghost value → post' ghost' value)
    {prog : Prog Act Res α} {ghost : γ} {ghost' : δ} (hrelated : related ghost ghost')
    (hwp : prog.wp contract post ghost) : prog.wp contract' post' ghost' := by
  induction prog generalizing ghost ghost' with
  | ret value => exact hpost _ _ value hrelated hwp
  | act action next ih =>
      refine ⟨hallowed _ _ action hrelated hwp.1, ?_⟩
      intro answer after' ha'
      obtain ⟨after, ha, hafter⟩ := hanswers _ _ action answer after' hrelated hwp.1 ha'
      exact ih answer hafter (hwp.2 answer after ha)

-- The results and final ghost states that answers within the contract lead to.
inductive Outcome (contract : Contract Act Res γ) : Prog Act Res α → γ → α → γ → Prop
  | ret (value : α) (ghost : γ) : Outcome contract (.ret value) ghost value ghost
  | act {action : Act} {next : Res action → Prog Act Res α} {ghost middle after : γ} {value : α}
      (answer : Res action) (hanswer : contract.answers ghost action answer middle)
      (hrest : Outcome contract (next answer) middle value after) :
      Outcome contract (.act action next) ghost value after

theorem wp_outcome {post : γ → α → Prop} {prog : Prog Act Res α} {ghost after : γ} {value : α}
    (hwp : prog.wp contract post ghost) (h : Outcome contract prog ghost value after) :
    post after value := by
  induction h with
  | ret value ghost => exact hwp
  | act answer hanswer hrest ih => exact ih (hwp.2 answer _ hanswer)

-- A handler that keeps an invariant and answers within the contract, as long as
-- the actions are good, leaves the program with its postcondition.
theorem wp_exec {σ : Type} {handle : (action : Act) → σ → Res action × σ} {related : γ → σ → Prop}
    {good : σ → Act → Prop}
    (hhandle : ∀ ghost state action, related ghost state → contract.allowed ghost action →
      good state action → ∃ after, contract.answers ghost action (handle action state).1 after ∧
        related after (handle action state).2)
    {post : γ → α → Prop} {prog : Prog Act Res α} {ghost : γ} {state : σ}
    (hwp : prog.wp contract post ghost) (hrelated : related ghost state)
    (hgood : prog.Along handle good state) :
    ∃ after, post after (prog.exec handle state).1 ∧ related after (prog.exec handle state).2 := by
  induction prog generalizing ghost state with
  | ret value => exact ⟨ghost, hwp, hrelated⟩
  | act action next ih =>
      obtain ⟨after, hans, hafter⟩ := hhandle ghost state action hrelated hwp.1 hgood.1
      exact ih _ (hwp.2 _ after hans) hafter hgood.2

-- What follows from being allowed and good holds at every action.
theorem wp_along_good {σ : Type} {handle : (action : Act) → σ → Res action × σ} {related : γ → σ → Prop}
    {good kept : σ → Act → Prop}
    (hhandle : ∀ ghost state action, related ghost state → contract.allowed ghost action →
      good state action → ∃ after, contract.answers ghost action (handle action state).1 after ∧
        related after (handle action state).2)
    (hkept : ∀ ghost state action, related ghost state → contract.allowed ghost action →
      good state action → kept state action)
    {post : γ → α → Prop} {prog : Prog Act Res α} {ghost : γ} {state : σ}
    (hwp : prog.wp contract post ghost) (hrelated : related ghost state)
    (hgood : prog.Along handle good state) : prog.Along handle kept state := by
  induction prog generalizing ghost state with
  | ret value => trivial
  | act action next ih =>
      obtain ⟨after, hans, hafter⟩ := hhandle ghost state action hrelated hwp.1 hgood.1
      exact ⟨hkept ghost state action hrelated hwp.1 hgood.1, ih _ (hwp.2 _ after hans) hafter hgood.2⟩

-- What follows from being allowed holds at every action.
theorem wp_along {σ : Type} {handle : (action : Act) → σ → Res action × σ} {related : γ → σ → Prop}
    {good : σ → Act → Prop}
    (hhandle : ∀ ghost state action, related ghost state → contract.allowed ghost action →
      ∃ after, contract.answers ghost action (handle action state).1 after ∧
        related after (handle action state).2)
    (hgood : ∀ ghost state action, related ghost state → contract.allowed ghost action →
      good state action)
    {post : γ → α → Prop} {prog : Prog Act Res α} {ghost : γ} {state : σ}
    (hwp : prog.wp contract post ghost) (hrelated : related ghost state) :
    prog.Along handle good state :=
  wp_along_good (fun ghost state action hr ha _ => hhandle ghost state action hr ha)
    (fun ghost state action hr ha _ => hgood ghost state action hr ha) hwp hrelated
    ((Only.of_true prog).along (fun _ _ _ => True.intro) state)

end Wp

end Prog
