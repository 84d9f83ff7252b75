import Solidbits.Lib.Prog
import Mathlib.Data.Multiset.AddSub

namespace Heap

section Programs

-- A block is known by the call that made it.
abbrev Ptr := Nat

def NULL : Ptr := 0

-- What a program does to the heap. An access is any use of what is in a block.
inductive Act where
  | malloc
  | realloc (p : Ptr)
  | free (p : Ptr)
  | access (p : Ptr)

abbrev Res : Act → Type
  | .malloc => Option Ptr
  | .realloc _ => Option Ptr
  | .free _ => Unit
  | .access _ => Unit

end Programs

abbrev Mem := Prog Act Res

section Programs

abbrev malloc : Mem (Option Ptr) := Prog.ask Act.malloc

abbrev realloc (p : Ptr) : Mem (Option Ptr) := Prog.ask (Act.realloc p)

abbrev free (p : Ptr) : Mem Unit := Prog.ask (Act.free p)

abbrev access (p : Ptr) : Mem Unit := Prog.ask (Act.access p)

end Programs

section Runs

structure State where
  live : List Ptr := []
  calls : Nat := 0
  faults : Nat := 0

-- A new block, unless this call fails.
def State.grant (fails : Nat → Bool) (s : State) (live : List Ptr) : Option Ptr × State :=
  if fails s.calls then (none, { s with calls := s.calls + 1 })
  else (some (s.calls + 1), { s with live := (s.calls + 1) :: live, calls := s.calls + 1 })

-- A block that is not live is neither used nor freed: each try is a fault.
def handle (fails : Nat → Bool) : (action : Act) → State → Res action × State
  | .malloc, s => s.grant fails s.live
  | .realloc p, s =>
      if p ∈ s.live then s.grant fails (s.live.erase p) else (none, { s with faults := s.faults + 1 })
  | .free p, s =>
      ((), if p ∈ s.live then { s with live := s.live.erase p } else { s with faults := s.faults + 1 })
  | .access p, s => ((), if p ∈ s.live then s else { s with faults := s.faults + 1 })

end Runs

section Ownership

-- The ghost state is what the program owns.
def allowed (own : Multiset Ptr) : Act → Prop
  | .malloc => True
  | .realloc p => p ∈ own
  | .free p => p ∈ own
  | .access p => p ∈ own

-- Whether there may be no more memory is part of the contract.
def granted (scarce : Prop) (own rest : Multiset Ptr) : Option Ptr → Multiset Ptr → Prop
  | none, after => scarce ∧ after = own
  | some p, after => p ∉ own ∧ after = p ::ₘ rest

def answers (scarce : Prop) (own : Multiset Ptr) : (action : Act) → Res action → Multiset Ptr → Prop
  | .malloc, answer, after => granted scarce own own answer after
  | .realloc p, answer, after => granted scarce own (own.erase p) answer after
  | .free p, _, after => after = own.erase p
  | .access _, _, after => after = own

def contract (scarce : Prop) : Prog.Contract Act Res (Multiset Ptr) where
  allowed := allowed
  answers := answers scarce

-- The blocks that are live are those that are owned, and no fault has happened.
structure Clean (own : Multiset Ptr) (s : State) : Prop where
  owned : own = s.live
  nodup : s.live.Nodup
  older : ∀ p ∈ s.live, p ≠ NULL ∧ p ≤ s.calls
  faults : s.faults = 0

variable {scarce : Prop} {own frame rest after : Multiset Ptr} {s : State} {p : Ptr} {fails : Nat → Bool}

theorem clean_start : Clean 0 {} := ⟨rfl, List.nodup_nil, fun _ hp => absurd hp (by simp), rfl⟩

theorem Clean.mem_iff (h : Clean own s) : p ∈ own ↔ p ∈ s.live := by
  rw [h.owned, Multiset.mem_coe]

theorem Clean.grant (h : Clean own s) (hscarce : ∀ n, fails n = true → scarce) {live : List Ptr}
    (hsub : live.Sublist s.live) :
    ∃ after, granted scarce own live (s.grant fails live).1 after ∧ Clean after (s.grant fails live).2 := by
  unfold State.grant
  split
  · rename_i hfails
    refine ⟨own, ⟨hscarce _ hfails, rfl⟩, h.owned, h.nodup, fun p hp => ?_, h.faults⟩
    exact ⟨(h.older p hp).1, Nat.le_succ_of_le (h.older p hp).2⟩
  · have hnew : s.calls + 1 ∉ s.live := fun hm => Nat.not_succ_le_self _ (h.older _ hm).2
    refine ⟨_, ⟨fun hm => hnew (h.mem_iff.mp hm), rfl⟩, rfl, ?_, ?_, h.faults⟩
    · exact List.nodup_cons.mpr ⟨fun hm => hnew (hsub.subset hm), h.nodup.sublist hsub⟩
    · intro p hp
      rcases List.mem_cons.mp hp with rfl | hp
      · exact ⟨Nat.succ_ne_zero _, Nat.le_refl _⟩
      · exact ⟨(h.older p (hsub.subset hp)).1, Nat.le_succ_of_le (h.older p (hsub.subset hp)).2⟩

theorem Clean.handle (h : Clean own s) (hscarce : ∀ n, fails n = true → scarce) {action : Act}
    (hallowed : allowed own action) :
    ∃ after, answers scarce own action (handle fails action s).1 after ∧ Clean after (handle fails action s).2 := by
  cases action with
  | malloc =>
      have hgrant := h.grant hscarce (List.Sublist.refl s.live)
      rwa [← h.owned] at hgrant
  | realloc p =>
      have hgrant := h.grant hscarce (@List.erase_sublist _ _ p s.live)
      rw [← Multiset.coe_erase, ← h.owned] at hgrant
      simp only [Heap.handle, if_pos (h.mem_iff.mp hallowed)]
      exact hgrant
  | free p =>
      simp only [Heap.handle, if_pos (h.mem_iff.mp hallowed)]
      refine ⟨_, rfl, ?_, h.nodup.sublist List.erase_sublist, ?_, h.faults⟩
      · rw [h.owned, Multiset.coe_erase]
      · exact fun q hq => h.older q (List.mem_of_mem_erase hq)
  | access p =>
      simp only [Heap.handle, if_pos (h.mem_iff.mp hallowed)]
      exact ⟨own, rfl, h⟩

-- A program that keeps to what it owns leaves a clean heap.
theorem exec_clean {α : Type} {post : Multiset Ptr → α → Prop} {prog : Mem α} (fails : Nat → Bool)
    (hprog : prog.wp (contract True) post own) (h : Clean own s) :
    ∃ after, post after (prog.exec (handle fails) s).1 ∧ Clean after (prog.exec (handle fails) s).2 :=
  Prog.wp_exec (fun _ _ _ hclean hallowed _ => hclean.handle (fun _ _ => True.intro) hallowed) hprog h
    ((Prog.Only.of_true prog).along (fun _ _ _ => True.intro) s)

-- The rule of the frame: blocks of others are left alone.
theorem wp_frame {α : Type} {post : Multiset Ptr → α → Prop} {prog : Mem α}
    (h : prog.wp (contract scarce) post own) :
    prog.wp (contract scarce) (fun after value => ∃ mine, after = mine + frame ∧ post mine value) (own + frame) := by
  refine Prog.wp_transfer (fun mine all => all = mine + frame) ?_ ?_ ?_ rfl h
  · rintro mine _ action rfl hallowed
    cases action with
    | malloc => trivial
    | realloc p => exact Multiset.mem_add.mpr (Or.inl hallowed)
    | free p => exact Multiset.mem_add.mpr (Or.inl hallowed)
    | access p => exact Multiset.mem_add.mpr (Or.inl hallowed)
  · rintro mine _ action answer after rfl hallowed hanswer
    have hgranted : ∀ {rest : Multiset Ptr} {answer : Option Ptr},
        granted scarce (mine + frame) (rest + frame) answer after →
        ∃ mine', granted scarce mine rest answer mine' ∧ after = mine' + frame := by
      rintro rest (_ | p) hgranted
      · exact ⟨mine, ⟨hgranted.1, rfl⟩, hgranted.2⟩
      · refine ⟨p ::ₘ rest, ⟨fun hm => hgranted.1 (Multiset.mem_add.mpr (Or.inl hm)), rfl⟩, ?_⟩
        rw [hgranted.2, Multiset.cons_add]
    cases action with
    | malloc => exact hgranted hanswer
    | realloc p =>
        change granted scarce (mine + frame) ((mine + frame).erase p) answer after at hanswer
        rw [Multiset.erase_add_left_pos _ hallowed] at hanswer
        exact hgranted hanswer
    | free p =>
        refine ⟨mine.erase p, rfl, ?_⟩
        rw [show after = (mine + frame).erase p from hanswer, Multiset.erase_add_left_pos _ hallowed]
    | access p => exact ⟨mine, rfl, hanswer⟩
  · exact fun mine all value hall hpost => ⟨mine, hall, hpost⟩

end Ownership

section Rules

variable {scarce : Prop} {α : Type} {post : Multiset Ptr → α → Prop} {own rest : Multiset Ptr} {p : Ptr}

theorem wp_malloc {next : Option Ptr → Mem α} (hnone : scarce → (next none).wp (contract scarce) post own)
    (hsome : ∀ p, (next (some p)).wp (contract scarce) post (p ::ₘ own)) : (malloc >>= next).wp (contract scarce) post own := by
  refine (Prog.wp_ask (contract scarce) post Act.malloc next own).mpr ⟨True.intro, ?_⟩
  rintro (_ | p) after hanswer
  · rw [hanswer.2]
    exact hnone hanswer.1
  · rw [hanswer.2]
    exact hsome p

theorem wp_realloc {next : Option Ptr → Mem α} (hown : own = p ::ₘ rest) (hnone : scarce → (next none).wp (contract scarce) post own)
    (hsome : ∀ q, (next (some q)).wp (contract scarce) post (q ::ₘ rest)) :
    (realloc p >>= next).wp (contract scarce) post own := by
  have hp : p ∈ own := hown ▸ Multiset.mem_cons_self p rest
  refine (Prog.wp_ask (contract scarce) post (Act.realloc p) next own).mpr ⟨hp, ?_⟩
  rintro (_ | q) after hanswer
  · rw [hanswer.2]
    exact hnone hanswer.1
  · have hafter : after = q ::ₘ rest := by
      rw [hanswer.2, hown, Multiset.erase_cons_head]
    rw [hafter]
    exact hsome q

theorem wp_free {next : Unit → Mem α} (hown : own = p ::ₘ rest) (hnext : (next ()).wp (contract scarce) post rest) :
    (free p >>= next).wp (contract scarce) post own := by
  have hp : p ∈ own := hown ▸ Multiset.mem_cons_self p rest
  refine (Prog.wp_ask (contract scarce) post (Act.free p) next own).mpr ⟨hp, ?_⟩
  intro _ after hanswer
  have hafter : after = rest := by
    rw [show after = own.erase p from hanswer, hown, Multiset.erase_cons_head]
  rw [hafter]
  exact hnext

theorem wp_free_ret {post : Multiset Ptr → Unit → Prop} (hown : own = p ::ₘ rest) (hpost : post rest ()) :
    (free p).wp (contract scarce) post own := by
  rw [← Prog.bind_ret (free p)]
  exact wp_free hown hpost

theorem wp_access {next : Unit → Mem α} (hp : p ∈ own) (hnext : (next ()).wp (contract scarce) post own) :
    (access p >>= next).wp (contract scarce) post own := by
  refine (Prog.wp_ask (contract scarce) post (Act.access p) next own).mpr ⟨hp, ?_⟩
  intro _ after hanswer
  rw [show after = own from hanswer]
  exact hnext

end Rules

end Heap
