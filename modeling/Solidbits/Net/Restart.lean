import Solidbits.Net.Isolation

namespace Solidbits

open Prog Transition

section Shutdown

variable {ι : Type} [DecidableEq ι] {own : ι → UInt64 → Prop} {disk : Contents}

-- on_sigterm closes the files and stops the loop. The process ends, and the next
-- one finds what is on disk. The flush of any descriptor may fail.
def Service.onSigterm (fails : Slot → Bool) (service : Service ι) : Contents :=
  (closeFiles fails service.workers.shared).fs.disk

omit [DecidableEq ι] in
-- Whenever SIGTERM comes, the files of a connection without a request at its
-- worker are those of the plain map.
theorem Service.Divided.onSigterm {service : Service ι} {g : Desk} {desks : ι → Desk}
    (h : service.Divided own disk g desks) {i : ι} (hidle : (service.conns i).works = []) {hash : UInt64}
    (hown : own i hash) : service.onSigterm (fun _ => false) hash = plainMap hashed disk (service.conns i).lines hash := by
  have hsession := h.sessions i
  have hdone := hsession.done (hsession.rests hidle)
  have hclosed : service.onSigterm (fun _ => false) = g.files := Sound.closeFiles h.carried.serves.sound
  calc service.onSigterm (fun _ => false) hash
      = g.files hash := by rw [hclosed]
    _ = (desks i).files hash := (h.shared.files i hash hown).symm
    _ = plainMap hashed disk (service.conns i).lines hash := congrFun hdone.files hash

theorem admitted_run {moves : List (Move ι)}
    (hadmits : AllSteps Service.next (Service.Admits own) (Service.start disk) moves) :
    AllStates Service.next (fun service => ∀ i, ∀ line ∈ (service.conns i).lines, Admitted own i line)
      (Service.start disk) moves :=
  allStates_of_invariant Service.next _ (fun _ _ _ hfits => hfits) (fun _ _ hm => absurd hm List.not_mem_nil) hadmits

end Shutdown

section Lives

variable {ι : Type} [DecidableEq ι] {own : ι → UInt64 → Prop}

-- The server is started, runs, and is stopped, one life after the other: the
-- files it leaves, and the lines that each connection has had.
def afterLives (disk : Contents) (lives : List (List (Move ι))) : Contents :=
  lives.foldl (fun disk moves => (run Service.next (Service.start disk) moves).onSigterm fun _ => false) disk

def linesOf (disk : Contents) (i : ι) : List (List (Move ι)) → List Bytes
  | [] => []
  | moves :: lives =>
      ((run Service.next (Service.start disk) moves).conns i).lines ++
        linesOf ((run Service.next (Service.start disk) moves).onSigterm fun _ => false) i lives

-- Every life ends when no request is at its worker, and the files are all flushed.
def Orderly (own : ι → UInt64 → Prop) (disk : Contents) : List (List (Move ι)) → Prop
  | [] => True
  | moves :: lives =>
      AllSteps Service.next (Service.Admits own) (Service.start disk) moves ∧
        AllSteps Service.next Service.Undisturbed (Service.start disk) moves ∧
        (∀ i, ((run Service.next (Service.start disk) moves).conns i).works = []) ∧
        Orderly own ((run Service.next (Service.start disk) moves).onSigterm fun _ => false) lives

theorem linesOf_admitted {disk : Contents} {lives : List (List (Move ι))} (h : Orderly own disk lives) (i : ι) :
    ∀ line ∈ linesOf disk i lives, Admitted own i line := by
  induction lives generalizing disk with
  | nil => exact fun _ hm => absurd hm List.not_mem_nil
  | cons moves lives ih =>
      intro line hm
      rcases List.mem_append.mp hm with hm | hm
      · have hlast := (admitted_run h.1).last
        exact hlast i line hm
      · exact ih h.2.2.2 line hm

-- The files of a connection are those of the plain map after all its lines.
theorem afterLives_plain (hapart : Apart own) {disk : Contents} {lives : List (List (Move ι))}
    (h : Orderly own disk lives) {i : ι} {key : Bytes} (hown : own i (hashed key)) :
    afterLives disk lives (hashed key) = plainMap hashed disk (linesOf disk i lives) (hashed key) := by
  induction lives generalizing disk with
  | nil => simp only [afterLives, linesOf, plainMap, List.foldl_nil]
  | cons moves lives ih =>
      obtain ⟨hadmits, hcalm, hidle, hrest⟩ := h
      obtain ⟨g, desks, hdivided⟩ := (divided_run hapart hadmits hcalm).last
      have hlines := fun line hm => (linesOf_admitted hrest i line hm).2
      rw [afterLives, List.foldl_cons, ← afterLives, ih hrest, linesOf, plainMap_append]
      exact (plain_agree hashed (fun key => own i (hashed key)) (fun key hk => hdivided.onSigterm (hidle i) hk)
        hlines).2 key hown

-- No connection can tell from its replies that the server was stopped and
-- started again: they go on as from one plain map.
theorem restarts_unnoticed (hapart : Apart own) (disk : Contents) (lives : List (List (Move ι)))
    (horderly : Orderly own disk lives) (moves : List (Move ι))
    (hadmits : AllSteps Service.next (Service.Admits own) (Service.start (afterLives disk lives)) moves)
    (hcalm : AllSteps Service.next Service.Undisturbed (Service.start (afterLives disk lives)) moves) :
    AllStates Service.next
      (fun service => ∀ i, (service.conns i).closing = false →
        (service.conns i).answered.map Prod.snd =
          plainReplies hashed (plainMap hashed disk (linesOf disk i lives))
            ((service.conns i).answered.map Prod.fst) ∧
        (service.conns i).written = ((service.conns i).answered.map Prod.snd).flatten)
      (Service.start (afterLives disk lives)) moves := by
  obtain ⟨g, hstart⟩ := divided_start own (afterLives disk lives)
  have hrun := allStates_of_invariant Service.next
    (fun service => (∃ g desks, service.Divided own (afterLives disk lives) g desks) ∧
      ∀ i, ∀ line ∈ (service.conns i).lines, Admitted own i line)
    (fun service move h hgood => by
      obtain ⟨⟨g, desks, hdivided⟩, _⟩ := h
      exact ⟨hdivided.next hapart hgood.1 hgood.2, hgood.1⟩)
    ⟨⟨g, _, hstart⟩, fun _ _ hm => absurd hm List.not_mem_nil⟩
    (hadmits.and Service.next hcalm)
  refine hrun.mono Service.next ?_
  rintro service ⟨⟨g, desks, hdivided⟩, hadmitted⟩ i hopen
  obtain ⟨hlines, hreplies⟩ := (hdivided.sessions i).answered hopen
  refine ⟨hreplies.trans ?_, (hdivided.ordered i).written⟩
  refine (plain_agree hashed (fun key => own i (hashed key)) (fun key hk => afterLives_plain hapart horderly hk) ?_).1
  intro line hm
  refine (hadmitted i line ?_).2
  rw [show (service.conns i).lines = _ from hlines.symm]
  exact List.mem_append_left _ hm

-- A bit that was set before a restart is still there behind it.
theorem restarts_unnoticed_one_bit :
    let set : List (Move Unit) := [.read () (str "SETBIT a 0 1\n") false false, .act () {}, .act () {}, .act () {},
      .act () {}, .act () {}, .afterWork () false, .onWrite () 0 false]
    let get : List (Move Unit) := [.read () (str "GETBIT a 0\n") false false, .act () {}, .act () {}, .act () {},
      .act () {}, .act () {}, .afterWork () false, .onWrite () 0 false]
    ((run Service.next (Service.start (afterLives (fun _ => none) [set])) get).conns ()).answered.map Prod.snd =
      [str "1\n"] := by
  intro set get
  have hapart : Apart fun (_ : Unit) (_ : UInt64) => True := fun _ _ _ _ _ => rfl
  have horderly : Orderly (fun _ _ => True) (fun _ => none) [set] := by
    refine ⟨?_, ?_, ?_, trivial⟩ <;> decide +kernel
  let start : Service Unit := Service.start (afterLives (fun _ => none) [set])
  obtain ⟨hadmits, hcalm, hopen, hplain⟩ :
      AllSteps Service.next (Service.Admits fun _ _ => True) start get ∧
        AllSteps Service.next Service.Undisturbed start get ∧
        ((run Service.next start get).conns ()).closing = false ∧
        plainReplies hashed (plainMap hashed (fun _ => none) (linesOf (fun _ => none) () [set]))
          (((run Service.next start get).conns ()).answered.map Prod.fst) = [str "1\n"] := by
    decide +kernel
  have h := (restarts_unnoticed hapart (fun _ => none) [set] horderly get hadmits hcalm).last
  exact (h () hopen).1.trans hplain

end Lives

end Solidbits
