import Solidbits.Serial.Bitop

namespace Solidbits

open Prog

section Backing

-- A command that runs by itself, without failures.
def Cmd.alone {α : Type} (prog : Cmd α) (st : Store) : α × Store := prog.exec (execAct {}) st

-- Descriptors that are open, each on a path of its own.
structure Store.Opened (st : Store) (m : Contents) (held : Slot → Prop) : Prop where
  shown : Shows st.fs m
  opened : ∀ slot, held slot →
    ∃ n, (st.descs slot).fd = some n ∧ st.fs.names n = some (st.hashOf slot, false)
  apart : ∀ slot other, held slot → held other → st.hashOf slot = st.hashOf other → slot = other

-- The store holds what a command sees.
structure Backs (g : Desk) (st : Store) : Prop where
  opened : st.Opened g.files fun slot => 0 < g.pins slot
  hash : ∀ slot, 0 < g.pins slot → st.hashOf slot = g.hash slot
  length : ∀ slot, 0 < g.pins slot → (st.descs slot).length = g.length slot

variable {g : Desk} {st st' : Store} {m : Contents} {held : Slot → Prop} {slot : Slot}

theorem Sound.openedOn (h : Sound st m) (hlive : ∀ slot, held slot → st.live slot) : st.Opened m held := by
  refine ⟨h.shown, fun slot hs => h.opened slot (hlive slot hs), ?_⟩
  exact fun slot other hs ho he => h.distinct (hlive slot hs) (hlive other ho) he

theorem Store.Opened.mono (h : st.Opened m held) {fewer : Slot → Prop}
    (hfewer : ∀ slot, fewer slot → held slot) : st.Opened m fewer :=
  ⟨h.shown, fun slot hs => h.opened slot (hfewer slot hs),
    fun slot other hs ho => h.apart slot other (hfewer slot hs) (hfewer other ho)⟩

-- An access keeps every descriptor open on its path.
theorem Store.Opened.congr (h : st.Opened m held) {m' : Contents} (hshown : Shows st'.fs m')
    (hnames : st'.fs.names = st.fs.names) (hfd : ∀ slot, (st'.descs slot).fd = (st.descs slot).fd)
    (hhash : ∀ slot, st'.hashOf slot = st.hashOf slot) : st'.Opened m' held := by
  refine ⟨hshown, ?_, ?_⟩
  · intro slot hs
    rw [hfd, hnames, hhash]
    exact h.opened slot hs
  · intro slot other hs ho
    rw [hhash, hhash]
    exact h.apart slot other hs ho

theorem Backs.sameDescs (h : Backs g st) (hshown : Shows st'.fs g.files)
    (hnames : st'.fs.names = st.fs.names) (hdescs : st'.descs = st.descs) : Backs g st' := by
  have hhash : ∀ slot, st'.hashOf slot = st.hashOf slot := by
    intro slot
    rw [Store.hashOf, hdescs]
    rfl
  refine ⟨h.opened.congr hshown hnames (fun slot => by rw [hdescs]) hhash, ?_, ?_⟩
  · intro slot hs
    rw [hhash]
    exact h.hash slot hs
  · intro slot hs
    rw [hdescs]
    exact h.length slot hs

theorem Backs.write (h : Backs g st) (hp : 0 < g.pins slot) {buf : Bytes} {offset : Nat} {fs : Fs}
    (hshown : Shows fs (Function.update g.files (g.hash slot)
      (some (Padded.overwrite (g.content slot) offset buf))))
    (hnames : fs.names = st.fs.names) :
    Backs (g.write slot offset buf)
      (st.wrote fs slot (max (st.descs slot).length (offset + buf.length))) := by
  have hhash : ∀ other, (st.wrote fs slot (max (st.descs slot).length (offset + buf.length))).hashOf other =
      st.hashOf other := congrFun (wrote_sameLinks st fs slot _).hash
  have hfd : ∀ other, ((st.wrote fs slot (max (st.descs slot).length (offset + buf.length))).descs other).fd =
      (st.descs other).fd := by
    intro other
    by_cases ho : other = slot
    · rw [ho, wrote_self]
    · rw [wrote_of_ne _ _ _ ho]
  refine ⟨h.opened.congr hshown hnames hfd hhash, ?_, ?_⟩
  · intro other hs
    rw [hhash]
    exact h.hash other hs
  · intro other hs
    show _ = (((g.write slot offset buf).recorded (g.hash other)).getD 0)
    by_cases ho : other = slot
    · rw [ho, wrote_self, h.length slot hp]
      simp only [Desk.write, Function.update_self, Option.getD_some]
    · have hne : g.hash other ≠ g.hash slot := by
        rw [← h.hash other hs, ← h.hash slot hp]
        exact fun he => ho (h.opened.apart other slot hs hp he)
      rw [wrote_of_ne _ _ _ ho, h.length other hs]
      simp only [Desk.write, Function.update_of_ne hne]
      rfl

-- The store answers every access as the contract says.
theorem Backs.act (h : Backs g st) (action : Act) (hallowed : deskAllowed g action)
    (haccess : Accesses (fun _ => True) action) :
    ∃ after, deskAnswers g action (execAct {} action st).1 after ∧ Backs after (execAct {} action st).2 := by
  cases action with
  | descLength dt => exact ⟨g, ⟨h.length dt hallowed, rfl⟩, h⟩
  | readFrom dt size offset =>
      obtain ⟨n, hfd, hn⟩ := h.opened.opened dt hallowed
      rw [h.hash dt hallowed] at hn
      by_cases ho : 0 ≤ offset
      · obtain ⟨fs, hread, hshown, hnames⟩ := h.opened.shown.readFrom 0 0 hfd hn size offset.toNat
        rw [Int.toNat_of_nonneg ho] at hread
        rw [show execAct {} (.readFrom dt size offset) st = _ from hread]
        exact ⟨g, ⟨fun _ => rfl, rfl⟩, h.sameDescs hshown hnames rfl⟩
      · obtain ⟨data, fs, hread, hshown, hnames⟩ :=
          h.opened.shown.readFrom_negative 0 0 hfd hn size (Int.not_le.mp ho)
        rw [show execAct {} (.readFrom dt size offset) st = _ from hread]
        exact ⟨g, ⟨fun hpos => absurd hpos ho, rfl⟩, h.sameDescs hshown hnames rfl⟩
  | writeTo dt buf offset =>
      have hp : 0 < g.pins dt := hallowed
      obtain ⟨n, hfd, hn⟩ := h.opened.opened dt hp
      rw [h.hash dt hp] at hn
      by_cases ho : offset < 0
      · obtain ⟨fs, hwrite, hshown, hnames⟩ := h.opened.shown.writeTo_negative 0 0 hfd hn buf ho
        rw [show execAct {} (.writeTo dt buf offset) st = _ from hwrite]
        refine ⟨g, ?_, h.sameDescs hshown hnames rfl⟩
        simp only [deskAnswers, ho, ite_true, and_self]
      · obtain ⟨fs, hwrite, hshown, hnames⟩ := h.opened.shown.writeTo 0 0 hfd hn buf offset.toNat
        rw [Int.toNat_of_nonneg (Int.not_lt.mp ho)] at hwrite
        rw [show execAct {} (.writeTo dt buf offset) st = _ from hwrite]
        refine ⟨g.write dt offset.toNat buf, ?_, h.write hp hshown hnames⟩
        simp only [deskAnswers, ho, ite_false, and_self]
  | posixMemalign => exact ⟨g, ⟨rfl, rfl⟩, h⟩
  | prepareFile key mode => exact haccess.elim
  | releaseDesc dt => exact haccess.elim
  | reply text len => exact haccess.elim

-- What the contract promises of a command that only accesses descriptors.
theorem Backs.alone {α : Type} {post : Desk → α → Prop} {prog : Cmd α} (h : Backs g st)
    (hwp : prog.wp deskContract post g) (honly : prog.Only (Accesses fun _ => True) fun _ => True) :
    ∃ after, post after (prog.alone st).1 ∧ Backs after (prog.alone st).2 := by
  refine wp_exec (fun _ _ action h hallowed haccess => h.act action hallowed haccess) hwp h ?_
  exact honly.along (fun _ _ haccess => haccess) st

-- What a command sees when it holds some descriptors.
noncomputable def Store.desk (st : Store) (m : Contents) (held : Slot → Prop) : Desk where
  files := m
  recorded := fun hash =>
    open Classical in
    if h : ∃ slot, held slot ∧ st.hashOf slot = hash then some (st.descs h.choose).length else none
  hash := st.hashOf
  pins := fun slot => open Classical in if held slot then 1 else 0
  replies := []
  timed := False

theorem Store.Opened.pinned (hs : held slot) : 0 < (st.desk m held).pins slot := by
  simp [Store.desk, hs]

theorem Store.Opened.held_of_pinned (hp : 0 < (st.desk m held).pins slot) : held slot := by
  by_contra hs
  simp [Store.desk, hs] at hp

theorem Store.Opened.desk_length (h : st.Opened m held) (hs : held slot) :
    (st.desk m held).length slot = (st.descs slot).length := by
  have hex : ∃ other, held other ∧ st.hashOf other = st.hashOf slot := ⟨slot, hs, rfl⟩
  have hsame := h.apart _ _ hex.choose_spec.1 hs hex.choose_spec.2
  simp only [Store.desk, Desk.length, hex, dite_true, Option.getD_some, hsame]

theorem Store.Opened.backs (h : st.Opened m held) : Backs (st.desk m held) st := by
  refine ⟨⟨h.shown, ?_, ?_⟩, fun _ _ => rfl, ?_⟩
  · exact fun slot hp => h.opened slot (held_of_pinned hp)
  · exact fun slot other hp hp' => h.apart slot other (held_of_pinned hp) (held_of_pinned hp')
  · exact fun slot hp => (h.desk_length (held_of_pinned hp)).symm

end Backing

end Solidbits
