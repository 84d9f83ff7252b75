import Solidbits.Parser.Defs
import Solidbits.File.Sound

namespace Solidbits

section Server

-- A server that executes one request after the other, without failures, with
-- the readings of its clock and the replies so far.
structure Server where
  store : Store
  tick : Nat := 0
  replies : List Bytes := []

def replied : Act → List Bytes
  | .reply s len => [s.take len]
  | _ => []

def Server.act (clock : Nat → Nat) (action : Act) (s : Server) : Res action × Server :=
  let (answer, store) := execAct (onTime (clock s.tick) (clock (s.tick + 1))) action s.store
  (answer, { store := store, tick := s.tick + 2, replies := s.replies ++ replied action })

def Server.serve (clock : Nat → Nat) (s : Server) (line : Bytes) : Server :=
  ((parseAndExecute line).exec (Server.act clock) s).2

def Server.start (disk : Contents) : Server := { store := initFile disk }

-- No action of a request creates a descriptor without a free one and an empty
-- bucket.
def CalmAct (clock : Nat → Nat) (s : Server) : Act → Prop
  | .prepareFile key mode =>
      CalmOpen (onTime (clock s.tick) (clock (s.tick + 1))) s.store (xxh64 key 0) mode
  | _ => True

def Calm (clock : Nat → Nat) (s : Server) (line : Bytes) : Prop :=
  (parseAndExecute line).Along (Server.act clock) (CalmAct clock) s

instance (clock : Nat → Nat) (s : Server) (action : Act) : Decidable (CalmAct clock s action) :=
  match action with
  | .prepareFile _ _ => inferInstanceAs (Decidable (CalmOpen _ _ _ _))
  | .releaseDesc _ => isTrue trivial
  | .descLength _ => isTrue trivial
  | .readFrom _ _ _ => isTrue trivial
  | .writeTo _ _ _ => isTrue trivial
  | .posixMemalign => isTrue trivial
  | .reply _ _ => isTrue trivial

instance (clock : Nat → Nat) (s : Server) (line : Bytes) : Decidable (Calm clock s line) :=
  inferInstanceAs (Decidable (Prog.Along _ _ _ _))

end Server

section Desk

-- What a request sees of the server: what the paths show, the lengths recorded
-- for those that are open, the descriptors it holds, and the replies; and
-- whether it may rely on the clock.
structure Desk where
  files : Contents
  recorded : UInt64 → Option Nat
  hash : Slot → UInt64
  pins : Slot → Nat
  replies : List Bytes
  timed : Prop

def Desk.pin (g : Desk) (slot : Slot) (hash : UInt64) : Desk :=
  { g with
    hash := Function.update g.hash slot hash
    pins := Function.update g.pins slot (g.pins slot + 1) }

def Desk.unpin (g : Desk) (slot : Slot) : Desk :=
  { g with pins := Function.update g.pins slot (g.pins slot - 1) }

def Desk.content (g : Desk) (slot : Slot) : Bytes := (g.files (g.hash slot)).getD []

def Desk.length (g : Desk) (slot : Slot) : Nat := (g.recorded (g.hash slot)).getD 0

def Desk.create (g : Desk) (hash : UInt64) (mode : Nat) : Desk :=
  { g with
    files := g.files.opened hash mode
    recorded := Function.update g.recorded hash (some (g.files.length hash)) }

def Desk.write (g : Desk) (slot : Slot) (offset : Nat) (buf : Bytes) : Desk :=
  { g with
    files := Function.update g.files (g.hash slot) (some (Padded.overwrite (g.content slot) offset buf))
    recorded := Function.update g.recorded (g.hash slot) (some (max (g.length slot) (offset + buf.length))) }

def Desk.reply (g : Desk) (text : Bytes) : Desk := { g with replies := g.replies ++ [text] }

-- The answers of prepare_file. A missing file may cost another file its
-- descriptor, though none that is held.
inductive Handed (g : Desk) (hash : UInt64) (mode : Nat) : Except OpenError Slot → Desk → Prop
  | found (slot : Slot) (hopen : g.recorded hash ≠ none) (hshown : g.files hash ≠ none) (hpin : 0 < g.pins slot → g.hash slot = hash) :
      Handed g hash mode (.ok slot) (g.pin slot hash)
  | opened (slot : Slot) (hclosed : g.recorded hash = none) (hpin : g.pins slot = 0)
      (hmode : mode = 1 → g.files hash ≠ none) :
      Handed g hash mode (.ok slot) ((g.create hash mode).pin slot hash)
  | missing (recorded : UInt64 → Option Nat) (hclosed : g.recorded hash = none)
      (hnone : g.files hash = none) (hmode : mode = 1)
      (hkept : ∀ other, recorded other = g.recorded other ∨
        recorded other = none ∧ ∀ slot, 0 < g.pins slot → g.hash slot ≠ other) :
      Handed g hash mode (.error .missing) { g with recorded := recorded }
  | full (hclosed : g.recorded hash = none) (hpinned : g.timed → ∃ slot, 0 < g.pins slot) :
      Handed g hash mode (.error .failed) g

def deskAllowed (g : Desk) : Act → Prop
  | .prepareFile _ mode => mode ≤ 2
  | .releaseDesc dt => 0 < g.pins dt
  | .descLength dt => 0 < g.pins dt
  | .readFrom dt _ _ => 0 < g.pins dt
  | .writeTo dt _ _ => 0 < g.pins dt
  | .posixMemalign => True
  | .reply _ _ => True

def deskAnswers (g : Desk) : (action : Act) → Res action → Desk → Prop
  | .prepareFile key mode, answer, g' => Handed g (xxh64 key 0) mode answer g'
  | .releaseDesc dt, _, g' => g' = g.unpin dt
  | .descLength dt, answer, g' => answer = g.length dt ∧ g' = g
  | .readFrom dt size offset, answer, g' =>
      (0 ≤ offset → answer = Received.all (Padded.slice (g.content dt) offset.toNat size)) ∧ g' = g
  | .writeTo dt buf offset, answer, g' =>
      if offset < 0 then answer = 0 ∧ g' = g
      else answer = buf.length ∧ g' = g.write dt offset.toNat buf
  | .posixMemalign, answer, g' => answer = true ∧ g' = g
  | .reply s len, answer, g' => answer = true ∧ g' = g.reply (s.take len)

def deskContract : Prog.Contract Act Res Desk where
  allowed := deskAllowed
  answers := deskAnswers

-- A clock that never shows a time twice, and has passed every last access.
structure Server.Dated (clock : Nat → Nat) (s : Server) : Prop where
  strict : StrictMono clock
  past : ∀ slot, s.store.live slot → (s.store.descs slot).lastAccess < clock s.tick

-- The server keeps to what the request sees, and every held descriptor is
-- pinned as often as the request holds it.
structure Serves (clock : Nat → Nat) (g : Desk) (s : Server) : Prop where
  sound : Sound s.store g.files
  recorded : ∀ hash length, g.recorded hash = some length ↔
    ∃ slot, s.store.live slot ∧ s.store.hashOf slot = hash ∧ (s.store.descs slot).length = length
  refs : ∀ slot, (s.store.descs slot).refs = g.pins slot
  held : ∀ slot, 0 < g.pins slot → s.store.live slot ∧ s.store.hashOf slot = g.hash slot
  dated : g.timed → s.Dated clock
  replies : s.replies = g.replies

end Desk

section Service

variable {clock : Nat → Nat} {g g' : Desk} {s s' : Server} {slot : Slot}

theorem Serves.length (h : Serves clock g s) (hp : 0 < g.pins slot) :
    (s.store.descs slot).length = g.length slot := by
  obtain ⟨hl, hh⟩ := h.held slot hp
  have hrec := (h.recorded (g.hash slot) _).mpr ⟨slot, hl, hh, rfl⟩
  simp only [Desk.length, hrec, Option.getD_some]

theorem Serves.closed (h : Serves clock g s) {hash : UInt64}
    (hm : ∀ slot, s.store.live slot → s.store.hashOf slot ≠ hash) : g.recorded hash = none := by
  cases hrec : g.recorded hash with
  | none => rfl
  | some length =>
      obtain ⟨slot, hl, hh, _⟩ := (h.recorded hash length).mp hrec
      exact absurd hh (hm slot hl)

theorem Serves.unpinned (h : Serves clock g s) (hfree : ¬s.store.live slot) : g.pins slot = 0 := by
  by_contra hp
  exact hfree (h.held slot (Nat.pos_of_ne_zero hp)).1

-- An action that changes nothing but descriptors that are free.
theorem Serves.kept (h : Serves clock g s) (hsound : Sound s'.store g.files)
    (hkept : ∀ slot, s'.store.descs slot = s.store.descs slot ∨ ¬s.store.live slot ∧ ¬s'.store.live slot ∧
      (s'.store.descs slot).refs = (s.store.descs slot).refs)
    (htick : g.timed → s'.tick = s.tick + 2) (hreplies : s'.replies = s.replies) : Serves clock g s' := by
  have hsame : ∀ slot, s.store.live slot ∨ s'.store.live slot → s'.store.descs slot = s.store.descs slot := by
    intro slot hl
    rcases hkept slot with he | ⟨hn, hn', _⟩
    · exact he
    · rcases hl with hl | hl
      · exact absurd hl hn
      · exact absurd hl hn'
  have hlive : ∀ slot, s'.store.live slot ↔ s.store.live slot := by
    intro slot
    constructor
    · intro hl
      have he := hsame slot (Or.inr hl)
      rwa [Store.live, he] at hl
    · intro hl
      rwa [Store.live, hsame slot (Or.inl hl)]
  refine ⟨hsound, ?_, ?_, ?_, ?_, hreplies.trans h.replies⟩
  · intro hash length
    rw [h.recorded hash length]
    refine exists_congr fun slot => ?_
    rw [hlive]
    refine and_congr_right fun hl => ?_
    simp only [Store.hashOf, hsame slot (Or.inl hl)]
  · intro slot
    rw [← h.refs slot]
    rcases hkept slot with he | ⟨_, _, he⟩
    · rw [he]
    · exact he
  · intro slot hp
    obtain ⟨hl, hh⟩ := h.held slot hp
    rw [hlive, Store.hashOf, hsame slot (Or.inl hl)]
    exact ⟨hl, hh⟩
  · intro ht
    have hdated := h.dated ht
    refine ⟨hdated.strict, fun slot hl => ?_⟩
    rw [hsame slot (Or.inr hl), htick ht]
    exact Nat.lt_trans (hdated.past slot ((hlive slot).mp hl)) (hdated.strict (by omega))

-- An action that changes no descriptor.
theorem Serves.step (h : Serves clock g s) (hsound : Sound s'.store g.files)
    (hdescs : s'.store.descs = s.store.descs) (htick : g.timed → s'.tick = s.tick + 2)
    (hreplies : s'.replies = s.replies) : Serves clock g s' :=
  h.kept hsound (fun slot => Or.inl (congrFun hdescs slot)) htick hreplies

-- An action that changes the counters of one live descriptor.
theorem Serves.bookkeep (h : Serves clock g s) (desc : Desc)
    (hl : s.store.live slot) (hh : desc.hash = s.store.hashOf slot) (hn : desc.next = s.store.nextOf slot)
    (hp : desc.prev = s.store.prevOf slot) (hfd : desc.fd = (s.store.descs slot).fd)
    (hlen : desc.length = (s.store.descs slot).length) (hstore : s'.store = s.store.setDesc slot desc)
    (hpast : g.timed → s.Dated clock → desc.lastAccess < clock s'.tick) (htick : g.timed → s'.tick = s.tick + 2)
    (hreplies : s'.replies = s.replies) (hfiles : g'.files = g.files)
    (hrecorded : g'.recorded = g.recorded) (hrefs : desc.refs = g'.pins slot)
    (hpins : ∀ other, other ≠ slot → g'.pins other = g.pins other ∧ g'.hash other = g.hash other)
    (hheld : 0 < g'.pins slot → g'.hash slot = desc.hash) (hreplies' : g'.replies = g.replies)
    (htimed : g'.timed = g.timed) : Serves clock g' s' := by
  have hself : s'.store.descs slot = desc := by rw [hstore, setDesc_self]
  have hother : ∀ other, other ≠ slot → s'.store.descs other = s.store.descs other := by
    intro other ho
    rw [hstore, setDesc_of_ne _ _ ho]
  have hhash : ∀ other, s'.store.hashOf other = s.store.hashOf other := by
    intro other
    by_cases ho : other = slot
    · rw [ho, Store.hashOf, hself, hh]
    · simp only [Store.hashOf, hother other ho]
  have hlive : ∀ other, s'.store.live other ↔ s.store.live other := by
    intro other
    rw [live_iff_hashOf, live_iff_hashOf, hhash]
  have hlength : ∀ other, (s'.store.descs other).length = (s.store.descs other).length := by
    intro other
    by_cases ho : other = slot
    · rw [ho, hself, hlen]
    · rw [hother other ho]
  refine ⟨?_, ?_, ?_, ?_, ?_, by rw [hreplies, hreplies', h.replies]⟩
  · rw [hstore, hfiles]
    exact h.sound.bookkeep hh hn hp hfd hlen
  · intro hash length
    simp only [hrecorded, hlive, hhash, hlength]
    exact h.recorded hash length
  · intro other
    by_cases ho : other = slot
    · rw [ho, hself, hrefs]
    · rw [hother other ho, (hpins other ho).1]
      exact h.refs other
  · intro other hpin
    rw [hlive, hhash]
    by_cases ho : other = slot
    · subst ho
      rw [hheld hpin, hh]
      exact ⟨hl, rfl⟩
    · rw [(hpins other ho).1] at hpin
      rw [(hpins other ho).2]
      exact h.held other hpin
  · intro ht
    rw [htimed] at ht
    have hdated := h.dated ht
    refine ⟨hdated.strict, fun other hlo => ?_⟩
    by_cases ho : other = slot
    · rw [ho, hself]
      exact hpast ht hdated
    · rw [hother other ho, htick ht]
      exact Nat.lt_trans (hdated.past other ((hlive other).mp hlo)) (hdated.strict (by omega))

theorem Serves.write (h : Serves clock g s) (hp : 0 < g.pins slot)
    {buf : Bytes} {offset : Nat} {fs : Fs}
    (hsound : Sound (s.store.wrote fs slot (max (s.store.descs slot).length (offset + buf.length)))
      (Function.update g.files (s.store.hashOf slot)
        (some (Padded.overwrite ((g.files (s.store.hashOf slot)).getD []) offset buf))))
    (hstore : s'.store = s.store.wrote fs slot (max (s.store.descs slot).length (offset + buf.length)))
    (htick : g.timed → s'.tick = s.tick + 2) (hreplies : s'.replies = s.replies) :
    Serves clock (g.write slot offset buf) s' := by
  obtain ⟨hl, hh⟩ := h.held slot hp
  have hlen := h.length hp
  have hself : s'.store.descs slot =
      { s.store.descs slot with length := max (g.length slot) (offset + buf.length) } := by
    rw [hstore, wrote_self, hlen]
  have hother : ∀ other, other ≠ slot → s'.store.descs other = s.store.descs other := by
    intro other ho
    rw [hstore, wrote_of_ne _ _ _ ho]
  have hhash : ∀ other, s'.store.hashOf other = s.store.hashOf other := by
    intro other
    by_cases ho : other = slot
    · rw [ho, Store.hashOf, hself]
      rfl
    · simp only [Store.hashOf, hother other ho]
  have hlive : ∀ other, s'.store.live other ↔ s.store.live other := by
    intro other
    rw [live_iff_hashOf, live_iff_hashOf, hhash]
  refine ⟨?_, ?_, ?_, ?_, ?_, by rw [hreplies, h.replies]; rfl⟩
  · rw [hstore]
    rw [hh] at hsound
    exact hsound
  · intro hash length
    simp only [Desk.write, hlive, hhash]
    by_cases he : hash = g.hash slot
    · rw [he, Function.update_self]
      constructor
      · intro hlength
        exact ⟨slot, hl, hh, by rw [hself]; exact Option.some.inj hlength⟩
      · rintro ⟨other, hlo, hho, rfl⟩
        rw [h.sound.distinct hlo hl (hho.trans hh.symm), hself]
    · rw [Function.update_of_ne he, h.recorded hash length]
      refine exists_congr fun other => and_congr_right fun _ => and_congr_right fun hho => ?_
      have ho : other ≠ slot := by
        rintro rfl
        exact he (hho.symm.trans hh)
      rw [hother other ho]
  · intro other
    show _ = (g.pins other : Int)
    by_cases ho : other = slot
    · rw [ho, hself, ← h.refs slot]
    · rw [hother other ho, h.refs other]
  · intro other hpin
    rw [hlive, hhash]
    exact h.held other hpin
  · intro ht
    have hdated := h.dated ht
    refine ⟨hdated.strict, fun other hlo => ?_⟩
    rw [htick ht]
    have hpast := hdated.past other ((hlive other).mp hlo)
    by_cases ho : other = slot
    · rw [ho] at hpast ⊢
      rw [hself]
      exact Nat.lt_trans hpast (hdated.strict (by omega))
    · rw [hother other ho]
      exact Nat.lt_trans hpast (hdated.strict (by omega))

theorem Serves.created (h : Serves clock g s) {hash : UInt64} {mode stampUs : Nat}
    {fd : FilePtr} (hm : ∀ slot, s.store.live slot → s.store.hashOf slot ≠ hash)
    (hfree : ¬s.store.live slot) (hlmine : s'.store.live slot)
    (hsound : Sound s'.store (g.files.opened hash mode))
    (hnew : s'.store.descs slot = Desc.fresh hash fd (g.files.length hash) stampUs)
    (hstamp : g.timed → stampUs = clock (s.tick + 1))
    (hother : ∀ other, other ≠ slot → s'.store.descs other = s.store.descs other)
    (htick : g.timed → s'.tick = s.tick + 2) (hreplies : s'.replies = s.replies) :
    Serves clock ((g.create hash mode).pin slot hash) s' := by
  have hkeep : ∀ other, other ≠ slot → s'.store.hashOf other = s.store.hashOf other := by
    intro other ho
    simp only [Store.hashOf, hother other ho]
  have hmine : s'.store.hashOf slot = hash := by
    rw [Store.hashOf, hnew]
    rfl
  have hlive : ∀ other, other ≠ slot → (s'.store.live other ↔ s.store.live other) := by
    intro other ho
    rw [live_iff_hashOf, live_iff_hashOf, hkeep other ho]
  refine ⟨hsound, ?_, ?_, ?_, ?_, by rw [hreplies, h.replies]; rfl⟩
  · intro other length
    simp only [Desk.pin, Desk.create]
    by_cases he : other = hash
    · rw [he, Function.update_self]
      constructor
      · intro hlength
        exact ⟨slot, hlmine, hmine, by rw [hnew]; exact Option.some.inj hlength⟩
      · rintro ⟨k, hlk, hhk, rfl⟩
        by_cases hk : k = slot
        · rw [hk, hnew]
          rfl
        · rw [hkeep k hk] at hhk
          exact absurd hhk (hm k ((hlive k hk).mp hlk))
    · rw [Function.update_of_ne he, h.recorded other length]
      constructor
      · rintro ⟨k, hlk, hhk, hlength⟩
        have hk : k ≠ slot := by
          rintro rfl
          exact hfree hlk
        exact ⟨k, (hlive k hk).mpr hlk, by rw [hkeep k hk, hhk], by rw [hother k hk, hlength]⟩
      · rintro ⟨k, hlk, hhk, hlength⟩
        have hk : k ≠ slot := by
          rintro rfl
          exact he (hhk.symm.trans hmine)
        exact ⟨k, (hlive k hk).mp hlk, by rw [← hkeep k hk, hhk], by rw [← hother k hk, hlength]⟩
  · intro other
    simp only [Desk.pin, Desk.create]
    by_cases ho : other = slot
    · rw [ho, Function.update_self, hnew, h.unpinned hfree]
      rfl
    · rw [Function.update_of_ne ho, hother other ho, h.refs other]
  · intro other hpin
    simp only [Desk.pin, Desk.create] at hpin ⊢
    by_cases ho : other = slot
    · rw [ho, Function.update_self]
      exact ⟨hlmine, hmine⟩
    · rw [Function.update_of_ne ho] at hpin ⊢
      rw [hlive other ho, hkeep other ho]
      exact h.held other hpin
  · intro ht
    have hdated := h.dated ht
    refine ⟨hdated.strict, fun other hlo => ?_⟩
    rw [htick ht]
    by_cases ho : other = slot
    · rw [ho, hnew, hstamp ht]
      exact hdated.strict (by omega)
    · rw [hother other ho]
      exact Nat.lt_trans (hdated.past other ((hlive other ho).mp hlo)) (hdated.strict (by omega))

-- A missing file may cost an unpinned descriptor.
theorem Serves.missed (h : Serves clock g s) (hsound : Sound s'.store g.files)
    (hkept : ∀ slot, s'.store.descs slot = s.store.descs slot ∨
      s'.store.descs slot = {} ∧ s.store.live slot ∧ (s.store.descs slot).refs = 0)
    (htick : g.timed → s'.tick = s.tick + 2) (hreplies : s'.replies = s.replies) :
    ∃ recorded : UInt64 → Option Nat,
      (∀ other, recorded other = g.recorded other ∨
        recorded other = none ∧ ∀ slot, 0 < g.pins slot → g.hash slot ≠ other) ∧
      Serves clock { g with recorded := recorded } s' := by
  classical
  have hlive : ∀ slot, s'.store.live slot → s'.store.descs slot = s.store.descs slot := by
    intro slot hl
    rcases hkept slot with he | ⟨he, _, _⟩
    · exact he
    · exact absurd (by rw [he]) hl
  have hold : ∀ slot, s'.store.live slot → s.store.live slot := by
    intro slot hl
    have he := hlive slot hl
    rwa [Store.live, he] at hl
  have hpinned : ∀ slot, 0 < g.pins slot → s'.store.descs slot = s.store.descs slot := by
    intro slot hp
    rcases hkept slot with he | ⟨_, _, hr⟩
    · exact he
    · rw [h.refs slot] at hr
      omega
  obtain ⟨recorded, hopen, hclosed⟩ : ∃ recorded : UInt64 → Option Nat,
      (∀ hash, (∃ slot, s'.store.live slot ∧ s'.store.hashOf slot = hash) →
        recorded hash = g.recorded hash) ∧
      ∀ hash, (¬∃ slot, s'.store.live slot ∧ s'.store.hashOf slot = hash) → recorded hash = none := by
    refine ⟨fun hash => if ∃ slot, s'.store.live slot ∧ s'.store.hashOf slot = hash
      then g.recorded hash else none, ?_, ?_⟩
    · exact fun hash ho => if_pos ho
    · exact fun hash ho => if_neg ho
  refine ⟨recorded, ?_, hsound, ?_, ?_, ?_, ?_, hreplies.trans h.replies⟩
  · intro other
    by_cases ho : ∃ slot, s'.store.live slot ∧ s'.store.hashOf slot = other
    · exact Or.inl (hopen other ho)
    · refine Or.inr ⟨hclosed other ho, ?_⟩
      rintro slot hp rfl
      obtain ⟨hl, hh⟩ := h.held slot hp
      apply ho
      refine ⟨slot, ?_, ?_⟩
      · rwa [Store.live, hpinned slot hp]
      · rwa [Store.hashOf, hpinned slot hp]
  · intro hash length
    by_cases ho : ∃ slot, s'.store.live slot ∧ s'.store.hashOf slot = hash
    · simp only [hopen hash ho, h.recorded hash length]
      obtain ⟨slot, hl, hh⟩ := ho
      have he := hlive slot hl
      have hh' : s.store.hashOf slot = hash := by rwa [Store.hashOf, he] at hh
      constructor
      · rintro ⟨k, hlk, hhk, hlength⟩
        have hk := h.sound.distinct hlk (hold slot hl) (hhk.trans hh'.symm)
        exact ⟨slot, hl, hh, by rw [he, ← hk, hlength]⟩
      · rintro ⟨k, hlk, hhk, hlength⟩
        have hek := hlive k hlk
        refine ⟨k, hold k hlk, ?_, by rw [← hek, hlength]⟩
        rwa [Store.hashOf, hek] at hhk
    · simp only [hclosed hash ho]
      constructor
      · intro hnone
        cases hnone
      · rintro ⟨k, hlk, hhk, _⟩
        exact absurd ⟨k, hlk, hhk⟩ ho
  · intro slot
    show _ = (g.pins slot : Int)
    rcases hkept slot with he | ⟨he, _, hr⟩
    · rw [he, h.refs slot]
    · rw [he, ← h.refs slot, hr]
  · intro slot hp
    have he := hpinned slot hp
    rw [Store.live, Store.hashOf, he]
    exact h.held slot hp
  · intro ht
    have hdated := h.dated ht
    refine ⟨hdated.strict, fun slot hl => ?_⟩
    rw [hlive slot hl, htick ht]
    exact Nat.lt_trans (hdated.past slot (hold slot hl)) (hdated.strict (by omega))

theorem Serves.prepare (h : Serves clock g s) {hash : UInt64} {mode scanUs stampUs : Nat}
    {answer : Except OpenError Slot}
    (hp : Prepared s.store g.files hash mode scanUs stampUs answer s'.store)
    (hclock : g.timed → scanUs = clock s.tick ∧ stampUs = clock (s.tick + 1))
    (htick : g.timed → s'.tick = s.tick + 2) (hreplies : s'.replies = s.replies) :
    ∃ after, Handed g hash mode answer after ∧ Serves clock after s' := by
  generalize hst : s'.store = st' at hp
  cases hp with
  | found slot hl hh =>
      refine ⟨g.pin slot hash, .found slot ?_ ?_ ?_, ?_⟩
      · rw [(h.recorded hash _).mpr ⟨slot, hl, hh, rfl⟩]
        exact nofun
      · rw [← hh]
        exact h.sound.shown_of_live hl
      · intro hp
        rw [← (h.held slot hp).2, hh]
      · refine h.bookkeep (touch _ (s.store.descs slot)) hl rfl rfl rfl rfl rfl hst ?_ htick
          hreplies rfl rfl ?_ ?_ ?_ rfl rfl
        · intro ht hdated
          rw [htick ht]
          show stampUs < _
          rw [(hclock ht).2]
          exact hdated.strict (by omega)
        · simp only [touch, Desk.pin, Function.update_self, h.refs slot]
          omega
        · intro other ho
          simp only [Desk.pin, Function.update_of_ne ho, and_self]
        · intro _
          simp only [Desk.pin, Function.update_self]
          exact hh.symm
  | created slot st' hm hmode hfree hlive hs hnew hother =>
      subst hst
      obtain ⟨fd, hnew⟩ := hnew
      exact ⟨_, .opened slot (h.closed hm) (h.unpinned hfree) hmode,
        h.created hm hfree hlive hs hnew (fun ht => (hclock ht).2) hother htick hreplies⟩
  | missing st' hm hnone hmode hs hkept =>
      subst hst
      obtain ⟨recorded, hrecorded, hserves⟩ := h.missed hs hkept htick hreplies
      exact ⟨_, .missing recorded (h.closed hm) hnone hmode hrecorded, hserves⟩
  | full hm hfull =>
      have hcursor := (scan_full_none (by omega) hfull).2 s.store.idx (Nat.le_refl _)
      have hlive : s.store.live s.store.idx := hcursor.1
      have hpin : g.timed → 0 < g.pins s.store.idx := by
        intro ht
        have hused := hcursor.2
        rw [h.refs s.store.idx] at hused
        by_contra hz
        refine hused ⟨by omega, ?_⟩
        rw [(hclock ht).1]
        exact (h.dated ht).past s.store.idx hlive
      refine ⟨g, .full (h.closed hm) (fun ht => ⟨s.store.idx, hpin ht⟩), ?_⟩
      refine h.step ?_ ?_ htick hreplies
      · rw [hst]
        exact h.sound.moveCursor 0
      · rw [hst]

-- The server answers every action of a request as the contract says.
theorem Serves.act (h : Serves clock g s) (action : Act)
    (hallowed : deskAllowed g action)
    (hcalm : CalmAct clock s action) :
    ∃ after, deskAnswers g action (Server.act clock action s).1 after ∧
      Serves clock after (Server.act clock action s).2 := by
  cases action with
  | prepareFile key mode =>
      exact h.prepare (h.sound.prepare hallowed hcalm) (fun _ => ⟨rfl, rfl⟩) (fun _ => rfl) (List.append_nil _)
  | releaseDesc dt =>
      have hpin : 0 < g.pins dt := hallowed
      obtain ⟨hl, hh⟩ := h.held dt hpin
      refine ⟨g.unpin dt, rfl, ?_⟩
      refine h.bookkeep { s.store.descs dt with refs := (s.store.descs dt).refs - 1 }
        hl rfl rfl rfl rfl rfl rfl ?_ (fun _ => rfl) (List.append_nil _) rfl rfl ?_ ?_ ?_ rfl rfl
      · exact fun _ hdated => Nat.lt_trans (hdated.past dt hl) (hdated.strict (by simp [Server.act]))
      · simp only [Desk.unpin, Function.update_self, h.refs dt]
        omega
      · intro other ho
        simp only [Desk.unpin, Function.update_of_ne ho, and_self]
      · exact fun _ => hh.symm
  | descLength dt =>
      exact ⟨g, ⟨h.length hallowed, rfl⟩, h.step h.sound rfl (fun _ => rfl) (List.append_nil _)⟩
  | readFrom dt size offset =>
      obtain ⟨hl, hh⟩ := h.held dt hallowed
      by_cases ho : 0 ≤ offset
      · obtain ⟨fs, hread, hsound⟩ := h.sound.readFrom (clock s.tick) (clock (s.tick + 1)) hl size offset.toNat
        rw [Int.toNat_of_nonneg ho] at hread
        refine ⟨g, ⟨fun _ => ?_, rfl⟩, ?_⟩
        · simp only [Server.act, execAct, hread, hh]
          rfl
        · refine h.step ?_ ?_ (fun _ => rfl) (List.append_nil _)
          · simp only [Server.act, execAct, hread]
            exact hsound
          · simp only [Server.act, execAct, hread]
      · obtain ⟨data, fs, hread, hsound⟩ := h.sound.readFrom_negative (clock s.tick) (clock (s.tick + 1))
          hl size (Int.not_le.mp ho)
        refine ⟨g, ⟨fun hpos => absurd hpos ho, rfl⟩, h.step ?_ ?_ (fun _ => rfl) (List.append_nil _)⟩
        · simp only [Server.act, execAct, hread]
          exact hsound
        · simp only [Server.act, execAct, hread]
  | writeTo dt buf offset =>
      have hpin : 0 < g.pins dt := hallowed
      obtain ⟨hl, hh⟩ := h.held dt hpin
      by_cases ho : offset < 0
      · obtain ⟨fs, hwrite, hsound⟩ := h.sound.writeTo_negative (clock s.tick) (clock (s.tick + 1)) hl buf ho
        refine ⟨g, ?_, h.step ?_ ?_ (fun _ => rfl) (List.append_nil _)⟩
        · simp only [deskAnswers, ho, ite_true, Server.act, execAct, hwrite, and_self]
        · simp only [Server.act, execAct, hwrite]
          exact hsound
        · simp only [Server.act, execAct, hwrite]
      · obtain ⟨fs, hwrite, hsound⟩ := h.sound.writeTo (clock s.tick) (clock (s.tick + 1)) hl buf offset.toNat
        rw [Int.toNat_of_nonneg (Int.not_lt.mp ho)] at hwrite
        refine ⟨g.write dt offset.toNat buf, ?_, ?_⟩
        · simp only [deskAnswers, ho, ite_false, Server.act, execAct, hwrite, and_self]
        · refine h.write hpin hsound ?_ (fun _ => rfl) (List.append_nil _)
          simp only [Server.act, execAct, hwrite]
  | posixMemalign =>
      exact ⟨g, ⟨rfl, rfl⟩, h.step h.sound rfl (fun _ => rfl) (List.append_nil _)⟩
  | reply text len =>
      refine ⟨g.reply (text.take len), ⟨rfl, rfl⟩, ?_⟩
      refine ⟨h.sound, h.recorded, h.refs, h.held, ?_, ?_⟩
      · intro ht
        have hdated := h.dated ht
        exact ⟨hdated.strict, fun slot hl =>
          Nat.lt_trans (hdated.past slot hl) (hdated.strict (by simp [Server.act]))⟩
      · simp only [Server.act, replied, h.replies]
        rfl

theorem serves_initFile (clock : Nat → Nat) (disk : Contents) (tick : Nat) (replies : List Bytes) :
    Serves clock ⟨disk, fun _ => none, fun _ => 0, fun _ => 0, replies, StrictMono clock⟩
      { store := initFile disk, tick := tick, replies := replies } := by
  refine ⟨sound_initFile disk, ?_, fun _ => rfl, ?_, fun hc => ⟨hc, fun _ hl => absurd rfl hl⟩, rfl⟩
  · exact fun _ _ => ⟨nofun, fun ⟨_, hl, _⟩ => absurd rfl hl⟩
  · exact fun _ hp => absurd hp (Nat.lt_irrefl 0)

-- Whether the clock can be relied on never changes.
theorem deskAnswers_timed (action : Act) (answer : Res action) (ha : deskAnswers g action answer g') :
    g'.timed = g.timed := by
  cases action with
  | prepareFile key mode => cases (show Handed g _ _ _ g' from ha) <;> rfl
  | releaseDesc dt => rw [show g' = g.unpin dt from ha]; rfl
  | descLength dt => rw [ha.2]
  | readFrom dt size offset => rw [ha.2]
  | writeTo dt buf offset =>
      simp only [deskAnswers] at ha
      split at ha
      · rw [ha.2]
      · rw [ha.2]
        rfl
  | posixMemalign => rw [ha.2]
  | reply text len => rw [ha.2]; rfl

end Service

end Solidbits
