import Solidbits.Bitops.Bitcount
import Solidbits.Bitops.Sizes

namespace Solidbits

open Prog

section Readings

-- A read_from that was made: what it asked for and how much of it came.
structure Reading where
  dt : Slot
  offset : Int
  size : Nat
  brought : Nat
  failed : Bool

def Reading.asks (r : Reading) (dt : Slot) (i : Nat) : Bool :=
  r.dt = dt ∧ r.offset ≤ i ∧ (i : Int) < r.offset + r.size

def Reading.brings (r : Reading) (dt : Slot) (i : Nat) : Bool :=
  r.dt = dt ∧ r.offset ≤ i ∧ (i : Int) < r.offset + r.brought

-- How often a byte was asked for, and how often it came.
def asked (readings : List Reading) (dt : Slot) (i : Nat) : Nat := readings.countP fun r => r.asks dt i

def got (readings : List Reading) (dt : Slot) (i : Nat) : Nat := readings.countP fun r => r.brings dt i

def Reading.Formed (r : Reading) : Prop :=
  0 < r.size ∧ 0 ≤ r.offset ∧ r.brought ≤ r.size ∧ (r.failed = true → r.brought = 0)

-- A failed read_from has left a byte out.
theorem got_lt_asked {readings : List Reading} (hformed : ∀ r ∈ readings, r.Formed) {r : Reading}
    (hr : r ∈ readings) (hfailed : r.failed = true) :
    got readings r.dt r.offset.toNat < asked readings r.dt r.offset.toNat := by
  have himp : ∀ r ∈ readings, ∀ dt i, r.brings dt i = true → r.asks dt i = true := by
    intro r hr dt i hbrings
    obtain ⟨_, _, hle, _⟩ := hformed r hr
    simp only [Reading.brings, Reading.asks, decide_eq_true_eq] at hbrings ⊢
    obtain ⟨hdt, hlow, hhigh⟩ := hbrings
    exact ⟨hdt, hlow, by omega⟩
  obtain ⟨before, after, rfl⟩ := List.append_of_mem hr
  obtain ⟨hsize, hoffset, _, hbrought⟩ := hformed r hr
  have hasks : r.asks r.dt r.offset.toNat = true := by
    simp only [Reading.asks, decide_eq_true_eq, true_and]
    omega
  have hnone : r.brings r.dt r.offset.toNat = false := by
    simp only [Reading.brings, decide_eq_false_iff_not, hbrought hfailed]
    omega
  have hbefore := List.countP_mono_left (l := before)
    fun other hm => himp other (List.mem_append_left _ hm) r.dt r.offset.toNat
  have hafter := List.countP_mono_left (l := after)
    fun other hm => himp other (List.mem_append_right _ (List.mem_cons_of_mem _ hm)) r.dt r.offset.toNat
  simp only [got, asked, List.countP_append, List.countP_cons, hasks, hnone, ite_true, Bool.false_eq_true,
    ite_false]
  omega

end Readings

section Files

-- The files behind the descriptors, and what has been asked of them.
structure Files where
  content : Slot → Bytes
  acts : Nat := 0
  readings : List Reading := []
  refused : Bool := false

-- What is asked for, done or failing. A read that fails has brought some bytes
-- before that. Nothing can be sought at a negative offset: a read then begins
-- wherever the stream stands.
def Files.answer (fails : Bool) (stray : Bytes) : (action : Act) → Files → Res action × Files
  | .descLength dt, fs => ((fs.content dt).length, fs)
  | .readFrom dt size offset, fs =>
      let data := Padded.slice (fs.content dt) offset.toNat size
      if fails then
        (⟨0, stray.take size⟩,
          { fs with acts := fs.acts + 1, readings := ⟨dt, offset, size, 0, true⟩ :: fs.readings })
      else if offset < 0 then
        (Received.all (stray.take size),
          { fs with acts := fs.acts + 1, readings := ⟨dt, offset, size, 0, true⟩ :: fs.readings })
      else
        (Received.all data,
          { fs with acts := fs.acts + 1, readings := ⟨dt, offset, size, data.length, false⟩ :: fs.readings })
  | .writeTo dt buf offset, fs =>
      if fails ∨ offset < 0 then (0, { fs with acts := fs.acts + 1, refused := true })
      else
        let content := Padded.overwrite (fs.content dt) offset.toNat buf
        (buf.length, { fs with acts := fs.acts + 1, content := Function.update fs.content dt content })
  | .posixMemalign, fs => (!fails, { fs with acts := fs.acts + 1, refused := fs.refused || fails })
  | .prepareFile _ _, fs => (.error .failed, fs)
  | .releaseDesc _, fs => ((), fs)
  | .reply _ _, fs => (true, fs)

-- Which calls fail, and what comes of a read that does not do as asked.
structure Faults where
  fails : Nat → Bool
  stray : Nat → Bytes

def Faults.handle (faults : Faults) (action : Act) (fs : Files) : Res action × Files :=
  fs.answer (faults.fails fs.acts) (faults.stray fs.acts) action

end Files

section Fetched

def Files.Sound (fs : Files) : Prop := ∀ r ∈ fs.readings, r.failed = false

def Files.Formed (fs : Files) : Prop := ∀ r ∈ fs.readings, r.Formed

-- Between two states every byte is asked for as often as wanted at most, and
-- comes as often as wanted if no read fails.
structure Fetched (want : Slot → Nat → Nat) (before after : Files) : Prop where
  refused : after.refused = before.refused
  sound : after.Sound → before.Sound
  got : after.Sound → ∀ dt i, got before.readings dt i + want dt i ≤ got after.readings dt i
  asked : ∀ dt i, asked after.readings dt i ≤ asked before.readings dt i + want dt i
  formed : before.Formed → after.Formed
  length : ∀ dt, (before.content dt).length ≤ (after.content dt).length

variable {want more : Slot → Nat → Nat} {before middle after : Files}

theorem Fetched.refl (fs : Files) : Fetched (fun _ _ => 0) fs fs where
  refused := rfl
  sound := id
  got := fun _ _ _ => Nat.le_refl _
  asked := fun _ _ => Nat.le_refl _
  formed := id
  length := fun _ => Nat.le_refl _

theorem Fetched.trans (hfirst : Fetched want before middle) (hrest : Fetched more middle after) :
    Fetched (fun dt i => want dt i + more dt i) before after where
  refused := hrest.refused.trans hfirst.refused
  sound := fun h => hfirst.sound (hrest.sound h)
  got := by
    intro h dt i
    have hone := hfirst.got (hrest.sound h) dt i
    have htwo := hrest.got h dt i
    omega
  asked := by
    intro dt i
    have hone := hfirst.asked dt i
    have htwo := hrest.asked dt i
    omega
  formed := fun h => hrest.formed (hfirst.formed h)
  length := fun dt => Nat.le_trans (hfirst.length dt) (hrest.length dt)

theorem Fetched.congr (h : Fetched want before after) (heq : ∀ dt i, want dt i = more dt i) :
    Fetched more before after := by
  rwa [funext fun dt => funext (heq dt)] at h

-- Once a read has failed, less may come.
theorem Fetched.short (h : Fetched want before after) (hfailed : ¬after.Sound)
    (hle : ∀ dt i, want dt i ≤ more dt i) : Fetched more before after where
  refused := h.refused
  sound := h.sound
  got := fun hsound => absurd hsound hfailed
  asked := fun dt i => Nat.le_trans (h.asked dt i) (Nat.add_le_add_left (hle dt i) _)
  formed := h.formed
  length := h.length

-- A stretch of bytes of a file.
def stretch (dt : Slot) (offset size : Nat) (dt' : Slot) (i : Nat) : Nat :=
  if dt = dt' ∧ offset ≤ i ∧ i < offset + size then 1 else 0

theorem stretch_iff (dt : Slot) (offset size : Nat) (dt' : Slot) (i : Nat) :
    stretch dt offset size dt' i =
      if dt = dt' ∧ (offset : Int) ≤ i ∧ (i : Int) < (offset : Int) + size then 1 else 0 := by
  have hcast : (i : Int) < (offset : Int) + size ↔ i < offset + size := by omega
  simp only [stretch, Int.ofNat_le, hcast]

theorem stretch_add (dt : Slot) (offset size rest : Nat) (dt' : Slot) (i : Nat) :
    stretch dt offset size dt' i + stretch dt (offset + size) rest dt' i =
      stretch dt offset (size + rest) dt' i := by
  unfold stretch
  by_cases hdt : dt = dt'
  · simp only [hdt, true_and]
    split <;> split <;> split <;> omega
  · simp only [hdt, false_and, ite_false]

theorem stretch_zero (dt : Slot) (offset : Nat) (dt' : Slot) (i : Nat) : 0 = stretch dt offset 0 dt' i := by
  unfold stretch
  rw [if_neg (by omega)]

theorem fetched_reading {fs : Files} {dt : Slot} {offset size brought acts : Nat} {failed : Bool} (hpos : 0 < size)
    (hfailed : failed = true → brought = 0) (hbrought : failed = false → brought = size) :
    Fetched (stretch dt offset size) fs
      { fs with acts := acts, readings := ⟨dt, offset, size, brought, failed⟩ :: fs.readings } where
  refused := rfl
  sound := fun h r hr => h r (List.mem_cons_of_mem _ hr)
  got := by
    intro h dt' i
    have hall : brought = size := hbrought (h _ List.mem_cons_self)
    simp only [got, List.countP_cons, Reading.brings, stretch_iff, decide_eq_true_eq, hall]
    exact Nat.le_refl _
  asked := by
    intro dt' i
    simp only [asked, List.countP_cons, Reading.asks, stretch_iff, decide_eq_true_eq]
    exact Nat.le_refl _
  formed := by
    intro h r hr
    rcases List.mem_cons.mp hr with rfl | hr
    · refine ⟨hpos, Int.natCast_nonneg _, ?_, hfailed⟩
      cases failed with
      | false => exact (hbrought rfl).le
      | true => rw [hfailed rfl]; exact Nat.zero_le _
    · exact h r hr
  length := fun _ => Nat.le_refl _

end Fetched

section Contract

-- What the files answer, whatever fails.
def fileContract : Contract Act Res Files where
  allowed := fun _ _ => True
  answers := fun fs action answer after => ∃ fails stray, fs.answer fails stray action = (answer, after)

variable {fs : Files} {dt : Slot}

theorem files_measured (fs : Files) (dt : Slot) :
    Measured fileContract fs (fun dt => (fs.content dt).length) dt := by
  refine ⟨trivial, ?_⟩
  rintro answer after ⟨fails, stray, ha⟩
  exact ⟨(Prod.mk.inj ha).1.symm, (Prod.mk.inj ha).2.symm⟩

-- A read within the file.
theorem wp_files_readFrom {α : Type} {offset size : Nat} (hpos : 0 < size)
    (hin : offset + size ≤ (fs.content dt).length) {f : Received → Cmd α} {post : Files → α → Prop}
    (hf : ∀ (data : Received) after, (data.r = 0 ∨ data.r = size) → Fetched (stretch dt offset size) fs after →
      (data.r = 0 → ¬after.Sound) → after.content = fs.content → (f data).wp fileContract post after) :
    (Cmd.readFrom dt size offset >>= f).wp fileContract post fs := by
  refine (wp_ask fileContract post (Act.readFrom dt size offset) f fs).mpr ⟨trivial, ?_⟩
  rintro data after ⟨fails, stray, ha⟩
  simp only [Files.answer] at ha
  split at ha
  · obtain ⟨rfl, rfl⟩ := Prod.mk.inj ha
    refine hf _ _ (Or.inl rfl) (fetched_reading hpos (fun _ => rfl) nofun) ?_ rfl
    intro _ hsound
    exact absurd (hsound _ List.mem_cons_self) nofun
  · rw [if_neg (by omega)] at ha
    obtain ⟨rfl, rfl⟩ := Prod.mk.inj ha
    have hlen : (Padded.slice (fs.content dt) (offset : Int).toNat size).length = size := by
      rw [Padded.slice_length, Int.toNat_natCast]
      omega
    refine hf _ _ (Or.inr hlen) (fetched_reading hpos nofun fun _ => hlen) ?_ rfl
    intro hnil
    exact absurd (hlen.symm.trans hnil) hpos.ne'

-- A read anywhere.
theorem wp_files_readFrom_any {α : Type} {offset : Int} {size : Nat} {f : Received → Cmd α} {post : Files → α → Prop}
    (hf : ∀ (data : Received) (after : Files), after.refused = fs.refused → (after.Sound → fs.Sound ∧ 0 ≤ offset) →
      (f data).wp fileContract post after) :
    (Cmd.readFrom dt size offset >>= f).wp fileContract post fs := by
  refine (wp_ask fileContract post (Act.readFrom dt size offset) f fs).mpr ⟨trivial, ?_⟩
  rintro data after ⟨fails, stray, ha⟩
  simp only [Files.answer] at ha
  split at ha
  · obtain ⟨rfl, rfl⟩ := Prod.mk.inj ha
    exact hf _ _ rfl fun hsound => absurd (hsound _ List.mem_cons_self) nofun
  · split at ha
    · obtain ⟨rfl, rfl⟩ := Prod.mk.inj ha
      exact hf _ _ rfl fun hsound => absurd (hsound _ List.mem_cons_self) nofun
    · obtain ⟨rfl, rfl⟩ := Prod.mk.inj ha
      exact hf _ _ rfl fun hsound => ⟨fun r hr => hsound r (List.mem_cons_of_mem _ hr), by omega⟩

theorem wp_files_posixMemalign {α : Type} {f : Bool → Cmd α} {post : Files → α → Prop}
    (hok : ∀ after : Files, Fetched (fun _ _ => 0) fs after → after.content = fs.content →
      (f true).wp fileContract post after)
    (hfailed : ∀ after, after.refused = true → (f false).wp fileContract post after) :
    (Cmd.posixMemalign >>= f).wp fileContract post fs := by
  refine (wp_ask fileContract post Act.posixMemalign f fs).mpr ⟨trivial, ?_⟩
  rintro ok after ⟨fails, stray, ha⟩
  obtain ⟨rfl, rfl⟩ := Prod.mk.inj ha
  cases fails with
  | true => exact hfailed _ (Bool.or_true _)
  | false => exact hok _ { Fetched.refl fs with refused := Bool.or_false _ } rfl

theorem wp_files_writeTo {α : Type} {buf : Bytes} {offset : Int} {f : Nat → Cmd α} {post : Files → α → Prop}
    (hok : 0 ≤ offset → ∀ after : Files, Fetched (fun _ _ => 0) fs after → (f buf.length).wp fileContract post after)
    (hfailed : ∀ after : Files, after.refused = true → (after.Sound → fs.Sound) →
      (f 0).wp fileContract post after) :
    (Cmd.writeTo dt buf offset >>= f).wp fileContract post fs := by
  refine (wp_ask fileContract post (Act.writeTo dt buf offset) f fs).mpr ⟨trivial, ?_⟩
  rintro r after ⟨fails, stray, ha⟩
  simp only [Files.answer] at ha
  split at ha
  · obtain ⟨rfl, rfl⟩ := Prod.mk.inj ha
    exact hfailed _ rfl id
  · rename_i hworks
    obtain ⟨rfl, rfl⟩ := Prod.mk.inj ha
    refine hok (by omega) _ { Fetched.refl fs with length := ?_ }
    intro dt'
    by_cases hdt : dt' = dt
    · simp only [hdt, Function.update_self]
      exact Padded.le_overwrite_length (fs.content dt) buf offset.toNat
    · simp only [Function.update_of_ne hdt, Nat.le_refl]

end Contract

section Bitcount

variable {fs : Files} {dt : Slot}

theorem wp_files_bitcountLoop {fuel remaining o : Nat} (hfuel : remaining ≤ fuel)
    (hin : o + remaining ≤ (fs.content dt).length) (bits : Nat) :
    (bitcountLoop dt fuel remaining o bits).wp fileContract
      (fun after (result : Int) => 0 ≤ result ∧ Fetched (stretch dt o remaining) fs after) fs := by
  induction fuel generalizing remaining o bits fs with
  | zero =>
      rw [Nat.le_zero.mp hfuel]
      exact ⟨Int.natCast_nonneg _, (Fetched.refl fs).congr (stretch_zero dt o)⟩
  | succ fuel ih =>
      unfold bitcountLoop
      split
      · rename_i hdone
        rw [hdone]
        exact ⟨Int.natCast_nonneg _, (Fetched.refl fs).congr (stretch_zero dt o)⟩
      · rename_i hmore
        have hbuffer : 0 < FILE_BUFFER_SIZE := by decide
        have hle : min remaining FILE_BUFFER_SIZE ≤ remaining := Nat.min_le_left _ _
        have hpos : 0 < min remaining FILE_BUFFER_SIZE := by omega
        generalize min remaining FILE_BUFFER_SIZE = size at hle hpos ⊢
        apply wp_files_readFrom hpos (by omega)
        intro data middle hdata hfirst hnone hcontent
        have hsplit := stretch_add dt o size (remaining - size)
        rw [Nat.add_sub_cancel' hle] at hsplit
        split
        · rename_i hzero
          refine ⟨Int.natCast_nonneg _, hfirst.short (hnone hzero) ?_⟩
          intro dt' i
          have hone := hsplit dt' i
          omega
        · rename_i hsome
          have hlen := hdata.resolve_left hsome
          rw [hlen]
          apply wp_mono _ (ih (by omega) (by rw [hcontent]; omega) _)
          rintro after result ⟨hresult, hrest⟩
          exact ⟨hresult, (hfirst.trans hrest).congr hsplit⟩

end Bitcount

section Bitop

variable {fs : Files} {length : Slot → Nat} {dts : List (Option Slot)}

-- How often a byte of a source is read in one round, and from a round on.
def due (length : Slot → Nat) (dts : List (Option Slot)) (round : Nat) (dt : Slot) (i : Nat) : Nat :=
  if round * FILE_BUFFER_SIZE ≤ i ∧ i < (round + 1) * FILE_BUFFER_SIZE ∧ i < length dt then dts.count (some dt)
  else 0

def dueFrom (length : Slot → Nat) (dts : List (Option Slot)) (round : Nat) (dt : Slot) (i : Nat) : Nat :=
  if round * FILE_BUFFER_SIZE ≤ i ∧ i < length dt then dts.count (some dt) else 0

theorem due_rest (length : Slot → Nat) (dts : List (Option Slot)) (round : Nat) (dt : Slot) (i : Nat) :
    due length dts round dt i + dueFrom length dts (round + 1) dt i = dueFrom length dts round dt i := by
  unfold due dueFrom
  rw [Nat.succ_mul]
  split <;> split <;> split <;> omega

theorem due_none (length : Slot → Nat) (dts : List (Option Slot)) (round : Nat) (dt : Slot) (i : Nat) :
    due length dts round dt i = due length (none :: dts) round dt i := by
  have hcount : (none :: dts).count (some dt) = dts.count (some dt) :=
    List.count_cons_of_ne (Option.some_ne_none dt).symm
  rw [due, due, hcount]

-- A source is due in a round for what is read of it then.
theorem due_some {dt : Slot} {round : Nat} (h : round < reads (length dt)) (dts : List (Option Slot)) (dt' : Slot)
    (i : Nat) :
    stretch dt (round * FILE_BUFFER_SIZE)
        (if reads (length dt) - round = 1 then lastRead (length dt) else FILE_BUFFER_SIZE) dt' i +
      due length dts round dt' i = due length (some dt :: dts) round dt' i := by
  have hwhole : reads (length dt) - round ≠ 1 → (round + 1) * FILE_BUFFER_SIZE < length dt :=
    fun hmore => lt_length_of_reads (by omega)
  have hlast : reads (length dt) - round = 1 → length dt = round * FILE_BUFFER_SIZE + lastRead (length dt) :=
    fun hlast => reads_lastRead (by omega)
  obtain ⟨_, hle⟩ := lastRead_pos (length dt)
  simp only [stretch, due, Nat.succ_mul] at hwhole ⊢
  by_cases hdt : dt = dt'
  · subst hdt
    simp only [true_and, List.count_cons_self]
    split <;> split <;> split <;> omega
  · rw [List.count_cons_of_ne fun h => hdt (Option.some.inj h)]
    simp only [hdt, false_and, ite_false, Nat.zero_add]

theorem due_done {dt : Slot} {round : Nat} (h : reads (length dt) ≤ round) (dts : List (Option Slot)) (dt' : Slot)
    (i : Nat) : due length dts round dt' i = due length (some dt :: dts) round dt' i := by
  have hpast := length_le_of_reads h
  unfold due
  by_cases hdt : dt = dt'
  · subst hdt
    split <;> omega
  · rw [List.count_cons_of_ne fun h => hdt (Option.some.inj h)]

theorem wp_files_opRead (hlength : ∀ dt, length dt ≤ (fs.content dt).length) (round : Nat) :
    (opRead (round * FILE_BUFFER_SIZE : Nat) (dts.map (sourceIn length round))).wp fileContract
      (fun after result => result.1.length = dts.length ∧ result.2 = dts.map (sourceIn length (round + 1)) ∧
        Fetched (due length dts round) fs after) fs := by
  induction dts generalizing fs with
  | nil =>
      refine ⟨rfl, rfl, (Fetched.refl fs).congr ?_⟩
      intro dt i
      simp [due]
  | cons first dts ih =>
      cases first with
      | none =>
          simp only [List.map_cons, sourceIn, opRead]
          apply wp_seq (ih hlength)
          rintro after ⟨bufs, sources⟩ ⟨hbufs, rfl, hfetched⟩
          exact ⟨congrArg (· + 1) hbufs, rfl, hfetched.congr (due_none length dts round)⟩
      | some dt =>
          have hnext := source_next length round (some dt)
          simp only [sourceIn, Source.next, reduceCtorEq, false_or] at hnext
          simp only [List.map_cons, opRead, sourceIn]
          split
          · rename_i hdone
            rw [if_pos hdone] at hnext
            apply wp_seq (ih hlength)
            rintro after ⟨bufs, sources⟩ ⟨hbufs, rfl, hfetched⟩
            refine ⟨congrArg (· + 1) hbufs, ?_, hfetched.congr (due_done (by omega) dts)⟩
            rw [hnext]
          · rename_i hmore
            rw [if_neg hmore] at hnext
            have hdt := hlength dt
            have hwhole := @lt_length_of_reads (length dt) (round + 1)
            have hlast := @reads_lastRead (length dt) round
            obtain ⟨hpos, _⟩ := lastRead_pos (length dt)
            have hbuffer : 0 < FILE_BUFFER_SIZE := by decide
            rw [Nat.succ_mul] at hwhole
            apply wp_files_readFrom
            · split <;> omega
            · split <;> omega
            · intro data middle _ hfirst _ hcontent
              apply wp_seq (ih (by rwa [hcontent]))
              rintro after ⟨bufs, sources⟩ ⟨hbufs, rfl, hfetched⟩
              refine ⟨congrArg (· + 1) hbufs, ?_, (hfirst.trans hfetched).congr (due_some (by omega) dts)⟩
              rw [hnext]

-- Sources of which a round has something to read, so that it must not be at a
-- negative offset.
def Sought (sources : List Source) (offset : Int) : Prop :=
  ∀ source ∈ sources, source.dt ≠ none → source.t ≠ 0 → 0 ≤ offset

-- A round at a negative offset that has something to read fails a read.
theorem wp_files_opRead_any (offset : Int) (sources : List Source) :
    (opRead offset sources).wp fileContract
      (fun after _ => after.refused = fs.refused ∧ (after.Sound → fs.Sound) ∧
        (after.Sound → Sought sources offset)) fs := by
  induction sources generalizing fs with
  | nil => exact ⟨rfl, id, fun _ _ hm => by cases hm⟩
  | cons source sources ih =>
      unfold opRead
      split
      · rename_i hdt
        apply wp_seq ih
        rintro after _ ⟨hrefused, hsound, hnone⟩
        refine ⟨hrefused, hsound, fun h other hm hsome => ?_⟩
        rcases List.mem_cons.mp hm with rfl | hm
        · exact absurd hdt hsome
        · exact hnone h other hm hsome
      · split
        · rename_i hdone
          apply wp_seq ih
          rintro after _ ⟨hrefused, hsound, hnone⟩
          refine ⟨hrefused, hsound, fun h other hm hsome hmore => ?_⟩
          rcases List.mem_cons.mp hm with rfl | hm
          · exact absurd hdone hmore
          · exact hnone h other hm hsome hmore
        · apply wp_files_readFrom_any
          intro data middle hsame hfirst
          apply wp_seq ih
          rintro after _ ⟨hrefused, hsound, _⟩
          exact ⟨hrefused.trans hsame, fun h => (hfirst (hsound h)).1, fun h _ _ _ _ => (hfirst (hsound h)).2⟩

-- From any offset on nothing that has failed is made good, and a refusal is
-- answered with a failure.
theorem wp_files_opLoop_any (cmd : BitopCmd) (dest : Option Slot) (rmax left : Nat) (sources : List Source)
    (offset : Int) (bits : Nat) (hrefused : fs.refused = false) :
    (opLoop cmd dest rmax left sources offset bits).wp fileContract
      (fun after result => (after.refused = true → result < 0) ∧
        (after.Sound → fs.Sound ∧ (left ≠ 0 → Sought sources offset))) fs := by
  induction left generalizing sources offset bits fs with
  | zero =>
      rw [opLoop]
      refine ⟨fun h => ?_, fun h => ⟨h, absurd rfl⟩⟩
      rw [hrefused] at h
      cases h
  | succ left ih =>
      rw [opLoop]
      apply wp_seq (wp_files_opRead_any offset sources)
      rintro middle ⟨bufs, rest⟩ ⟨hsame, hsound, hsought⟩
      have hmiddle := hsame.trans hrefused
      have hkept : ∀ now : Files, (now.Sound → middle.Sound) →
          now.Sound → fs.Sound ∧ (left + 1 ≠ 0 → Sought sources offset) :=
        fun now hnow h => ⟨hsound (hnow h), fun _ => hsought (hnow h)⟩
      have hrest : ∀ (now : Files) offset' bits, now.refused = false → (now.Sound → middle.Sound) →
          (opLoop cmd dest rmax left rest offset' bits).wp fileContract
            (fun after result => (after.refused = true → result < 0) ∧
              (after.Sound → fs.Sound ∧ (left + 1 ≠ 0 → Sought sources offset))) now :=
        fun now offset' bits hnow hs =>
          wp_mono (fun after _ h => ⟨h.1, hkept after fun hafter => hs (h.2 hafter).1⟩) (ih rest offset' bits hnow)
      simp only
      generalize (if left ≠ 0 then FILE_BUFFER_SIZE else rmax) = size
      split
      · apply wp_files_writeTo
        · intro _ now hnow
          split
          · exact ⟨fun _ => by decide, hkept now hnow.sound⟩
          · exact hrest now _ _ (hnow.refused.trans hmiddle) hnow.sound
        · intro now _ hnow
          exact ⟨fun _ => by decide, hkept now hnow⟩
      · exact ⟨fun _ => by decide, hkept middle id⟩
      · exact hrest middle _ _ hmiddle id
      · exact hrest middle _ _ hmiddle id

-- What a command leaves behind: a refusal is answered with a failure, otherwise
-- it has made the reads that are wanted and answers with a number.
def Surveyed (exact : Prop) (want : Slot → Nat → Nat) (before after : Files) (result : Int) : Prop :=
  (after.refused = true → result < 0) ∧
    (after.refused = false → (after.Sound → Fetched want before after) ∧
      (exact → 0 ≤ result ∧ Fetched want before after))

theorem Surveyed.lost {exact : Prop} {want : Slot → Nat → Nat} {before after : Files} {result : Int}
    (hexact : ¬exact) (hsound : ¬after.Sound) (hrefused : after.refused = true → result < 0) :
    Surveyed exact want before after result :=
  ⟨hrefused, fun _ => ⟨fun h => absurd h hsound, fun h => absurd h hexact⟩⟩

theorem Surveyed.of_refused {exact : Prop} {want : Slot → Nat → Nat} {before after : Files} {result : Int}
    (hrefused : after.refused = true) (hresult : result < 0) : Surveyed exact want before after result :=
  ⟨fun _ => hresult, fun h => absurd (hrefused.symm.trans h) nofun⟩

theorem Surveyed.of_fetched {exact : Prop} {want : Slot → Nat → Nat} {before after : Files} {result : Int}
    (hrefused : after.refused = false) (hfetched : Fetched want before after) (hresult : exact → 0 ≤ result) :
    Surveyed exact want before after result :=
  ⟨fun h => absurd (hrefused.symm.trans h) nofun, fun _ => ⟨fun _ => hfetched, fun h => ⟨hresult h, hfetched⟩⟩⟩

-- What is read first counts too.
theorem Surveyed.after {exact : Prop} {want more all : Slot → Nat → Nat} {before middle after : Files} {result : Int}
    (hfirst : Fetched want before middle) (hall : ∀ dt i, want dt i + more dt i = all dt i)
    (h : Surveyed exact more middle after result) : Surveyed exact all before after result := by
  refine ⟨h.1, fun hrefused => ?_⟩
  obtain ⟨hsound, hexact⟩ := h.2 hrefused
  refine ⟨fun hs => (hfirst.trans (hsound hs)).congr hall, fun he => ?_⟩
  obtain ⟨hresult, hrest⟩ := hexact he
  exact ⟨hresult, (hfirst.trans hrest).congr hall⟩

-- The loop from some round on. Behind 2^31 its offset is negative.
theorem wp_files_opLoop (cmd : BitopCmd) {dest : Option Slot} (hdest : cmd.hook = .NONE → dest ≠ none) {n : Nat}
    (hlongest : ∃ dt, some dt ∈ dts ∧ length dt = n) (hn : ∀ dt, some dt ∈ dts → length dt ≤ n)
    (hlength : ∀ dt, length dt ≤ (fs.content dt).length) (hrefused : fs.refused = false) (left round : Nat)
    (hround : reads n = round + left) (offset : Int) (hoffset : left ≠ 0 → offset = (round * FILE_BUFFER_SIZE : Nat))
    (hsmall : left ≠ 0 → round * FILE_BUFFER_SIZE < 2 ^ 31) (hend : left = 0 → n < 2 ^ 31 → 0 ≤ offset)
    (bits : Nat) :
    (opLoop cmd dest (lastRead n) left (dts.map (sourceIn length round)) offset bits).wp fileContract
      (fun after result => Surveyed (n < 2 ^ 31) (dueFrom length dts round) fs after result) fs := by
  induction left generalizing round offset bits fs with
  | zero =>
      rw [opLoop]
      refine Surveyed.of_fetched hrefused ((Fetched.refl fs).congr ?_) fun hexact => ?_
      · intro dt i
        have hpast := @length_le_of_reads n round (by omega)
        unfold dueFrom
        split
        · rename_i hin
          by_cases hdt : some dt ∈ dts
          · have hle := hn dt hdt
            omega
          · exact (List.count_eq_zero.mpr hdt).symm
        · rfl
      · have hpos := hend rfl hexact
        split <;> omega
  | succ left ih =>
      have hnow := hoffset (Nat.succ_ne_zero left)
      have hlow := hsmall (Nat.succ_ne_zero left)
      subst hnow
      rw [opLoop]
      apply wp_seq (wp_files_opRead hlength round)
      rintro middle ⟨bufs, sources⟩ ⟨hbufs, rfl, hfirst⟩
      have hmiddle := hfirst.refused.trans hrefused
      -- The end of the round is the start of the next one, or the end of the
      -- longest source.
      obtain ⟨hlast, _⟩ := lastRead_pos n
      have hbuffer : 0 < FILE_BUFFER_SIZE ∧ FILE_BUFFER_SIZE < 2 ^ 31 := by decide
      have hends := @reads_lastRead n round
      have hmul : (round + 1) * FILE_BUFFER_SIZE = round * FILE_BUFFER_SIZE + FILE_BUFFER_SIZE :=
        Nat.succ_mul round FILE_BUFFER_SIZE
      have hsize : 0 < (if left ≠ 0 then FILE_BUFFER_SIZE else lastRead n) ∧
          round * FILE_BUFFER_SIZE + (if left ≠ 0 then FILE_BUFFER_SIZE else lastRead n) =
            if left ≠ 0 then (round + 1) * FILE_BUFFER_SIZE else n := by
        split <;> omega
      simp only
      generalize (if left ≠ 0 then FILE_BUFFER_SIZE else lastRead n) = size at hsize ⊢
      obtain ⟨hpos, hnext⟩ := hsize
      have hcast : ((round * FILE_BUFFER_SIZE : Nat) : Int) + size = (round * FILE_BUFFER_SIZE + size : Nat) :=
        (Int.natCast_add _ _).symm
      rw [hcast, hnext]
      have hrest : ∀ (now : Files) bits, Fetched (fun _ _ => 0) middle now →
          (opLoop cmd dest (lastRead n) left (dts.map (sourceIn length (round + 1)))
            (toInt (if left ≠ 0 then (round + 1) * FILE_BUFFER_SIZE else n : Nat)) bits).wp fileContract
            (fun after result => Surveyed (n < 2 ^ 31) (dueFrom length dts round) fs after result) now := by
        intro now bits hnow
        have hall := (hfirst.trans hnow).congr fun dt i => Nat.add_zero (due length dts round dt i)
        by_cases hfits : left ≠ 0 → (round + 1) * FILE_BUFFER_SIZE < 2 ^ 31
        · apply wp_mono (fun _ _ h => Surveyed.after hall (due_rest length dts round) h)
          apply ih
          · exact fun dt => Nat.le_trans (hlength dt) (hall.length dt)
          · exact hnow.refused.trans hmiddle
          · omega
          · intro hleft
            rw [if_pos hleft, toInt_small (hfits hleft)]
          · exact hfits
          · intro hleft hexact
            rw [if_neg (not_not.mpr hleft), toInt_small hexact]
            exact Int.natCast_nonneg _
        · obtain ⟨hleft, hlarge⟩ := Classical.not_imp.mp hfits
          have hpast := @lt_length_of_reads n (round + 1) (by omega)
          apply wp_mono _ (wp_files_opLoop_any cmd dest _ left _ _ bits (hnow.refused.trans hmiddle))
          rintro after result ⟨hresult, hsound⟩
          refine Surveyed.lost (by omega) (fun h => ?_) hresult
          obtain ⟨dt, hdt, hdtn⟩ := hlongest
          have hneg := (hsound h).2 hleft (sourceIn length (round + 1) (some dt)) (List.mem_map_of_mem hdt)
            (Option.some_ne_none dt) (by simp only [sourceIn, hdtn]; omega)
          rw [if_pos hleft] at hneg
          have hlt := @toInt_large ((round + 1) * FILE_BUFFER_SIZE) (by omega) (by omega)
          exact absurd hneg (not_le.mpr hlt)
      have hne : bufs ≠ [] := by
        rintro rfl
        obtain ⟨dt, hdt, _⟩ := hlongest
        rw [List.length_eq_zero_iff.mp hbufs.symm] at hdt
        cases hdt
      have hchunk := (@opChunk_length cmd.option bufs size).2 hne
      split
      · apply wp_files_writeTo
        · intro _ now hnow
          rw [if_neg (by omega)]
          exact hrest now bits hnow
        · intro now hnow _
          exact Surveyed.of_refused hnow (by decide)
      · rename_i hhook
        exact absurd rfl (hdest hhook)
      · exact hrest middle _ (Fetched.refl middle)
      · exact hrest middle _ (Fetched.refl middle)

theorem wp_files_opMalloc {post : Files → Bool → Prop} (hrefused : fs.refused = false)
    (hok : ∀ after : Files, Fetched (fun _ _ => 0) fs after → after.content = fs.content → post after true)
    (hfailed : ∀ after : Files, after.refused = true → post after false) (count : Nat) :
    (opMalloc count).wp fileContract post fs := by
  induction count generalizing fs with
  | zero => exact hok fs (Fetched.refl fs) rfl
  | succ count ih =>
      apply wp_files_posixMemalign
      · intro middle hmiddle hcontent
        apply ih (hmiddle.refused.trans hrefused)
        intro after hafter hsame
        exact hok after (hmiddle.trans hafter) (hsame.trans hcontent)
      · exact hfailed

theorem longest_attained (length : Slot → Nat) (dts : List (Option Slot))
    (hpos : longestOf (dts.map (lengthIn length)) ≠ 0) :
    ∃ dt, some dt ∈ dts ∧ length dt = longestOf (dts.map (lengthIn length)) := by
  have hsmaller : ¬longestOf (dts.map (lengthIn length)) ≤ longestOf (dts.map (lengthIn length)) - 1 := by omega
  rw [longestOf_le_iff] at hsmaller
  push Not at hsmaller
  obtain ⟨_, hmem, hgt⟩ := hsmaller
  have hle := le_longestOf hmem
  obtain ⟨first, hfirst, rfl⟩ := List.mem_map.mp hmem
  cases first with
  | none => exact absurd hgt (Nat.not_lt_zero _)
  | some dt =>
      refine ⟨dt, hfirst, ?_⟩
      simp only [lengthIn] at hgt hle
      omega

theorem wp_files_bitopCommand (cmd : BitopCmd) {dest : Option Slot} (hdest : cmd.hook = .NONE → dest ≠ none)
    (hrefused : fs.refused = false) :
    (bitopCommand cmd dest dts).wp fileContract
      (fun after result => Surveyed (∀ dt, (fs.content dt).length < 2 ^ 31)
        (dueFrom (fun dt => (fs.content dt).length) dts 0) fs after result) fs := by
  rw [bitopCommand, wp_bind]
  apply @wp_opScan _ fileContract fs (fun dt => (fs.content dt).length) dts (fun dt _ => files_measured fs dt) 0 0 []
    (Or.inl rfl)
  intro maxidx hscan
  rw [List.nil_append] at hscan ⊢
  have hlength : ∀ dt, (fun dt => (fs.content dt).length) dt ≤ (fs.content dt).length := fun _ => Nat.le_refl _
  have hexact : (∀ dt, (fs.content dt).length < 2 ^ 31) → ∀ dt, (fun dt => (fs.content dt).length) dt < 2 ^ 31 := id
  generalize (fun dt => (fs.content dt).length) = length at hscan hlength hexact ⊢
  have hle : ∀ dt, some dt ∈ dts → length dt ≤ longestOf (dts.map (lengthIn length)) :=
    fun dt hdt => le_longestOf (List.mem_map.mpr ⟨some dt, hdt, rfl⟩)
  have hattained := longest_attained length dts
  rw [show (dts.map (lengthIn length)).foldl max 0 = longestOf (dts.map (lengthIn length)) from rfl] at *
  generalize longestOf (dts.map (lengthIn length)) = n at hscan hle hattained ⊢
  simp only
  split
  · rename_i hzero
    refine Surveyed.of_fetched hrefused ((Fetched.refl fs).congr ?_) fun _ => by decide
    intro dt i
    unfold dueFrom
    split
    · rename_i hin
      by_cases hdt : some dt ∈ dts
      · have hshort := hle dt hdt
        omega
      · exact (List.count_eq_zero.mpr hdt).symm
    · rfl
  · rename_i hpos
    obtain ⟨source, hsource, ht, hr⟩ := hscan.resolve_left hpos
    have hstart := reads_pos hpos
    rw [wp_bind]
    apply wp_files_opMalloc hrefused
    · intro middle hmiddle hcontent
      simp only [hsource, ht, hr, Bool.not_true, Bool.false_eq_true, ite_false]
      apply wp_mono _ (wp_files_opLoop cmd hdest (hattained hpos) hle _ (hmiddle.refused.trans hrefused) (reads n) 0
        (by omega) 0 _ _ _ 0)
      · intro after result hsurveyed
        have hall := hsurveyed.after hmiddle fun dt i => Nat.zero_add _
        refine ⟨hall.1, fun h => ⟨(hall.2 h).1, fun he => (hall.2 h).2 ?_⟩⟩
        obtain ⟨dt, _, rfl⟩ := hattained hpos
        exact hexact he dt
      · intro dt
        rw [hcontent]
        exact hlength dt
      · intro _
        rw [Nat.zero_mul]
        rfl
      · intro _
        rw [Nat.zero_mul]
        decide
      · exact fun h => absurd h hstart
    · intro after hafter
      exact Surveyed.of_refused hafter (by decide)

end Bitop

section Answers

-- A request as parse_and_execute hands it over: only BITOP without a hook has a
-- destination.
inductive Query where
  | bitcount (cmd : BitcountCmd) (dt : Slot)
  | bitop (cmd : BitopCmd) (dest : Slot) (dts : List (Option Slot))

def Query.command : Query → Cmd Int
  | .bitcount cmd dt => bitcountCommand cmd dt
  | .bitop cmd dest dts => bitopCommand cmd (if cmd.hook = .NONE then some dest else none) dts

-- The bytes of the range of BITCOUNT.
def ByteIn (cmd : BitcountCmd) (length : Nat) (i : Nat) : Prop :=
  ¬(cmd.start < 0 ∧ cmd.stop < 0 ∧ cmd.start > cmd.stop) ∧ indexFrom length cmd.start ≤ i ∧
    (i : Int) ≤ min (indexFrom length cmd.stop) (length - 1)

instance (cmd : BitcountCmd) (length i : Nat) : Decidable (ByteIn cmd length i) := by
  unfold ByteIn
  infer_instance

-- How often a byte has to be read: once for every source it belongs to.
def Query.wants (length : Slot → Nat) : Query → Slot → Nat → Nat
  | .bitcount cmd dt, dt', i => if dt = dt' ∧ ByteIn cmd (length dt) i then 1 else 0
  | .bitop _ _ dts, dt, i => if i < length dt then dts.count (some dt) else 0

variable {fs : Files}

theorem wp_files_bitcountCommand (cmd : BitcountCmd) (dt : Slot) (hrefused : fs.refused = false) :
    (bitcountCommand cmd dt).wp fileContract
      (fun after result => Surveyed True
        ((Query.bitcount cmd dt).wants (fun dt => (fs.content dt).length)) fs after result) fs := by
  have hnone : (∀ i, ¬ByteIn cmd (fs.content dt).length i) → Fetched
      ((Query.bitcount cmd dt).wants (fun dt => (fs.content dt).length)) fs fs := by
    intro h
    apply (Fetched.refl fs).congr
    intro dt' i
    rw [Query.wants, if_neg fun hin => h i hin.2]
  have hlo := indexFrom_nonneg (fs.content dt).length cmd.start
  apply (files_measured fs dt).wp
  simp only [bitcountRange_eq]
  split
  · rename_i hboth
    exact Surveyed.of_fetched hrefused (hnone fun i h => h.1 hboth) fun _ => by decide
  · rename_i hrange
    split
    · rename_i hgt
      exact Surveyed.of_fetched hrefused (hnone fun i h => by have := h.2; omega) fun _ => by decide
    · rename_i hle
      apply wp_files_posixMemalign
      · intro middle hmiddle hcontent
        simp only [Bool.not_true, Bool.false_eq_true, ite_false]
        apply wp_mono _ (wp_files_bitcountLoop (Nat.le_refl _) (by rw [hcontent]; omega) 0)
        rintro after result ⟨hresult, hfetched⟩
        have hall := hmiddle.trans hfetched
        refine Surveyed.of_fetched (hall.refused.trans hrefused) (hall.congr ?_) fun _ => hresult
        intro dt' i
        have hin : (indexFrom (fs.content dt).length cmd.start).toNat ≤ i ∧
            i < (indexFrom (fs.content dt).length cmd.start).toNat +
              (min (indexFrom (fs.content dt).length cmd.stop) ((fs.content dt).length - 1) -
                indexFrom (fs.content dt).length cmd.start + 1).toNat ↔ ByteIn cmd (fs.content dt).length i := by
          simp only [ByteIn, hrange, not_false_eq_true, true_and]
          omega
        simp only [stretch, Query.wants, Nat.zero_add, hin]
      · intro after hafter
        exact Surveyed.of_refused hafter (by decide)

theorem wp_files_query (query : Query) (hrefused : fs.refused = false) :
    query.command.wp fileContract
      (fun after result => Surveyed (∀ dt, (fs.content dt).length < 2 ^ 31)
        (query.wants fun dt => (fs.content dt).length) fs after result) fs := by
  cases query with
  | bitcount cmd dt =>
      refine wp_mono (fun after result h => ?_) (wp_files_bitcountCommand cmd dt hrefused)
      exact ⟨h.1, fun hr => ⟨(h.2 hr).1, fun _ => (h.2 hr).2 trivial⟩⟩
  | bitop cmd dest dts =>
      have hdest : cmd.hook = .NONE → (if cmd.hook = .NONE then some dest else none) ≠ none := by
        intro hhook
        rw [if_pos hhook]
        exact Option.some_ne_none dest
      refine wp_mono (fun after result h => ?_) (wp_files_bitopCommand cmd hdest hrefused)
      have hwant : dueFrom (fun dt => (fs.content dt).length) dts 0 =
          (Query.bitop cmd dest dts).wants fun dt => (fs.content dt).length := by
        funext dt i
        simp only [dueFrom, Query.wants, Nat.zero_mul, Nat.zero_le, true_and]
      rwa [hwant] at h

-- A call that does what it is asked for: a read, and any other.
def Faults.Reads (faults : Faults) (fs : Files) : Act → Prop
  | .readFrom _ _ offset => faults.fails fs.acts = false ∧ 0 ≤ offset
  | _ => True

def Faults.Serves (faults : Faults) (fs : Files) : Act → Prop
  | .writeTo _ _ offset => faults.fails fs.acts = false ∧ 0 ≤ offset
  | .posixMemalign => faults.fails fs.acts = false
  | _ => True

theorem sound_handle (faults : Faults) (fs : Files) (action : Act) :
    (faults.handle action fs).2.Sound ↔ fs.Sound ∧ faults.Reads fs action := by
  cases action with
  | readFrom dt size offset =>
      simp only [Faults.handle, Files.answer, Faults.Reads]
      cases faults.fails fs.acts with
      | true => simp [Files.Sound]
      | false =>
          by_cases hneg : offset < 0
          · simp [Files.Sound, hneg]
          · simp [Files.Sound, hneg, not_lt.mp hneg]
  | writeTo dt buf offset =>
      simp only [Faults.handle, Files.answer, Faults.Reads, and_true]
      split <;> rfl
  | descLength dt => exact (and_iff_left trivial).symm
  | posixMemalign => exact (and_iff_left trivial).symm
  | prepareFile key mode => exact (and_iff_left trivial).symm
  | releaseDesc dt => exact (and_iff_left trivial).symm
  | reply text len => exact (and_iff_left trivial).symm

theorem refused_handle (faults : Faults) (fs : Files) (action : Act) :
    (faults.handle action fs).2.refused = false ↔ fs.refused = false ∧ faults.Serves fs action := by
  cases action with
  | readFrom dt size offset =>
      simp only [Faults.handle, Files.answer, Faults.Serves, and_true]
      split
      · rfl
      · split <;> rfl
  | writeTo dt buf offset =>
      simp only [Faults.handle, Files.answer, Faults.Serves]
      split
      · rename_i hfails
        simp only [reduceCtorEq, false_iff, not_and]
        rintro _ hworks hoffset
        rcases hfails with hfails | hneg
        · exact absurd (hfails.symm.trans hworks) nofun
        · omega
      · rename_i hworks
        rw [not_or, Bool.not_eq_true, not_lt] at hworks
        exact (and_iff_left hworks).symm
  | posixMemalign => exact Bool.or_eq_false_iff
  | descLength dt => exact (and_iff_left trivial).symm
  | prepareFile key mode => exact (and_iff_left trivial).symm
  | releaseDesc dt => exact (and_iff_left trivial).symm
  | reply text len => exact (and_iff_left trivial).symm

variable (faults : Faults) (content : Slot → Bytes) (query : Query)

-- A request alone on the files.
def Query.run : Int × Files := query.command.exec faults.handle { content := content }

-- An answer that is no failure was computed from every byte.
def Query.Answers : Prop :=
  0 ≤ (query.run faults content).1 →
    ∀ dt i, query.wants (fun dt => (content dt).length) dt i ≤ got (query.run faults content).2.readings dt i

-- No read fails, or another call does, which the request notices.
def Query.Spared : Prop :=
  query.command.Along faults.handle faults.Reads { content := content } ∨
    ¬query.command.Along faults.handle faults.Serves { content := content }

theorem faults_contract {fs fs' : Files} (action : Act) (h : fs = fs') :
    ∃ after, fileContract.answers fs action (faults.handle action fs').1 after ∧
      after = (faults.handle action fs').2 := by
  subst h
  exact ⟨_, ⟨_, _, rfl⟩, rfl⟩

theorem query_surveyed : Surveyed (∀ dt, (content dt).length < 2 ^ 31)
    (query.wants fun dt => (content dt).length) { content := content } (query.run faults content).2
    (query.run faults content).1 := by
  have hwp := @wp_files_query { content := content } query rfl
  obtain ⟨after, hpost, hafter⟩ := @wp_exec _ _ _ _ _ _ faults.handle Eq (fun _ _ => True)
    (fun _ _ action h _ _ => faults_contract faults action h) _ _ _ _ hwp rfl
    ((Only.of_true _).along (fun _ _ _ => trivial) _)
  rwa [hafter] at hpost

theorem query_reads : (query.run faults content).2.Sound ↔
    query.command.Along faults.handle faults.Reads { content := content } :=
  (exec_iff_along (sound_handle faults) query.command _).trans (and_iff_right nofun)

theorem query_serves : (query.run faults content).2.refused = false ↔
    query.command.Along faults.handle faults.Serves { content := content } :=
  (@exec_iff_along _ _ _ _ faults.handle faults.Serves (fun fs : Files => fs.refused = false)
    (refused_handle faults) query.command _).trans (and_iff_right rfl)

-- A request that meets no failing read answers from all of its bytes, or fails.
-- Files within the limit leave no other way to do so.
theorem answers_read_iff : (query.Spared faults content → query.Answers faults content) ∧
    ((∀ dt, (content dt).length ≤ FILE_SIZE_LIMIT) →
      query.Answers faults content → query.Spared faults content) := by
  obtain ⟨hrefused, hkept⟩ := query_surveyed faults content query
  rw [Query.Spared, ← query_reads, ← query_serves, Bool.not_eq_false]
  refine ⟨?_, ?_⟩
  · rintro hspared hresult dt i
    cases hr : (query.run faults content).2.refused with
    | true =>
        have hneg := hrefused hr
        omega
    | false =>
        have hsound := hspared.resolve_right fun h => absurd (hr.symm.trans h) nofun
        have hgot := ((hkept hr).1 hsound).got hsound dt i
        exact Nat.le_trans (Nat.le_add_left _ _) hgot
  · intro hlimit hanswers
    by_contra hnot
    rw [not_or, Bool.not_eq_true] at hnot
    obtain ⟨hunsound, hr⟩ := hnot
    have hexact : ∀ dt, (content dt).length < 2 ^ 31 := fun dt => Nat.lt_succ_of_le (hlimit dt)
    obtain ⟨hresult, hfetched⟩ := (hkept hr).2 hexact
    -- A failed reading has left out a byte that was asked for only as often as
    -- it is wanted.
    obtain ⟨r, hr, hfailed⟩ := not_forall₂.mp hunsound
    have hlt := got_lt_asked (hfetched.formed nofun) hr (Bool.not_eq_false _ ▸ hfailed)
    have hasked := hfetched.asked r.dt r.offset.toNat
    have hall := hanswers hresult r.dt r.offset.toNat
    have hstart : asked [] r.dt r.offset.toNat = 0 := rfl
    rw [show ({ content := content } : Files).readings = [] from rfl, hstart, Nat.zero_add] at hasked
    omega

-- The second call fails, the read after the allocation: BITCOUNT of one full
-- byte is 0, and BITOP OR stores a zero byte and returns its length.
theorem failed_read_answered :
    let faults : Faults := { fails := fun k => k = 1, stray := fun _ => [] }
    let content : Slot → Bytes := fun dt => if dt = 0 then [255] else []
    let count : Query := .bitcount { start := 0, stop := -1 } 0
    let op : Query := .bitop { option := .OR, hook := .NONE, key := [], count := 1 } 1 [some 0]
    ((count.run faults content).1 = 0 ∧ ¬count.Answers faults content) ∧
      (op.run faults content).1 = 1 ∧ (op.run faults content).2.content 1 = [0] ∧ ¬op.Answers faults content := by
  refine ⟨⟨by decide, fun h => ?_⟩, by decide, by decide, fun h => ?_⟩
  · exact absurd (h (by decide) 0 0) (by decide)
  · exact absurd (h (by decide) 0 0) (by decide)

end Answers

end Solidbits
