import Solidbits.Jobs.Bits

namespace Solidbits

open Prog Transition

section Requests

-- The requests on one descriptor.
inductive BitCmd where
  | setbit (cmd : SetbitCmd)
  | getbit (cmd : GetbitCmd)
  | bitcount (cmd : BitcountCmd)

def BitCmd.command (dt : Slot) : BitCmd → Cmd Int
  | .setbit cmd => setbitCommand cmd dt
  | .getbit cmd => getbitCommand cmd dt
  | .bitcount cmd => bitcountCommand cmd dt

-- What each replies if the bitmap stands still.
def BitCmd.answer (content : Bytes) : BitCmd → Int
  | .setbit cmd => bitAt content cmd.offset
  | .getbit cmd => bitAt content cmd.offset
  | .bitcount cmd => bitsInRange content cmd.start cmd.stop

-- What the parser makes sure of.
def BitCmd.Checked : BitCmd → Prop
  | .setbit cmd => 0 ≤ cmd.offset ∧ (cmd.value = 0 ∨ cmd.value = 1)
  | .getbit cmd => 0 ≤ cmd.offset
  | .bitcount _ => True

end Requests

section Drawn

variable {ι : Type} {cmds : ι → BitCmd} {content s : Bytes} {n : Nat} {byte : UInt8}

-- A SETBIT asks for the bit.
def Asked (cmds : ι → BitCmd) (offset : Nat) (value : Int) : Prop :=
  ∃ i cmd, cmds i = .setbit cmd ∧ cmd.offset = offset ∧ cmd.value = value

-- Every bit of a byte is that of the bitmap, or one that was asked for.
def DrawnByte (cmds : ι → BitCmd) (content : Bytes) (n : Nat) (byte : UInt8) : Prop :=
  ∀ k : Nat, k < 8 → bitOf byte k = bitAt content (8 * n + k : Nat) ∨ Asked cmds (8 * n + k) (bitOf byte k)

-- A bitmap that has lost no bit but those that were asked to go, and has no other
-- new ones than those that were asked for.
structure Drawn (cmds : ι → BitCmd) (content s : Bytes) : Prop where
  longer : content.length ≤ s.length
  bytes : ∀ n, DrawnByte cmds content n (Padded.get s n)

theorem drawnByte_self (cmds : ι → BitCmd) (content : Bytes) (n : Nat) :
    DrawnByte cmds content n (Padded.get content n) :=
  fun _ hk => Or.inl (bitAt_byte content n hk).symm

theorem Drawn.refl (cmds : ι → BitCmd) (content : Bytes) : Drawn cmds content content :=
  ⟨Nat.le_refl _, drawnByte_self cmds content⟩

theorem Drawn.overwrite (h : Drawn cmds content s) {offset : Nat} {bytes : Bytes}
    (hbytes : ∀ j < bytes.length, DrawnByte cmds content (offset + j) (Padded.get bytes j)) :
    Drawn cmds content (Padded.overwrite s offset bytes) := by
  refine ⟨Nat.le_trans h.longer (Padded.le_overwrite_length _ _ _), fun n => ?_⟩
  rw [Padded.get_overwrite]
  split
  · rename_i hin
    have hj := hbytes (n - offset) (by omega)
    rwa [show offset + (n - offset) = n by omega] at hj
  · exact h.bytes n

theorem DrawnByte.withBit (h : DrawnByte cmds content n byte) {i : ι} {cmd : SetbitCmd} (hcmd : cmds i = .setbit cmd)
    (hchecked : (cmds i).Checked) (hn : byteOffset cmd.offset = n) :
    DrawnByte cmds content n (withBit byte cmd.offset cmd.value) := by
  rw [hcmd] at hchecked
  obtain ⟨hoffset, hvalue⟩ := hchecked
  intro k hk
  rw [bitOf_withBit _ _ _ hvalue]
  split
  · rename_i hsame
    refine Or.inr ⟨i, cmd, hcmd, ?_, rfl⟩
    unfold byteOffset at hn
    omega
  · exact h k hk

-- A bitmap that is filled up with zeros is the same one.
def padTo (length : Nat) (content : Bytes) : Bytes := content ++ List.replicate (length - content.length) 0

theorem padTo_length {length : Nat} (hle : content.length ≤ length) : (padTo length content).length = length := by
  rw [padTo, List.length_append, List.length_replicate]
  omega

theorem Drawn.padTo (h : Drawn cmds content s) (length : Nat) : Drawn cmds content (padTo length s) := by
  have hget : ∀ n, Padded.get (Solidbits.padTo length s) n = Padded.get s n := by
    intro n
    rcases Nat.lt_or_ge n s.length with hlt | hge
    · exact List.getD_append _ _ _ _ hlt
    · rw [Padded.get_of_le hge, Padded.get, Solidbits.padTo, List.getD_append_right _ _ _ _ hge]
      rw [List.getD_eq_getElem?_getD, List.getElem?_replicate]
      split <;> rfl
  refine ⟨?_, fun n => ?_⟩
  · rw [Solidbits.padTo, List.length_append]
    exact Nat.le_trans h.longer (Nat.le_add_right _ _)
  · rw [hget]
    exact h.bytes n

theorem slice_overwrite {xs ys : Bytes} {offset : Nat} (hfits : offset + ys.length ≤ xs.length) :
    Padded.slice (Padded.overwrite xs offset ys) offset ys.length = ys := by
  have hlong := Padded.le_overwrite_length xs ys offset
  have hlength : (Padded.slice (Padded.overwrite xs offset ys) offset ys.length).length = ys.length := by
    rw [Padded.slice_length]
    omega
  apply Padded.ext hlength
  intro i hi
  rw [Padded.get_slice, if_pos (by omega), Padded.get_overwrite, if_pos (by omega), Nat.add_sub_cancel_left]

end Drawn

section Contract

variable {ι : Type} (cmds : ι → BitCmd) (content : Bytes) (dt : Slot)

-- What a request does to the bitmap and what it may be told while the others are
-- at work. The ghost is the length that it has seen.
def drawnAllowed : Act → Prop
  | .descLength slot => slot = dt
  | .readFrom slot _ offset => slot = dt ∧ 0 ≤ offset
  | .writeTo slot buf offset => slot = dt ∧ ∃ (n : Nat) (byte : UInt8), offset = n ∧ buf = [byte] ∧ DrawnByte cmds content n byte
  | .posixMemalign => True
  | _ => False

def drawnAnswers (length : Nat) : (action : Act) → Res action → Nat → Prop
  | .descLength _, answer, after => content.length ≤ answer ∧ after = answer
  | .readFrom _ size offset, answer, after => after = length ∧
      ∃ s, Drawn cmds content s ∧ length ≤ s.length ∧
        answer = Received.all (Padded.slice s offset.toNat size)
  | .writeTo _ buf _, answer, after => after = length ∧ answer = buf.length
  | .posixMemalign, answer, after => after = length ∧ answer = true
  | _, _, after => after = length

def drawnContract : Contract Act Res Nat where
  allowed := fun _ => drawnAllowed cmds content dt
  answers := drawnAnswers cmds content

-- The reply of a request is that to some bitmap that could have stood there.
def Explained (i : ι) (reply : Int) : Prop := ∃ s, Drawn cmds content s ∧ reply = (cmds i).answer s

end Contract

section Programs

variable {ι : Type} {cmds : ι → BitCmd} {content : Bytes} {dt : Slot} {i : ι} {length : Nat}

theorem wp_setbitWrite_drawn {cmd : SetbitCmd} (hcmd : cmds i = .setbit cmd) (hchecked : (cmds i).Checked)
    {byteval : UInt8} (hbyte : DrawnByte cmds content (byteOffset cmd.offset) byteval)
    (hreply : Explained cmds content i (bitOf byteval cmd.offset)) :
    (setbitWrite cmd dt byteval).wp (drawnContract cmds content dt) (fun _ => Explained cmds content i) length := by
  rw [setbitWrite_eq]
  refine ⟨⟨rfl, _, _, rfl, rfl, hbyte.withBit hcmd hchecked rfl⟩, ?_⟩
  rintro answer _ ⟨rfl, rfl⟩
  exact hreply

theorem wp_setbitCommand_drawn {cmd : SetbitCmd} (hcmd : cmds i = .setbit cmd) (hchecked : (cmds i).Checked) :
    (setbitCommand cmd dt).wp (drawnContract cmds content dt) (fun _ => Explained cmds content i) length := by
  have hanswer : ∀ s, (cmds i).answer s = bitAt s cmd.offset := by
    intro s
    rw [hcmd]
    rfl
  rw [setbitCommand_eq]
  refine ⟨rfl, ?_⟩
  rintro _ seen ⟨hseen, rfl⟩
  beta_reduce
  split
  · rename_i hlt
    refine ⟨⟨rfl, Int.natCast_nonneg _⟩, ?_⟩
    rintro dst _ ⟨rfl, s, hs, hlong, rfl⟩
    rw [Int.toNat_natCast, slice_one (Nat.lt_of_lt_of_le hlt hlong)]
    exact wp_setbitWrite_drawn hcmd hchecked (hs.bytes _) ⟨s, hs, (hanswer s).symm⟩
  · rename_i hpast
    have hzero : bitAt content cmd.offset = 0 := bitAt_past (Nat.le_trans hseen (Nat.not_lt.mp hpast))
    have hreply : Explained cmds content i 0 := ⟨content, .refl _ _, by rw [hanswer, hzero]⟩
    split
    · exact hreply
    · refine wp_setbitWrite_drawn hcmd hchecked ?_ (by rwa [bitOf_zero])
      have hget := Padded.get_of_le (Nat.le_trans hseen (Nat.not_lt.mp hpast))
      rw [← hget]
      exact drawnByte_self _ _ _

theorem wp_getbitCommand_drawn {cmd : GetbitCmd} (hcmd : cmds i = .getbit cmd) :
    (getbitCommand cmd dt).wp (drawnContract cmds content dt) (fun _ => Explained cmds content i) length := by
  have hanswer : ∀ s, (cmds i).answer s = bitAt s cmd.offset := by
    intro s
    rw [hcmd]
    rfl
  rw [getbitCommand_eq]
  refine ⟨rfl, ?_⟩
  rintro _ seen ⟨hseen, rfl⟩
  beta_reduce
  split
  · rename_i hlt
    refine ⟨⟨rfl, Int.natCast_nonneg _⟩, ?_⟩
    rintro dst _ ⟨rfl, s, hs, hlong, rfl⟩
    rw [Int.toNat_natCast, slice_one (Nat.lt_of_lt_of_le hlt hlong)]
    exact ⟨s, hs, (hanswer s).symm⟩
  · rename_i hpast
    refine ⟨content, .refl _ _, ?_⟩
    rw [hanswer, bitAt_past (Nat.le_trans hseen (Nat.not_lt.mp hpast))]

-- The chunks that a BITCOUNT reads, at different times, make one bitmap.
theorem wp_bitcountLoop_drawn {lo fuel remaining : Nat} {seen : Bytes} (hfuel : remaining ≤ fuel)
    (hin : lo + seen.length + remaining ≤ length)
    (hseen : ∀ j < seen.length, DrawnByte cmds content (lo + j) (Padded.get seen j)) {post : Nat → Int → Prop}
    (hpost : ∀ all : Bytes, all.length = seen.length + remaining →
      (∀ j < all.length, DrawnByte cmds content (lo + j) (Padded.get all j)) → post length (onesIn all : Nat)) :
    (bitcountLoop dt fuel remaining (lo + seen.length) (onesIn seen)).wp (drawnContract cmds content dt) post length := by
  induction fuel generalizing remaining seen with
  | zero =>
      have hdone := Nat.le_zero.mp hfuel
      exact hpost seen (by rw [hdone, Nat.add_zero]) hseen
  | succ fuel ih =>
      unfold bitcountLoop
      split
      · rename_i hdone
        exact hpost seen (by rw [hdone, Nat.add_zero]) hseen
      · rename_i hmore
        have hbuffer : 0 < FILE_BUFFER_SIZE := by decide
        refine (wp_ask _ _ (Act.readFrom dt _ _) _ length).mpr ⟨⟨rfl, Int.natCast_nonneg _⟩, ?_⟩
        rintro chunk _ ⟨rfl, s, hs, hlong, rfl⟩
        rw [Int.toNat_natCast]
        have hlength : (Padded.slice s (lo + seen.length) (min remaining FILE_BUFFER_SIZE)).length =
            min remaining FILE_BUFFER_SIZE := by
          rw [Padded.slice_length]
          omega
        have hbytes : ∀ j < min remaining FILE_BUFFER_SIZE, DrawnByte cmds content (lo + (seen.length + j))
            (Padded.get (Padded.slice s (lo + seen.length) (min remaining FILE_BUFFER_SIZE)) j) := by
          intro j hj
          rw [Padded.get_slice, if_pos hj, ← Nat.add_assoc]
          exact hs.bytes _
        generalize Padded.slice s (lo + seen.length) (min remaining FILE_BUFFER_SIZE) = chunk at hlength hbytes
        have hmoved : ¬(Received.all chunk).r = 0 := by
          rw [all_r]
          omega
        rw [if_neg hmoved, all_r, all_buf, redisPopcount_eq, List.take_length, ← onesIn_append, Nat.add_assoc,
          ← List.length_append]
        apply ih
        · omega
        · rw [List.length_append]
          omega
        · intro j hj
          rw [List.length_append] at hj
          rcases Nat.lt_or_ge j seen.length with hlt | hge
          · rw [Padded.get, List.getD_append _ _ _ _ hlt]
            exact hseen j hlt
          · have hbyte := hbytes (j - seen.length) (by omega)
            rw [show seen.length + (j - seen.length) = j by omega] at hbyte
            rw [Padded.get, List.getD_append_right _ _ _ _ hge]
            exact hbyte
        · intro all hall hdrawn
          rw [List.length_append] at hall
          exact hpost all (by omega) hdrawn

theorem wp_bitcountCommand_drawn {cmd : BitcountCmd} (hcmd : cmds i = .bitcount cmd) :
    (bitcountCommand cmd dt).wp (drawnContract cmds content dt) (fun _ => Explained cmds content i) length := by
  have hanswer : ∀ s, (cmds i).answer s = bitsInRange s cmd.start cmd.stop := by
    intro s
    rw [hcmd]
    rfl
  refine (wp_ask _ _ (Act.descLength dt) _ length).mpr ⟨rfl, ?_⟩
  rintro _ strlen ⟨hlong, rfl⟩
  have hpadded : Drawn cmds content (padTo strlen content) := Drawn.padTo (.refl _ _) strlen
  have hlength := padTo_length hlong
  have hlo := indexFrom_nonneg strlen cmd.start
  simp only [bitcountRange_eq]
  split
  · rename_i hboth
    exact ⟨content, .refl _ _, by rw [hanswer, bitsInRange, if_pos hboth]; rfl⟩
  · rename_i hrange
    split
    · rename_i hgt
      refine ⟨padTo strlen content, hpadded, ?_⟩
      rw [hanswer, bitsInRange, if_neg hrange, hlength, bitsBetween_empty hgt]
      rfl
    · rename_i hle
      refine (wp_ask _ _ Act.posixMemalign _ strlen).mpr ⟨trivial, ?_⟩
      rintro ok after ⟨hafter, rfl⟩
      rw [show after = strlen from hafter]
      simp only [Bool.not_true, Bool.false_eq_true, ite_false]
      apply @wp_bitcountLoop_drawn ι cmds content dt strlen (indexFrom strlen cmd.start).toNat _
        (min (indexFrom strlen cmd.stop) (strlen - 1) - indexFrom strlen cmd.start + 1).toNat [] (Nat.le_refl _)
      · rw [List.length_nil]
        omega
      · exact fun j hj => absurd hj (Nat.not_lt_zero j)
      · intro all hall hdrawn
        rw [List.length_nil, Nat.zero_add] at hall
        have hfits : (indexFrom strlen cmd.start).toNat + all.length ≤ (padTo strlen content).length := by omega
        have hwhole : (Padded.overwrite (padTo strlen content) (indexFrom strlen cmd.start).toNat all).length = strlen := by
          have hle := Padded.overwrite_length_le (padTo strlen content) all (indexFrom strlen cmd.start).toNat
          have hge := Padded.le_overwrite_length (padTo strlen content) all (indexFrom strlen cmd.start).toNat
          omega
        refine ⟨_, hpadded.overwrite hdrawn, ?_⟩
        rw [hanswer, bitsInRange, if_neg hrange, hwhole, bitsBetween_slice hlo (by omega) (by omega), ← hall,
          slice_overwrite hfits]

theorem wp_command_drawn (hchecked : (cmds i).Checked) :
    ((cmds i).command dt).wp (drawnContract cmds content dt) (fun _ => Explained cmds content i) length := by
  cases hcmd : cmds i with
  | setbit cmd => exact wp_setbitCommand_drawn hcmd hchecked
  | getbit cmd => exact wp_getbitCommand_drawn hcmd
  | bitcount cmd => exact wp_bitcountCommand_drawn hcmd

end Programs

section Interleaved

variable {ι : Type} [DecidableEq ι]

-- Requests on one descriptor, each on a thread of its own. The ghost is the
-- length that the thread has seen.
abbrev BitPool (ι : Type) := Pool ι Store Act Res Int Nat

def noteLength (_ : Store) (seen : Nat) : (action : Act) → Res action → Nat
  | .descLength _, length => length
  | _, _ => seen

def BitPool.next (jobs : BitPool ι) (label : ι × Choice) : BitPool ι := Pool.step execAct noteLength jobs label

def BitPool.start (cmds : ι → BitCmd) (dt : Slot) (st : Store) : BitPool ι :=
  Pool.start st 0 fun i => (cmds i).command dt

-- Seeks, reads, writes and the allocation of the buffer succeed.
def Choice.Works (choice : Choice) : Prop :=
  choice.seekFails = false ∧ choice.ioFails = false ∧ choice.memoryFails = false

instance (choice : Choice) : Decidable choice.Works := inferInstanceAs (Decidable (_ ∧ _ ∧ _))

variable {cmds : ι → BitCmd} {content : Bytes} {dt : Slot} {st : Store}

-- The descriptor while the requests are at work.
def Stands (cmds : ι → BitCmd) (content : Bytes) (dt : Slot) (st : Store) : Prop :=
  ∃ s, Stream dt st s s.length false ∧ Drawn cmds content s

omit [DecidableEq ι] in
theorem Stands.act (h : Stands cmds content dt st) {seen : Nat} (hseen : seen ≤ (st.descs dt).length) {choice : Choice}
    (hworks : choice.Works) {action : Act}
    (hallowed : drawnAllowed cmds content dt action) :
    drawnAnswers cmds content seen action (execAct choice action st).1
      (noteLength (execAct choice action st).2 seen action (execAct choice action st).1) ∧
    Stands cmds content dt (execAct choice action st).2 ∧
    (st.descs dt).length ≤ ((execAct choice action st).2.descs dt).length := by
  obtain ⟨s, hstream, hdrawn⟩ := h
  obtain ⟨hseek, hio, hmemory⟩ := hworks
  have hlength := hstream.length
  cases action with
  | descLength slot =>
      obtain rfl : slot = dt := hallowed
      have hlong := hdrawn.longer
      rw [← hlength] at hlong
      exact ⟨⟨hlong, rfl⟩, ⟨s, hstream, hdrawn⟩, Nat.le_refl _⟩
  | readFrom slot size offset =>
      obtain ⟨rfl, hoffset⟩ := hallowed
      have hread := (readFrom_indicates hstream.opened choice size offset).2.2 (by rw [hio]; rfl)
        (by simp [hseek, hoffset])
      have hafter := hstream.readFrom (fun hfails => absurd (hfails.symm.trans hseek) nofun) size offset
      rw [hio] at hafter
      refine ⟨⟨rfl, s, hdrawn, hlength ▸ hseen, ?_⟩, ⟨s, hafter, hdrawn⟩, ?_⟩
      · rw [← hstream.shown]
        exact hread
      · rw [hlength]
        exact Nat.le_of_eq hafter.length.symm
  | writeTo slot buf offset =>
      obtain ⟨rfl, n, byte, rfl, rfl, hbyte⟩ := hallowed
      obtain ⟨hanswer, hafter⟩ := @Stream.writeTo _ _ _ _ _ hstream choice [byte] n hseek hio
      have hlong : (Padded.overwrite s n [byte]).length = max s.length (n + [byte].length) :=
        Padded.overwrite_length _ _ _ (List.cons_ne_nil _ _)
      simp only [Bool.false_eq_true, ite_false, ← hlong] at hanswer hafter
      refine ⟨⟨rfl, hanswer⟩, ⟨_, hafter, hdrawn.overwrite ?_⟩, ?_⟩
      · intro j hj
        rw [List.length_singleton, Nat.lt_one_iff] at hj
        rw [hj]
        exact hbyte
      · rw [hlength]
        exact Nat.le_trans (Padded.le_overwrite_length _ _ _) (Nat.le_of_eq hafter.length.symm)
  | posixMemalign =>
      refine ⟨⟨rfl, ?_⟩, ⟨s, hstream, hdrawn⟩, Nat.le_refl _⟩
      show (!choice.memoryFails) = true
      rw [hmemory]
      rfl
  | prepareFile key mode => exact hallowed.elim
  | releaseDesc slot => exact hallowed.elim
  | reply text len => exact hallowed.elim

-- SETBITs, GETBITs and BITCOUNTs of one descriptor, however their steps interleave
-- and even if one SETBIT undoes another: a bit that nobody asks for never changes,
-- and each reply, the count of a file read in many pieces too, is the reply to one
-- bitmap that differs from the first only in bits that were asked for.
theorem replies_explained (cmds : ι → BitCmd) (hready : Ready dt st) (hchecked : ∀ i, (cmds i).Checked)
    (labels : List (ι × Choice)) (hworks : ∀ label ∈ labels, label.2.Works) :
    AllStates BitPool.next
      (fun jobs => Drawn cmds (st.shown dt) (jobs.shared.shown dt) ∧
        ∀ i reply, (jobs.threads i).prog = .ret reply →
          ∃ s, Drawn cmds (st.shown dt) s ∧ reply = (cmds i).answer s)
      (BitPool.start cmds dt st) labels := by
  refine (allStates_of_invariant BitPool.next
    (fun jobs => jobs.Guarded (drawnContract cmds (st.shown dt) dt) (fun i _ => Explained cmds (st.shown dt) i)
      (fun seen shared => seen ≤ (shared.descs dt).length) (Stands cmds (st.shown dt) dt)) ?_ ?_
    (AllSteps.of_labels BitPool.next hworks _)).mono BitPool.next ?_
  · intro jobs label h hworks
    refine h.step label fun seen action hstands hseen hallowed => ?_
    obtain ⟨hanswer, hafter, hlonger⟩ := hstands.act hseen hworks hallowed
    refine ⟨hanswer, ?_, hafter, fun other hother => Nat.le_trans hother hlonger⟩
    refine Nat.le_trans ?_ hlonger
    cases action with
    | descLength slot => exact Nat.le_of_eq (congrArg (fun slot => (jobs.shared.descs slot).length) hallowed)
    | _ => exact hseen
  · exact ⟨⟨_, hready.stream, .refl _ _⟩, fun i => Nat.zero_le _, fun i => wp_command_drawn (hchecked i)⟩
  · rintro jobs ⟨⟨s, hstream, hdrawn⟩, _, hverified⟩
    refine ⟨by rw [hstream.shown]; exact hdrawn, fun i reply hprog => ?_⟩
    have hdone := hverified i
    rw [hprog] at hdone
    exact hdone

-- Two SETBITs both find the file empty, and the second to write undoes the first;
-- the BITCOUNT that runs between the writes counts one bit.
theorem replies_explained_race :
    let cmds : Option Bool → BitCmd := fun i => i.elim (.bitcount { start := 0, stop := 0 }) fun second =>
      .setbit { offset := if second then 1 else 0, value := 1 }
    let jobs := run BitPool.next (BitPool.start cmds 0 newFile)
      [(some false, {}), (some true, {}), (some false, {}), (none, {}), (none, {}), (none, {}), (some true, {})]
    (jobs.threads none).prog.returned = some 1 ∧ Drawn cmds (newFile.shown 0) (jobs.shared.shown 0) := by
  intro cmds jobs
  have hchecked : ∀ i, (cmds i).Checked := by
    intro i
    cases i with
    | none => trivial
    | some second => cases second <;> exact ⟨by decide, Or.inr rfl⟩
  have h := (replies_explained cmds newFile_ready hchecked
    [(some false, {}), (some true, {}), (some false, {}), (none, {}), (none, {}), (none, {}), (some true, {})]
    (by decide)).last
  exact ⟨by decide +kernel, h.1⟩

end Interleaved

end Solidbits
