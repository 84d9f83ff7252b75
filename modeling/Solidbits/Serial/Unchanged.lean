import Solidbits.Serial.Quiet
import Solidbits.Serial.Limit
import Solidbits.Serial.Overwrite

namespace Solidbits

open Prog Transition

section Agreement

variable {g g' g'' : Desk} {α : Type}

-- No path shows anything else, and no request goes by another length.
structure Desk.Agrees (g g' : Desk) : Prop where
  files : g'.files = g.files
  lengths : ∀ hash, g'.lengthAt hash = g.lengthAt hash

theorem Desk.Agrees.refl (g : Desk) : g.Agrees g := ⟨rfl, fun _ => rfl⟩

theorem Desk.Agrees.trans (h : g.Agrees g') (h' : g'.Agrees g'') : g.Agrees g'' :=
  ⟨h'.files.trans h.files, fun hash => (h'.lengths hash).trans (h.lengths hash)⟩

theorem Desk.Agrees.of_recorded (hfiles : g'.files = g.files) (hrecorded : g'.recorded = g.recorded) : g.Agrees g' := by
  refine ⟨hfiles, fun hash => ?_⟩
  rw [Desk.lengthAt, Desk.lengthAt, hfiles, hrecorded]

-- An open that neither truncates nor creates.
theorem agrees_handed {hash : UInt64} {mode : Nat} {answer : Except OpenError Slot}
    (h : Handed g hash mode answer g') (hkeeps : ∀ other length, g.recorded other = some length → g'.recorded other = some length)
    (hfiles : g.recorded hash = none → g'.files = g.files) : g.Agrees g' := by
  cases h with
  | found slot hopen hshown hpin => exact .of_recorded rfl rfl
  | opened slot hclosed hpin hmode =>
      have hsame := hfiles hclosed
      refine ⟨hsame, fun other => ?_⟩
      rw [Desk.lengthAt, Desk.lengthAt, hsame]
      simp only [Desk.pin, Desk.create]
      by_cases ho : other = hash
      · rw [ho, Function.update_self, hclosed]
        rfl
      · rw [Function.update_of_ne ho]
  | missing recorded hclosed hnone hmode hkept =>
      refine Desk.Agrees.of_recorded rfl (funext fun other => ?_)
      show recorded other = g.recorded other
      rcases hkept other with hsame | ⟨hdropped, _⟩
      · exact hsame
      · cases hrecorded : g.recorded other with
        | none => exact hdropped
        | some length => cases hdropped.symm.trans (hkeeps other length hrecorded)
  | full hclosed hpinned => exact .refl g

theorem agrees_quiet {action : Act} {answer : Res action} (hquiet : Quiet action)
    (ha : tryAnswers g action answer g') : g.Agrees g' := by
  cases action with
  | prepareFile key mode =>
      obtain ⟨hhanded, hkeeps⟩ := ha
      refine agrees_handed hhanded hkeeps fun hclosed => ?_
      cases hhanded with
      | found slot hopen hshown hpin => rfl
      | opened slot hclosed hpin hmode =>
          have hone : mode = 1 := hquiet
          have hkept : ¬(mode = 2 ∨ g.files (xxh64 key 0) = none) := by
            rintro (htwo | hnone)
            · omega
            · exact hmode hone hnone
          exact if_neg hkept
      | missing recorded hclosed hnone hmode hkept => rfl
      | full hclosed hpinned => rfl
  | releaseDesc dt =>
      rw [show g' = g.unpin dt from ha]
      exact .of_recorded rfl rfl
  | descLength dt =>
      rw [ha.2]
      exact .refl g
  | readFrom dt size offset =>
      rw [ha.2]
      exact .refl g
  | writeTo dt buf offset => exact hquiet.elim
  | posixMemalign =>
      rw [show g' = g from ha]
      exact .refl g
  | reply text len =>
      rw [show g' = if answer = true then g.reply (text.take len) else g from ha]
      split
      · exact .of_recorded rfl rfl
      · exact .refl g

theorem wp_quiet {prog : Cmd α} {kept : α → Prop} (h : prog.Only Quiet kept) :
    prog.wp tryContract.free (fun last value => g.Agrees last ∧ kept value) g :=
  wp_of_only Desk.Agrees .refl (fun _ _ _ => .trans) (fun _ _ _ _ => agrees_quiet) h

-- A program that only looks leaves everything.
theorem wp_looks {prog : Cmd α} {kept : α → Prop} (h : prog.Only Looks kept) :
    prog.wp tryContract.free (fun last value => last = g ∧ kept value) g := by
  refine wp_of_only (fun g last => last = g) (fun _ => rfl) (fun _ _ _ hm hl => hl.trans hm) ?_ h
  intro g action answer after hlooks ha
  cases action with
  | descLength dt => exact ha.2
  | readFrom dt size offset => exact ha.2
  | posixMemalign => exact ha
  | prepareFile key mode => exact hlooks.elim
  | writeTo dt buf offset => exact hlooks.elim
  | releaseDesc dt => exact hlooks.elim
  | reply text len => exact hlooks.elim

theorem handed_replies {hash : UInt64} {mode : Nat} {answer : Except OpenError Slot}
    (h : Handed g hash mode answer g') : g'.replies = g.replies := by
  cases h <;> rfl

-- Opening the sources of a BITOP.
theorem wp_finds {prog : Cmd α} {kept : α → Prop} (h : prog.Only Finds kept) :
    prog.wp tryContract.free (fun last value => (g.Agrees last ∧ last.replies = g.replies) ∧ kept value) g := by
  refine wp_of_only (fun (g last : Desk) => g.Agrees last ∧ last.replies = g.replies) (fun g => ⟨.refl g, rfl⟩)
    (fun _ _ _ hm hl => ⟨hm.1.trans hl.1, hl.2.trans hm.2⟩) ?_ h
  intro g action answer after hfinds ha
  refine ⟨agrees_quiet hfinds.quiet ha, ?_⟩
  cases action with
  | prepareFile key mode => exact handed_replies ha.1
  | descLength dt => exact hfinds.elim
  | readFrom dt size offset => exact hfinds.elim
  | posixMemalign => exact hfinds.elim
  | writeTo dt buf offset => exact hfinds.elim
  | releaseDesc dt => exact hfinds.elim
  | reply text len => exact hfinds.elim

end Agreement

section Commands

variable {g : Desk}

-- The rules of the actions that are answered in one way.
theorem free_descLength {α : Type} {dt : Slot} {f : Nat → Cmd α} {post : Desk → α → Prop}
    (h : (f (g.length dt)).wp tryContract.free post g) :
    (Cmd.descLength dt >>= f).wp tryContract.free post g := by
  refine (wp_ask tryContract.free post (Act.descLength dt) f g).mpr ⟨trivial, ?_⟩
  rintro _ _ ⟨rfl, rfl⟩
  exact h

theorem free_writeTo {α : Type} {dt : Slot} {buf : Bytes} {offset : Nat} {f : Nat → Cmd α}
    {post : Desk → α → Prop} (h : (f buf.length).wp tryContract.free post (g.write dt offset buf)) :
    (Cmd.writeTo dt buf offset >>= f).wp tryContract.free post g := by
  refine (wp_ask tryContract.free post (Act.writeTo dt buf offset) f g).mpr ⟨trivial, ?_⟩
  intro answer after ha
  have hnonneg : ¬((offset : Nat) : Int) < 0 := by omega
  simp only [Contract.free, tryContract, tryAnswers, deskAnswers, hnonneg, ite_false, Int.toNat_natCast] at ha
  obtain ⟨rfl, rfl⟩ := ha
  exact h

-- A command that fails has changed nothing. It writes no reply.
def Undone (first last : Desk) (result : Int) : Prop :=
  last.replies = first.replies ∧ (result < 0 → first.Agrees last)

theorem free_setbitWrite (cmd : SetbitCmd) (dt : Slot) (byteval : UInt8) :
    (setbitWrite cmd dt byteval).wp tryContract.free
      (fun last result => last.replies = g.replies ∧ 0 ≤ result) g := by
  apply free_writeTo
  refine ⟨rfl, ?_⟩
  unfold bitOf
  split <;> decide

-- A SETBIT fails only on a byte that is recorded but cannot be read.
theorem free_setbitCommand (cmd : SetbitCmd) (dt : Slot) :
    (setbitCommand cmd dt).wp tryContract.free
      (fun last result => Undone g last result ∧ (result < 0 → 0 < g.length dt)) g := by
  have hwrite : ∀ byteval, (setbitWrite cmd dt byteval).wp tryContract.free
      (fun last result => Undone g last result ∧ (result < 0 → 0 < g.length dt)) g := by
    intro byteval
    refine wp_mono ?_ (free_setbitWrite cmd dt byteval)
    rintro last result ⟨hreplies, hnonneg⟩
    have hok : ¬result < 0 := by omega
    exact ⟨⟨hreplies, fun hneg => absurd hneg hok⟩, fun hneg => absurd hneg hok⟩
  apply free_descLength
  split
  · rename_i hlt
    refine (wp_ask tryContract.free _ (Act.readFrom dt 1 _) _ g).mpr ⟨trivial, ?_⟩
    rintro dst _ ⟨_, rfl⟩
    split
    · exact ⟨⟨rfl, fun _ => .refl _⟩, fun _ => by omega⟩
    · exact hwrite _
  · split
    · exact ⟨⟨rfl, fun _ => .refl g⟩, fun hneg => absurd hneg (by decide)⟩
    · exact hwrite 0

-- The loop does not fail as long as its offsets fit into an int.
theorem free_opLoop {cmd : BitopCmd} (hhook : cmd.hook = .NONE) (dest : Slot) {rmax : Nat} (hrmax : 0 < rmax)
    (left : Nat) {sources : List Source} (hsources : 0 < sources.length) {offset : Nat} (hoffset : offset < 2 ^ 31)
    (hend : ∀ rest, left = rest + 1 → offset + rest * FILE_BUFFER_SIZE + rmax < 2 ^ 31) (bits : Nat) :
    (opLoop cmd (some dest) rmax left sources offset bits).wp tryContract.free
      (fun last result => last.replies = g.replies ∧ 0 ≤ result) g := by
  induction left generalizing g sources offset bits with
  | zero =>
      rw [opLoop_done hhook]
      exact ⟨rfl, Int.natCast_nonneg _⟩
  | succ left ih =>
      have hlast := hend left rfl
      rw [opLoop]
      apply wp_seq (wp_looks (opRead_looks offset sources))
      rintro after ⟨bufs, next⟩ ⟨hsame, hbufs, hnext⟩
      rw [hsame]
      have hbuffer : 0 < FILE_BUFFER_SIZE := by decide
      have hsize : 0 < (if left ≠ 0 then FILE_BUFFER_SIZE else rmax) ∧
          offset + (if left ≠ 0 then FILE_BUFFER_SIZE else rmax) < 2 ^ 31 ∧
          ∀ rest, left = rest + 1 →
            offset + (if left ≠ 0 then FILE_BUFFER_SIZE else rmax) + rest * FILE_BUFFER_SIZE + rmax < 2 ^ 31 := by
        cases left with
        | zero => exact ⟨hrmax, by simpa using hlast, fun rest hrest => absurd hrest.symm (Nat.succ_ne_zero rest)⟩
        | succ rest =>
            rw [Nat.succ_mul] at hlast
            rw [if_pos (Nat.succ_ne_zero rest)]
            refine ⟨hbuffer, by omega, fun other hother => ?_⟩
            obtain rfl : rest = other := by omega
            omega
      generalize hsizes : (if left ≠ 0 then FILE_BUFFER_SIZE else rmax) = size at hsize ⊢
      have hne : bufs ≠ [] := List.ne_nil_of_length_pos (by simp only at hbufs; omega)
      have hchunk := (@opChunk_length cmd.option bufs size).2 hne
      have hstored : (opChunk cmd.option bufs size).length ≠ 0 := by omega
      simp only [hhook]
      apply free_writeTo
      rw [if_neg hstored, ← Nat.cast_add, toInt_small hsize.2.1]
      have hmore : 0 < next.length := hnext.symm ▸ hsources
      exact ih (g := g.write dest offset _) hmore hsize.2.1 hsize.2.2 bits

theorem free_bitopCommand {cmd : BitopCmd} (hhook : cmd.hook = .NONE) (dest : Slot) {dts : List (Option Slot)}
    (hsmall : ∀ dt, g.length dt ≤ FILE_SIZE_LIMIT) :
    (bitopCommand cmd (some dest) dts).wp tryContract.free (Undone g) g := by
  rw [bitopCommand, wp_bind]
  apply @wp_opScan _ tryContract.free g g.length dts (fun dt _ => ⟨trivial, fun _ _ ha => ha⟩) 0 0 [] (Or.inl rfl)
  intro maxidx hlongest
  rw [List.nil_append] at hlongest ⊢
  have hfits : (dts.map (lengthIn g.length)).foldl max 0 ≤ FILE_SIZE_LIMIT := by
    apply longestOf_le_iff.mpr
    intro length hlength
    obtain ⟨dt, _, rfl⟩ := List.mem_map.mp hlength
    cases dt with
    | none => exact Nat.zero_le _
    | some dt => exact hsmall dt
  generalize (dts.map (lengthIn g.length)).foldl max 0 = n at hlongest hfits ⊢
  simp only
  split
  · exact ⟨rfl, fun hneg => absurd hneg (by decide)⟩
  · rename_i hn
    apply wp_seq (wp_looks (opMalloc_looks cmd.count))
    rintro after ok ⟨hsame, _⟩
    rw [hsame]
    split
    · exact ⟨rfl, fun _ => .refl g⟩
    · obtain ⟨source, hsource, ht, hr⟩ := hlongest.resolve_left hn
      have hsources : maxidx < (dts.map (sourceIn g.length 0)).length := (List.getElem?_eq_some_iff.mp hsource).1
      simp only [hsource, ht, hr]
      refine wp_mono ?_ (@free_opLoop g cmd hhook dest (lastRead n) (lastRead_pos n).1 (reads n) _
        (by omega) 0 (by decide) ?_ 0)
      · rintro last result ⟨hreplies, hnonneg⟩
        exact ⟨hreplies, fun hneg => absurd hneg (by omega)⟩
      · intro rest hrest
        have hlimit : FILE_SIZE_LIMIT < 2 ^ 31 := by decide
        have hlast := @reads_lastRead n rest (by omega)
        omega

end Commands

section Replies

variable {g : Desk}

theorem not_failed_digit {char : Char} (hdigit : char.isDigit = true) (rest : Bytes) :
    ¬Failed (char.toNat.toUInt8 :: rest) := by
  intro h
  have hhead : char.toNat.toUInt8 = 69 := (List.cons.inj (h : char.toNat.toUInt8 :: rest.take 3 = _)).1
  have hrange := Char.isDigit_iff_toNat.mp hdigit
  have hnat := congrArg UInt8.toNat hhead
  rw [Nat.toUInt8_eq, UInt8.toNat_ofNat'] at hnat
  have h69 : (69 : UInt8).toNat = 69 := rfl
  have hnine : '9'.toNat = 57 := rfl
  omega

-- The reply with a number is no failure.
theorem not_failed_number (n : Nat) : ¬Failed (numberText n) := by
  obtain ⟨char, rest, hdigits⟩ := List.exists_cons_of_ne_nil (@Nat.toDigits_ne_nil n 10)
  have hdigit : char.isDigit = true :=
    Nat.isDigit_of_mem_toDigits (by decide) (by decide) (hdigits ▸ List.mem_cons_self)
  have htext : str (toString (n : Int) ++ "\n") =
      char.toNat.toUInt8 :: (rest.map (fun c => c.toNat.toUInt8) ++ str "\n") := by
    have hnumber : (toString (n : Int)).toList = char :: rest := by
      rw [← hdigits, ← Nat.toList_repr]
      rfl
    rw [str, String.toList_append, hnumber, List.map_append]
    rfl
  rw [numberText, htext]
  exact not_failed_digit hdigit _

-- What a request says: nothing more, or one reply; and what holds if it is an
-- ERR line.
def Verdict (g : Desk) (holds : Desk → Prop) (last : Desk) : Prop :=
  last.replies = g.replies ∨ ∃ reply, last.replies = g.replies ++ [reply] ∧ (Failed reply → holds last)

theorem free_reply {α : Type} {text : Bytes} {len : Nat} {f : Bool → Cmd α} {post : Desk → α → Prop}
    (hlost : (f false).wp tryContract.free post g) (hsent : (f true).wp tryContract.free post (g.reply (text.take len))) :
    (Cmd.reply text len >>= f).wp tryContract.free post g := by
  refine (wp_ask tryContract.free post (Act.reply text len) f g).mpr ⟨trivial, ?_⟩
  intro answer after ha
  obtain rfl : after = if answer = true then g.reply (text.take len) else g := ha
  cases answer with
  | true => exact hsent
  | false => exact hlost

theorem free_releaseAllDescs {holds : Desk → Prop} (hunpin : ∀ last slot, holds last → holds (last.unpin slot))
    (descs : List (Option Slot)) (h : holds g) :
    (releaseAllDescs descs).wp tryContract.free (fun last _ => holds last) g := by
  induction descs generalizing g with
  | nil => exact h
  | cons first descs ih =>
      cases first with
      | none => exact ih h
      | some dt =>
          refine (wp_ask tryContract.free _ (Act.releaseDesc dt) _ g).mpr ⟨trivial, ?_⟩
          rintro _ _ rfl
          exact ih (hunpin g dt h)

-- What does not depend on the references a request holds, nor on its reply.
structure Lasting (holds : Desk → Prop) : Prop where
  unpin : ∀ last slot, holds last → holds (last.unpin slot)
  reply : ∀ last text, holds last → holds (last.reply text)

theorem lasting_agrees (g : Desk) : Lasting g.Agrees :=
  ⟨fun _ _ h => h.trans (.of_recorded rfl rfl), fun _ _ h => h.trans (.of_recorded rfl rfl)⟩

theorem Lasting.and {holds : Desk → Prop} (h : Lasting holds) (other : Prop) :
    Lasting fun last => holds last ∧ other :=
  ⟨fun last slot hl => ⟨h.unpin last slot hl.1, hl.2⟩, fun last text hl => ⟨h.reply last text hl.1, hl.2⟩⟩

theorem Lasting.verdict {holds : Desk → Prop} (h : Lasting holds) (last : Desk) (slot : Slot)
    (hverdict : Verdict g holds last) : Verdict g holds (last.unpin slot) := by
  rcases hverdict with hsame | ⟨reply, hreplies, hfailed⟩
  · exact Or.inl hsame
  · exact Or.inr ⟨reply, hreplies, fun hf => h.unpin last slot (hfailed hf)⟩

theorem free_failed {holds : Desk → Prop} (hlasting : Lasting holds) (h : holds g) (text : String) (len : Nat)
    (descs : List (Option Slot)) :
    (do
      replyStr text len
      releaseAllDescs descs).wp tryContract.free (fun last _ => Verdict g holds last) g := by
  apply free_reply
  · exact free_releaseAllDescs hlasting.verdict descs (Or.inl rfl)
  · exact free_releaseAllDescs hlasting.verdict descs (Or.inr ⟨_, rfl, fun _ => hlasting.reply g _ h⟩)

theorem free_finish {holds : Desk → Prop} (hlasting : Lasting holds) {command : Cmd Int}
    (h : command.wp tryContract.free
      (fun last result => last.replies = g.replies ∧ (result < 0 → holds last)) g)
    (descs : List (Option Slot)) :
    (do
      let result ← command
      replyResult result
      releaseAllDescs descs).wp tryContract.free (fun last _ => Verdict g holds last) g := by
  apply wp_seq h
  rintro last result ⟨hreplies, hholds⟩
  have hverdict : ∀ after, Verdict last holds after → Verdict g holds after := by
    intro after hafter
    rwa [Verdict, hreplies] at hafter
  unfold replyResult
  split
  · rename_i hneg
    exact wp_mono (fun after _ => hverdict after) (free_failed hlasting (hholds hneg) _ _ descs)
  · rename_i hnonneg
    obtain ⟨n, rfl⟩ := Int.eq_ofNat_of_zero_le (Int.not_lt.mp hnonneg)
    apply free_reply
    · exact free_releaseAllDescs hlasting.verdict descs (hverdict _ (Or.inl rfl))
    · refine free_releaseAllDescs hlasting.verdict descs (hverdict _ (Or.inr ⟨_, rfl, fun hf => ?_⟩))
      exact absurd hf (not_failed_number n)

end Replies

section Requests

variable {g after : Desk}

-- No request goes by a length beyond the limit.
def Desk.Small (g : Desk) : Prop := ∀ hash, g.lengthAt hash ≤ FILE_SIZE_LIMIT

theorem Desk.Small.length (h : g.Small) (dt : Slot) : g.length dt ≤ FILE_SIZE_LIMIT := by
  have hhash := h (g.hash dt)
  unfold Desk.lengthAt at hhash
  unfold Desk.length
  cases hrec : g.recorded (g.hash dt) with
  | none => exact Nat.zero_le _
  | some length => rwa [hrec] at hhash

theorem Desk.Agrees.small (h : g.Agrees after) (hsmall : g.Small) : after.Small := by
  intro hash
  rw [h.lengths]
  exact hsmall hash

-- A verdict on what follows the opening of files.
theorem Verdict.back {holds : Desk → Prop} {last : Desk} (h : Verdict after holds last)
    (hreplies : after.replies = g.replies) {holds' : Desk → Prop} (hback : holds last → holds' last) :
    Verdict g holds' last := by
  rw [Verdict, hreplies] at h
  rcases h with hsame | ⟨reply, hreply, hfailed⟩
  · exact Or.inl hsame
  · exact Or.inr ⟨reply, hreply, fun hf => hback (hfailed hf)⟩

-- A BITOP whose destination is open: an ERR line means that nothing is written.
theorem free_bitopSources (hsmall : g.Small) {cmd : BitopCmd} (hhook : cmd.hook = .NONE) (dest : Slot)
    (keys : List Bytes) :
    (bitopSources cmd (some dest) keys).wp tryContract.free (fun last _ => Verdict g g.Agrees last) g := by
  apply wp_seq (wp_finds (prepareFilesLoop_finds keys.reverse []))
  rintro middle answer ⟨⟨hagrees, hreplies⟩, _⟩
  have hback : ∀ last, Verdict middle middle.Agrees last → Verdict g g.Agrees last :=
    fun last hverdict => hverdict.back hreplies hagrees.trans
  split
  · exact wp_mono (fun last _ => hback last) (free_failed (lasting_agrees middle) (.refl middle) _ _ _)
  · refine wp_mono (fun last _ => hback last) (free_finish (lasting_agrees middle) ?_ _)
    exact free_bitopCommand hhook dest (hagrees.small hsmall).length

theorem free_setbitExecute (cmd : SetbitCmd) :
    (setbitExecute cmd).wp tryContract.free (fun last _ => Verdict g g.Agrees last) g := by
  refine (wp_ask tryContract.free _ (Act.prepareFile cmd.key 0) _ g).mpr ⟨trivial, ?_⟩
  rintro answer after ⟨hhanded, hkeeps⟩
  have hreplies := handed_replies hhanded
  cases answer with
  | error error =>
      have hsame : g.Agrees after := agrees_handed hhanded hkeeps fun _ => by
        cases hhanded <;> rfl
      exact wp_mono (fun last _ hverdict => hverdict.back hreplies id)
        (free_failed (lasting_agrees g) hsame _ _ _)
  | ok slot =>
      have hcommand : (setbitCommand cmd slot).wp tryContract.free (fun last result =>
          last.replies = after.replies ∧ (result < 0 → after.Agrees last ∧ 0 < after.length slot)) after :=
        wp_mono (fun _ _ h => ⟨h.1.1, fun hneg => ⟨h.1.2 hneg, h.2 hneg⟩⟩) (free_setbitCommand cmd slot)
      refine wp_mono (fun last _ hverdict => hverdict.back hreplies ?_)
        (free_finish ((lasting_agrees after).and (0 < after.length slot)) hcommand [some slot])
      rintro ⟨hlast, hlong⟩
      refine Desk.Agrees.trans (agrees_handed hhanded hkeeps fun hclosed => ?_) hlast
      cases hhanded with
      | found slot hopen hshown hpin => rfl
      | opened slot hclosed hpin hmode =>
          -- A file that was not there has no byte that could not be read.
          have hthere : ¬(0 = 2 ∨ g.files (xxh64 cmd.key 0) = none) := by
            rintro (htwo | hnone)
            · cases htwo
            · simp [Desk.length, Desk.pin, Desk.create, Contents.length, hnone] at hlong
          exact if_neg hthere

-- The open of a destination, and what follows it.
theorem free_bitopExecute {cmd : BitopCmd} (hhook : cmd.hook = .NONE) (keys : List Bytes) :
    ∃ next, bitopExecute cmd keys = .act (.prepareFile cmd.key 2) next ∧
      ∀ answer, ∀ after : Desk, after.Small →
        (next answer).wp tryContract.free (fun last _ => Verdict after after.Agrees last) after := by
  unfold bitopExecute
  rw [hhook]
  refine ⟨_, rfl, fun answer after hsmall => ?_⟩
  cases answer with
  | error error => exact free_failed (lasting_agrees after) (.refl after) _ _ _
  | ok dest => exact free_bitopSources hsmall hhook dest keys

-- When the open of a destination leaves everything.
theorem truncated_agrees_iff {hash : UInt64} {answer : Except OpenError Slot} (h : Handed g hash 2 answer after) :
    g.Agrees after ↔ g.recorded hash ≠ none ∨ g.files hash = some [] ∨ ∃ error, answer = .error error := by
  cases h with
  | found slot hopen hshown hpin => exact iff_of_true (.of_recorded rfl rfl) (Or.inl hopen)
  | opened slot hclosed hpin hmode =>
      have hafter : g.files.opened hash 2 = Function.update g.files hash (some []) := if_pos (Or.inl rfl)
      constructor
      · rintro ⟨hfiles, _⟩
        have hsame : g.files hash = some [] := by
          rw [← congrFun hfiles hash]
          show g.files.opened hash 2 hash = some []
          rw [hafter, Function.update_self]
        exact Or.inr (Or.inl hsame)
      · rintro (hopen | hempty | ⟨error, herror⟩)
        · exact absurd hclosed hopen
        · have hsame : g.files.opened hash 2 = g.files := by rw [hafter, ← hempty, Function.update_eq_self]
          exact agrees_handed (.opened slot hclosed hpin hmode) (handed_keeps (.opened slot hclosed hpin hmode))
            fun _ => hsame
        · cases herror
  | missing recorded hclosed hnone hmode hkept => cases hmode
  | full hclosed hpinned => exact iff_of_true (.refl g) (Or.inr (Or.inr ⟨_, rfl⟩))

theorem truncated_small (hsmall : g.Small) {hash : UInt64} {mode : Nat} {answer : Except OpenError Slot}
    (h : Handed g hash mode answer after)
    (hkeeps : ∀ other length, g.recorded other = some length → after.recorded other = some length) : after.Small := by
  intro other
  cases h with
  | found slot hopen hshown hpin => exact hsmall other
  | opened slot hclosed hpin hmode =>
      have hother := hsmall other
      simp only [Desk.lengthAt, Desk.pin, Desk.create] at hother ⊢
      by_cases ho : other = hash
      · rw [ho, hclosed] at hother
        rwa [ho, Function.update_self]
      · rwa [Function.update_of_ne ho, Contents.length, opened_of_ne _ _ ho]
  | missing recorded hclosed hnone hmode hkept =>
      have hsame := agrees_handed (.missing recorded hclosed hnone hmode hkept) hkeeps fun _ => rfl
      exact hsame.small hsmall other
  | full hclosed hpinned => exact hsmall other

-- The references of a request are as without failures.
theorem Holds.tryAnswer {held : Holding} (h : Holds held g) (action : Act) (answer : Res action)
    (ha : tryAnswers g action answer after) : ∃ st, Holds (record st held action answer) after := by
  cases action with
  | prepareFile key mode => exact h.answer (.prepareFile key mode) answer ha.1
  | releaseDesc dt => exact h.answer (.releaseDesc dt) answer ha
  | descLength dt => exact h.answer (.descLength dt) answer ha
  | readFrom dt size offset => exact h.answer (.readFrom dt size offset) answer ha
  | writeTo dt buf offset => exact h.answer (.writeTo dt buf offset) answer ha
  | posixMemalign =>
      refine ⟨initFile fun _ => none, ?_⟩
      rw [show after = g from ha]
      exact h
  | reply text len =>
      refine ⟨initFile fun _ => none, ?_⟩
      rw [show after = if answer = true then g.reply (text.take len) else g from ha]
      split <;> exact h

theorem try_request (g : Desk) (request : Request) :
    request.execute.wp tryContract (fun _ _ => True) g := by
  have hstart : Holds {} g := fun slot => Nat.zero_le _
  refine wp_transfer Holds ?_ ?_ (fun _ _ _ _ _ => trivial) hstart (pin_request request)
  · exact fun held g action h hallowed => h.allowed hallowed
  · intro held g action answer after h _ ha
    obtain ⟨st, hafter⟩ := h.tryAnswer action answer ha
    exact ⟨_, ⟨st, rfl⟩, hafter⟩

end Requests

section Runs

variable {choices : Nat → Choice} {disk : Contents} {before : List Bytes} {line : Bytes} {g g' : Desk}
  {s s' : Server} {reply : Bytes}

-- No key changes its bitmap or the length that requests go by.
def Store.Unchanged (st st' : Store) : Prop :=
  ∀ hash, st'.bitmap hash = st.bitmap hash ∧ st'.length hash = st.length hash

-- The server as requests see it that rely on no clock.
structure Tries (g : Desk) (s : Server) : Prop where
  serves : Serves (fun _ => 0) g s
  untimed : ¬g.timed

theorem Tries.lengthAt (h : Tries g s) (hash : UInt64) : s.store.length hash = g.lengthAt hash := by
  rw [Store.length, h.serves.recordedOf, Store.size, h.serves.bitmap]
  rfl

theorem Tries.unchanged_iff (h : Tries g s) (h' : Tries g' s') : s.store.Unchanged s'.store ↔ g.Agrees g' := by
  constructor
  · intro hsame
    constructor
    · funext hash
      rw [← h'.serves.bitmap, ← h.serves.bitmap, (hsame hash).1]
    · intro hash
      rw [← h'.lengthAt, ← h.lengthAt, (hsame hash).2]
  · rintro ⟨hfiles, hlengths⟩ hash
    rw [h'.serves.bitmap, h.serves.bitmap, hfiles, h'.lengthAt, h.lengthAt, hlengths]
    exact ⟨rfl, rfl⟩

theorem Tries.act (h : Tries g s) (hwrites : ∀ n, (choices n).Writes) (action : Act)
    (hallowed : deskAllowed g action) (hroom : RoomAct choices s action) :
    ∃ after, tryAnswers g action (Server.tryAct choices action s).1 after ∧
      Tries after (Server.tryAct choices action s).2 := by
  obtain ⟨after, hanswer, hafter⟩ := h.serves.tryAct h.untimed (hwrites s.tick) action hallowed hroom
  refine ⟨after, hanswer, hafter, ?_⟩
  rw [tryAnswers_timed action _ hanswer]
  exact h.untimed

-- A program that keeps to the contract, and what it is proved to do without
-- regard to it.
theorem Tries.exec (h : Tries g s) (hwrites : ∀ n, (choices n).Writes) {prog : Cmd Unit}
    {other post : Desk → Unit → Prop} (hallowed : prog.wp tryContract other g)
    (hfree : prog.wp tryContract.free post g) (hroom : prog.Along (Server.tryAct choices) (RoomAct choices) s) :
    ∃ last, post last () ∧ Tries last (prog.exec (Server.tryAct choices) s).2 :=
  wp_exec (fun _ _ action h hallowed hroom => h.act hwrites action hallowed hroom)
    (wp_of_free hallowed hfree) h hroom

theorem tries_run (hwrites : ∀ n, (choices n).Writes) {lines : List Bytes}
    (hroom : AllSteps (Server.tryServe choices) (Roomy choices) (Server.start disk) lines) :
    ∃ g, Tries g (run (Server.tryServe choices) (Server.start disk) lines) := by
  have hstart : ∃ g, Tries g (Server.start disk) :=
    ⟨_, serves_initFile (fun _ => 0) disk 0 [], fun hstrict => absurd (hstrict Nat.zero_lt_one) (by decide)⟩
  refine run_invariant (Server.tryServe choices) (fun s => ∃ g, Tries g s) ?_ hstart hroom
  rintro s line ⟨g, h⟩ hroom
  rw [Roomy, parseAndExecute_eq] at hroom
  rw [Server.tryServe, parseAndExecute_eq]
  have hallowed := try_request g (request line)
  have hact : ∀ g s action, Tries g s → deskAllowed g action → RoomAct choices s action →
      ∃ after, tryAnswers g action (Server.tryAct choices action s).1 after ∧
        Tries after (Server.tryAct choices action s).2 :=
    fun _ _ action h hallowed hroom => h.act hwrites action hallowed hroom
  obtain ⟨last, _, hlast⟩ := wp_exec hact hallowed h hroom
  exact ⟨last, hlast⟩

theorem Verdict.failed {holds : Desk → Prop} {last : Desk} (h : Verdict g holds last)
    (hreply : last.replies = g.replies ++ [reply]) (hfailed : Failed reply) : holds last := by
  rcases h with hsame | ⟨other, hother, hholds⟩
  · rw [hsame] at hreply
    exact absurd hreply (by simp)
  · rw [hreply] at hother
    obtain rfl : reply = other := by simpa using hother
    exact hholds hfailed

-- A request that is answered with an ERR line.
theorem Tries.failed (h : Tries g s) (hwrites : ∀ n, (choices n).Writes) (hsmall : g.Small) {request : Request}
    (hroom : request.execute.Along (Server.tryAct choices) (RoomAct choices) s)
    (hs' : s' = (request.execute.exec (Server.tryAct choices) s).2)
    (hreply : s'.replies = s.replies ++ [reply]) (hfailed : Failed reply) :
    s.store.Unchanged s'.store ↔ ∀ key, request.truncates = some key →
      s.store.recorded (xxh64 key 0) ≠ none ∨ s.store.bitmap (xxh64 key 0) = some [] ∨
        (choices s.tick).pathFails = true ∨ (choices s.tick).fopenFails = true := by
  have hallowed := try_request g request
  cases hchanges : request.changes with
  | false =>
      obtain ⟨last, ⟨hagrees, _⟩, hlast⟩ := h.exec hwrites hallowed (wp_quiet (request_quiet hchanges)) hroom
      rw [← hs'] at hlast
      refine iff_of_true ((h.unchanged_iff hlast).mpr hagrees) fun key hkey => ?_
      obtain ⟨cmd, keys, rfl, hhook, _⟩ := truncates_eq hkey
      simp [Request.changes, hhook] at hchanges
  | true =>
      cases request with
      | setbit cmd =>
          obtain ⟨last, hverdict, hlast⟩ := h.exec hwrites hallowed (free_setbitExecute cmd) hroom
          rw [← hs'] at hlast
          rw [hlast.serves.replies, h.serves.replies] at hreply
          exact iff_of_true ((h.unchanged_iff hlast).mpr (hverdict.failed hreply hfailed))
            fun key htruncates => absurd htruncates.symm (Option.some_ne_none key)
      | bitop cmd keys =>
          have hhook : cmd.hook = .NONE := by simpa [Request.changes] using hchanges
          obtain ⟨next, hnext, hrest⟩ := free_bitopExecute hhook keys
          simp only [Request.execute, hnext] at hallowed hroom hs'
          obtain ⟨after, hanswer, hafter⟩ := h.act hwrites (.prepareFile cmd.key 2) hallowed.1 hroom.1
          obtain ⟨hhanded, hkeeps⟩ := id hanswer
          obtain ⟨last, hverdict, hlast⟩ := hafter.exec hwrites (hallowed.2 _ after hanswer)
            (hrest _ after (truncated_small hsmall hhanded hkeeps)) hroom.2
          rw [exec_act] at hs'
          rw [← hs'] at hlast
          rw [hlast.serves.replies, h.serves.replies, ← handed_replies hhanded] at hreply
          have hagrees := hverdict.failed hreply hfailed
          have hback : g.Agrees last ↔ g.Agrees after :=
            ⟨fun hsame => ⟨hagrees.files.symm.trans hsame.files,
              fun hash => (hagrees.lengths hash).symm.trans (hsame.lengths hash)⟩, fun hsame => hsame.trans hagrees⟩
          rw [h.unchanged_iff hlast, hback, truncated_agrees_iff hhanded]
          simp only [Request.truncates, hhook, ite_true, Option.some.injEq, forall_eq', h.serves.recordedOf,
            h.serves.bitmap]
          by_cases hclosed : g.recorded (xxh64 cmd.key 0) = none
          · rw [h.serves.truncate_fails hclosed hroom.1]
          · exact iff_of_true (Or.inl hclosed) (Or.inl hclosed)
      | fail text len => cases hchanges
      | getbit cmd => cases hchanges
      | bitcount key c args => cases hchanges
      | silent => cases hchanges

-- A request that is answered with an ERR line, in any state that a run leads to
-- in which files may fail to open and memory may be short, has changed nothing
-- exactly if it is no BITOP that had truncated or created its destination.
theorem failed_unchanged_iff (hwrites : ∀ n, (choices n).Writes)
    (hroom : AllSteps (Server.tryServe choices) (Roomy choices) (Server.start disk) (before ++ [line]))
    (hs : s = run (Server.tryServe choices) (Server.start disk) before) (hs' : s' = s.tryServe choices line)
    (hsmall : ∀ hash, s.store.length hash ≤ FILE_SIZE_LIMIT)
    (hreply : s'.replies = s.replies ++ [reply]) (hfailed : Failed reply) :
    s.store.Unchanged s'.store ↔ ∀ key, (request line).truncates = some key →
      s.store.recorded (xxh64 key 0) ≠ none ∨ s.store.bitmap (xxh64 key 0) = some [] ∨
        (choices s.tick).pathFails = true ∨ (choices s.tick).fopenFails = true := by
  obtain ⟨hbefore, hline, _⟩ := (allSteps_append _ _ _ _ _).mp hroom
  obtain ⟨g, h⟩ := tries_run hwrites hbefore
  rw [← hs] at h hline
  rw [Roomy, parseAndExecute_eq] at hline
  rw [Server.tryServe, parseAndExecute_eq] at hs'
  have hlengths : g.Small := by
    intro hash
    rw [← h.lengthAt]
    exact hsmall hash
  exact h.failed hwrites hlengths hline hs' hreply hfailed

-- Files within the limit are small.
theorem Store.Within.length {st : Store} {limit : Nat} (h : st.Within limit) (hash : UInt64) :
    st.length hash ≤ limit := by
  unfold Store.length Store.recorded Store.size Store.bitmap
  cases hl : lookup st hash with
  | found slot => exact h.lengths slot
  | absent last depth => exact h.files.content hash

-- A destination that has been read, and a source that cannot be opened.
theorem failed_unchanged_open :
    let disk : Contents := fun hash => if hash = xxh64 (str "d") 0 then some [128] else none
    let choices : Nat → Choice := fun n => { pathFails := n = 6 }
    let s := run (Server.tryServe choices) (Server.start disk) [str "GETBIT d 0"]
    s.store.Unchanged (s.tryServe choices (str "BITOP OR d b")).store := by
  intro disk choices s
  have hdisk : (Server.start disk).store.Within FILE_SIZE_LIMIT := by
    refine ⟨⟨fun path content hcontent => ?_, nofun⟩, fun _ => Nat.zero_le _⟩
    have hone : content = [128] := by
      by_cases hpath : path = xxh64 (str "d") 0
      · exact (Option.some.inj ((if_pos hpath).symm.trans hcontent)).symm
      · cases (if_neg hpath).symm.trans hcontent
    rw [hone]
    decide
  have hread : request (str "GETBIT d 0") = .getbit { key := str "d", offset := 0 } := by decide +kernel
  have hbitop : request (str "BITOP OR d b") =
      .bitop { key := str "d", count := 1, hook := .NONE, option := .OR } [str "b"] := by decide +kernel
  have hwithin : s.store.Within FILE_SIZE_LIMIT :=
    tryServe_within hdisk fun cmd hcmd => by cases hread.symm.trans hcmd
  refine (@failed_unchanged_iff choices disk [str "GETBIT d 0"] (str "BITOP OR d b") s _
    (str "ERR:FILESYSTEM FAILED\n") (fun _ => ⟨rfl, rfl⟩) (by decide +kernel) rfl rfl hwithin.length
    (by decide +kernel) (by decide)).mpr ?_
  intro key hkey
  rw [hbitop] at hkey
  cases hkey
  exact Or.inl (by decide +kernel)

-- The source cannot be opened after the destination has been truncated.
theorem failed_open_loses_dest :
    let disk : Contents := fun hash => if hash = xxh64 (str "d") 0 then some [128] else none
    let choices : Nat → Choice := fun n => { pathFails := n = 1 }
    let s' := (Server.start disk).tryServe choices (str "BITOP OR d b")
    Roomy choices (Server.start disk) (str "BITOP OR d b") ∧
      s'.replies = [str "ERR:FILESYSTEM FAILED\n"] ∧
      (Server.start disk).store.bitmap (xxh64 (str "d") 0) = some [128] ∧
      s'.store.bitmap (xxh64 (str "d") 0) = some [] ∧
      ¬(Server.start disk).store.Unchanged s'.store := by
  intro disk choices s'
  have hlost : s'.store.bitmap (xxh64 (str "d") 0) = some [] := by decide +kernel
  refine ⟨by decide +kernel, by decide +kernel, by decide +kernel, hlost, fun h => ?_⟩
  exact absurd (hlost.symm.trans (h (xxh64 (str "d") 0)).1) (by decide +kernel)

end Runs

end Solidbits
