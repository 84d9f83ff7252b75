import Solidbits.Serial.Bits
import Solidbits.Serial.Combine

namespace Solidbits

open Prog Transition

section Loop

variable {g : Desk} {dts : List (Option Slot)} {cmd : BitopCmd}

theorem opLoop_counted (hhook : cmd.hook = .COUNTOP) (dest : Option Slot) (rmax : Nat)
    (sources : List Source) (offset : Int) (bits : Nat) :
    opLoop cmd dest rmax 0 sources offset bits = .ret (bits : Int) := by
  rw [opLoop, hhook]
  rfl

-- One round adds the bits of its part to what has been counted.
theorem wp_countRound (hhook : cmd.hook = .COUNTOP) (dest : Option Slot)
    (hheld : Held (fun dt => 0 < g.pins dt) dts) (hbound : g.Bounded dts) (hne : dts ≠ []) (left round : Nat)
    (rmax size : Nat) (hsize : size = if left ≠ 0 then FILE_BUFFER_SIZE else rmax)
    (hle : size ≤ FILE_BUFFER_SIZE) {post : Desk → Int → Prop}
    (hrest : (opLoop cmd dest rmax left (dts.map (g.source (round + 1)))
        (toInt (round * FILE_BUFFER_SIZE + size : Nat))
        (onesIn (g.combine cmd.option dts (round * FILE_BUFFER_SIZE + size)))).wp deskContract post g) :
    (opLoop cmd dest rmax (left + 1) (dts.map (g.source round)) (round * FILE_BUFFER_SIZE : Nat)
        (onesIn (g.combine cmd.option dts (round * FILE_BUFFER_SIZE)))).wp deskContract post g := by
  have hchunk := @combine_chunk g dts cmd.option hbound hne g round (fun _ _ _ _ => rfl) size hle
  generalize hp0 : opChunk cmd.option ((dts.map (g.source round)).map (g.buffer (round * FILE_BUFFER_SIZE)))
    size = p0 at hchunk
  have hlength : p0.length = size := by
    have hall := congrArg List.length hchunk
    simpa using hall.symm
  have hbits : onesIn (g.combine cmd.option dts (round * FILE_BUFFER_SIZE)) + redisPopcount p0 size =
      onesIn (g.combine cmd.option dts (round * FILE_BUFFER_SIZE + size)) := by
    rw [redisPopcount_eq, ← hlength, List.take_length, hlength, hchunk, onesIn_append]
  rw [opLoop, wp_bind]
  apply wp_opRead
  · rwa [desk_sources_dt]
  · simp only [hhook, ← hsize, desk_sources_next, hp0, hbits]
    exact hrest

-- The loop counts the combination of the sources.
theorem wp_opLoop_counts (hhook : cmd.hook = .COUNTOP) (dest : Option Slot)
    (hheld : Held (fun dt => 0 < g.pins dt) dts) (hbound : g.Bounded dts) (hne : dts ≠ []) {n : Nat}
    (hsmall : n < 2 ^ 31) (left round : Nat) (hround : reads n = round + (left + 1)) {post : Desk → Int → Prop}
    (hpost : post g (onesIn (g.combine cmd.option dts n))) :
    (opLoop cmd dest (lastRead n) (left + 1) (dts.map (g.source round)) (round * FILE_BUFFER_SIZE : Nat)
        (onesIn (g.combine cmd.option dts (round * FILE_BUFFER_SIZE)))).wp deskContract post g := by
  obtain ⟨_, hlastle⟩ := lastRead_pos n
  induction left generalizing round with
  | zero =>
      have hn := @reads_lastRead n round (by omega)
      apply wp_countRound hhook dest hheld hbound hne 0 round _ (lastRead n) (if_neg (by omega)).symm hlastle
      rw [opLoop_counted hhook, ← hn]
      exact hpost
  | succ left ih =>
      apply wp_countRound hhook dest hheld hbound hne (left + 1) round _ FILE_BUFFER_SIZE (if_pos (by omega)).symm
        (Nat.le_refl _)
      have hmul : (round + 1) * FILE_BUFFER_SIZE = round * FILE_BUFFER_SIZE + FILE_BUFFER_SIZE :=
        Nat.succ_mul round FILE_BUFFER_SIZE
      have hlower : (round + 1) * FILE_BUFFER_SIZE < n := lt_length_of_reads (by omega)
      rw [← hmul, toInt_small (Nat.lt_trans hlower hsmall)]
      exact ih (round + 1) (by omega)

-- BITOP with COUNTOP counts the combination up to the longest length.
theorem wp_bitopCommand_counts (hhook : cmd.hook = .COUNTOP) (dest : Option Slot)
    (hheld : Held (fun dt => 0 < g.pins dt) dts) (hbound : g.Bounded dts) (hsmall : g.longest dts 0 < 2 ^ 31)
    {post : Desk → Int → Prop} (hpost : post g (onesIn (g.combine cmd.option dts (g.longest dts 0)))) :
    (bitopCommand cmd dest dts).wp deskContract post g := by
  apply wp_bitopStart hheld
  · intro hzero
    rw [hzero] at hpost
    exact hpost
  · intro left hleft hne
    have hloop := wp_opLoop_counts hhook dest hheld hbound hne hsmall left 0 (by omega) hpost
    rw [Nat.zero_mul] at hloop
    exact hloop

end Loop

section Counting

variable {st : Store} {m : Contents} {held : Slot → Prop} {dt dest : Slot} {dts : List (Option Slot)}

-- BITCOUNT of a whole file finds all its bits.
theorem Backs.count {g : Desk} (h : Backs g st) (hpin : 0 < g.pins dt) (htight : g.Tight dt) :
    ((bitcountCommand { start := 0, stop := (g.content dt).length - 1 } dt).alone st).1 =
      onesIn (g.content dt) := by
  have hwp := @wp_bitcountCommand_counts _ _ _ _ _ (desk_readable hpin htight)
    { start := 0, stop := (g.content dt).length - 1 } (fun _ result => result = (onesIn (g.content dt) : Int))
    (congrArg _ (bitsInRange_full _))
  obtain ⟨_, hresult, _⟩ := h.alone hwp (@bitcountCommand_accesses (fun _ => True) dt trivial _)
  exact hresult

theorem written_empty {g : Desk} (hcontent : g.content dest = []) (hlength : g.length dest = 0) (bytes : Bytes) :
    (g.written dest bytes).content dest = bytes ∧ (g.written dest bytes).Tight dest := by
  unfold Desk.Tight Desk.written
  split
  · rename_i hnone
    rw [hcontent, hlength, hnone]
    exact ⟨rfl, rfl⟩
  · rename_i hsome
    have hbytes : Padded.overwrite [] 0 bytes = bytes := by
      simp [Padded.overwrite, hsome]
    simp only [Desk.write, Desk.content, Desk.length, Function.update_self, Option.getD_some] at hcontent hlength ⊢
    rw [hcontent, hlength, hbytes]
    exact ⟨rfl, by omega⟩

-- COUNTOP returns the bits of the combination and changes nothing.
theorem opened_countop {cmd : BitopCmd} (hhook : cmd.hook = .COUNTOP) (hopened : st.Opened m held)
    (hheld : Held held dts) (hbound : st.BoundedSources m dts)
    (hlimit : ∀ dt, some dt ∈ dts → (st.descs dt).length ≤ FILE_SIZE_LIMIT) :
    let n := longestOf (dts.map st.sourceLength)
    let counted := (bitopCommand cmd none dts).alone st
    counted.1 = onesIn (bitop cmd.option (dts.map (st.sourceContent m)) n) ∧
      Backs (st.desk m held) counted.2 := by
  intro n counted
  have hn : n ≤ FILE_SIZE_LIMIT := opened_limit hlimit
  have hlongest : (st.desk m held).longest dts 0 = n := opened_longest hopened hheld 0
  have hbuffer : FILE_SIZE_LIMIT < 2 ^ 31 := by decide
  have hwp : (bitopCommand cmd none dts).wp deskContract (fun after (result : Int) =>
      result = onesIn (bitop cmd.option (dts.map (st.sourceContent m)) n) ∧ after = st.desk m held)
      (st.desk m held) := by
    apply wp_bitopCommand_counts hhook none (fun dt hdt => Store.Opened.pinned (hheld dt hdt))
      (opened_bounded hopened hheld hbound)
    · omega
    · rw [hlongest, opened_combine]
      exact ⟨rfl, rfl⟩
  have haccess : Held (fun _ => True) (none :: dts) := fun _ _ => trivial
  obtain ⟨_, ⟨hresult, rfl⟩, hbacks⟩ := hopened.backs.alone hwp (bitopCommand_accesses cmd haccess)
  exact ⟨hresult, hbacks⟩

-- BITOP with COUNTOP returns what BITCOUNT finds in an empty destination once
-- BITOP has stored its result there, and changes no file.
theorem countop_counts (cmd : BitopCmd) (hopened : st.Opened m held) (hdest : held dest)
    (hheld : Held held dts) (hbound : st.BoundedSources m dts)
    (hlimit : ∀ dt, some dt ∈ dts → (st.descs dt).length ≤ FILE_SIZE_LIMIT)
    (hempty : m (st.hashOf dest) = some []) (hlength : (st.descs dest).length = 0) :
    let stored := (bitopCommand { cmd with hook := .NONE } (some dest) dts).alone st
    let counted := (bitopCommand { cmd with hook := .COUNTOP } none dts).alone st
    (∃ m', stored.2.Opened m' held ∧
      let content := stored.2.sourceContent m' (some dest)
      counted.1 = if content.length = 0 then 0
        else ((bitcountCommand { start := 0, stop := content.length - 1 } dest).alone stored.2).1) ∧
    counted.2.Opened m held ∧
    ∀ slot, held slot → (counted.2.descs slot).length = (st.descs slot).length := by
  intro stored counted
  have hpins : ∀ slot, held slot → 0 < (st.desk m held).pins slot := fun slot hs => Store.Opened.pinned hs
  obtain ⟨hresult, hsame⟩ := @opened_countop st m held dts { cmd with hook := .COUNTOP } rfl hopened hheld
    hbound hlimit
  obtain ⟨_, hbacks⟩ := @opened_bitop st m held dest dts { cmd with hook := .NONE } rfl hopened hdest hheld
    hbound hlimit
  simp only at hresult hbacks
  generalize bitop cmd.option (dts.map (st.sourceContent m)) (longestOf (dts.map st.sourceLength)) = bytes
    at hresult hbacks
  refine ⟨?_, hsame.opened.mono hpins, ?_⟩
  · have hname : (st.desk m held).content dest = [] := by
      show (m (st.hashOf dest)).getD [] = []
      rw [hempty]
      rfl
    have hnone := (hopened.desk_length hdest).trans hlength
    obtain ⟨hcontent, htight⟩ := written_empty hname hnone bytes
    generalize hlast : (st.desk m held).written dest bytes = last at hbacks hcontent htight
    have hlastpins : last.pins = (st.desk m held).pins := by rw [← hlast, written_pins]
    have hheldpins : ∀ slot, held slot → 0 < last.pins slot := by
      intro slot hs
      rw [hlastpins]
      exact hpins slot hs
    have hcount := hbacks.count (hheldpins dest hdest) htight
    have hshown : stored.2.sourceContent last.files (some dest) = bytes := by
      rw [Store.sourceContent, hbacks.hash dest (hheldpins dest hdest)]
      exact hcontent
    refine ⟨last.files, hbacks.opened.mono hheldpins, ?_⟩
    rw [hcontent] at hcount
    simp only [hshown]
    rw [hcount, hresult]
    split
    · rename_i hzero
      rw [List.length_eq_zero_iff.mp hzero]
      rfl
    · rfl
  · intro slot hs
    rw [hsame.length slot (hpins slot hs), hopened.desk_length hs]

-- The exclusive or of two files that are open, with a third one for the result.
theorem countop_counts_three :
    let disk : Contents := fun hash =>
      if hash = xxh64 (str "d") 0 then some [] else if hash = xxh64 (str "a") 0 then some [7] else some [1, 2]
    let st := (run (Server.serve id) (Server.start disk) [str "GETBIT d 0", str "GETBIT a 0", str "GETBIT b 0"]).store
    let counted := (bitopCommand { count := 2, hook := .COUNTOP, option := .XOR } none [some 1, some 2]).alone st
    let stored := (bitopCommand { count := 2, hook := .NONE, option := .XOR } (some 0) [some 1, some 2]).alone st
    counted.1 = 3 ∧ counted.2.Opened st.bitmap st.live ∧
      ∃ m', stored.2.Opened m' st.live ∧
        let content := stored.2.sourceContent m' (some 0)
        ((bitcountCommand { start := 0, stop := content.length - 1 } 0).alone stored.2).1 = 3 := by
  intro disk st counted stored
  have hlive : st.live 0 ∧ st.live 1 ∧ st.live 2 := by decide +kernel
  have hexact : ∀ dt : Slot, dt = 1 ∨ dt = 2 → st.live dt ∧
      (st.descs dt).length = Contents.length st.bitmap (st.hashOf dt) ∧
      (st.descs dt).length ≤ FILE_SIZE_LIMIT := by
    rintro dt (rfl | rfl)
    · exact ⟨hlive.2.1, by decide +kernel, by decide +kernel⟩
    · exact ⟨hlive.2.2, by decide +kernel, by decide +kernel⟩
  have hsource : ∀ dt, some dt ∈ [some (1 : Slot), some 2] → dt = 1 ∨ dt = 2 := by simp
  have hopen : st.Opened st.bitmap st.live := @run_opened id disk _ (by decide +kernel)
  obtain ⟨⟨m', hopened, hcount⟩, hsame, _⟩ := @countop_counts st st.bitmap st.live 0 [some 1, some 2]
    { count := 2, hook := .NONE, option := .XOR } hopen hlive.1 (fun dt hdt => (hexact dt (hsource dt hdt)).1)
    (fun dt hdt => Nat.le_of_eq (hexact dt (hsource dt hdt)).2.1.symm) (fun dt hdt => (hexact dt (hsource dt hdt)).2.2)
    (by decide +kernel) (by decide +kernel)
  have hthree : counted.1 = 3 := by decide +kernel
  refine ⟨hthree, hsame, m', hopened, ?_⟩
  have hcounted := hthree.symm.trans hcount
  by_cases hzero : (stored.2.sourceContent m' (some 0)).length = 0
  · rw [if_pos hzero] at hcounted
    cases hcounted
  · rw [if_neg hzero] at hcounted
    exact hcounted.symm

end Counting

end Solidbits
