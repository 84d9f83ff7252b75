import Solidbits.Bitops.Rounds
import Solidbits.Parser.Request

namespace Solidbits

open Prog

section Contract

-- The recorded lengths of the table, with a bound.
def BoundedBy (limit : Nat) (length : Slot → Nat) : Prop := ∀ slot, length slot ≤ limit

-- An access that begins at an offset and ends within the limit.
def Fits (limit : Nat) : Act → Prop
  | .prepareFile _ mode => mode ≤ 2
  | .readFrom _ size offset => 0 ≤ offset ∧ offset.toNat + size ≤ limit
  | .writeTo _ buf offset => 0 ≤ offset ∧ offset.toNat + buf.length ≤ limit
  | _ => True

-- What the surroundings do to the recorded lengths. Writing to some of the
-- descriptors works; whatever else is asked for may fail.
def sizeAnswers (limit : Nat) (works : Slot → Prop) (length : Slot → Nat) :
    (action : Act) → Res action → (Slot → Nat) → Prop
  | .descLength dt, answer, after => answer = length dt ∧ after = length
  | .writeTo dt buf _, answer, after => (works dt → answer = buf.length) ∧ BoundedBy limit after
  | .posixMemalign, answer, after => ((∃ dt, works dt) → answer = true) ∧ after = length
  | .prepareFile _ _, _, after => BoundedBy limit after
  | .releaseDesc _, _, after => BoundedBy limit after
  | .readFrom _ _ _, _, after => after = length
  | .reply _ _, _, after => after = length

def sizes (limit : Nat) (works : Slot → Prop) : Contract Act Res (Slot → Nat) where
  allowed := fun _ => Fits limit
  answers := sizeAnswers limit works

variable {limit : Nat} {works : Slot → Prop} {length : Slot → Nat}

theorem sizes_measured (limit : Nat) (works : Slot → Prop) (length : Slot → Nat) (dt : Slot) :
    Measured (sizes limit works) length length dt :=
  ⟨trivial, fun _ _ ha => ha⟩

theorem wp_sizes_readFrom {α : Type} {dt : Slot} {size : Nat} {offset : Int} {f : Received → Cmd α}
    {post : (Slot → Nat) → α → Prop} (hfits : Fits limit (.readFrom dt size offset))
    (hf : ∀ data, (f data).wp (sizes limit works) post length) :
    (Cmd.readFrom dt size offset >>= f).wp (sizes limit works) post length := by
  refine (wp_ask (sizes limit works) post (Act.readFrom dt size offset) f length).mpr ⟨hfits, ?_⟩
  rintro data _ rfl
  exact hf data

theorem wp_sizes_writeTo {α : Type} {dt : Slot} {buf : Bytes} {offset : Int} {f : Nat → Cmd α}
    {post : (Slot → Nat) → α → Prop} (hfits : Fits limit (.writeTo dt buf offset))
    (hf : ∀ r after, (works dt → r = buf.length) → BoundedBy limit after →
      (f r).wp (sizes limit works) post after) :
    (Cmd.writeTo dt buf offset >>= f).wp (sizes limit works) post length := by
  refine (wp_ask (sizes limit works) post (Act.writeTo dt buf offset) f length).mpr ⟨hfits, ?_⟩
  rintro r after ⟨hr, hafter⟩
  exact hf r after hr hafter

theorem wp_sizes_posixMemalign {α : Type} {f : Bool → Cmd α} {post : (Slot → Nat) → α → Prop}
    (hf : ∀ ok, ((∃ dt, works dt) → ok = true) → (f ok).wp (sizes limit works) post length) :
    (Cmd.posixMemalign >>= f).wp (sizes limit works) post length := by
  refine (wp_ask (sizes limit works) post Act.posixMemalign f length).mpr ⟨trivial, ?_⟩
  rintro ok _ ⟨hok, rfl⟩
  exact hf ok hok

end Contract

section Bits

variable {limit : Nat} {works : Slot → Prop} {length : Slot → Nat} {dt : Slot}

theorem wp_sizes_setbitWrite (cmd : SetbitCmd) (byteval : UInt8) (hrange : byteOffset cmd.offset < limit) :
    (setbitWrite cmd dt byteval).wp (sizes limit works) (fun after _ => BoundedBy limit after) length := by
  apply wp_sizes_writeTo
  · refine ⟨Int.natCast_nonneg _, ?_⟩
    rw [Int.toNat_natCast, List.length_singleton]
    exact hrange
  · intro r after _ hafter
    split
    · exact hafter
    · exact hafter

-- A 1 is written below the limit only.
theorem wp_sizes_setbitCommand (hlength : BoundedBy limit length) (cmd : SetbitCmd)
    (hrange : cmd.value ≠ 0 → byteOffset cmd.offset < limit) :
    (setbitCommand cmd dt).wp (sizes limit works) (fun after _ => BoundedBy limit after) length := by
  apply (sizes_measured limit works length dt).wp
  have hdt := hlength dt
  split
  · rename_i hinside
    apply wp_sizes_readFrom
    · refine ⟨Int.natCast_nonneg _, ?_⟩
      rw [Int.toNat_natCast]
      omega
    · intro data
      split
      · exact hlength
      · exact wp_sizes_setbitWrite cmd _ (by omega)
  · split
    · exact hlength
    · rename_i hone
      exact wp_sizes_setbitWrite cmd 0 (hrange hone)

theorem wp_sizes_getbitCommand (hlength : BoundedBy limit length) (cmd : GetbitCmd) :
    (getbitCommand cmd dt).wp (sizes limit works) (fun after _ => BoundedBy limit after) length := by
  apply (sizes_measured limit works length dt).wp
  have hdt := hlength dt
  split
  · apply wp_sizes_readFrom
    · refine ⟨Int.natCast_nonneg _, ?_⟩
      rw [Int.toNat_natCast]
      omega
    · intro data
      split
      · exact hlength
      · exact hlength
  · exact hlength

theorem wp_sizes_bitcountLoop (hlength : BoundedBy limit length) (fuel remaining o bits : Nat)
    (hfit : remaining = 0 ∨ o + remaining ≤ limit) :
    (bitcountLoop dt fuel remaining o bits).wp (sizes limit works)
      (fun after _ => BoundedBy limit after) length := by
  induction fuel generalizing remaining o bits with
  | zero => exact hlength
  | succ fuel ih =>
      unfold bitcountLoop
      split
      · exact hlength
      · rename_i hmore
        apply wp_sizes_readFrom
        · refine ⟨Int.natCast_nonneg _, ?_⟩
          rw [Int.toNat_natCast]
          omega
        · intro data
          split
          · exact hlength
          · exact ih _ _ _ (by omega)

-- The clamped range lies within the file.
theorem bitcountRange_bounds (cmd : BitcountCmd) (n : Nat) :
    0 ≤ (bitcountRange cmd n).1 ∧ (bitcountRange cmd n).2 < n := by
  simp only [bitcountRange]
  split <;> split <;> omega

theorem wp_sizes_bitcountCommand (hlength : BoundedBy limit length) (cmd : BitcountCmd) :
    (bitcountCommand cmd dt).wp (sizes limit works) (fun after _ => BoundedBy limit after) length := by
  apply (sizes_measured limit works length dt).wp
  have hdt := hlength dt
  obtain ⟨hstart, hstop⟩ := bitcountRange_bounds cmd (length dt)
  split
  · exact hlength
  · generalize bitcountRange cmd (length dt) = range at hstart hstop
    obtain ⟨start, stop⟩ := range
    simp only at hstart hstop ⊢
    split
    · exact hlength
    · apply wp_sizes_posixMemalign
      intro ok _
      split
      · exact hlength
      · exact wp_sizes_bitcountLoop hlength _ _ _ _ (by omega)

end Bits

section Bitop

variable {limit : Nat} {works : Slot → Prop} {length now : Slot → Nat} {dts : List (Option Slot)}

-- A round reads every source within its recorded length.
theorem wp_sizes_opRead (hlength : BoundedBy limit length) (round : Nat)
    {post : (Slot → Nat) → List Buf × List Source → Prop}
    (hpost : ∀ bufs, bufs.length = dts.length →
      post now (bufs, dts.map (sourceIn length (round + 1)))) :
    (opRead (round * FILE_BUFFER_SIZE : Nat) (dts.map (sourceIn length round))).wp (sizes limit works)
      post now := by
  induction dts generalizing post with
  | nil => exact hpost [] rfl
  | cons first dts ih =>
      cases first with
      | none =>
          simp only [List.map_cons, sourceIn, opRead]
          rw [wp_bind]
          apply ih
          intro bufs hbufs
          exact hpost (bufOf [] :: bufs) (congrArg (· + 1) hbufs)
      | some dt =>
          have hnext := source_next length round (some dt)
          simp only [sourceIn, Source.next, reduceCtorEq, false_or] at hnext
          simp only [List.map_cons, opRead, sourceIn]
          split
          · rename_i hdone
            rw [if_pos hdone] at hnext
            rw [wp_bind]
            apply ih
            intro bufs hbufs
            rw [hnext]
            exact hpost (bufOf [] :: bufs) (congrArg (· + 1) hbufs)
          · rename_i hmore
            rw [if_neg hmore] at hnext
            apply wp_sizes_readFrom
            · refine ⟨Int.natCast_nonneg _, ?_⟩
              have hdt := hlength dt
              rw [Int.toNat_natCast]
              split
              · have hend := @reads_lastRead (length dt) round (by omega)
                omega
              · have hend := @lt_length_of_reads (length dt) (round + 1) (by omega)
                rw [Nat.succ_mul] at hend
                omega
            · intro data
              rw [wp_bind]
              apply ih
              intro bufs hbufs
              rw [hnext]
              exact hpost (bufOf data.buf :: bufs) (congrArg (· + 1) hbufs)

theorem opChunk_length (option : OpOption) {bufs : List Buf} (size : Nat) :
    (opChunk option bufs size).length ≤ size ∧ (bufs ≠ [] → (opChunk option bufs size).length = size) := by
  cases bufs with
  | nil => exact ⟨Nat.zero_le _, fun h => absurd rfl h⟩
  | cons p0 ps => simp [opChunk]

-- What BITOP returns when it stores its result: the length of the longest
-- source, unless something failed.
def Returns (works : Slot → Prop) (cmd : BitopCmd) (dest : Option Slot) (n : Nat) (result : Int) : Prop :=
  cmd.hook = .NONE → (∃ dt, dest = some dt ∧ works dt) → result = n

theorem wp_sizes_opLoop (hlimit : limit < 2 ^ 31) (hlength : BoundedBy limit length) (hnow : BoundedBy limit now)
    (cmd : BitopCmd) (dest : Option Slot) (hne : dts ≠ []) {n : Nat} (hn : n ≤ limit) (left round : Nat)
    (hround : reads n = round + left) (bits : Nat) {offset : Nat}
    (hoffset : offset = if left = 0 then n else round * FILE_BUFFER_SIZE) :
    (opLoop cmd dest (lastRead n) left (dts.map (sourceIn length round)) offset bits).wp (sizes limit works)
      (fun after result => BoundedBy limit after ∧ Returns works cmd dest n result) now := by
  induction left generalizing round offset bits now with
  | zero =>
      rw [if_pos rfl] at hoffset
      rw [opLoop, hoffset]
      refine ⟨hnow, ?_⟩
      intro hhook _
      rw [hhook, if_neg nofun]
  | succ left ih =>
      rw [if_neg (Nat.succ_ne_zero left)] at hoffset
      subst hoffset
      rw [opLoop, wp_bind]
      apply wp_sizes_opRead hlength
      intro bufs hbufs
      have hbufsne : bufs ≠ [] := by
        rintro rfl
        exact hne (List.length_eq_zero_iff.mp hbufs.symm)
      -- The end of the round is the start of the next one, or the end of the
      -- longest source.
      obtain ⟨hlast, _⟩ := lastRead_pos n
      have hend : round * FILE_BUFFER_SIZE + (if left ≠ 0 then FILE_BUFFER_SIZE else lastRead n) =
          (if left = 0 then n else (round + 1) * FILE_BUFFER_SIZE) ∧
          round * FILE_BUFFER_SIZE + (if left ≠ 0 then FILE_BUFFER_SIZE else lastRead n) ≤ n ∧
          0 < (if left ≠ 0 then FILE_BUFFER_SIZE else lastRead n) := by
        by_cases hleft : left = 0
        · have hends := @reads_lastRead n round (by omega)
          rw [if_pos hleft, if_neg (by omega)]
          omega
        · have hends := @lt_length_of_reads n (round + 1) (by omega)
          rw [if_neg hleft, if_pos hleft, Nat.succ_mul] at *
          exact ⟨rfl, by omega, by decide⟩
      simp only
      generalize (if left ≠ 0 then FILE_BUFFER_SIZE else lastRead n) = size at hend ⊢
      obtain ⟨hnext, hle, hpos⟩ := hend
      obtain ⟨hchunkle, hchunk⟩ := @opChunk_length cmd.option bufs size
      have hsmall : toInt ((round * FILE_BUFFER_SIZE : Nat) + size) =
          ((round * FILE_BUFFER_SIZE + size : Nat) : Int) := by
        rw [← toInt_small (show round * FILE_BUFFER_SIZE + size < 2 ^ 31 by omega), Int.natCast_add]
      rw [hsmall]
      split
      · apply wp_sizes_writeTo
        · refine ⟨Int.natCast_nonneg _, ?_⟩
          rw [Int.toNat_natCast]
          exact Nat.le_trans (Nat.add_le_add_left hchunkle _) (Nat.le_trans hle hn)
        · intro r after hr hafter
          split
          · rename_i hzero
            refine ⟨hafter, ?_⟩
            rintro _ ⟨dt, hdt, hworks⟩
            rw [← Option.some.inj hdt] at hworks
            have hlen := hr hworks
            rw [hchunk hbufsne] at hlen
            omega
          · exact ih hafter (round + 1) (by omega) _ hnext
      · refine ⟨hnow, ?_⟩
        rintro _ ⟨dt, hdt, _⟩
        cases hdt
      · exact ih hnow (round + 1) (by omega) _ hnext
      · exact ih hnow (round + 1) (by omega) _ hnext

theorem wp_sizes_opMalloc (count : Nat) {post : (Slot → Nat) → Bool → Prop}
    (hpost : ∀ ok, ((∃ dt, works dt) → ok = true) → post length ok) :
    (opMalloc count).wp (sizes limit works) post length := by
  induction count with
  | zero => exact hpost true fun _ => rfl
  | succ count ih =>
      apply wp_sizes_posixMemalign
      intro ok hok
      split
      · rename_i hfailed
        refine hpost false fun hworks => ?_
        rw [hok hworks] at hfailed
        exact absurd hfailed (by decide)
      · exact ih

theorem wp_sizes_bitopCommand (hlimit : limit < 2 ^ 31) (hlength : BoundedBy limit length) (cmd : BitopCmd)
    (dest : Option Slot) :
    (bitopCommand cmd dest dts).wp (sizes limit works)
      (fun after result => BoundedBy limit after ∧
        Returns works cmd dest (longestOf (dts.map (lengthIn length))) result) length := by
  have hn : longestOf (dts.map (lengthIn length)) ≤ limit := by
    apply longestOf_le_iff.mpr
    intro one hone
    obtain ⟨dt, _, rfl⟩ := List.mem_map.mp hone
    cases dt with
    | none => exact Nat.zero_le _
    | some dt => exact hlength dt
  rw [bitopCommand, wp_bind]
  apply @wp_opScan _ (sizes limit works) length length dts (fun dt _ => sizes_measured limit works length dt)
    0 0 [] (Or.inl rfl)
  intro maxidx hlongest
  rw [List.nil_append] at hlongest ⊢
  rw [show (dts.map (lengthIn length)).foldl max 0 = longestOf (dts.map (lengthIn length)) from rfl] at *
  generalize longestOf (dts.map (lengthIn length)) = n at hlongest hn ⊢
  simp only
  split
  · rename_i hzero
    exact ⟨hlength, fun _ _ => by rw [hzero]; rfl⟩
  · rename_i hpos
    rw [wp_bind]
    apply wp_sizes_opMalloc
    intro ok hok
    split
    · rename_i hfailed
      refine ⟨hlength, ?_⟩
      rintro _ ⟨dt, _, hworks⟩
      rw [hok ⟨dt, hworks⟩] at hfailed
      exact absurd hfailed (by decide)
    · obtain ⟨source, hsource, ht, hr⟩ := hlongest.resolve_left hpos
      have hne : dts ≠ [] := by
        rintro rfl
        cases hsource
      simp only [hsource, ht, hr]
      have hstart := reads_pos hpos
      apply wp_sizes_opLoop hlimit hlength hlength cmd dest hne hn (reads n) 0 (by omega)
      rw [if_neg hstart, Nat.zero_mul]

end Bitop

end Solidbits
