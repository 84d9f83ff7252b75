import Solidbits.Bitops.Access

namespace Solidbits

open Prog

section Lengths

-- A file of a length is read in rounds of whole buffers and a last part.
def reads (length : Nat) : Nat :=
  if length % FILE_BUFFER_SIZE ≠ 0 then length / FILE_BUFFER_SIZE + 1 else length / FILE_BUFFER_SIZE

def lastRead (length : Nat) : Nat :=
  if length % FILE_BUFFER_SIZE ≠ 0 then length % FILE_BUFFER_SIZE else FILE_BUFFER_SIZE

theorem lastRead_pos (length : Nat) : 0 < lastRead length ∧ lastRead length ≤ FILE_BUFFER_SIZE := by
  unfold lastRead FILE_BUFFER_SIZE
  split <;> omega

theorem reads_lastRead {length round : Nat} (h : reads length = round + 1) :
    length = round * FILE_BUFFER_SIZE + lastRead length := by
  unfold reads FILE_BUFFER_SIZE at h
  unfold lastRead FILE_BUFFER_SIZE
  split at h <;> split <;> omega

theorem length_le_of_reads {length round : Nat} (h : reads length ≤ round) :
    length ≤ round * FILE_BUFFER_SIZE := by
  unfold reads FILE_BUFFER_SIZE at *
  split at h <;> omega

theorem lt_length_of_reads {length round : Nat} (h : round < reads length) :
    round * FILE_BUFFER_SIZE < length := by
  unfold reads FILE_BUFFER_SIZE at *
  split at h <;> omega

theorem reads_pos {n : Nat} (hn : n ≠ 0) : reads n ≠ 0 := by
  unfold reads FILE_BUFFER_SIZE
  split <;> omega

theorem reads_mono {length longer : Nat} (h : length ≤ longer) : reads length ≤ reads longer := by
  by_contra hlt
  have hle := length_le_of_reads (Nat.le_refl (reads longer))
  have hgt := lt_length_of_reads (Nat.not_le.mp hlt)
  omega

-- The longest of some lengths.
def longestOf (lengths : List Nat) : Nat := lengths.foldl max 0

theorem foldl_max_le_iff {lengths : List Nat} {least bound : Nat} :
    lengths.foldl max least ≤ bound ↔ least ≤ bound ∧ ∀ length ∈ lengths, length ≤ bound := by
  induction lengths generalizing least with
  | nil => simp
  | cons first rest ih =>
      rw [List.foldl_cons, ih]
      simp only [List.mem_cons, forall_eq_or_imp, Nat.max_le, and_assoc]

theorem longestOf_le_iff {lengths : List Nat} {bound : Nat} :
    longestOf lengths ≤ bound ↔ ∀ length ∈ lengths, length ≤ bound := by
  rw [longestOf, foldl_max_le_iff]
  exact and_iff_right (Nat.zero_le _)

theorem le_longestOf {lengths : List Nat} {length : Nat} (h : length ∈ lengths) :
    length ≤ longestOf lengths :=
  longestOf_le_iff.mp (Nat.le_refl _) length h

end Lengths

section Scan

-- A source of a recorded length once some rounds are read.
def sourceIn (length : Slot → Nat) (round : Nat) : Option Slot → Source
  | none => { dt := none }
  | some dt => { dt := some dt, t := reads (length dt) - round, r := lastRead (length dt) }

def lengthIn (length : Slot → Nat) : Option Slot → Nat
  | none => 0
  | some dt => length dt

def Longest (sources : List Source) (maxidx maxlen : Nat) : Prop :=
  maxlen = 0 ∨ ∃ source, sources[maxidx]? = some source ∧ source.t = reads maxlen ∧
    source.r = lastRead maxlen

theorem Longest.append {sources : List Source} {maxidx maxlen : Nat} (h : Longest sources maxidx maxlen)
    (more : List Source) : Longest (sources ++ more) maxidx maxlen := by
  rcases h with h | ⟨source, hs, ht, hr⟩
  · exact Or.inl h
  · refine Or.inr ⟨source, ?_, ht, hr⟩
    rw [List.getElem?_append_left (List.getElem?_eq_some_iff.mp hs).1, hs]

theorem longest_last (length : Slot → Nat) (sources : List Source) (dt : Slot) :
    Longest (sources ++ [sourceIn length 0 (some dt)]) sources.length (length dt) :=
  Or.inr ⟨sourceIn length 0 (some dt), by simp, rfl, rfl⟩

variable {γ : Type} {contract : Contract Act Res γ} {ghost : γ} {length : Slot → Nat}
  {dts : List (Option Slot)}

-- The recorded length of a descriptor can be read, and reading it changes
-- nothing.
def Measured (contract : Contract Act Res γ) (ghost : γ) (length : Slot → Nat) (dt : Slot) : Prop :=
  contract.allowed ghost (.descLength dt) ∧ ∀ answer after,
    contract.answers ghost (.descLength dt) answer after → answer = length dt ∧ after = ghost

theorem Measured.wp {dt : Slot} (h : Measured contract ghost length dt) {α : Type} {post : γ → α → Prop}
    {f : Nat → Cmd α} (hf : (f (length dt)).wp contract post ghost) :
    (Cmd.descLength dt >>= f).wp contract post ghost := by
  refine (wp_ask contract post (Act.descLength dt) f ghost).mpr ⟨h.1, ?_⟩
  intro answer after ha
  obtain ⟨rfl, rfl⟩ := h.2 answer after ha
  exact hf

-- The scan finds how each source is to be read, and the longest of them.
theorem wp_opScan (hmeasured : Held (Measured contract ghost length) dts) {maxidx maxlen : Nat}
    {sources : List Source} (hlongest : Longest sources maxidx maxlen)
    {post : γ → List Source × Nat × Nat → Prop}
    (hpost : ∀ maxidx, Longest (sources ++ dts.map (sourceIn length 0)) maxidx
        ((dts.map (lengthIn length)).foldl max maxlen) →
      post ghost (sources ++ dts.map (sourceIn length 0), maxidx,
        (dts.map (lengthIn length)).foldl max maxlen)) :
    (opScan dts sources.length maxidx maxlen sources).wp contract post ghost := by
  induction dts generalizing maxidx maxlen sources with
  | nil =>
      simp only [List.map_nil, List.append_nil, List.foldl_nil] at hpost
      exact hpost maxidx hlongest
  | cons first dts ih =>
      have hlen : ∀ source : Source, sources.length + 1 = (sources ++ [source]).length := by simp
      cases first with
      | none =>
          simp only [opScan, hlen { dt := none }]
          apply ih hmeasured.tail (hlongest.append _)
          simpa [lengthIn, sourceIn] using hpost
      | some dt =>
          have hdt : Measured contract ghost length dt := hmeasured dt List.mem_cons_self
          have hsource : (if length dt % FILE_BUFFER_SIZE ≠ 0 then
                { dt := some dt, t := length dt / FILE_BUFFER_SIZE + 1,
                  r := length dt % FILE_BUFFER_SIZE }
              else
                { dt := some dt, t := length dt / FILE_BUFFER_SIZE, r := FILE_BUFFER_SIZE } : Source) =
              sourceIn length 0 (some dt) := by
            simp only [sourceIn, reads, lastRead, Nat.sub_zero]
            split <;> rfl
          apply hdt.wp
          apply hdt.wp
          apply hdt.wp
          rw [hsource]
          split
          · rename_i hlonger
            apply hdt.wp
            rw [hlen]
            apply ih hmeasured.tail (longest_last length sources dt)
            simpa [lengthIn, Nat.max_eq_right (Nat.le_of_lt hlonger)] using hpost
          · rename_i hshorter
            rw [hlen]
            apply ih hmeasured.tail (hlongest.append _)
            simpa [lengthIn, Nat.max_eq_left (Nat.not_lt.mp hshorter)] using hpost

-- What a round leaves of a source.
def Source.next (source : Source) : Source :=
  if source.dt = none ∨ source.t = 0 then source else { source with t := source.t - 1 }

theorem source_next (length : Slot → Nat) (round : Nat) (dt : Option Slot) :
    (sourceIn length round dt).next = sourceIn length (round + 1) dt := by
  cases dt with
  | none => rfl
  | some dt =>
      unfold Source.next
      split
      · rename_i hdone
        have hzero : reads (length dt) - round = 0 := by simpa [sourceIn] using hdone
        simp only [sourceIn]
        rw [hzero, show reads (length dt) - (round + 1) = 0 by omega]
      · simp only [sourceIn, Nat.sub_sub]

theorem sources_next (length : Slot → Nat) (round : Nat) (dts : List (Option Slot)) :
    (dts.map (sourceIn length round)).map Source.next = dts.map (sourceIn length (round + 1)) := by
  rw [List.map_map]
  exact List.map_congr_left fun dt _ => source_next length round dt

theorem source_dt (length : Slot → Nat) (round : Nat) (dts : List (Option Slot)) :
    (dts.map (sourceIn length round)).map Source.dt = dts := by
  induction dts with
  | nil => rfl
  | cons dt dts ih =>
      simp only [List.map_cons, ih]
      cases dt <;> rfl

end Scan

section Ints

theorem toInt_small {x : Nat} (h : x < 2 ^ 31) : toInt (x : Int) = x := by
  simp only [toInt, Int.bmod]
  split <;> omega

theorem toInt_large {x : Nat} (hlow : 2 ^ 31 ≤ x) (hhigh : x < 2 ^ 32) : toInt (x : Int) < 0 := by
  simp only [toInt, Int.bmod]
  split <;> omega

end Ints

end Solidbits
