import Solidbits.Serial.Commands
import Solidbits.Bitops.Fold
import Solidbits.Bitops.Rounds

namespace Solidbits

open Prog

section Reading

variable {g : Desk} {dts : List (Option Slot)}

def Desk.lengthOf (g : Desk) : Option Slot → Nat
  | none => 0
  | some dt => g.length dt

def Desk.contentOf (g : Desk) : Option Slot → Bytes
  | none => []
  | some dt => g.content dt

def Desk.longest (g : Desk) (dts : List (Option Slot)) (maxlen : Nat) : Nat :=
  dts.foldl (fun maxlen dt => max maxlen (g.lengthOf dt)) maxlen

-- A source once some rounds are read.
def Desk.source (g : Desk) (round : Nat) : Option Slot → Source
  | none => { dt := none }
  | some dt => { dt := some dt, t := reads (g.length dt) - round, r := lastRead (g.length dt) }

theorem desk_source (g : Desk) (round : Nat) : g.source round = sourceIn g.length round := by
  funext dt
  cases dt <;> rfl

theorem desk_longest (g : Desk) (dts : List (Option Slot)) (maxlen : Nat) :
    g.longest dts maxlen = (dts.map (lengthIn g.length)).foldl max maxlen := by
  rw [Desk.longest, List.foldl_map]
  apply List.foldl_ext
  intro maxlen dt _
  cases dt <;> rfl

theorem desk_sources_next (g : Desk) (round : Nat) (dts : List (Option Slot)) :
    (dts.map (g.source round)).map Source.next = dts.map (g.source (round + 1)) := by
  rw [desk_source, desk_source, sources_next]

theorem desk_sources_dt (g : Desk) (round : Nat) (dts : List (Option Slot)) :
    (dts.map (g.source round)).map Source.dt = dts := by
  rw [desk_source, source_dt]

theorem desk_measured {dt : Slot} (h : 0 < g.pins dt) : Measured deskContract g g.length dt :=
  ⟨h, fun _ _ ha => ha⟩

theorem wp_opMalloc (count : Nat) {post : Desk → Bool → Prop} (hpost : post g true) :
    (opMalloc count).wp deskContract post g := by
  induction count with
  | zero => exact hpost
  | succ count ih =>
      apply wp_posixMemalign
      exact ih

end Reading

section Rounds

variable {g : Desk} {dts : List (Option Slot)}

-- What a round puts into the buffer of a source.
def Desk.buffer (g : Desk) (offset : Nat) (source : Source) : Buf :=
  match source.dt with
  | none => bufOf []
  | some dt =>
      if source.t = 0 then bufOf []
      else bufOf (Padded.slice (g.content dt) offset (if source.t = 1 then source.r else FILE_BUFFER_SIZE))

theorem wp_opRead {sources : List Source} (hheld : Held (fun dt => 0 < g.pins dt) (sources.map Source.dt))
    (offset : Nat) {post : Desk → List Buf × List Source → Prop}
    (hpost : post g (sources.map (g.buffer offset), sources.map Source.next)) :
    (opRead offset sources).wp deskContract post g := by
  induction sources generalizing post with
  | nil => exact hpost
  | cons source sources ih =>
      unfold opRead
      split
      · rename_i hdt
        rw [wp_bind]
        apply ih hheld.tail
        simpa [Desk.buffer, Source.next, hdt] using hpost
      · rename_i dt hdt
        split
        · rename_i hdone
          rw [wp_bind]
          apply ih hheld.tail
          simpa [Desk.buffer, Source.next, hdt, hdone] using hpost
        · rename_i hmore
          apply wp_readFrom (hheld dt (by simp [hdt]))
          rw [wp_bind]
          apply ih hheld.tail
          simpa [Desk.buffer, Source.next, hdt, hmore] using hpost

-- At an offset that does not fit the reads bring anything, but change nothing.
theorem wp_opRead_any {sources : List Source} (hheld : Held (fun dt => 0 < g.pins dt) (sources.map Source.dt))
    (offset : Int) {post : Desk → List Buf × List Source → Prop}
    (hpost : ∀ bufs, bufs.length = sources.length → post g (bufs, sources.map Source.next)) :
    (opRead offset sources).wp deskContract post g := by
  induction sources generalizing post with
  | nil => exact hpost [] rfl
  | cons source sources ih =>
      unfold opRead
      split
      · rename_i hdt
        rw [wp_bind]
        apply ih hheld.tail
        intro bufs hbufs
        simpa [Source.next, hdt] using hpost (bufOf [] :: bufs) (by simp [hbufs])
      · rename_i dt hdt
        split
        · rename_i hdone
          rw [wp_bind]
          apply ih hheld.tail
          intro bufs hbufs
          simpa [Source.next, hdt, hdone] using hpost (bufOf [] :: bufs) (by simp [hbufs])
        · rename_i hmore
          refine (wp_ask deskContract _ (Act.readFrom dt _ offset) _ g).mpr ⟨hheld dt (by simp [hdt]), ?_⟩
          rintro data _ ⟨_, rfl⟩
          rw [wp_bind]
          apply ih hheld.tail
          intro bufs hbufs
          simpa [Source.next, hdt, hmore] using hpost (bufOf data.buf :: bufs) (by simp [hbufs])

-- The combination of the sources at every position.
def Desk.combine (g : Desk) (option : OpOption) (dts : List (Option Slot)) (n : Nat) : Bytes :=
  (List.range n).map (opBytes option (dts.map fun dt => bufOf (g.contentOf dt)))

-- The operation on bitmaps that are padded with zeros.
def bitop (option : OpOption) (contents : List Bytes) (n : Nat) : Bytes :=
  (List.range n).map (opBytes option (contents.map bufOf))

@[simp] theorem bitop_length (option : OpOption) (contents : List Bytes) (n : Nat) :
    (bitop option contents n).length = n := by
  simp [bitop]

theorem bitop_byte (option : OpOption) (contents : List Bytes) {n j : Nat} (hj : j < n) :
    Padded.get (bitop option contents n) j = opBytes option (contents.map bufOf) j := by
  rw [bitop, Padded.get_map_range, if_pos hj]

theorem opBytes_map {α : Type} (option : OpOption) (xs : List α) (f f' : α → Buf) (j j' : Nat)
    (h : ∀ x ∈ xs, f x j = f' x j') : opBytes option (xs.map f) j = opBytes option (xs.map f') j' := by
  cases xs with
  | nil => rfl
  | cons x xs =>
      have hx := h x List.mem_cons_self
      have hxs : ∀ (start : UInt8), (xs.map f).foldl (fun y p => opByte option y (p j)) start =
          (xs.map f').foldl (fun y p => opByte option y (p j')) start := by
        intro start
        rw [List.foldl_map, List.foldl_map]
        apply List.foldl_ext
        intro y z hz
        rw [h z (List.mem_cons_of_mem x hz)]
      simp only [List.map_cons, opBytes, hx, hxs]

-- The length of every source bounds what it shows.
def Desk.Bounded (g : Desk) (dts : List (Option Slot)) : Prop :=
  ∀ dt ∈ dts, (g.contentOf dt).length ≤ g.lengthOf dt

-- The buffer of a source in a round is the part of the source that the round is
-- about, padded with zeros.
theorem buffer_byte {now : Desk} {dt : Option Slot} (hbound : (g.contentOf dt).length ≤ g.lengthOf dt)
    {round : Nat} (hsame : ∀ i, round * FILE_BUFFER_SIZE ≤ i →
      Padded.get (now.contentOf dt) i = Padded.get (g.contentOf dt) i)
    {j : Nat} (hj : j < FILE_BUFFER_SIZE) :
    now.buffer (round * FILE_BUFFER_SIZE) (g.source round dt) j =
      Padded.get (g.contentOf dt) (round * FILE_BUFFER_SIZE + j) := by
  cases dt with
  | none => rfl
  | some dt =>
      have hpast : ∀ i, g.length dt ≤ i → Padded.get (g.content dt) i = 0 :=
        fun i hi => Padded.get_of_le (Nat.le_trans hbound hi)
      have hnow : ∀ i, round * FILE_BUFFER_SIZE ≤ i → Padded.get (now.content dt) i = Padded.get (g.content dt) i :=
        hsame
      have ht : (g.source round (some dt)).t = reads (g.length dt) - round := rfl
      have hr : (g.source round (some dt)).r = lastRead (g.length dt) := rfl
      show (if (g.source round (some dt)).t = 0 then bufOf [] else bufOf (Padded.slice (now.content dt)
        (round * FILE_BUFFER_SIZE) (if (g.source round (some dt)).t = 1 then (g.source round (some dt)).r
          else FILE_BUFFER_SIZE))) j = Padded.get (g.content dt) (round * FILE_BUFFER_SIZE + j)
      split
      · rename_i hdone
        have hshort := @length_le_of_reads (g.length dt) round (by omega)
        rw [hpast (round * FILE_BUFFER_SIZE + j) (by omega)]
        rfl
      · rw [bufOf, Padded.get_slice]
        by_cases hlast : (g.source round (some dt)).t = 1
        · have hlen := @reads_lastRead (g.length dt) round (by omega)
          rw [if_pos hlast, hr]
          split
          · exact hnow _ (by omega)
          · exact (hpast _ (by omega)).symm
        · rw [if_neg hlast, if_pos hj]
          exact hnow _ (by omega)

end Rounds

section Loop

variable {g : Desk} {dest : Slot} {dts : List (Option Slot)}

-- The state once the destination is written up to some position.
def Desk.written (g : Desk) (dest : Slot) (bytes : Bytes) : Desk :=
  if bytes = [] then g else g.write dest 0 bytes

@[simp] theorem written_pins (bytes : Bytes) : (g.written dest bytes).pins = g.pins := by
  unfold Desk.written
  split <;> rfl

@[simp] theorem written_hash (bytes : Bytes) : (g.written dest bytes).hash = g.hash := by
  unfold Desk.written
  split <;> rfl

theorem written_replies (bytes : Bytes) : (g.written dest bytes).replies = g.replies := by
  unfold Desk.written
  split <;> rfl

theorem written_append (bytes : Bytes) {more : Bytes} (hmore : more ≠ []) :
    (g.written dest bytes).write dest bytes.length more = g.written dest (bytes ++ more) := by
  by_cases hb : bytes = []
  · rw [hb]
    simp only [Desk.written, ite_true, List.nil_append, hmore, ite_false, List.length_nil]
  · have hboth : bytes ++ more ≠ [] := by simp [hmore]
    have happend := Padded.overwrite_append ((g.files (g.hash dest)).getD []) bytes more 0
    rw [Nat.zero_add] at happend
    simp only [Desk.written, hb, hboth, ite_false, Desk.write, Desk.content, Desk.length,
      Function.update_self, Option.getD_some, Function.update_idem, happend, List.length_append, Nat.zero_add]
    congr 3
    omega

-- Behind that position nothing has changed.
theorem written_get {bytes : Bytes} {i : Nat} (hi : bytes.length ≤ i) (dt : Option Slot) :
    Padded.get ((g.written dest bytes).contentOf dt) i = Padded.get (g.contentOf dt) i := by
  cases dt with
  | none => rfl
  | some dt =>
      unfold Desk.written
      split
      · rfl
      · simp only [Desk.contentOf, Desk.content, Desk.write]
        by_cases hsame : g.hash dt = g.hash dest
        · rw [hsame, Function.update_self, Option.getD_some, Padded.get_overwrite, if_neg (by omega)]
        · rw [Function.update_of_ne hsame]

@[simp] theorem combine_length (option : OpOption) (n : Nat) : (g.combine option dts n).length = n := by
  simp [Desk.combine]

-- A round computes the next part of the combination, as long as what is still
-- to be read has not changed.
theorem combine_chunk (option : OpOption) (hbound : g.Bounded dts) (hne : dts ≠ []) {now : Desk} {round : Nat}
    (hsame : ∀ dt ∈ dts, ∀ i, round * FILE_BUFFER_SIZE ≤ i →
      Padded.get (now.contentOf dt) i = Padded.get (g.contentOf dt) i)
    {size : Nat} (hsize : size ≤ FILE_BUFFER_SIZE) :
    g.combine option dts (round * FILE_BUFFER_SIZE + size) =
      g.combine option dts (round * FILE_BUFFER_SIZE) ++
        opChunk option ((dts.map (g.source round)).map (now.buffer (round * FILE_BUFFER_SIZE))) size := by
  have hchunk : opChunk option ((dts.map (g.source round)).map (now.buffer (round * FILE_BUFFER_SIZE))) size =
      (List.range size).map fun j => opBytes option (dts.map fun dt => bufOf (g.contentOf dt))
        (round * FILE_BUFFER_SIZE + j) := by
    obtain ⟨first, rest, rfl⟩ := List.exists_cons_of_ne_nil hne
    rw [List.map_map, List.map_cons, opChunk_eq, ← List.map_cons]
    apply List.map_congr_left
    intro j hj
    have hlt := List.mem_range.mp hj
    apply opBytes_map
    intro dt hdt
    exact buffer_byte (hbound dt hdt) (hsame dt hdt) (by omega)
  rw [hchunk, Desk.combine, Desk.combine, List.range_add, List.map_append, List.map_map]
  rfl

-- What is written of the destination lies before it.
theorem combine_add (option : OpOption) (hbound : g.Bounded dts) (hne : dts ≠ []) (round : Nat) {size : Nat}
    (hsize : size ≤ FILE_BUFFER_SIZE) :
    g.combine option dts (round * FILE_BUFFER_SIZE + size) =
      g.combine option dts (round * FILE_BUFFER_SIZE) ++
        opChunk option ((dts.map (g.source round)).map
          ((g.written dest (g.combine option dts (round * FILE_BUFFER_SIZE))).buffer
            (round * FILE_BUFFER_SIZE))) size := by
  apply combine_chunk option hbound hne _ hsize
  intro dt _ i hi
  exact written_get (by rwa [combine_length]) dt

theorem opLoop_done {cmd : BitopCmd} (hhook : cmd.hook = .NONE) (dest : Option Slot) (rmax : Nat)
    (sources : List Source) (offset : Int) (bits : Nat) :
    opLoop cmd dest rmax 0 sources offset bits = .ret offset := by
  rw [opLoop, hhook]
  rfl

-- Once the offset is negative the loop ends without another write.
theorem wp_opLoop_negative {cmd : BitopCmd} (hhook : cmd.hook = .NONE) (hdest : 0 < g.pins dest)
    (rmax left : Nat) {sources : List Source} (hheld : Held (fun dt => 0 < g.pins dt) (sources.map Source.dt))
    {offset : Int} (hoffset : offset < 0) (bits : Nat) {post : Desk → Int → Prop}
    (hpost : ∀ r < 0, post g r) :
    (opLoop cmd (some dest) rmax left sources offset bits).wp deskContract post g := by
  cases left with
  | zero =>
      rw [opLoop_done hhook]
      exact hpost offset hoffset
  | succ left =>
      rw [opLoop, wp_bind]
      apply wp_opRead_any hheld
      intro bufs _
      simp only [hhook]
      refine (wp_ask deskContract _ (Act.writeTo dest _ offset) _ g).mpr ⟨hdest, ?_⟩
      intro r after ha
      simp only [deskContract, deskAnswers, hoffset, ite_true] at ha
      obtain ⟨rfl, rfl⟩ := ha
      exact hpost (-1) (by decide)

-- One round appends its part to what has been written.
theorem wp_opRound {cmd : BitopCmd} (hhook : cmd.hook = .NONE) (hdest : 0 < g.pins dest)
    (hheld : Held (fun dt => 0 < g.pins dt) dts) (hbound : g.Bounded dts) (hne : dts ≠ []) (left round : Nat)
    (rmax size : Nat) (hsize : size = if left ≠ 0 then FILE_BUFFER_SIZE else rmax) (hpos : 0 < size)
    (hle : size ≤ FILE_BUFFER_SIZE) (bits : Nat) {post : Desk → Int → Prop}
    (hrest : (opLoop cmd (some dest) rmax left (dts.map (g.source (round + 1)))
        (toInt (round * FILE_BUFFER_SIZE + size : Nat)) bits).wp deskContract post
      (g.written dest (g.combine cmd.option dts (round * FILE_BUFFER_SIZE + size)))) :
    (opLoop cmd (some dest) rmax (left + 1) (dts.map (g.source round))
        (round * FILE_BUFFER_SIZE : Nat) bits).wp deskContract post
      (g.written dest (g.combine cmd.option dts (round * FILE_BUFFER_SIZE))) := by
  rw [opLoop, wp_bind]
  apply wp_opRead
  · rwa [desk_sources_dt, written_pins]
  · simp only [hhook, ← hsize, desk_sources_next]
    rw [combine_add cmd.option hbound hne round hle] at hrest
    generalize hchunk : opChunk cmd.option ((dts.map (g.source round)).map
      ((g.written dest (g.combine cmd.option dts (round * FILE_BUFFER_SIZE))).buffer
        (round * FILE_BUFFER_SIZE))) size = chunk at hrest ⊢
    have hlen : chunk.length = size := by
      have hall := congrArg List.length (@combine_add g dest dts cmd.option hbound hne round size hle)
      rw [hchunk] at hall
      simpa using hall.symm
    have hchunkne : chunk ≠ [] := List.ne_nil_of_length_pos (by omega)
    apply wp_writeTo
    · rwa [written_pins]
    · have happend := @written_append g dest (g.combine cmd.option dts (round * FILE_BUFFER_SIZE)) _ hchunkne
      rw [combine_length] at happend
      rw [if_neg (by omega), happend]
      exact hrest

-- The loop writes the combination of the sources, unless the length of it does
-- not fit into an int.
theorem wp_opLoop {cmd : BitopCmd} (hhook : cmd.hook = .NONE) (hdest : 0 < g.pins dest)
    (hheld : Held (fun dt => 0 < g.pins dt) dts) (hbound : g.Bounded dts) (hne : dts ≠ []) {n : Nat}
    (left round : Nat) (hround : reads n = round + (left + 1)) (hsmall : round * FILE_BUFFER_SIZE < 2 ^ 31)
    (bits : Nat) {post : Desk → Int → Prop}
    (hpost : n < 2 ^ 31 → post (g.written dest (g.combine cmd.option dts n)) n)
    (hfail : 2 ^ 31 ≤ n → ∀ bytes, ∀ r < 0, post (g.written dest bytes) r) :
    (opLoop cmd (some dest) (lastRead n) (left + 1) (dts.map (g.source round))
        (round * FILE_BUFFER_SIZE : Nat) bits).wp deskContract post
      (g.written dest (g.combine cmd.option dts (round * FILE_BUFFER_SIZE))) := by
  have hbuffer : FILE_BUFFER_SIZE = 1146880 := rfl
  obtain ⟨hlast, hlastle⟩ := lastRead_pos n
  induction left generalizing round with
  | zero =>
      have hn := @reads_lastRead n round (by omega)
      apply wp_opRound hhook hdest hheld hbound hne 0 round _ (lastRead n) (if_neg (by omega)).symm hlast hlastle
      rw [opLoop_done hhook, ← hn]
      by_cases hfits : n < 2 ^ 31
      · rw [toInt_small hfits]
        exact hpost hfits
      · exact hfail (by omega) _ _ (toInt_large (by omega) (by omega))
  | succ left ih =>
      apply wp_opRound hhook hdest hheld hbound hne (left + 1) round _ FILE_BUFFER_SIZE (if_pos (by omega)).symm
        (by omega) (Nat.le_refl _)
      have hmul : (round + 1) * FILE_BUFFER_SIZE = round * FILE_BUFFER_SIZE + FILE_BUFFER_SIZE :=
        Nat.succ_mul round FILE_BUFFER_SIZE
      have hlower : (round + 1) * FILE_BUFFER_SIZE < n := lt_length_of_reads (by omega)
      rw [← hmul]
      by_cases hfits : (round + 1) * FILE_BUFFER_SIZE < 2 ^ 31
      · rw [toInt_small hfits]
        exact ih (round + 1) (by omega) hfits
      · apply wp_opLoop_negative hhook
        · rwa [written_pins]
        · rwa [desk_sources_dt, written_pins]
        · exact toInt_large (by omega) (by omega)
        · exact hfail (by omega) _

-- Once its sources are scanned and its buffers allocated BITOP is its loop.
theorem wp_bitopStart {cmd : BitopCmd} {dest : Option Slot} (hheld : Held (fun dt => 0 < g.pins dt) dts)
    {post : Desk → Int → Prop} (hzero : g.longest dts 0 = 0 → post g 0)
    (hloop : ∀ left, reads (g.longest dts 0) = left + 1 → dts ≠ [] →
      (opLoop cmd dest (lastRead (g.longest dts 0)) (left + 1) (dts.map (g.source 0)) 0 0).wp deskContract post g) :
    (bitopCommand cmd dest dts).wp deskContract post g := by
  rw [bitopCommand, wp_bind]
  apply @wp_opScan _ deskContract g g.length dts (fun dt hdt => desk_measured (hheld dt hdt)) 0 0 []
    (Or.inl rfl)
  intro maxidx hlongest
  rw [List.nil_append, ← desk_source, ← desk_longest] at hlongest ⊢
  generalize g.longest dts 0 = n at hlongest hzero hloop ⊢
  simp only
  split
  · rename_i hn
    exact hzero hn
  · rename_i hn
    rw [wp_bind]
    apply wp_opMalloc
    obtain ⟨source, hsource, ht, hr⟩ := hlongest.resolve_left hn
    obtain ⟨left, hleft⟩ := Nat.exists_eq_succ_of_ne_zero (reads_pos hn)
    have hne : dts ≠ [] := by
      rintro rfl
      cases hsource
    simp only [hsource, ht, hr, hleft, Bool.not_true, Bool.false_eq_true, ite_false]
    exact hloop left hleft hne

-- BITOP writes the combination up to the longest length, or fails on a length
-- that does not fit into an int.
theorem wp_bitopCommand {cmd : BitopCmd} (hhook : cmd.hook = .NONE) (hdest : 0 < g.pins dest)
    (hheld : Held (fun dt => 0 < g.pins dt) dts) (hbound : g.Bounded dts) {post : Desk → Int → Prop}
    (hpost : g.longest dts 0 < 2 ^ 31 →
      post (g.written dest (g.combine cmd.option dts (g.longest dts 0))) (g.longest dts 0))
    (hfail : 2 ^ 31 ≤ g.longest dts 0 → ∀ bytes, ∀ r < 0, post (g.written dest bytes) r) :
    (bitopCommand cmd (some dest) dts).wp deskContract post g := by
  apply wp_bitopStart hheld
  · intro hzero
    rw [hzero] at hpost
    exact hpost (by decide)
  · intro left hleft hne
    have hstart : g.written dest (g.combine cmd.option dts (0 * FILE_BUFFER_SIZE)) = g := by
      rw [Nat.zero_mul]
      rfl
    have hloop := wp_opLoop hhook hdest hheld hbound hne left 0 (by omega) (by decide) 0 hpost hfail
    rw [hstart, Nat.zero_mul] at hloop
    exact hloop

end Loop

end Solidbits
