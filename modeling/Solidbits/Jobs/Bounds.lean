import Solidbits.Bitops.Sizes
import Solidbits.Bitops.Bitcount
import Solidbits.Net.Defs
import Solidbits.Parser.Decimal

namespace Solidbits

open Prog

section Lines

-- One line, with its newline at the end and nowhere else.
def IsReply (reply : Bytes) : Prop := ∃ body, reply = body ++ [NEWLINE] ∧ NEWLINE ∉ body

theorem isReply_ne_nil {reply : Bytes} (h : IsReply reply) : reply ≠ [] := by
  obtain ⟨body, rfl, _⟩ := h
  exact List.append_ne_nil_of_right_ne_nil _ (List.cons_ne_nil _ _)

-- What reply gets is a line that needs no more room than a fresh buffer has.
def Fine (text : Bytes) (len : Nat) : Prop := IsReply (text.take len) ∧ len ≤ RESP_INIT_CAP

theorem fine_of_dropLast {text : Bytes} {len : Nat} (hend : text.take len = (text.take len).dropLast ++ [NEWLINE])
    (hbody : NEWLINE ∉ (text.take len).dropLast) (hlen : len ≤ RESP_INIT_CAP) : Fine text len :=
  ⟨⟨_, hend, hbody⟩, hlen⟩

-- A number of at most 14 digits fits buf with its newline and the NUL.
theorem fine_number {result : Int} (hnonneg : 0 ≤ result) (hsmall : result < 10 ^ 14) :
    Fine ((str (toString result ++ "\n")).take 15 ++ [0]) (str (toString result ++ "\n")).length := by
  obtain ⟨n, rfl⟩ := Int.eq_ofNat_of_zero_le hnonneg
  have htext : str (toString (n : Int) ++ "\n") = printed n ++ [NEWLINE] := by
    rw [str, String.toList_append, List.map_append]
    rfl
  have hdigits : (printed (n : Int)).length ≤ 14 := by
    rw [printed_nat, List.length_map]
    exact (Nat.length_toDigits_le_iff (by decide) (by decide)).mpr (by omega)
  have hlength : (printed (n : Int) ++ [NEWLINE]).length ≤ 15 := by
    rw [List.length_append, List.length_singleton]
    omega
  have hplain : NEWLINE ∉ printed (n : Int) := by
    rw [printed_nat]
    exact fun hm => digit_ne (digits_map (toDigits_isDigit n) NEWLINE hm) (by decide) rfl
  rw [htext, List.take_of_length_le hlength]
  refine ⟨⟨printed n, ?_, hplain⟩, Nat.le_trans hlength (by decide)⟩
  rw [List.take_append_of_le_length (Nat.le_refl _), List.take_length]

end Lines

section Contract

-- A bound for the files, far above what the requests themselves can write.
def LONGEST_FILE : Nat := 10 ^ 13

-- The replies are lines and the writes stay within the bound, as long as the
-- recorded lengths are and a read brings no more than was asked for.
def boundContract : Contract Act Res Unit where
  allowed := fun _ action => match action with
    | .prepareFile _ mode => mode ≤ 2
    | .writeTo _ buf offset => offset.toNat + buf.length ≤ LONGEST_FILE
    | .reply text len => Fine text len
    | _ => True
  answers := fun _ action answer _ => match action with
    | .descLength _ => answer ≤ LONGEST_FILE
    | .readFrom _ size _ => answer.r ≤ size
    | _ => True

variable {α : Type} {dt : Slot} {post : Unit → α → Prop}

theorem bound_descLength {f : Nat → Cmd α} (h : ∀ length ≤ LONGEST_FILE, (f length).wp boundContract post ()) :
    (Cmd.descLength dt >>= f).wp boundContract post () :=
  (wp_ask boundContract post (Act.descLength dt) f ()).mpr ⟨trivial, fun length _ ha => h length ha⟩

theorem bound_readFrom {size : Nat} {offset : Int} {f : Received → Cmd α}
    (h : ∀ data : Received, data.r ≤ size → (f data).wp boundContract post ()) :
    (Cmd.readFrom dt size offset >>= f).wp boundContract post () :=
  (wp_ask boundContract post (Act.readFrom dt size offset) f ()).mpr ⟨trivial, fun data _ ha => h data ha⟩

theorem bound_writeTo {buf : Bytes} {offset : Int} {f : Nat → Cmd α} (hfit : offset.toNat + buf.length ≤ LONGEST_FILE)
    (h : ∀ r, (f r).wp boundContract post ()) : (Cmd.writeTo dt buf offset >>= f).wp boundContract post () :=
  (wp_ask boundContract post (Act.writeTo dt buf offset) f ()).mpr ⟨hfit, fun r _ _ => h r⟩

theorem bound_posixMemalign {f : Bool → Cmd α} (h : ∀ ok, (f ok).wp boundContract post ()) :
    (Cmd.posixMemalign >>= f).wp boundContract post () :=
  (wp_ask boundContract post Act.posixMemalign f ()).mpr ⟨trivial, fun ok _ _ => h ok⟩

theorem bound_prepareFile {key : Bytes} {mode : Nat} {f : Except OpenError Slot → Cmd α} (hmode : mode ≤ 2)
    (h : ∀ answer, (f answer).wp boundContract post ()) : (Cmd.prepareFile key mode >>= f).wp boundContract post () :=
  (wp_ask boundContract post (Act.prepareFile key mode) f ()).mpr ⟨hmode, fun answer _ _ => h answer⟩

theorem bound_releaseAllDescs (descs : List (Option Slot)) :
    (releaseAllDescs descs).wp boundContract (fun _ _ => True) () := by
  induction descs with
  | nil => exact True.intro
  | cons first descs ih =>
      cases first with
      | none => exact ih
      | some dt => exact (wp_ask boundContract _ (Act.releaseDesc dt) _ ()).mpr ⟨trivial, fun _ _ _ => ih⟩

theorem bound_replyStr {text : String} {len : Nat} (h : Fine (str text) len) :
    (replyStr text len).wp boundContract (fun _ _ => True) () :=
  (wp_ask boundContract _ (Act.reply (str text) len) _ ()).mpr ⟨h, fun _ _ _ => True.intro⟩

end Contract

section Commands

variable {dt : Slot}

-- What a result may be for its reply to fit.
def Short (_ : Unit) (result : Int) : Prop := result < 10 ^ 14

theorem bitOf_short (byteval : UInt8) (offset : Int) : Short () (bitOf byteval offset) := by
  unfold Short bitOf
  split <;> decide

theorem bound_setbitWrite {cmd : SetbitCmd} (hoffset : cmd.offset / 8 ≤ FILE_SIZE_LIMIT) (byteval : UInt8) :
    (setbitWrite cmd dt byteval).wp boundContract Short () := by
  apply bound_writeTo
  · rw [Int.toNat_natCast, List.length_singleton]
    simp only [byteOffset, FILE_SIZE_LIMIT, LONGEST_FILE] at *
    omega
  · intro r
    split
    · exact (by decide : (-1 : Int) < 10 ^ 14)
    · exact bitOf_short _ _

theorem bound_setbitCommand {cmd : SetbitCmd} (hoffset : cmd.offset / 8 ≤ FILE_SIZE_LIMIT) :
    (setbitCommand cmd dt).wp boundContract Short () := by
  apply bound_descLength
  intro length _
  split
  · apply bound_readFrom
    intro data _
    split
    · exact (by decide : (-1 : Int) < 10 ^ 14)
    · exact bound_setbitWrite hoffset _
  · split
    · exact (by decide : (0 : Int) < 10 ^ 14)
    · exact bound_setbitWrite hoffset 0

theorem bound_getbitCommand (cmd : GetbitCmd) : (getbitCommand cmd dt).wp boundContract Short () := by
  apply bound_descLength
  intro length _
  split
  · apply bound_readFrom
    intro data _
    split
    · exact (by decide : (-1 : Int) < 10 ^ 14)
    · exact bitOf_short _ _
  · exact (by decide : (0 : Int) < 10 ^ 14)

theorem redisPopcount_le (s : Bytes) (count : Nat) : redisPopcount s count ≤ 8 * count := by
  rw [redisPopcount_eq, onesIn_take]
  refine Nat.le_trans (Finset.sum_le_card_nsmul _ _ 8 fun i _ => ones_le _) ?_
  rw [nsmul_eq_mul, Nat.cast_id, Finset.card_range, Nat.mul_comm]

theorem bound_bitcountLoop (fuel remaining o bits : Nat) (hbits : bits + 8 * remaining < 10 ^ 14) :
    (bitcountLoop dt fuel remaining o bits).wp boundContract Short () := by
  have hdone : ∀ {total : Nat}, total < 10 ^ 14 → Short () (total : Int) := by
    intro total htotal
    unfold Short
    omega
  induction fuel generalizing remaining o bits with
  | zero => exact hdone (by omega)
  | succ fuel ih =>
      unfold bitcountLoop
      split
      · exact hdone (by omega)
      · apply bound_readFrom
        intro data hdata
        split
        · exact hdone (by omega)
        · have hcount := redisPopcount_le data.buf data.r
          apply ih
          omega

theorem bound_bitcountCommand (cmd : BitcountCmd) : (bitcountCommand cmd dt).wp boundContract Short () := by
  apply bound_descLength
  intro length hlength
  obtain ⟨hstart, hstop⟩ := bitcountRange_bounds cmd length
  split
  · exact (by decide : (0 : Int) < 10 ^ 14)
  · generalize bitcountRange cmd length = range at hstart hstop
    obtain ⟨start, stop⟩ := range
    simp only at hstart hstop ⊢
    split
    · exact (by decide : (0 : Int) < 10 ^ 14)
    · apply bound_posixMemalign
      intro ok
      split
      · exact (by decide : (-1 : Int) < 10 ^ 14)
      · apply bound_bitcountLoop
        simp only [LONGEST_FILE] at hlength
        omega

theorem toInt_lt (x : Int) : toInt x < 2 ^ 31 :=
  Int.bmod_lt (by decide)

-- How often a file within the bound is read, and how much of it last.
def Measure (source : Source) : Prop :=
  source.t ≤ LONGEST_FILE / FILE_BUFFER_SIZE + 1 ∧ source.r ≤ FILE_BUFFER_SIZE

theorem bound_opScan (dts : List (Option Slot)) (i maxidx maxlen : Nat) {sources : List Source}
    (hsources : ∀ source ∈ sources, Measure source) :
    (opScan dts i maxidx maxlen sources).wp boundContract
      (fun _ result => ∀ source ∈ result.1, Measure source) () := by
  induction dts generalizing i maxidx maxlen sources with
  | nil => exact hsources
  | cons first dts ih =>
      have hmore : ∀ source, Measure source → ∀ other ∈ sources ++ [source], Measure other := by
        intro source hsource other hm
        rcases List.mem_append.mp hm with hm | hm
        · exact hsources other hm
        · rwa [List.mem_singleton.mp hm]
      cases first with
      | none => exact ih _ _ _ (hmore _ ⟨Nat.zero_le _, Nat.zero_le _⟩)
      | some dt =>
          apply bound_descLength
          intro length₁ hlength₁
          apply bound_descLength
          intro length₂ _
          have hdiv : length₁ / FILE_BUFFER_SIZE ≤ LONGEST_FILE / FILE_BUFFER_SIZE :=
            Nat.div_le_div_right hlength₁
          have hmod : length₂ % FILE_BUFFER_SIZE ≤ FILE_BUFFER_SIZE := Nat.le_of_lt (Nat.mod_lt _ (by decide))
          have hsource : Measure (if length₂ % FILE_BUFFER_SIZE ≠ 0 then
                { dt := some dt, t := length₁ / FILE_BUFFER_SIZE + 1, r := length₂ % FILE_BUFFER_SIZE }
              else { dt := some dt, t := length₁ / FILE_BUFFER_SIZE, r := FILE_BUFFER_SIZE }) := by
            split
            · exact ⟨Nat.add_le_add_right hdiv 1, hmod⟩
            · exact ⟨Nat.le_succ_of_le hdiv, Nat.le_refl _⟩
          apply bound_descLength
          intro length₃ _
          split
          · apply bound_descLength
            intro length₄ _
            exact ih _ _ _ (hmore _ hsource)
          · exact ih _ _ _ (hmore _ hsource)

theorem bound_opMalloc (count : Nat) : (opMalloc count).wp boundContract (fun _ _ => True) () := by
  induction count with
  | zero => exact True.intro
  | succ count ih =>
      apply bound_posixMemalign
      intro ok
      split
      · exact True.intro
      · exact ih

theorem bound_opRead (offset : Int) (sources : List Source) :
    (opRead offset sources).wp boundContract (fun _ _ => True) () := by
  induction sources with
  | nil => exact True.intro
  | cons source sources ih =>
      unfold opRead
      split
      · exact wp_seq ih fun _ _ _ => True.intro
      · split
        · exact wp_seq ih fun _ _ _ => True.intro
        · apply bound_readFrom
          intro data _
          exact wp_seq ih fun _ _ _ => True.intro

-- The offset is an int, and each round counts the bits of one buffer at most.
theorem bound_opLoop (cmd : BitopCmd) (dest : Option Slot) {rmax : Nat} (hrmax : rmax ≤ FILE_BUFFER_SIZE)
    (left : Nat) (sources : List Source) {offset : Int} (hoffset : offset < 2 ^ 31) {bits : Nat}
    (hbits : bits + 8 * FILE_BUFFER_SIZE * left < 10 ^ 14) :
    (opLoop cmd dest rmax left sources offset bits).wp boundContract Short () := by
  induction left generalizing sources offset bits with
  | zero =>
      show (if cmd.hook = .COUNTOP then (bits : Int) else offset) < 10 ^ 14
      split <;> omega
  | succ left ih =>
      rw [opLoop]
      apply wp_seq (bound_opRead offset sources)
      rintro ⟨⟩ ⟨bufs, rest⟩ _
      have hsize : (if left ≠ 0 then FILE_BUFFER_SIZE else rmax) ≤ FILE_BUFFER_SIZE := by
        split <;> omega
      simp only
      generalize (if left ≠ 0 then FILE_BUFFER_SIZE else rmax) = size at hsize ⊢
      have hchunk := (@opChunk_length cmd.option bufs size).1
      have hcount := redisPopcount_le (opChunk cmd.option bufs size) size
      rw [Nat.mul_succ] at hbits
      split
      · apply bound_writeTo
        · simp only [LONGEST_FILE, FILE_BUFFER_SIZE] at *
          omega
        · intro r
          split
          · exact (by decide : (-1 : Int) < 10 ^ 14)
          · exact ih _ (toInt_lt _) (by omega)
      · exact (by decide : (-1 : Int) < 10 ^ 14)
      · exact ih _ (toInt_lt _) (by omega)
      · exact ih _ (toInt_lt _) (by omega)

theorem bound_bitopCommand (cmd : BitopCmd) (dest : Option Slot) (dts : List (Option Slot)) :
    (bitopCommand cmd dest dts).wp boundContract Short () := by
  apply wp_seq (bound_opScan dts 0 0 0 fun _ hm => absurd hm List.not_mem_nil)
  rintro ⟨⟩ ⟨sources, maxidx, maxlen⟩ hsources
  simp only
  split
  · exact (by decide : (0 : Int) < 10 ^ 14)
  · apply wp_seq (bound_opMalloc cmd.count)
    rintro ⟨⟩ ok _
    split
    · exact (by decide : (-1 : Int) < 10 ^ 14)
    · split
      · exact (by decide : (0 : Int) < 10 ^ 14)
      · rename_i longest hlongest
        obtain ⟨ht, hr⟩ := hsources longest (List.mem_of_getElem? hlongest)
        apply bound_opLoop cmd dest hr longest.t sources (by decide)
        simp only [LONGEST_FILE, FILE_BUFFER_SIZE] at *
        omega

end Commands

section Requests

theorem bound_failed {text : String} {len : Nat} (h : Fine (str text) len) (descs : List (Option Slot)) : (do
    replyStr text len
    releaseAllDescs descs).wp boundContract (fun _ _ => True) () :=
  wp_seq (bound_replyStr h) fun _ _ _ => bound_releaseAllDescs descs

theorem fine_filesystem : Fine (str "ERR:FILESYSTEM FAILED\n") 22 :=
  fine_of_dropLast (by decide) (by decide) (by decide)

theorem fine_zero : Fine (str "0\n") 2 := fine_of_dropLast (by decide) (by decide) (by decide)

theorem bound_finish {command : Cmd Int} (h : command.wp boundContract Short ()) (descs : List (Option Slot)) : (do
    let result ← command
    replyResult result
    releaseAllDescs descs).wp boundContract (fun _ _ => True) () := by
  apply wp_seq h
  rintro ⟨⟩ result hresult
  have hreply : (replyResult result).wp boundContract (fun _ _ => True) () := by
    unfold replyResult
    split
    · exact bound_replyStr (fine_of_dropLast (by decide) (by decide) (by decide))
    · rename_i hnonneg
      exact (wp_ask boundContract _ (Act.reply _ _) _ ()).mpr
        ⟨fine_number (not_lt.mp hnonneg) hresult, fun _ _ _ => True.intro⟩
  exact wp_seq hreply fun _ _ _ => bound_releaseAllDescs descs

theorem bound_prepareFilesLoop (keys : List Bytes) (tmp : List (Option Slot)) :
    (prepareFilesLoop keys tmp).wp boundContract (fun _ _ => True) () := by
  induction keys generalizing tmp with
  | nil => exact True.intro
  | cons key keys ih =>
      apply bound_prepareFile (by decide)
      intro answer
      split
      · exact ih _
      · exact ih _
      · exact True.intro

theorem bound_bitopSources (cmd : BitopCmd) (dest : Option Slot) (keys : List Bytes) :
    (bitopSources cmd dest keys).wp boundContract (fun _ _ => True) () := by
  apply wp_seq (bound_prepareFilesLoop keys.reverse [])
  rintro ⟨⟩ answer _
  split
  · exact bound_failed fine_filesystem _
  · exact bound_finish (bound_bitopCommand cmd dest _) _

-- The texts of the lines that are rejected, and the offset of a SETBIT.
def Request.Fine : Request → Prop
  | .fail text len => Solidbits.Fine (str text) len
  | .setbit cmd => cmd.offset / 8 ≤ FILE_SIZE_LIMIT
  | _ => True

theorem bound_request {request : Request} (h : request.Fine) :
    request.execute.wp boundContract (fun _ _ => True) () := by
  cases request with
  | fail text len => exact bound_replyStr h
  | setbit cmd =>
      apply bound_prepareFile (by decide)
      intro answer
      split
      · exact bound_failed fine_filesystem _
      · exact bound_finish (bound_setbitCommand h) _
  | getbit cmd =>
      apply bound_prepareFile (by decide)
      intro answer
      split
      · exact bound_replyStr fine_zero
      · exact bound_failed fine_filesystem _
      · exact bound_finish (bound_getbitCommand cmd) _
  | bitop cmd keys =>
      simp only [Request.execute, bitopExecute]
      split
      · apply bound_prepareFile (by decide)
        intro answer
        split
        · exact bound_failed fine_filesystem _
        · exact bound_bitopSources cmd _ keys
      · exact bound_bitopSources cmd none keys
      · exact bound_bitopSources cmd none keys
  | bitcount key c args =>
      apply bound_prepareFile (by decide)
      intro answer
      split
      · exact bound_replyStr fine_zero
      · exact bound_failed fine_filesystem _
      · apply bound_descLength
        intro length _
        split
        · exact bound_failed fine_zero _
        · by_cases hfour : c = 4
          · simp only [hfour, ite_true, pure_eq, ret_bind]
            exact bound_finish (bound_bitcountCommand _) _
          · simp only [hfour, ite_false]
            apply bound_descLength
            intro length _
            exact bound_finish (bound_bitcountCommand _) _
  | silent => exact True.intro

-- A text whose last byte is the only newline.
theorem fine_fail {text : String} {len : Nat} (hend : (str text).take len = ((str text).take len).dropLast ++ [NEWLINE])
    (hbody : NEWLINE ∉ ((str text).take len).dropLast) (hlen : len ≤ RESP_INIT_CAP) : (Request.fail text len).Fine :=
  fine_of_dropLast hend hbody hlen

theorem setbitRequest_fine (line : Bytes) (c : Nat) : (setbitRequest line c).Fine := by
  simp only [setbitRequest]
  split
  · exact fine_fail (by decide) (by decide) (by decide)
  · split
    · exact fine_fail (by decide) (by decide) (by decide)
    · rename_i hrange
      split
      · exact fine_fail (by decide) (by decide) (by decide)
      · split
        · exact fine_fail (by decide) (by decide) (by decide)
        · rw [not_or, not_lt, not_lt] at hrange
          exact hrange.2

theorem getbitRequest_fine (line : Bytes) (c : Nat) : (getbitRequest line c).Fine := by
  simp only [getbitRequest]
  split
  · exact fine_fail (by decide) (by decide) (by decide)
  · split
    · exact fine_fail (by decide) (by decide) (by decide)
    · split
      · exact fine_fail (by decide) (by decide) (by decide)
      · trivial

theorem bitopRequest_fine (line : Bytes) (c : Nat) : (bitopRequest line c).Fine := by
  simp only [bitopRequest]
  split
  · exact fine_fail (by decide) (by decide) (by decide)
  · split
    · exact fine_fail (by decide) (by decide) (by decide)
    · split
      · exact fine_fail (by decide) (by decide) (by decide)
      · split
        · split
          · trivial
          · split
            · trivial
            · exact fine_fail (by decide) (by decide) (by decide)
        · split
          · exact fine_fail (by decide) (by decide) (by decide)
          · trivial

theorem bitcountRequest_fine (line : Bytes) (c : Nat) : (bitcountRequest line c).Fine := by
  simp only [bitcountRequest]
  split
  · exact fine_fail (by decide) (by decide) (by decide)
  · split
    · exact fine_fail (by decide) (by decide) (by decide)
    · trivial

theorem command_fine (line : Bytes) (c : Nat) (command : Command) : (command.request line c).Fine := by
  cases command with
  | SETBIT => exact setbitRequest_fine line c
  | GETBIT => exact getbitRequest_fine line c
  | BITOP => exact bitopRequest_fine line c
  | BITCOUNT => exact bitcountRequest_fine line c
  | BITPOS =>
      simp only [Command.request, bitposRequest]
      split
      · exact fine_fail (by decide) (by decide) (by decide)
      · trivial
  | BITFIELD =>
      simp only [Command.request, bitfieldRequest]
      split
      · exact fine_fail (by decide) (by decide) (by decide)
      · trivial

-- Whatever the bytes of a line are, its replies are lines.
theorem line_bounded (line : Bytes) : (parseAndExecute line).wp boundContract (fun _ _ => True) () := by
  rw [parseAndExecute_eq]
  apply bound_request
  rw [request_eq]
  split
  · exact fine_fail (by decide) (by decide) (by decide)
  · split
    · exact command_fine _ _ _
    · exact fine_fail (by decide) (by decide) (by decide)

end Requests

end Solidbits
