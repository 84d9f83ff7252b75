import Solidbits.Client.Defs
import Solidbits.Parser.Prefix
import Solidbits.Parser.Tokens

namespace Solidbits

open Tokens

section Words

-- A token: not empty and without a space.
def Word (word : Bytes) : Prop := word ≠ [] ∧ SPACE ∉ word

theorem tokens_join {words : List Bytes} (hne : words ≠ []) (h : ∀ word ∈ words, Word word) :
    tokens SPACE (join words) = words :=
  tokens_intercalate hne (fun hm => (h [] hm).1 rfl) fun word hm => (h word hm).2

theorem join_cons {first : Bytes} {words : List Bytes} (hne : words ≠ []) :
    join (first :: words) = first ++ str " " ++ join words := by
  rw [join, List.intercalate_cons_of_ne_nil hne]
  rfl

-- Every word counts, and so do the spaces between them.
theorem join_length {words : List Bytes} (hne : words ≠ []) :
    (join words).length + 1 = (words.map fun word => word.length + 1).sum := by
  induction words with
  | nil => exact absurd rfl hne
  | cons first words ih =>
      cases words with
      | nil => simp [join]
      | cons second words =>
          have hrest := ih (List.cons_ne_nil _ _)
          have hspace : (str " ").length = 1 := by decide
          rw [join_cons (List.cons_ne_nil _ _), List.map_cons, List.sum_cons, ← hrest, List.length_append,
            List.length_append, hspace]
          omega

-- The words of a call, the name first.
def ClientCall.command : ClientCall → Command
  | .setbit _ _ _ => .SETBIT
  | .getbit _ _ => .GETBIT
  | .bitcount _ _ _ => .BITCOUNT
  | .bitop _ _ _ => .BITOP
  | .bitcop _ _ => .BITOP

def ClientCall.args : ClientCall → List Bytes
  | .setbit key offset value => [key, printed offset, printed value]
  | .getbit key offset => [key, printed offset]
  | .bitcount key start stop => key :: ((start.map printed).toList ++ (stop.map printed).toList)
  | .bitop op dest srcs => op :: dest :: srcs
  | .bitcop op srcs => op :: str "\x05COUNTOP" :: srcs

theorem Key.word {key : Bytes} (h : Key key) : Word key := ⟨h.nonempty, h.space⟩

theorem printed_word (n : Int) : Word (printed n) := ⟨(printed_plain n).1, (printed_plain n).2.1⟩

theorem spells_word {op : Bytes} {option : OpOption} (h : Spells op option) : Word op := by
  have hname : Word option.name := by cases option <;> exact ⟨by decide, by decide⟩
  rw [← h] at hname
  exact ⟨fun he => hname.1 (congrArg _ he), fun hm => hname.2 (List.mem_map.mpr ⟨SPACE, hm, by decide⟩)⟩

theorem name_word (command : Command) : Word command.name := by
  cases command <;> exact ⟨by decide, by decide⟩

theorem args_word {call : ClientCall} (h : call.Valid) : ∀ word ∈ call.args, Word word := by
  cases call with
  | setbit key offset value =>
      intro word hm
      simp only [ClientCall.args, List.mem_cons, List.not_mem_nil, or_false] at hm
      rcases hm with rfl | rfl | rfl
      · exact h.1.word
      · exact printed_word offset
      · exact printed_word value
  | getbit key offset =>
      intro word hm
      simp only [ClientCall.args, List.mem_cons, List.not_mem_nil, or_false] at hm
      rcases hm with rfl | rfl
      · exact h.1.word
      · exact printed_word offset
  | bitcount key start stop =>
      intro word hm
      simp only [ClientCall.args, List.mem_cons, List.mem_append, Option.mem_toList,
        Option.map_eq_some_iff] at hm
      rcases hm with rfl | ⟨n, _, rfl⟩ | ⟨n, _, rfl⟩
      · exact h.1.word
      · exact printed_word n
      · exact printed_word n
  | bitop op dest srcs =>
      obtain ⟨⟨option, hop⟩, hdest, hsrcs, _⟩ := h
      intro word hm
      rcases List.mem_cons.mp hm with rfl | hm
      · exact spells_word hop
      · rcases List.mem_cons.mp hm with rfl | hm
        · exact hdest.word
        · exact (hsrcs word hm).word
  | bitcop op srcs =>
      obtain ⟨⟨option, hop⟩, hsrcs, _⟩ := h
      intro word hm
      rcases List.mem_cons.mp hm with rfl | hm
      · exact spells_word hop
      · rcases List.mem_cons.mp hm with rfl | hm
        · exact ⟨by decide, by decide⟩
        · exact (hsrcs word hm).word

theorem join_two {first second : Bytes} {words : List Bytes} :
    join (first :: second :: words) = first ++ str " " ++ join (second :: words) :=
  join_cons (List.cons_ne_nil second words)

@[simp] theorem join_one (word : Bytes) : join [word] = word := by
  simp [join]

theorem srcs_nonempty {srcs : List Bytes} (h : 1 ≤ srcs.length) : srcs ≠ [] :=
  List.ne_nil_of_length_pos h

-- What the client formats is its words with one space between them.
theorem line_join {call : ClientCall} (h : call.Valid) : call.line = join (call.command.name :: call.args) := by
  have hsetbit : str "SETBIT " = str "SETBIT" ++ str " " := rfl
  have hgetbit : str "GETBIT " = str "GETBIT" ++ str " " := rfl
  have hbitop : str "BITOP " = str "BITOP" ++ str " " := rfl
  have hhook : str " \x05COUNTOP " = str " " ++ (str "\x05COUNTOP" ++ str " ") := rfl
  cases call with
  | setbit key offset value =>
      simp only [ClientCall.line, ClientCall.args, ClientCall.command, Command.name, hsetbit, join_two, join_one, List.append_assoc]
  | getbit key offset =>
      simp only [ClientCall.line, ClientCall.args, ClientCall.command, Command.name, hgetbit, join_two, join_one, List.append_assoc]
  | bitcount key start stop => cases start <;> cases stop <;> rfl
  | bitop op dest srcs =>
      simp only [ClientCall.line, ClientCall.args, ClientCall.command, Command.name, hbitop, join_two,
        join_cons (srcs_nonempty h.2.2.2.1), List.append_assoc]
  | bitcop op srcs =>
      simp only [ClientCall.line, ClientCall.args, ClientCall.command, Command.name, hbitop, hhook, join_two,
        join_cons (srcs_nonempty h.2.2.1), List.append_assoc]

theorem words_length {words : List Bytes} (h : ∀ word ∈ words, Word word) :
    2 * words.length ≤ (words.map fun word => word.length + 1).sum := by
  induction words with
  | nil => exact Nat.le_refl 0
  | cons word words ih =>
      have hword := List.length_pos_of_ne_nil (h word List.mem_cons_self).1
      have hrest := ih fun other hm => h other (List.mem_cons_of_mem word hm)
      rw [List.map_cons, List.sum_cons, List.length_cons]
      omega

-- The shortest lines are those of GETBIT and BITCOUNT with a key of one byte.
theorem line_length {call : ClientCall} (h : call.Valid) : CMD_MININUM ≤ call.line.length := by
  have hsum := join_length (List.cons_ne_nil call.command.name call.args)
  rw [← line_join h, List.map_cons, List.sum_cons] at hsum
  have hargs := words_length (args_word h)
  have hcall : 11 ≤ call.command.name.length + 1 + 2 * call.args.length := by
    cases call with
    | setbit key offset value => exact (by decide : 11 ≤ (str "SETBIT").length + 1 + 2 * 3)
    | getbit key offset => exact (by decide : 11 ≤ (str "GETBIT").length + 1 + 2 * 2)
    | bitcount key start stop =>
        have hname : 9 ≤ (str "BITCOUNT").length + 1 := by decide
        rw [ClientCall.args, List.length_cons]
        exact Nat.add_le_add hname (by omega : 2 ≤ 2 * (_ + 1))
    | bitop op dest srcs =>
        have hname : 6 ≤ (str "BITOP").length + 1 := by decide
        have hsrcs := h.2.2.2.1
        rw [ClientCall.args, List.length_cons, List.length_cons]
        exact Nat.add_le_add hname (by omega : 5 ≤ 2 * (srcs.length + 1 + 1))
    | bitcop op srcs =>
        have hname : 6 ≤ (str "BITOP").length + 1 := by decide
        have hsrcs := h.2.2.1
        rw [ClientCall.args, List.length_cons, List.length_cons]
        exact Nat.add_le_add hname (by omega : 5 ≤ 2 * (srcs.length + 1 + 1))
  rw [CMD_MININUM]
  omega

theorem call_tokens {call : ClientCall} (h : call.Valid) :
    tokens SPACE call.line = call.command.name :: call.args := by
  rw [line_join h]
  refine tokens_join (List.cons_ne_nil _ _) fun word hm => ?_
  rcases List.mem_cons.mp hm with rfl | hm
  · exact name_word call.command
  · exact args_word h word hm

theorem commandOf_start (command : Command) : commandOf (xxh64 command.start 0) = some command := by
  cases command <;> decide +kernel

-- The line of a call gets to the case of its command, with the words of the
-- call as its arguments.
theorem request_call {call : ClientCall} (h : call.Valid) :
    request call.line = call.command.request call.line (call.args.length + 1) ∧
      splitFill call.line (call.args.length + 1) = call.args := by
  have hcount : getArgCount call.line = call.args.length + 1 := by
    rw [getArgCount_eq, call_tokens h, List.length_cons]
  have htake : call.line.take 5 = call.command.start := by
    have hname : ∀ command : Command, 5 ≤ command.name.length := by
      intro command
      cases command <;> decide
    obtain ⟨rest, hrest⟩ : ∃ rest, call.line = call.command.name ++ rest := by
      rw [line_join h]
      cases hargs : call.args with
      | nil => exact ⟨[], by simp⟩
      | cons first args => exact ⟨_, by rw [join_two, List.append_assoc]⟩
    rw [hrest, List.take_append_of_le_length (hname _), Command.start]
  constructor
  · rw [request_eq, if_neg (Nat.not_lt.mpr (line_length h)), htake, commandOf_start, hcount]
  · rw [← hcount, splitFill_eq, call_tokens h]
    rfl

end Words

section Parts

theorem Key.copy {key : Bytes} (h : Key key) : copyKey key = some key := by
  rw [copyKey, cstr_of_no_zero h.zero, if_neg (Nat.not_lt.mpr h.length)]

theorem keys_cstr {srcs : List Bytes} (h : ∀ src ∈ srcs, Key src) : srcs.map cstr = srcs := by
  rw [List.map_congr_left fun src hm => cstr_of_no_zero (h src hm).zero, List.map_id']

theorem spells_cstr {op : Bytes} {option : OpOption} (h : Spells op option) : cstr op = op := by
  have hname : 0 ∉ option.name := by cases option <;> decide
  rw [← h] at hname
  exact cstr_of_no_zero fun hm => hname (List.mem_map.mpr ⟨0, hm, by decide⟩)

theorem tolower_eq {c low : UInt8} (h : tolower c = low) : c = low ∨ c = low - 32 := by
  unfold tolower at h
  split at h
  · exact Or.inr (by rw [← h, UInt8.add_sub_cancel])
  · exact Or.inl h

-- An option is recognised in upper and in lower case.
theorem parseOption_spells {op : Bytes} {option : OpOption} (h : Spells op option) :
    parseOption op = some option := by
  have heq : ∀ text, strcasecmpEq op text = decide (option.name = (cstr text).map tolower) := by
    intro text
    rw [strcasecmpEq, spells_cstr h, h]
  have hand : strcasecmpEq op (str "and") = decide (option = .AND) := by
    rw [heq]
    cases option <;> decide
  have hor : strcasecmpEq op (str "or") = decide (option = .OR) := by
    rw [heq]
    cases option <;> decide
  have hxor : strcasecmpEq op (str "xor") = decide (option = .XOR) := by
    rw [heq]
    cases option <;> decide
  have hnot : strcasecmpEq op (str "not") = decide (option = .NOT) := by
    rw [heq]
    cases option <;> decide
  have hfirst : op.headD 0 = option.name.headD 0 ∨ op.headD 0 = option.name.headD 0 - 32 := by
    cases op with
    | nil => exact absurd rfl (spells_word h).1
    | cons c rest =>
        apply tolower_eq
        rw [← h]
        rfl
  simp only [parseOption, hand, hor, hxor, hnot]
  cases option with
  | AND => rw [if_pos ⟨hfirst, by decide⟩]
  | OR => rw [if_neg fun hc => absurd hc.2 (by decide), if_pos ⟨hfirst, by decide⟩]
  | XOR =>
      rw [if_neg fun hc => absurd hc.2 (by decide), if_neg fun hc => absurd hc.2 (by decide),
        if_pos ⟨hfirst, by decide⟩]
  | NOT =>
      rw [if_neg fun hc => absurd hc.2 (by decide), if_neg fun hc => absurd hc.2 (by decide),
        if_neg fun hc => absurd hc.2 (by decide), if_pos ⟨hfirst, by decide⟩]

end Parts

section RoundTrip

-- The end of BITCOUNT is only understood behind a start, and NOT has one source.
def ClientCall.Agreed : ClientCall → Prop
  | .bitcount _ start stop => stop.isSome → start.isSome
  | .bitop op _ srcs => Spells op .NOT → srcs.length = 1
  | .bitcop op srcs => Spells op .NOT → srcs.length = 1
  | _ => True

theorem offset_printed {offset : Int} (hlow : 0 ≤ offset / 8) (hhigh : offset / 8 ≤ FILE_SIZE_LIMIT) :
    atol (printed offset) = offset ∧ ¬(offset / 8 < 0 ∨ offset / 8 > FILE_SIZE_LIMIT) := by
  simp only [FILE_SIZE_LIMIT] at *
  refine ⟨atol_printed ?_ ?_, by omega⟩
  · rw [LONG_MIN]
    omega
  · rw [LONG_MAX]
    omega

theorem request_setbit_line {key : Bytes} {offset value : Int} (h : (ClientCall.setbit key offset value).Valid) :
    request (ClientCall.setbit key offset value).line = .setbit { key := key, offset := offset, value := value } := by
  obtain ⟨hrequest, hargs⟩ := request_call h
  obtain ⟨hkey, hlow, hhigh, hvalue⟩ := h
  obtain ⟨hoffset, hrange⟩ := offset_printed hlow hhigh
  have hbit : atol (printed value) = value := by
    rcases hvalue with rfl | rfl
    · exact atol_printed (by decide) (by decide)
    · exact atol_printed (by decide) (by decide)
  have hvalue : ¬(value ≠ 0 ∧ value ≠ 1) := by omega
  rw [hrequest]
  simp only [ClientCall.command, Command.request, setbitRequest, hargs]
  simp only [ClientCall.args, List.getD_cons_zero, List.getD_cons_succ, hoffset, hbit, hkey.copy]
  rw [if_neg (fun hc => hc rfl), if_neg hrange, if_neg hvalue]

theorem request_getbit_line {key : Bytes} {offset : Int} (h : (ClientCall.getbit key offset).Valid) :
    request (ClientCall.getbit key offset).line = .getbit { key := key, offset := offset } := by
  obtain ⟨hrequest, hargs⟩ := request_call h
  obtain ⟨hkey, hlow, hhigh⟩ := h
  obtain ⟨hoffset, hrange⟩ := offset_printed hlow hhigh
  rw [hrequest]
  simp only [ClientCall.command, Command.request, getbitRequest, hargs]
  simp only [ClientCall.args, List.getD_cons_zero, List.getD_cons_succ, hoffset, hkey.copy]
  rw [if_neg (fun hc => hc rfl), if_neg hrange]

theorem request_bitcount_line {key : Bytes} {start stop : Option Int} (h : (ClientCall.bitcount key start stop).Valid) :
    request (ClientCall.bitcount key start stop).line =
      .bitcount key ((ClientCall.bitcount key start stop).args.length + 1) (ClientCall.bitcount key start stop).args := by
  obtain ⟨hrequest, hargs⟩ := request_call h
  have hcount : ¬((ClientCall.bitcount key start stop).args.length + 1 < 2 ∨
      (ClientCall.bitcount key start stop).args.length + 1 > 4) := by
    cases start <;> cases stop <;> simp [ClientCall.args]
  rw [hrequest]
  simp only [ClientCall.command, Command.request, bitcountRequest, hargs]
  rw [if_neg hcount, ClientCall.args, List.getD_cons_zero, h.1.copy]

-- The start is taken to be 0 when it is omitted, unless there is an end.
theorem bitcount_agreed {key : Bytes} {start stop : Option Int} (h : (ClientCall.bitcount key start stop).Valid) :
    (ClientCall.bitcount key start stop).Means (request (ClientCall.bitcount key start stop).line) ↔
      (stop.isSome → start.isSome) := by
  have hread : ∀ n ∈ start, atol (printed n) = n := fun n hn => atol_printed (h.2.1 n hn).1 (h.2.1 n hn).2
  have hread' : ∀ n ∈ stop, atol (printed n) = n := fun n hn => atol_printed (h.2.2 n hn).1 (h.2.2 n hn).2
  rw [request_bitcount_line h]
  cases start with
  | none =>
      cases stop with
      | none => simp [ClientCall.Means, ClientCall.args, bitcountCmd]
      | some stop =>
          -- the end would have to be the last byte of every file
          refine iff_of_false (fun hmeans => ?_) (by simp)
          have hzero := congrArg BitcountCmd.stop (hmeans 0)
          have hone := congrArg BitcountCmd.stop (hmeans 1)
          simp [bitcountCmd, ClientCall.args] at hzero hone
          omega
  | some start =>
      cases stop with
      | none => simp [ClientCall.Means, ClientCall.args, bitcountCmd, hread]
      | some stop => simp [ClientCall.Means, ClientCall.args, bitcountCmd, hread, hread']

theorem spells_inj {op : Bytes} {option option' : OpOption} (h : Spells op option) (h' : Spells op option') :
    option = option' := by
  have hname : option.name = option'.name := h.symm.trans h'
  revert hname
  cases option <;> cases option' <;> decide

theorem bitop_agreed {op dest : Bytes} {srcs : List Bytes} (h : (ClientCall.bitop op dest srcs).Valid) :
    (ClientCall.bitop op dest srcs).Means (request (ClientCall.bitop op dest srcs).line) ↔
      (Spells op .NOT → srcs.length = 1) := by
  obtain ⟨hrequest, hargs⟩ := request_call h
  obtain ⟨⟨option, hop⟩, hdest, hsrcs, hlow, hhigh⟩ := h
  have hcount : ¬(srcs.length + 1 + 1 + 1 < 4 ∨ srcs.length + 1 + 1 + 1 > 19) := by omega
  have hhook : dest.headD 0 ≠ 5 := by
    cases dest with
    | nil => exact absurd rfl hdest.nonempty
    | cons first rest => exact fun he => hdest.hook (congrArg some he)
  rw [hrequest]
  simp only [ClientCall.command, Command.request, bitopRequest, hargs]
  simp only [ClientCall.args, List.length_cons, List.getD_cons_zero, List.getD_cons_succ, List.drop_succ_cons,
    List.drop_zero, parseOption_spells hop, hdest.copy]
  rw [if_neg hcount, if_neg hhook]
  split
  · rename_i hnot
    refine iff_of_false (fun hmeans => hmeans) fun hone => ?_
    have hsame := hone (hnot.1 ▸ hop)
    omega
  · rename_i hnot
    refine iff_of_true ⟨hop, rfl, rfl, Nat.add_sub_cancel srcs.length 3, keys_cstr hsrcs⟩ fun hspells => ?_
    by_contra hne
    exact hnot ⟨spells_inj hop hspells, by omega⟩

theorem bitcop_agreed {op : Bytes} {srcs : List Bytes} (h : (ClientCall.bitcop op srcs).Valid) :
    (ClientCall.bitcop op srcs).Means (request (ClientCall.bitcop op srcs).line) ↔ (Spells op .NOT → srcs.length = 1) := by
  obtain ⟨hrequest, hargs⟩ := request_call h
  obtain ⟨⟨option, hop⟩, hsrcs, hlow, hhigh⟩ := h
  have hcount : ¬(srcs.length + 1 + 1 + 1 < 4 ∨ srcs.length + 1 + 1 + 1 > 19) := by omega
  have hhook : (str "\x05COUNTOP").headD 0 = 5 := by decide
  have hcountop : strcasecmpEq ((str "\x05COUNTOP").drop 1) (str "COUNTOP") = true := by decide
  rw [hrequest]
  simp only [ClientCall.command, Command.request, bitopRequest, hargs]
  simp only [ClientCall.args, List.length_cons, List.getD_cons_zero, List.getD_cons_succ, List.drop_succ_cons,
    List.drop_zero, parseOption_spells hop]
  rw [if_neg hcount, if_pos hhook, if_pos hcountop]
  split
  · rename_i hnot
    refine iff_of_false (fun hmeans => hmeans) fun hone => ?_
    have hsame := hone (hnot.1 ▸ hop)
    omega
  · rename_i hnot
    refine iff_of_true ⟨hop, rfl, Nat.add_sub_cancel srcs.length 3, keys_cstr hsrcs⟩ fun hspells => ?_
    by_contra hne
    exact hnot ⟨spells_inj hop hspells, by omega⟩

-- A call comes out of the parser as it was meant, unless it gives BITCOUNT an
-- end without a start or NOT more than one source.
theorem calls_understood_iff (call : ClientCall) (hvalid : call.Valid) :
    parseAndExecute call.line = (request call.line).execute ∧
      (call.Means (request call.line) ↔ call.Agreed) := by
  refine ⟨parseAndExecute_eq call.line, ?_⟩
  cases call with
  | setbit key offset value =>
      rw [request_setbit_line hvalid]
      exact iff_of_true rfl trivial
  | getbit key offset =>
      rw [request_getbit_line hvalid]
      exact iff_of_true rfl trivial
  | bitcount key start stop => exact bitcount_agreed hvalid
  | bitop op dest srcs => exact bitop_agreed hvalid
  | bitcop op srcs => exact bitcop_agreed hvalid

theorem calls_understood_range :
    (ClientCall.bitcount (str "k") (some 10) (some (-1))).Means
      (request (ClientCall.bitcount (str "k") (some 10) (some (-1))).line) := by
  have hvalid : (ClientCall.bitcount (str "k") (some 10) (some (-1))).Valid := by
    refine ⟨⟨by decide, by decide, by decide, by decide, by decide, by decide⟩, ?_, ?_⟩
    · intro n hn
      cases hn
      decide
    · intro n hn
      cases hn
      decide
  exact (calls_understood_iff _ hvalid).2.mpr fun _ => rfl

-- The end 0 is taken for the start.
theorem end_taken_for_start :
    (ClientCall.bitcount (str "k") none (some 0)).Valid ∧
      (ClientCall.bitcount (str "k") none (some 0)).line = str "BITCOUNT k 0" ∧
      ¬(ClientCall.bitcount (str "k") none (some 0)).Means (request (str "BITCOUNT k 0")) := by
  refine ⟨⟨⟨by decide, by decide, by decide, by decide, by decide, by decide⟩, nofun, ?_⟩, by decide, ?_⟩
  · intro n hn
    cases hn
    decide
  · have hrequest : request (str "BITCOUNT k 0") = .bitcount (str "k") 3 [str "k", str "0"] := by decide +kernel
    rw [hrequest]
    intro hmeans
    exact absurd (congrArg BitcountCmd.stop (hmeans 2)) (by decide +kernel)

end RoundTrip

end Solidbits
