import Solidbits.Client.Results
import Solidbits.Net.Isolation
import Solidbits.Net.Teardown

namespace Solidbits

open Prog Transition

section Peer

-- recv(256) of the client.
def RECV_SIZE : Nat := 256

-- What str.strip takes for a blank in a text of ASCII.
def isblank (byte : UInt8) : Bool := byte = 32 || (9 ≤ byte && byte ≤ 13) || (28 ≤ byte && byte ≤ 31)

def strip (line : Bytes) : Bytes := ((line.dropWhile isblank).reverse.dropWhile isblank).reverse

-- The Python object: its _buf, whether a call is inside _roundtrip, and what its
-- socket has sent that the server has not read. Then the history: the bytes that
-- were received, the calls, what they returned, and how many got no line.
structure Peer where
  buf : Bytes := []
  waiting : Bool := false
  up : Bytes := []
  taken : Bytes := []
  calls : List ClientCall := []
  returned : List Bytes := []
  missed : Nat := 0

-- _roundtrip up to the end of sendall.
def Peer.roundtrip (call : ClientCall) (p : Peer) : Peer :=
  if p.waiting then p
  else { p with waiting := true, up := p.up ++ (call.line ++ [NEWLINE]), calls := p.calls ++ [call] }

-- A turn of the loop in _recv_line, with the bytes that recv returns in it.
def Peer.recvLine (chunk : Bytes) (p : Peer) : Peer :=
  match memchr p.buf with
  | none =>
      if chunk = [] then { p with waiting := false, missed := p.missed + 1 }
      else { p with buf := p.buf ++ chunk, taken := p.taken ++ chunk }
  | some n =>
      { p with
        buf := p.buf.drop (n + 1)
        waiting := false
        returned := p.returned ++ [strip (p.buf.take n)] }

-- The timeout of the socket ends the call.
def Peer.giveUp (p : Peer) : Peer :=
  if p.waiting then { p with waiting := false, missed := p.missed + 1 } else p

end Peer

section Link

variable {ι : Type} [DecidableEq ι]

-- The server and a client on each of its connections.
structure Link (ι : Type) where
  service : Service ι
  peers : ι → Peer

-- A client calls, takes a turn in its loop, or times out; the network hands some
-- of the bytes to the server; the server moves by itself.
inductive Exchange (ι : Type) where
  | call (i : ι) (call : ClientCall)
  | recv (i : ι) (size : Nat)
  | giveUp (i : ι)
  | deliver (i : ι) (size : Nat) (reallocFails allocFails : Bool)
  | serve (move : Move ι)

-- The bytes that recv would return: up to size + 1 of those that are there.
def Link.pending (link : Link ι) (i : ι) (size : Nat) : Bytes :=
  ((link.service.conns i).written.drop (link.peers i).taken.length).take (min (size + 1) RECV_SIZE)

-- recv waits while the connection is open and nothing is there.
def Link.Blocks (link : Link ι) (i : ι) (size : Nat) : Prop :=
  (link.peers i).waiting = false ∨
    NEWLINE ∉ (link.peers i).buf ∧ link.pending i size = [] ∧ (link.service.conns i).closes = 0

instance (link : Link ι) (i : ι) (size : Nat) : Decidable (link.Blocks i size) :=
  inferInstanceAs (Decidable (_ ∨ _ ∧ _ ∧ _))

def Link.next (link : Link ι) : Exchange ι → Link ι
  | .call i call => { link with peers := Function.update link.peers i ((link.peers i).roundtrip call) }
  | .recv i size =>
      if link.Blocks i size then link
      else { link with peers := Function.update link.peers i ((link.peers i).recvLine (link.pending i size)) }
  | .giveUp i => { link with peers := Function.update link.peers i (link.peers i).giveUp }
  | .deliver i size reallocFails allocFails =>
      let p := link.peers i
      let count := min size READ_CHUNK
      { service := link.service.next (.read i (p.up.take count) reallocFails allocFails)
        peers := Function.update link.peers i { p with up := p.up.drop count } }
  | .serve (.read _ _ _ _) => link
  | .serve move => { link with service := link.service.next move }

def Link.start (disk : Contents) : Link ι := ⟨Service.start disk, fun _ => {}⟩

-- Nothing fails in the actions of the workers.
def Link.Undisturbed (link : Link ι) : Exchange ι → Prop
  | .serve move => link.service.Undisturbed move
  | _ => True

instance (link : Link ι) (exchange : Exchange ι) : Decidable (link.Undisturbed exchange) := by
  unfold Link.Undisturbed
  split
  · infer_instance
  · exact isTrue trivial

end Link

section Lines

theorem printed_bytes (n : Int) : ∀ byte ∈ printed n, byte = 45 ∨ isdigit byte = true := by
  intro byte hm
  cases n with
  | ofNat n =>
      rw [Int.ofNat_eq_natCast, printed_nat] at hm
      exact Or.inr (digits_map (toDigits_isDigit n) byte hm)
  | negSucc n =>
      rw [printed_neg] at hm
      rcases List.mem_cons.mp hm with rfl | hm
      · exact Or.inl rfl
      · exact Or.inr (digits_map (toDigits_isDigit (n + 1)) byte hm)

theorem printed_newline (n : Int) : NEWLINE ∉ printed n := by
  intro hm
  rcases printed_bytes n NEWLINE hm with he | hdigit
  · exact absurd he (by decide)
  · exact absurd hdigit (by decide)

theorem strip_printed (n : Int) : strip (printed n) = printed n := by
  have hplain : ∀ byte ∈ printed n, isblank byte = false := by
    intro byte hm
    rcases printed_bytes n byte hm with rfl | hdigit
    · decide
    · obtain ⟨hlow, _⟩ := digit_range hdigit
      simp only [isblank, Bool.or_eq_false_iff, Bool.and_eq_false_iff, decide_eq_false_iff_not, UInt8.le_iff_toNat_le,
        ← UInt8.toNat_inj]
      simp
      omega
  have hdrop : ∀ text : Bytes, (∀ byte ∈ text, isblank byte = false) → text.dropWhile isblank = text := by
    intro text htext
    cases text with
    | nil => rfl
    | cons first rest => exact List.dropWhile_cons_of_neg (by simp [htext first List.mem_cons_self])
  rw [strip, hdrop _ hplain, hdrop _ fun byte hm => hplain byte (List.mem_reverse.mp hm), List.reverse_reverse]

theorem mem_join {byte : UInt8} {words : List Bytes} (h : byte ∈ join words) :
    byte = SPACE ∨ ∃ word ∈ words, byte ∈ word := by
  induction words with
  | nil => exact absurd h (by simp [join])
  | cons first words ih =>
      cases words with
      | nil =>
          rw [join_one] at h
          exact Or.inr ⟨first, List.mem_cons_self, h⟩
      | cons second words =>
          rw [join_two, List.append_assoc, List.mem_append, List.mem_append] at h
          rcases h with hm | hm | hm
          · exact Or.inr ⟨first, List.mem_cons_self, hm⟩
          · exact Or.inl (List.mem_singleton.mp hm)
          · rcases ih hm with he | ⟨word, hword, hm⟩
            · exact Or.inl he
            · exact Or.inr ⟨word, List.mem_cons_of_mem first hword, hm⟩

-- A call is one line.
theorem line_newline {call : ClientCall} (hserved : call.Served) : NEWLINE ∉ call.line := by
  obtain ⟨hvalid, _, hbitop⟩ := hserved
  intro hline
  rw [line_join hvalid] at hline
  rcases mem_join hline with he | ⟨word, hword, hm⟩
  · exact absurd he (by decide)
  · rcases List.mem_cons.mp hword with rfl | hword
    · revert hm
      cases call.command <;> decide
    · cases call with
      | setbit key offset value =>
          simp only [ClientCall.args, List.mem_cons, List.not_mem_nil, or_false] at hword
          rcases hword with rfl | rfl | rfl
          · exact hvalid.1.newline hm
          · exact printed_newline offset hm
          · exact printed_newline value hm
      | getbit key offset =>
          simp only [ClientCall.args, List.mem_cons, List.not_mem_nil, or_false] at hword
          rcases hword with rfl | rfl
          · exact hvalid.1.newline hm
          · exact printed_newline offset hm
      | bitcount key start stop =>
          simp only [ClientCall.args, List.mem_cons, List.mem_append, Option.mem_toList,
            Option.map_eq_some_iff] at hword
          rcases hword with rfl | ⟨n, _, rfl⟩ | ⟨n, _, rfl⟩
          · exact hvalid.1.newline hm
          · exact printed_newline n hm
          · exact printed_newline n hm
      | bitop op dest srcs => exact Bool.noConfusion hbitop
      | bitcop op srcs => exact Bool.noConfusion hbitop

variable {ι : Type} {own : ι → UInt64 → Prop}

-- A call on keys of one's own.
def ClientCall.Fits (own : ι → UInt64 → Prop) (i : ι) (call : ClientCall) : Prop :=
  call.Served ∧ ∀ key ∈ call.keys, own i (hashed key)

theorem ClientCall.Fits.admitted {i : ι} {call : ClientCall} (h : call.Fits own i) : Admitted own i call.line := by
  obtain ⟨⟨hvalid, _, hbitop⟩, hkeys⟩ := h
  cases call with
  | setbit key offset value =>
      rw [Admitted, request_setbit_line hvalid]
      exact ⟨rfl, hkeys⟩
  | getbit key offset =>
      rw [Admitted, request_getbit_line hvalid]
      exact ⟨rfl, hkeys⟩
  | bitcount key start stop =>
      rw [Admitted, request_bitcount_line hvalid]
      exact ⟨rfl, hkeys⟩
  | bitop op dest srcs => exact Bool.noConfusion hbitop
  | bitcop op srcs => exact Bool.noConfusion hbitop

end Lines

end Solidbits
