import Solidbits.Client.Calls
import Solidbits.Net.Sessions
import Solidbits.Parser.Apart
import Solidbits.Serial.Bits
import Solidbits.Serial.Cache
import Mathlib.Data.Fintype.BigOperators
import Mathlib.Data.List.OfFn

namespace Solidbits

open Transition

section Letters

-- Keys of ten bytes that are not ASCII.
def letters (text : Fin 10 → Fin 128) : Bytes := List.ofFn fun i => UInt8.ofNat (128 + text i)

theorem letter_toNat (c : Fin 128) : (UInt8.ofNat (128 + c)).toNat = 128 + c := by
  rw [UInt8.toNat_ofNat']
  omega

@[simp] theorem letters_length (text : Fin 10 → Fin 128) : (letters text).length = 10 := List.length_ofFn

theorem letters_get (text : Fin 10 → Fin 128) (i : Fin 10) :
    (letters text)[i.val]? = some (UInt8.ofNat (128 + text i)) := by
  rw [letters, List.getElem?_ofFn, dif_pos i.isLt]

theorem letter_injective {c c' : Fin 128} (h : UInt8.ofNat (128 + c) = UInt8.ofNat (128 + c')) : c = c' := by
  have hnat := congrArg UInt8.toNat h
  rw [letter_toNat, letter_toNat] at hnat
  omega

theorem letters_injective {text text' : Fin 10 → Fin 128} (h : letters text = letters text') : text = text' := by
  funext i
  have hi := congrArg (·[i.val]?) h
  simp only [letters_get, Option.some.injEq] at hi
  exact letter_injective hi

theorem letters_key (text : Fin 10 → Fin 128) : Key (letters text) := by
  have hbyte : ∀ byte ∈ letters text, 128 ≤ byte.toNat := by
    intro byte hm
    obtain ⟨i, rfl⟩ := (List.mem_ofFn' _ _).mp hm
    rw [letter_toNat]
    omega
  have habsent : ∀ byte : UInt8, byte.toNat < 128 → byte ∉ letters text :=
    fun byte hlow hm => absurd (hbyte byte hm) (Nat.not_le.mpr hlow)
  refine ⟨?_, by simp, habsent _ (by decide), habsent _ (by decide), habsent _ (by decide), ?_⟩
  · intro h
    have hlen := letters_length text
    rw [h] at hlen
    cases hlen
  · intro h
    exact habsent 5 (by decide) (List.mem_of_mem_head? h)

-- Keys that agree in the last two bytes have different hashes, and only one of
-- them can have the hash 0.
theorem letters_apart {text text' : Fin 10 → Fin 128} (height : text 8 = text' 8) (hnine : text 9 = text' 9)
    (h : hashed (letters text) = hashed (letters text')) : text = text' := by
  by_contra hne
  refine @hash_apart (letters text) (letters text') (0, 8) 0 (by simp) (by simp; decide) ?_
    (fun he => hne (letters_injective he)) h
  intro i hout
  rcases Nat.lt_or_ge i 10 with hlt | hge
  · have hlast : i = 8 ∨ i = 9 := by omega
    rcases hlast with rfl | rfl
    · exact (letters_get text 8).trans (height ▸ (letters_get text' 8).symm)
    · exact (letters_get text 9).trans (hnine ▸ (letters_get text' 9).symm)
  · rw [List.getElem?_eq_none (by rwa [letters_length]), List.getElem?_eq_none (by rwa [letters_length])]

-- There are more of these keys than hashes.
theorem letters_collide : ∃ text text', text ≠ text' ∧ hashed (letters text) = hashed (letters text') ∧
    hashed (letters text) ≠ 0 := by
  have hzero : Fintype.card { text // hashed (letters text) = 0 } ≤ 128 * 128 := by
    have hinjective : Function.Injective
        fun text : { text // hashed (letters text) = 0 } => (text.val 8, text.val 9) := by
      intro text text' h
      obtain ⟨height, hnine⟩ := Prod.mk.inj h
      exact Subtype.ext (letters_apart height hnine (text.property.trans text'.property.symm))
    refine (Fintype.card_le_of_injective _ hinjective).trans (Nat.le_of_eq ?_)
    rw [Fintype.card_prod, Fintype.card_fin]
  have hmany : Fintype.card (Fin (2 ^ 64)) < Fintype.card { text // ¬hashed (letters text) = 0 } := by
    rw [Fintype.card_subtype_compl, Fintype.card_fun, Fintype.card_fin, Fintype.card_fin, Fintype.card_fin]
    omega
  obtain ⟨text, text', hne, hsame⟩ := Fintype.exists_ne_map_eq_of_card_lt
    (fun text : { text // ¬hashed (letters text) = 0 } => (hashed (letters text.val)).toFin) hmany
  exact ⟨text.val, text'.val, fun he => hne (Subtype.ext he), UInt64.toFin_inj.mp hsame, text.property⟩

end Letters

section Aliases

-- Two good keys that no request can keep apart: a bit that is set in one of them
-- is set in the other, in one process and behind a restart.
theorem keys_alias : ∃ key other, Key key ∧ Key other ∧ key ≠ other ∧
    ∀ clock, StrictMono clock → ∀ offset : Int, 0 ≤ offset / 8 → offset / 8 ≤ FILE_SIZE_LIMIT →
      let lines := [(ClientCall.setbit key offset 1).line, (ClientCall.getbit other offset).line]
      (run (Server.serve clock) (Server.start fun _ => none) lines).replies = [str "0\n", str "1\n"] ∧
        (run (Server.serveReopened clock) (Server.start fun _ => none) lines).replies =
          [str "0\n", str "1\n"] := by
  obtain ⟨text, text', hne, hsame, hlive⟩ := letters_collide
  refine ⟨letters text, letters text', letters_key text, letters_key text',
    fun he => hne (letters_injective he), fun clock hc offset hlow hhigh => ?_⟩
  have hset := @request_setbit_line (letters text) offset 1 ⟨letters_key text, hlow, hhigh, Or.inr rfl⟩
  have hget := @request_getbit_line (letters text') offset ⟨letters_key text', hlow, hhigh⟩
  have hfirst : Served (ClientCall.setbit (letters text) offset 1).line := by
    rw [Served, hset]
    exact ⟨rfl, fun key hkey => List.mem_singleton.mp hkey ▸ hlive⟩
  have hsecond : Served (ClientCall.getbit (letters text') offset).line := by
    rw [Served, hget]
    refine ⟨rfl, fun key hkey => ?_⟩
    rw [List.mem_singleton.mp hkey]
    exact fun he => hlive (hsame.trans he)
  have hserved : ∀ line ∈ [(ClientCall.setbit (letters text) offset 1).line,
      (ClientCall.getbit (letters text') offset).line], Served line := by
    intro line hm
    rcases List.mem_pair.mp hm with rfl | rfl
    · exact hfirst
    · exact hsecond
  have hcalm : AllSteps (Server.serve clock) (Calm clock) (Server.start fun _ => none)
      [(ClientCall.setbit (letters text) offset 1).line, (ClientCall.getbit (letters text') offset).line] := by
    have hstart : Calm clock (Server.start fun _ => none) (ClientCall.setbit (letters text) offset 1).line :=
      calm_initFile (fun _ => none) rfl hfirst
    obtain ⟨slot, hfound⟩ := @found_serve clock _ _ _ (follows_initFile hc (fun _ => none) 0 []) hfirst hstart
      (letters text) (by rw [hset]; exact List.mem_singleton_self _) (by simp [plainServe, hset, Request.plain])
    refine ⟨hstart, calm_of_open hsecond.1 ?_, trivial⟩
    intro key hkey mode habsent
    rw [hget] at hkey
    rw [List.mem_singleton.mp hkey, ← show xxh64 (letters text) 0 = xxh64 (letters text') 0 from hsame] at habsent
    exact absurd hfound (habsent slot)
  intro lines
  rw [replies_cached hc hserved hcalm, replies_reopened hc hserved]
  have hpositive : 0 ≤ offset := by omega
  have hzero : resultText (bitAt [] offset) = str "0\n" := by
    rw [bitAt_nil]
    decide
  have hone : resultText (bitAt (setBit [] offset 1) offset) = str "1\n" := by
    rw [bitAt_setBit hpositive hpositive (Or.inr rfl), if_pos rfl]
    decide
  have hread : Function.update (fun _ : UInt64 => (none : Option Bytes)) (xxh64 (letters text) 0)
      (some (setBit [] offset 1)) (xxh64 (letters text') 0) = some (setBit [] offset 1) := by
    rw [show xxh64 (letters text) 0 = xxh64 (letters text') 0 from hsame, Function.update_self]
  simp only [run_cons, run_nil, plainServe, hset, hget, Request.plain, Option.getD_none, hread, Option.getD_some,
    hzero, hone, List.nil_append, List.cons_append, and_self]

end Aliases

end Solidbits
