import Solidbits.Serial.Alone
import Solidbits.Serial.Views

namespace Solidbits

open Prog Transition

section Combine

variable {st : Store} {m : Contents} {held : Slot → Prop} {dest : Slot} {dts : List (Option Slot)}

-- A source as bitopCommand receives it; there is no descriptor for a missing
-- file.
def Store.sourceLength (st : Store) : Option Slot → Nat
  | none => 0
  | some dt => (st.descs dt).length

def Store.sourceContent (st : Store) (m : Contents) : Option Slot → Bytes
  | none => []
  | some dt => (m (st.hashOf dt)).getD []

-- The recorded length of every source is that of its file.
def Store.ExactSources (st : Store) (m : Contents) (dts : List (Option Slot)) : Prop :=
  ∀ dt, some dt ∈ dts → (st.descs dt).length = m.length (st.hashOf dt)

-- No recorded length of a source falls short of its file.
def Store.BoundedSources (st : Store) (m : Contents) (dts : List (Option Slot)) : Prop :=
  ∀ dt, some dt ∈ dts → m.length (st.hashOf dt) ≤ (st.descs dt).length

theorem Store.ExactSources.bounded (h : st.ExactSources m dts) : st.BoundedSources m dts :=
  fun dt hdt => Nat.le_of_eq (h dt hdt).symm

theorem opened_longest (h : st.Opened m held) (hheld : Held held dts) (maxlen : Nat) :
    (st.desk m held).longest dts maxlen = (dts.map st.sourceLength).foldl max maxlen := by
  rw [Desk.longest, List.foldl_map]
  apply List.foldl_ext
  intro maxlen dt hdt
  cases dt with
  | none => rfl
  | some dt => exact congrArg (max maxlen) (h.desk_length (hheld dt hdt))

theorem opened_limit {limit : Nat} (hlimit : ∀ dt, some dt ∈ dts → (st.descs dt).length ≤ limit) :
    longestOf (dts.map st.sourceLength) ≤ limit := by
  apply longestOf_le_iff.mpr
  intro length hlength
  obtain ⟨dt, hdt, rfl⟩ := List.mem_map.mp hlength
  cases dt with
  | none => exact Nat.zero_le _
  | some dt => exact hlimit dt hdt

theorem opened_bounded (h : st.Opened m held) (hheld : Held held dts) (hbound : st.BoundedSources m dts) :
    (st.desk m held).Bounded dts := by
  intro dt hdt
  cases dt with
  | none => exact Nat.le_refl 0
  | some dt =>
      have hlength : (st.desk m held).lengthOf (some dt) = _ := h.desk_length (hheld dt hdt)
      rw [hlength]
      exact hbound dt hdt

theorem opened_combine (option : OpOption) (n : Nat) :
    (st.desk m held).combine option dts n = bitop option (dts.map (st.sourceContent m)) n := by
  have hcontents : ((st.desk m held).contentOf) = st.sourceContent m := by
    funext dt
    cases dt <;> rfl
  rw [Desk.combine, bitop, hcontents, List.map_map]
  rfl

-- A destination once the first bytes of it are written.
structure Stored (old new : Bytes) (bytes : Nat → UInt8) (n : Nat) : Prop where
  inside : ∀ j < n, Padded.get new j = bytes j
  behind : ∀ j, n ≤ j → Padded.get new j = Padded.get old j
  length : new.length = max old.length n

theorem stored_overwrite (old : Bytes) (option : OpOption) (contents : List Bytes) (n : Nat) :
    Stored old (Padded.overwrite old 0 (bitop option contents n))
      (opBytes option (contents.map bufOf)) n := by
  have hlen : (bitop option contents n).length = n := bitop_length option contents n
  refine ⟨?_, ?_, ?_⟩
  · intro j hj
    rw [Padded.get_overwrite, if_pos (by omega), Nat.sub_zero, bitop_byte option contents hj]
  · intro j hj
    rw [Padded.get_overwrite, if_neg (by omega)]
  · by_cases hempty : bitop option contents n = []
    · rw [hempty] at hlen ⊢
      rw [Padded.overwrite, if_pos rfl, ← hlen]
      exact (Nat.max_eq_left (Nat.zero_le _)).symm
    · rw [Padded.overwrite_length _ _ _ hempty, hlen, Nat.zero_add]

theorem written_files (g : Desk) (dest : Slot) (bytes : Bytes) :
    (∀ path, path ≠ g.hash dest → (g.written dest bytes).files path = g.files path) ∧
      (g.written dest bytes).content dest = Padded.overwrite (g.content dest) 0 bytes := by
  unfold Desk.written
  split
  · rename_i hempty
    rw [hempty, Padded.overwrite, if_pos rfl]
    exact ⟨fun _ _ => rfl, rfl⟩
  · constructor
    · intro path hpath
      simp only [Desk.write, Function.update_of_ne hpath]
    · simp only [Desk.write, Desk.content, Function.update_self, Option.getD_some]

-- Every run of requests leaves its descriptors open like that.
theorem run_opened {clock : Nat → Nat} {disk : Contents} {lines : List Bytes}
    (hcalm : AllSteps (Server.serve clock) (Calm clock) (Server.start disk) lines) :
    let s := run (Server.serve clock) (Server.start disk) lines
    s.store.Opened s.store.bitmap s.store.live := by
  intro s
  obtain ⟨g, hserves⟩ := serves_run hcalm
  have hfiles : s.store.bitmap = g.files := funext hserves.bitmap
  rw [hfiles]
  exact hserves.sound.openedOn fun _ hl => hl

-- What the contract leaves on the desk is in the store.
theorem opened_bitop {cmd : BitopCmd} (hhook : cmd.hook = .NONE) (hopened : st.Opened m held)
    (hdest : held dest) (hheld : Held held dts) (hbound : st.BoundedSources m dts)
    (hlimit : ∀ dt, some dt ∈ dts → (st.descs dt).length ≤ FILE_SIZE_LIMIT) :
    let n := longestOf (dts.map st.sourceLength)
    let done := (bitopCommand cmd (some dest) dts).alone st
    done.1 = n ∧
      Backs ((st.desk m held).written dest (bitop cmd.option (dts.map (st.sourceContent m)) n)) done.2 := by
  intro n done
  have hn : n ≤ FILE_SIZE_LIMIT := opened_limit hlimit
  have hlongest : (st.desk m held).longest dts 0 = n := opened_longest hopened hheld 0
  have hbuffer : FILE_SIZE_LIMIT < 2 ^ 31 := by decide
  have hpins : ∀ dt, held dt → 0 < (st.desk m held).pins dt := fun dt hdt => Store.Opened.pinned hdt
  have hwp : (bitopCommand cmd (some dest) dts).wp deskContract (fun after result =>
      result = (n : Int) ∧ after = (st.desk m held).written dest
        (bitop cmd.option (dts.map (st.sourceContent m)) n)) (st.desk m held) := by
    apply wp_bitopCommand hhook (hpins dest hdest) (fun dt hdt => hpins dt (hheld dt hdt))
      (opened_bounded hopened hheld hbound)
    · intro _
      rw [hlongest, opened_combine]
      exact ⟨rfl, rfl⟩
    · intro hlarge
      rw [hlongest] at hlarge
      omega
  have haccess : Held (fun _ => True) (some dest :: dts) := fun _ _ => trivial
  obtain ⟨_, ⟨hresult, rfl⟩, hbacks⟩ := hopened.backs.alone hwp (bitopCommand_accesses cmd haccess)
  exact ⟨hresult, hbacks⟩

-- BITOP combines the bytes its sources had before it began, even where it
-- writes them over a source.
theorem bitopCommand_folds {cmd : BitopCmd} (hhook : cmd.hook = .NONE) (hopened : st.Opened m held)
    (hdest : held dest) (hheld : Held held dts) (hexact : st.ExactSources m dts)
    (hlimit : ∀ dt, some dt ∈ dts → (st.descs dt).length ≤ FILE_SIZE_LIMIT) :
    let n := longestOf (dts.map st.sourceLength)
    let done := (bitopCommand cmd (some dest) dts).alone st
    done.1 = n ∧
    ∃ m', done.2.Opened m' held ∧
      Stored (st.sourceContent m (some dest)) (done.2.sourceContent m' (some dest))
        (opBytes cmd.option (dts.map fun dt => bufOf (st.sourceContent m dt))) n ∧
      ∀ path, path ≠ st.hashOf dest → m' path = m path := by
  intro n done
  obtain ⟨hresult, hbacks⟩ := opened_bitop hhook hopened hdest hheld hexact.bounded hlimit
  obtain ⟨hother, hmine⟩ := written_files (st.desk m held) dest
    (bitop cmd.option (dts.map (st.sourceContent m)) n)
  generalize hlast : (st.desk m held).written dest (bitop cmd.option (dts.map (st.sourceContent m)) n) = last
    at hbacks hother hmine
  have hlastpins : last.pins = (st.desk m held).pins := by rw [← hlast, written_pins]
  have hlasthash : last.hash = st.hashOf := by rw [← hlast, written_hash]; rfl
  have hpins : ∀ dt, held dt → 0 < last.pins dt := by
    intro dt hdt
    rw [hlastpins]
    exact Store.Opened.pinned hdt
  have hname := hbacks.hash dest (hpins dest hdest)
  refine ⟨hresult, last.files, hbacks.opened.mono hpins, ?_, hother⟩
  have hcontent : done.2.sourceContent last.files (some dest) = last.content dest := by
    rw [Store.sourceContent, hname, Desk.content]
  have hstored := stored_overwrite ((st.desk m held).content dest) cmd.option
    (dts.map (st.sourceContent m)) n
  rw [hcontent, hmine]
  rwa [List.map_map] at hstored

-- The exclusive or of a file that is open with another, written over the first.
theorem bitopCommand_folds_in_place :
    let disk : Contents := fun hash => if hash = xxh64 (str "d") 0 then some [128] else some [1, 2]
    let s := run (Server.serve id) (Server.start disk) [str "GETBIT d 0", str "GETBIT a 0"]
    let cmd : BitopCmd := { key := str "d", count := 2, hook := .NONE, option := .XOR }
    let done := (bitopCommand cmd (some 0) [some 0, some 1]).alone s.store
    done.1 = 2 ∧ ∃ m', done.2.Opened m' s.store.live ∧
      Padded.get (done.2.sourceContent m' (some 0)) 0 = 129 := by
  intro disk s cmd done
  have hlive : s.store.live 0 ∧ s.store.live 1 := by decide +kernel
  have hexact : ∀ dt : Slot, dt = 0 ∨ dt = 1 → s.store.live dt ∧
      (s.store.descs dt).length = Contents.length s.store.bitmap (s.store.hashOf dt) ∧
      (s.store.descs dt).length ≤ FILE_SIZE_LIMIT := by
    rintro dt (rfl | rfl)
    · exact ⟨hlive.1, by decide +kernel, by decide +kernel⟩
    · exact ⟨hlive.2, by decide +kernel, by decide +kernel⟩
  have hsource : ∀ dt, some dt ∈ [some (0 : Slot), some 1] → dt = 0 ∨ dt = 1 := by simp
  have hopen : s.store.Opened s.store.bitmap s.store.live :=
    @run_opened id disk _ (by decide +kernel)
  obtain ⟨hresult, m', hopened, hstored, _⟩ := @bitopCommand_folds s.store s.store.bitmap s.store.live 0
    [some 0, some 1] cmd rfl hopen hlive.1 (fun dt hdt => (hexact dt (hsource dt hdt)).1)
    (fun dt hdt => (hexact dt (hsource dt hdt)).2.1) (fun dt hdt => (hexact dt (hsource dt hdt)).2.2)
  have hlongest : longestOf ([some (0 : Slot), some 1].map s.store.sourceLength) = 2 := by decide +kernel
  refine ⟨hresult.trans (congrArg _ hlongest), m', hopened, ?_⟩
  exact (hstored.inside 0 (by decide +kernel)).trans (by decide +kernel)

end Combine

end Solidbits
