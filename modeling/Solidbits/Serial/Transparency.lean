import Solidbits.Serial.Commands

namespace Solidbits

open Prog Transition

section Exact

variable {g after : Desk} {dt : Slot} {hash : UInt64}

-- Every recorded length is the length of what the path shows, and nothing is
-- held.
def Desk.Exact (g : Desk) : Prop :=
  ∀ hash length, g.recorded hash = some length → length = g.files.length hash

def Desk.Idle (g : Desk) : Prop := ∀ slot, g.pins slot = 0

theorem Desk.Exact.tight (h : g.Exact) (hopen : g.recorded (g.hash dt) ≠ none) : g.Tight dt := by
  obtain ⟨length, hlength⟩ := Option.ne_none_iff_exists'.mp hopen
  rw [Desk.Tight, Desk.length, hlength, Option.getD_some, h _ _ hlength]
  rfl

theorem Desk.Exact.write (h : g.Exact) (hopen : g.recorded (g.hash dt) ≠ none) {buf : Bytes}
    (hne : buf ≠ []) (offset : Nat) : (g.write dt offset buf).Exact := by
  have htight := h.tight hopen
  intro other length hlength
  simp only [Desk.write, Contents.length] at hlength ⊢
  by_cases ho : other = g.hash dt
  · rw [ho, Function.update_self] at hlength ⊢
    rw [← Option.some.inj hlength, Option.getD_some, Padded.overwrite_length _ _ _ hne, htight]
  · rw [Function.update_of_ne ho] at hlength ⊢
    exact h other length hlength

theorem Desk.Exact.setBit (h : g.Exact) (hopen : g.recorded (g.hash dt) ≠ none) (cmd : SetbitCmd) :
    (g.setBit dt cmd).Exact := by
  unfold Desk.setBit
  split
  · exact h
  · exact h.write hopen (List.cons_ne_nil _ _) _

theorem setBit_files (hshown : g.files (g.hash dt) ≠ none) (cmd : SetbitCmd) :
    (g.setBit dt cmd).files = Function.update g.files (g.hash dt)
      (some (Solidbits.setBit (g.content dt) cmd.offset cmd.value)) := by
  obtain ⟨content, hcontent⟩ := Option.ne_none_iff_exists'.mp hshown
  unfold Desk.setBit Solidbits.setBit
  split
  · rw [Desk.content, hcontent, Option.getD_some, ← hcontent, Function.update_eq_self]
  · rfl

theorem setBit_pins (g : Desk) (dt : Slot) (cmd : SetbitCmd) : (g.setBit dt cmd).pins = g.pins := by
  unfold Desk.setBit
  split <;> rfl

theorem setBit_recorded (hopen : g.recorded hash ≠ none) (cmd : SetbitCmd) :
    (g.setBit dt cmd).recorded hash ≠ none := by
  unfold Desk.setBit Desk.write
  split
  · exact hopen
  · by_cases hs : hash = g.hash dt
    · simp [hs]
    · simpa [hs] using hopen

theorem setBit_replies (g : Desk) (dt : Slot) (cmd : SetbitCmd) :
    (g.setBit dt cmd).replies = g.replies := by
  unfold Desk.setBit
  split <;> rfl

-- A descriptor that a request without other descriptors has just been handed.
structure Taken (g after : Desk) (slot : Slot) (hash : UInt64) : Prop where
  pins : ∀ other, after.pins other = if other = slot then 1 else 0
  name : after.hash slot = hash
  exact : after.Exact
  recorded : after.recorded hash ≠ none
  files : after.files = Function.update g.files hash (some ((g.files hash).getD []))
  replies : after.replies = g.replies

theorem pin_pins (hidle : g.Idle) (slot other : Slot) (hash : UInt64) :
    (g.pin slot hash).pins other = if other = slot then 1 else 0 := by
  simp only [Desk.pin, Function.update_apply, hidle slot, hidle other]

theorem update_shown {m : Contents} (h : m hash ≠ none) :
    Function.update m hash (some ((m hash).getD [])) = m := by
  obtain ⟨content, hcontent⟩ := Option.ne_none_iff_exists'.mp h
  rw [hcontent, Option.getD_some, ← hcontent, Function.update_eq_self]

-- Without truncation prepare_file hands out a descriptor on what the path
-- shows, or finds that there is no file.
theorem handed_idle (htimed : g.timed) (hidle : g.Idle) (hexact : g.Exact) {mode : Nat} (hmode : mode < 2)
    {answer : Except OpenError Slot} (h : Handed g hash mode answer after) :
    (∃ slot, answer = .ok slot ∧ Taken g after slot hash ∧ (mode = 1 → g.files hash ≠ none)) ∨
    answer = .error .missing ∧ mode = 1 ∧ g.files hash = none ∧ after.Idle ∧ after.Exact ∧
      after.files = g.files ∧ after.replies = g.replies := by
  cases h with
  | found slot hopen hshown hpin =>
      refine Or.inl ⟨slot, rfl, ⟨fun other => pin_pins hidle slot other hash, ?_, hexact, hopen, ?_, rfl⟩,
        fun _ => hshown⟩
      · exact Function.update_self _ _ _
      · exact (update_shown hshown).symm
  | opened slot hclosed hpin hmissing =>
      have hfiles : g.files.opened hash mode =
          Function.update g.files hash (some ((g.files hash).getD [])) := by
        unfold Contents.opened
        by_cases hnone : g.files hash = none
        · rw [if_pos (Or.inr hnone), hnone, Option.getD_none]
        · have hkept : ¬(mode = 2 ∨ g.files hash = none) := by
            rintro (htwo | h)
            · omega
            · exact hnone h
          rw [if_neg hkept, update_shown hnone]
      refine Or.inl ⟨slot, rfl, ⟨fun other => pin_pins hidle slot other hash, ?_, ?_, ?_, hfiles, rfl⟩, hmissing⟩
      · exact Function.update_self _ _ _
      · intro other length hlength
        simp only [Desk.pin, Desk.create] at hlength ⊢
        rw [hfiles]
        by_cases ho : other = hash
        · rw [ho, Function.update_self] at hlength
          rw [ho, Contents.length, Function.update_self, ← Option.some.inj hlength]
          rfl
        · rw [Function.update_of_ne ho] at hlength
          rw [Contents.length, Function.update_of_ne ho]
          exact hexact other length hlength
      · simp [Desk.pin, Desk.create]
  | missing recorded hclosed hnone hone hkept =>
      refine Or.inr ⟨rfl, hone, hnone, hidle, ?_, rfl, rfl⟩
      intro other length hlength
      rcases hkept other with hsame | ⟨hdropped, _⟩
      · exact hexact other length (hsame.symm.trans hlength)
      · cases hdropped.symm.trans hlength
  | full hclosed hpinned =>
      obtain ⟨slot, hp⟩ := hpinned htimed
      rw [hidle slot] at hp
      exact absurd hp (Nat.lt_irrefl 0)

end Exact

section Requests

variable {g after : Desk} {dt : Slot} {hash : UInt64}

theorem Taken.held (h : Taken g after dt hash) : 0 < after.pins dt := by
  rw [h.pins dt, if_pos rfl]
  exact Nat.one_pos

theorem Taken.content (h : Taken g after dt hash) : after.content dt = (g.files hash).getD [] := by
  rw [Desk.content, h.name, h.files, Function.update_self, Option.getD_some]

theorem Taken.recorded_name (h : Taken g after dt hash) : after.recorded (after.hash dt) ≠ none := by
  rw [h.name]
  exact h.recorded

theorem Taken.tight (h : Taken g after dt hash) : after.Tight dt := h.exact.tight h.recorded_name

theorem Taken.shown (h : Taken g after dt hash) : after.files (after.hash dt) ≠ none := by
  rw [h.name, h.files, Function.update_self]
  exact nofun

theorem Taken.unpin_idle (h : Taken g after dt hash) {last : Desk} (hpins : last.pins = after.pins) :
    (last.unpin dt).Idle := by
  intro slot
  by_cases hs : slot = dt
  · simp [Desk.unpin, hpins, h.pins, hs]
  · simp [Desk.unpin, hpins, h.pins, hs]

-- What a request leaves behind: nothing held, exact lengths, the files it named
-- open if there are any, the files and the reply of the plain map.
structure Leaves (g : Desk) (request : Request) (last : Desk) : Prop where
  idle : last.Idle
  exact : last.Exact
  found : ∀ key ∈ request.keys, last.files (xxh64 key 0) ≠ none → last.recorded (xxh64 key 0) ≠ none
  files : last.files = (request.plain (fun key => xxh64 key 0) g.files).1
  replies : last.replies = g.replies ++ (request.plain (fun key => xxh64 key 0) g.files).2

theorem wp_setbitExecute (htimed : g.timed) (hidle : g.Idle) (hexact : g.Exact) (cmd : SetbitCmd) :
    (setbitExecute cmd).wp deskContract (fun last _ => Leaves g (.setbit cmd) last) g := by
  apply wp_prepareFile (by omega)
  intro answer after ha
  rcases handed_idle htimed hidle hexact (by omega) ha with ⟨dt, rfl, ht, _⟩ | ⟨_, hone, _⟩
  · simp only [wp_bind]
    apply wp_setbitCommand ht.held ht.tight
    apply wp_replyResult
    apply wp_releaseDesc
    · rw [Desk.reply, setBit_pins]
      exact ht.held
    · constructor
      · exact ht.unpin_idle (setBit_pins after dt cmd)
      · exact ht.exact.setBit ht.recorded_name cmd
      · intro other hother _
        rw [List.mem_singleton.mp hother]
        exact setBit_recorded ht.recorded cmd
      · show (after.setBit dt cmd).files = _
        rw [setBit_files ht.shown, ht.name, ht.content, ht.files, Function.update_idem]
        rfl
      · show (after.setBit dt cmd).replies ++ _ = _
        rw [setBit_replies, ht.replies, ht.content]
        rfl
  · cases hone

theorem wp_getbitExecute (htimed : g.timed) (hidle : g.Idle) (hexact : g.Exact) (cmd : GetbitCmd) :
    (getbitExecute cmd).wp deskContract (fun last _ => Leaves g (.getbit cmd) last) g := by
  apply wp_prepareFile (by omega)
  intro answer after ha
  rcases handed_idle htimed hidle hexact (by omega) ha with
    ⟨dt, rfl, ht, hfound⟩ | ⟨rfl, _, hnone, hidle', hexact', hfiles, hreplies⟩
  · simp only [wp_bind]
    apply wp_getbitCommand ht.held ht.tight
    apply wp_replyResult
    apply wp_releaseDesc
    · exact ht.held
    · constructor
      · exact ht.unpin_idle rfl
      · exact ht.exact
      · intro other hother _
        rw [List.mem_singleton.mp hother]
        exact ht.recorded
      · show after.files = _
        rw [ht.files, update_shown (hfound rfl)]
        rfl
      · show after.replies ++ _ = _
        rw [ht.replies, ht.content]
        rfl
  · apply wp_replyStr
    constructor
    · exact hidle'
    · exact hexact'
    · intro other hother hshown
      refine absurd ?_ hshown
      rw [List.mem_singleton.mp hother]
      exact (congrFun hfiles _).trans hnone
    · exact hfiles
    · show after.replies ++ _ = _
      rw [hreplies]
      simp only [Request.plain, hnone, Option.getD_none, bitAt_nil]
      rfl

theorem wp_bitcountExecute (htimed : g.timed) (hidle : g.Idle) (hexact : g.Exact) {key : Bytes} (c : Nat) (args : List Bytes) :
    (bitcountExecute key c args).wp deskContract
      (fun last _ => Leaves g (.bitcount key c args) last) g := by
  apply wp_prepareFile (by omega)
  intro answer after ha
  rcases handed_idle htimed hidle hexact (by omega) ha with
    ⟨dt, rfl, ht, hfound⟩ | ⟨rfl, _, hnone, hidle', hexact', hfiles, hreplies⟩
  · have hleaves : ∀ text, text = (Request.plain (fun key => xxh64 key 0) g.files (.bitcount key c args)).2 →
        Leaves g (.bitcount key c args) ({ after with replies := after.replies ++ text }.unpin dt) := by
      rintro text rfl
      constructor
      · exact ht.unpin_idle rfl
      · exact ht.exact
      · intro other hother _
        rw [List.mem_singleton.mp hother]
        exact ht.recorded
      · show after.files = _
        rw [ht.files, update_shown (hfound rfl)]
        rfl
      · show after.replies ++ _ = _
        rw [ht.replies]
    have hlength : after.length dt = ((g.files (xxh64 key 0)).getD []).length := by
      rw [ht.tight, ht.content]
    apply wp_descLength ht.held
    rw [hlength]
    split
    · rename_i hempty
      simp only [wp_bind]
      apply wp_replyStr
      apply wp_releaseDesc
      · exact ht.held
      · apply hleaves
        simp only [Request.plain, hempty, ite_true]
        rfl
    · rename_i hfull
      have hcount : ∀ stop, stop = (if c = 4 then atol (args.getD 2 [])
            else (((g.files (xxh64 key 0)).getD []).length : Int) - 1) →
          (do
            let result ← bitcountCommand
              { key := key, start := if c = 2 then 0 else atol (args.getD 1 []), stop := stop } dt
            replyResult result
            releaseAllDescs [some dt]).wp deskContract
            (fun last _ => Leaves g (.bitcount key c args) last) after := by
        rintro stop rfl
        simp only [wp_bind]
        apply wp_bitcountCommand ht.held ht.tight
        apply wp_replyResult
        apply wp_releaseDesc
        · exact ht.held
        · apply hleaves
          simp only [Request.plain, hfull, ite_false, ht.content]
      by_cases hfour : c = 4
      · simp only [hfour, ite_true, pure_eq, ret_bind] at hcount ⊢
        exact hcount _ rfl
      · simp only [hfour, ite_false] at hcount ⊢
        apply wp_descLength ht.held
        rw [hlength]
        exact hcount _ rfl
  · apply wp_replyStr
    constructor
    · exact hidle'
    · exact hexact'
    · intro other hother hshown
      refine absurd ?_ hshown
      rw [List.mem_singleton.mp hother]
      exact (congrFun hfiles _).trans hnone
    · exact hfiles
    · show after.replies ++ _ = _
      rw [hreplies]
      simp only [Request.plain, hnone, Option.getD_none, List.length_nil, ite_true]
      rfl

-- Every request but BITOP does what it does to the plain map.
theorem wp_execute (htimed : g.timed) (hidle : g.Idle) (hexact : g.Exact) (request : Request) (hbitop : request.isBitop = false) :
    request.execute.wp deskContract (fun last _ => Leaves g request last) g := by
  cases request with
  | fail text len => exact wp_replyStr text len ⟨hidle, hexact, fun _ hkey => absurd hkey List.not_mem_nil, rfl, rfl⟩
  | setbit cmd => exact wp_setbitExecute htimed hidle hexact cmd
  | getbit cmd => exact wp_getbitExecute htimed hidle hexact cmd
  | bitop cmd keys => cases hbitop
  | bitcount key c args => exact wp_bitcountExecute htimed hidle hexact c args
  | silent => exact ⟨hidle, hexact, fun _ hkey => absurd hkey List.not_mem_nil, rfl, (List.append_nil _).symm⟩

end Requests

end Solidbits
