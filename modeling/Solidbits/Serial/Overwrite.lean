import Solidbits.Serial.Views

namespace Solidbits

open Prog Transition

section Outcome

variable {g after : Desk} {keys : List Bytes} {dts : List (Option Slot)}

theorem map_eq_of_forall₂ {α β κ : Type} {f : α → κ} {f' : β → κ} {xs : List α} {ys : List β}
    (h : List.Forall₂ (fun x y => f x = f' y) xs ys) : xs.map f = ys.map f' := by
  rw [← List.forall₂_eq_eq_eq, List.forall₂_map_left_iff, List.forall₂_map_right_iff]
  exact h

theorem combine_eq {contentOf : Bytes → Bytes}
    (h : List.Forall₂ (fun key dt => contentOf key = g.contentOf dt) keys dts) (option : OpOption) (n : Nat) :
    g.combine option dts n = bitop option (keys.map contentOf) n := by
  have hbufs : (keys.map contentOf).map bufOf = dts.map fun dt => bufOf (g.contentOf dt) := by
    rw [map_eq_of_forall₂ h, List.map_map]
    rfl
  rw [Desk.combine, bitop, hbufs]

theorem longest_eq {lengthOf : Bytes → Nat}
    (h : List.Forall₂ (fun key dt => lengthOf key = g.lengthOf dt) keys dts) :
    g.longest dts 0 = longestOf (keys.map lengthOf) := by
  rw [map_eq_of_forall₂ h, longestOf, List.foldl_map]
  rfl

def Desk.lengthAt (g : Desk) (hash : UInt64) : Nat := (g.recorded hash).getD (g.files.length hash)

-- The files once the destination is open: a file that was not open is empty.
def Desk.emptied (g : Desk) (hash : UInt64) : Contents :=
  if g.recorded hash = none then Function.update g.files hash (some []) else g.files

-- The destination right after it has been opened.
structure Target (g after : Desk) (hash : UInt64) (dest : Slot) : Prop where
  files : after.files = g.emptied hash
  recorded : after.recorded = Function.update g.recorded hash (some (g.lengthAt hash))
  shown : after.files hash ≠ none
  held : 0 < after.pins dest
  name : after.hash dest = hash
  opened : after.Open
  replies : after.replies = g.replies

theorem handed_target (hopen : g.Open) {hash : UInt64} {answer : Except OpenError Slot}
    (h : Handed g hash 2 answer after) :
    (∃ dest, answer = .ok dest ∧ Target g after hash dest) ∨ answer = .error .failed ∧ after = g := by
  have hafter := handed_open hopen h
  cases h with
  | found slot hrec hshown hpin =>
      refine Or.inl ⟨slot, rfl, ?_, ?_, hshown, ?_, ?_, hafter, rfl⟩
      · rw [Desk.emptied, if_neg hrec]
        rfl
      · obtain ⟨length, hlength⟩ := Option.ne_none_iff_exists'.mp hrec
        rw [Desk.lengthAt, hlength, Option.getD_some, ← hlength, Function.update_eq_self]
        rfl
      · simp [Desk.pin]
      · simp [Desk.pin]
  | opened slot hclosed hpin hmode =>
      have hfiles : g.files.opened hash 2 = g.emptied hash := by
        rw [Contents.opened, if_pos (Or.inl rfl), Desk.emptied, if_pos hclosed]
      refine Or.inl ⟨slot, rfl, hfiles, ?_, ?_, ?_, ?_, hafter, rfl⟩
      · rw [Desk.lengthAt, hclosed]
        rfl
      · show g.files.opened hash 2 hash ≠ none
        rw [hfiles, Desk.emptied, if_pos hclosed, Function.update_self]
        exact Option.some_ne_none _
      · simp [Desk.pin]
      · simp [Desk.pin]
  | missing recorded hclosed hnone hmode hkept => cases hmode
  | full hclosed hpinned => exact Or.inr ⟨rfl, rfl⟩

-- No source that is open has a stale length.
def Desk.ExactOn (g : Desk) (keys : List Bytes) : Prop :=
  ∀ key ∈ keys, ∀ length, g.recorded (xxh64 (cstr key) 0) = some length →
    length = g.files.length (xxh64 (cstr key) 0)

-- What the sources show and how long they are, once all files are open.
theorem source_view {hash : UInt64} {dest : Slot} {first : Desk} (ht : Target g first hash dest)
    (hs : Sourced first keys dts after) {key : Bytes} {dt : Option Slot} (hsource : after.Source key dt)
    (hheld : ∀ slot, dt = some slot → 0 < after.pins slot)
    (hexact : ∀ length, g.recorded (xxh64 (cstr key) 0) = some length →
      length = g.files.length (xxh64 (cstr key) 0)) :
    ((g.emptied hash (xxh64 (cstr key) 0)).getD []) = after.contentOf dt ∧
      g.files.length (xxh64 (cstr key) 0) = after.lengthOf dt := by
  have hfiles : after.files = g.emptied hash := hs.kept.files.trans ht.files
  cases dt with
  | none =>
      have hnone : g.emptied hash (xxh64 (cstr key) 0) = none := by
        rw [← hfiles]
        exact hsource
      have hother : xxh64 (cstr key) 0 ≠ hash := by
        intro he
        rw [he, ← ht.files] at hnone
        exact ht.shown hnone
      have hgone : g.files (xxh64 (cstr key) 0) = none := by
        unfold Desk.emptied at hnone
        split at hnone
        · rwa [Function.update_of_ne hother] at hnone
        · exact hnone
      refine ⟨by rw [hnone]; rfl, ?_⟩
      rw [Contents.length, hgone]
      rfl
  | some slot =>
      have hname : after.hash slot = xxh64 (cstr key) 0 := hsource
      obtain ⟨length, hlength⟩ := Option.ne_none_iff_exists'.mp (hs.kept.opened slot (hheld slot rfl))
      rw [hname] at hlength
      refine ⟨?_, ?_⟩
      · rw [Desk.contentOf, Desk.content, hname, hfiles]
      · rw [Desk.lengthOf, Desk.length, hname, hlength, Option.getD_some]
        by_cases he : xxh64 (cstr key) 0 = hash
        · have hkept := hs.kept.recorded dest ht.held
          rw [ht.name, ← he, hlength, ht.recorded, he, Function.update_self] at hkept
          rw [Option.some.inj hkept, Desk.lengthAt]
          cases hrec : g.recorded hash with
          | none => rw [Option.getD_none, he]
          | some old =>
              rw [he] at hexact ⊢
              exact (hexact old hrec).symm
        · rcases hs.kept.lengths _ _ hlength with hold | hnew
          · rw [ht.recorded, Function.update_of_ne he] at hold
            exact (hexact length hold).symm
          · rw [hnew, ht.files, Contents.length, Contents.length, Desk.emptied]
            split
            · rw [Function.update_of_ne he]
            · rfl

theorem emptied_length_le (g : Desk) (hash other : UInt64) :
    (g.emptied hash).length other ≤ g.files.length other := by
  unfold Desk.emptied Contents.length
  split
  · by_cases he : other = hash
    · simp [he]
    · rw [Function.update_of_ne he]
  · exact Nat.le_refl _

def Failed (reply : Bytes) : Prop := reply.take 4 = str "ERR:"

instance (reply : Bytes) : Decidable (Failed reply) := inferInstanceAs (Decidable (_ = _))

def longestSource (lengthAt : UInt64 → Nat) (keys : List Bytes) : Nat :=
  longestOf (keys.map fun key => lengthAt (xxh64 (cstr key) 0))

def sourceContents (m : Contents) (keys : List Bytes) : List Bytes :=
  keys.map fun key => (m (xxh64 (cstr key) 0)).getD []

theorem filesystem_failed : Failed ((str "ERR:FILESYSTEM FAILED\n").take 22) := by decide

theorem access_failed : Failed ((str "ERR:FILE ACCESS FAILED\n").take 23) := by decide

-- A BITOP that did not fail: the reply, and what it left of its destination.
structure Combined (g : Desk) (cmd : BitopCmd) (keys : List Bytes) (last : Desk) (reply : Bytes) : Prop where
  number : reply = numberText (longestSource g.files.length keys)
  recorded : last.recorded (xxh64 cmd.key 0) =
    some (max (g.lengthAt (xxh64 cmd.key 0)) (longestSource g.files.length keys))
  files : last.files (xxh64 cmd.key 0) = some (Padded.overwrite
    ((g.emptied (xxh64 cmd.key 0) (xxh64 cmd.key 0)).getD []) 0
    (bitop cmd.option (sourceContents (g.emptied (xxh64 cmd.key 0)) keys) (longestSource g.files.length keys)))

-- The destination once the result is written over what it shows.
theorem written_target {hash : UInt64} {dest : Slot} {first : Desk} (ht : Target g first hash dest)
    (hk : Kept first after) (option : OpOption) (n : Nat) :
    (after.written dest (after.combine option dts n)).recorded hash = some (max (g.lengthAt hash) n) ∧
      (after.written dest (after.combine option dts n)).files hash =
        some (Padded.overwrite ((g.emptied hash hash).getD []) 0 (after.combine option dts n)) := by
  have hname : after.hash dest = hash := (hk.hash dest ht.held).trans ht.name
  have hrec : after.recorded hash = some (g.lengthAt hash) := by
    have hkept := hk.recorded dest ht.held
    rwa [ht.name, ht.recorded, Function.update_self] at hkept
  have hfiles : after.files = g.emptied hash := hk.files.trans ht.files
  have hlen := @combine_length after dts option n
  unfold Desk.written
  split
  · rename_i hempty
    rw [hempty] at hlen ⊢
    rw [Padded.overwrite, if_pos rfl, hrec, hfiles, ← hlen]
    refine ⟨by simp, ?_⟩
    have hshown := ht.shown
    rw [ht.files] at hshown
    obtain ⟨content, hcontent⟩ := Option.ne_none_iff_exists'.mp hshown
    rw [hcontent]
    rfl
  · simp only [Desk.write, Desk.length, Desk.content, hname, hfiles, hrec, Function.update_self, hlen,
      Nat.zero_add, Option.getD_some, and_self]

theorem wp_bitopExecute (hopen : g.Open) {cmd : BitopCmd} (hhook : cmd.hook = .NONE)
    (hexact : g.ExactOn keys) :
    (bitopExecute cmd keys).wp deskContract (fun last _ => ∃ reply, last.replies = g.replies ++ [reply] ∧
      (¬Failed reply → Combined g cmd keys last reply)) g := by
  have hfailed : ∀ (last : Desk) (reply : Bytes), last.replies = g.replies ++ [reply] → Failed reply →
      ∃ reply, last.replies = g.replies ++ [reply] ∧ (¬Failed reply → Combined g cmd keys last reply) :=
    fun last reply hreply hf => ⟨reply, hreply, fun hn => absurd hf hn⟩
  simp only [bitopExecute, hhook]
  apply wp_prepareFile (by decide)
  intro answer first ha
  rcases handed_target hopen ha with ⟨dest, rfl, ht⟩ | ⟨rfl, rfl⟩
  · simp only [bitopSources]
    rw [wp_bind]
    apply wp_prepareFiles ht.opened
    · intro dts after hs
      have hcovers : after.Covers (some dest :: dts) := by
        intro slot
        rw [hs.pins slot, List.count_cons]
        have hdest := ht.held
        split
        · rename_i he
          have hslot : dest = slot := by simpa using he
          rw [← hslot]
          omega
        · omega
      have hviews := forall₂_mem hs.sources fun key hkey dt hdt hsource =>
        source_view ht hs hsource (fun slot he => hcovers.held slot (List.mem_cons_of_mem _ (he ▸ hdt)))
          (hexact key hkey)
      have hcontents := combine_eq (hviews.imp fun _ _ h => h.1) cmd.option
      have hlongest := longest_eq (hviews.imp fun _ _ h => h.2)
      have hbound : after.Bounded dts := by
        intro dt hdt
        obtain ⟨key, _, hcontent, hlength⟩ := forall₂_right hviews hdt
        rw [← hcontent, ← hlength]
        exact emptied_length_le g _ _
      have hdest : 0 < after.pins dest := hcovers.held dest List.mem_cons_self
      have hreplies : ∀ bytes, (after.written dest bytes).replies = g.replies :=
        fun bytes => (written_replies bytes).trans (hs.kept.replies.trans ht.replies)
      rw [wp_bind]
      apply wp_bitopCommand hhook hdest (fun dt hm => hcovers.held dt (List.mem_cons_of_mem _ hm)) hbound
      · intro _
        obtain ⟨hrecorded, hfiles⟩ := @written_target _ _ dts _ _ _ ht hs.kept cmd.option (after.longest dts 0)
        rw [wp_bind]
        apply wp_replyResult
        apply wp_releaseAllDescs
        · intro slot
          exact (congrFun (written_pins _) slot).symm ▸ hcovers slot
        · refine ⟨resultText (after.longest dts 0), ?_, fun _ => ⟨?_, ?_, ?_⟩⟩
          · rw [unpinAll_replies]
            exact congrArg (· ++ _) (hreplies _)
          · rw [hlongest]
            rfl
          · rw [unpinAll_recorded]
            exact hrecorded.trans (by rw [hlongest]; rfl)
          · rw [unpinAll_files]
            exact hfiles.trans (by rw [hcontents, hlongest]; rfl)
      · intro _ bytes r hr
        rw [wp_bind]
        apply wp_replyResult
        apply wp_releaseAllDescs
        · intro slot
          exact (congrFun (written_pins _) slot).symm ▸ hcovers slot
        · refine hfailed _ _ ?_ access_failed
          rw [unpinAll_replies, resultText, if_pos hr]
          exact congrArg (· ++ _) (hreplies bytes)
    · intro keys' dts after hs
      rw [wp_bind]
      apply wp_replyStr
      apply wp_releaseAllDescs
      · intro slot
        exact Nat.le_trans (covers_single ht.held slot) (hs.kept.pins slot)
      · refine hfailed _ _ ?_ filesystem_failed
        rw [unpinAll_replies]
        exact congrArg (· ++ _) (hs.kept.replies.trans ht.replies)
  · apply wp_replyStr
    exact hfailed _ _ rfl filesystem_failed

end Outcome

section Runs

variable {clock : Nat → Nat} {disk : Contents} {before : List Bytes} {line : Bytes} {cmd : BitopCmd}
  {keys : List Bytes} {s s' : Server} {reply : Bytes}

-- No source that is open has a stale length.
def Store.ExactOn (st : Store) (keys : List Bytes) : Prop :=
  ∀ key ∈ keys, ∀ length, st.recorded (xxh64 (cstr key) 0) = some length →
    length = st.size (xxh64 (cstr key) 0)

instance (st : Store) (keys : List Bytes) : Decidable (st.ExactOn keys) :=
  decidable_of_iff (∀ key ∈ keys, st.recorded (xxh64 (cstr key) 0) = none ∨
      st.recorded (xxh64 (cstr key) 0) = some (st.size (xxh64 (cstr key) 0))) <| by
    refine forall_congr' fun key => imp_congr_right fun _ => ?_
    cases st.recorded (xxh64 (cstr key) 0) <;> simp

-- A run of the server that ends with a BITOP that stores its result and does
-- not fail: the state and the requests before it, and the state behind it.
structure BitopRun (clock : Nat → Nat) (disk : Contents) (before : List Bytes) (line : Bytes)
    (cmd : BitopCmd) (keys : List Bytes) (s s' : Server) (reply : Bytes) : Prop where
  calm : AllSteps (Server.serve clock) (Calm clock) (Server.start disk) (before ++ [line])
  start : s = run (Server.serve clock) (Server.start disk) before
  served : s' = s.serve clock line
  parsed : request line = .bitop cmd keys
  stored : cmd.hook = .NONE
  exact : s.store.ExactOn keys
  replied : s'.replies = s.replies ++ [reply]
  succeeded : ¬Failed reply

theorem BitopRun.combined
    (h : BitopRun clock disk before line cmd keys s s' reply) :
    ∃ g last, Serves clock g s ∧ Serves clock last s' ∧ Combined g cmd keys last reply := by
  obtain ⟨hbefore, hcalm, _⟩ := (allSteps_append _ _ _ _ _).mp h.calm
  obtain ⟨g, hserves⟩ := serves_run hbefore
  rw [← h.start] at hserves hcalm
  have hexact : g.ExactOn keys := by
    intro key hkey length hlength
    rw [h.exact key hkey length ((hserves.recordedOf _).trans hlength), Store.size, hserves.bitmap]
    rfl
  have hwp : (parseAndExecute line).wp deskContract (fun last _ => ∃ reply,
      last.replies = g.replies ++ [reply] ∧ (¬Failed reply → Combined g cmd keys last reply)) g := by
    rw [parseAndExecute_eq, h.parsed]
    exact wp_bitopExecute hserves.opened h.stored hexact
  obtain ⟨last, ⟨text, htext, hcombined⟩, hafter⟩ := wp_exec
    (fun _ _ action hserves hallowed hgood => hserves.act action hallowed hgood)
    hwp hserves hcalm
  have hserved : Serves clock last s' := by
    rw [h.served]
    exact hafter
  have hreplied := h.replied
  rw [hserved.replies, hserves.replies, htext] at hreplied
  obtain rfl : text = reply := by simpa using hreplied
  exact ⟨g, last, hserves, hserved, hcombined h.succeeded⟩

-- The destination is the result of the operation on the sources as they were,
-- and nothing else.
structure Overwritten (st st' : Store) (cmd : BitopCmd) (keys : List Bytes) : Prop where
  bitmap : st'.bitmap (xxh64 cmd.key 0) =
    some (bitop cmd.option (sourceContents st.bitmap keys) (longestSource st.size keys))
  recorded : st'.recorded (xxh64 cmd.key 0) = some (longestSource st.size keys)

theorem overwrite_bitop {content : Bytes} (option : OpOption) (contents : List Bytes) {n : Nat}
    (h : content.length ≤ n) :
    Padded.overwrite content 0 (bitop option contents n) = bitop option contents n := by
  by_cases hempty : bitop option contents n = []
  · have hn := congrArg List.length hempty
    rw [bitop_length] at hn
    rw [hn] at h
    rw [Padded.overwrite, if_pos hempty, hempty, List.length_eq_zero_iff.mp (Nat.le_zero.mp h)]
  · exact Padded.overwrite_all (by rwa [bitop_length]) hempty

theorem sourceContents_congr {m m' : Contents}
    (h : ∀ key ∈ keys, m (xxh64 (cstr key) 0) = m' (xxh64 (cstr key) 0)) :
    sourceContents m keys = sourceContents m' keys :=
  List.map_congr_left fun key hkey => by rw [h key hkey]

-- A BITOP into a key that is no source replaces the bitmap under that key
-- exactly if it was not longer than the result.
theorem bitop_overwrites_iff
    (h : BitopRun clock disk before line cmd keys s s' reply)
    (hother : ∀ key ∈ keys, xxh64 (cstr key) 0 ≠ xxh64 cmd.key 0) :
    reply = numberText (longestSource s.store.size keys) ∧
      (Overwritten s.store s'.store cmd keys ↔
        s.store.length (xxh64 cmd.key 0) ≤ longestSource s.store.size keys) := by
  obtain ⟨g, last, hserves, hserved, hcombined⟩ := h.combined
  have hbitmap : s.store.bitmap = g.files := funext hserves.bitmap
  have hsize : s.store.size = g.files.length := by
    funext hash
    rw [Store.size, hbitmap, Contents.length]
  have hlength : s.store.length (xxh64 cmd.key 0) = g.lengthAt (xxh64 cmd.key 0) := by
    rw [Store.length, hserves.recordedOf, hsize, Desk.lengthAt]
  have hsources : sourceContents (g.emptied (xxh64 cmd.key 0)) keys = sourceContents g.files keys := by
    refine sourceContents_congr fun key hkey => ?_
    unfold Desk.emptied
    split
    · exact Function.update_of_ne (hother key hkey) _ _
    · rfl
  obtain ⟨hnumber, hrecorded, hfiles⟩ := hcombined
  rw [hsources] at hfiles
  rw [hsize, hlength]
  refine ⟨hnumber, ?_⟩
  constructor
  · rintro ⟨_, hrec⟩
    rw [hserved.recordedOf, hrecorded, hsize] at hrec
    exact max_eq_right_iff.mp (Option.some.inj hrec)
  · intro hle
    constructor
    · rw [hserved.bitmap, hfiles, hbitmap, hsize]
      congr 1
      apply overwrite_bitop
      have hshown := emptied_length_le g (xxh64 cmd.key 0) (xxh64 cmd.key 0)
      refine Nat.le_trans hshown (Nat.le_trans ?_ hle)
      rw [Desk.lengthAt]
      cases hrec : g.recorded (xxh64 cmd.key 0) with
      | none => exact Nat.le_refl _
      | some length => exact hserves.fits hrec
    · rw [hserved.recordedOf, hrecorded, hsize, Nat.max_eq_right hle]

-- A longer result over a shorter bitmap.
theorem bitop_overwrites_shorter :
    let s := run (Server.serve id) (Server.start fun _ => none) [str "SETBIT d 1 1", str "SETBIT a 8 1"]
    let s' := s.serve id (str "BITOP XOR d a")
    Overwritten s.store s'.store { key := str "d", count := 1, hook := .NONE, option := .XOR } [str "a"] := by
  intro s s'
  have hrun : BitopRun id (fun _ => none) [str "SETBIT d 1 1", str "SETBIT a 8 1"] (str "BITOP XOR d a")
      { key := str "d", count := 1, hook := .NONE, option := .XOR } [str "a"] s s' (numberText 2) :=
    ⟨by decide +kernel, rfl, rfl, by decide +kernel, rfl, by decide +kernel, by decide +kernel,
      by decide +kernel⟩
  exact (bitop_overwrites_iff hrun (by decide +kernel)).2.mpr (by decide +kernel)

-- The second byte of the destination survives a result of one byte.
theorem shorter_result_leaves_rest :
    let s := run (Server.serve id) (Server.start fun _ => none) [str "SETBIT d 15 1", str "SETBIT a 0 1"]
    let s' := s.serve id (str "BITOP OR d a")
    let cmd : BitopCmd := { key := str "d", count := 1, hook := .NONE, option := .OR }
    BitopRun id (fun _ => none) [str "SETBIT d 15 1", str "SETBIT a 0 1"] (str "BITOP OR d a") cmd
        [str "a"] s s' (numberText 1) ∧
      (∀ key ∈ [str "a"], xxh64 (cstr key) 0 ≠ xxh64 cmd.key 0) ∧
      s'.store.bitmap (xxh64 cmd.key 0) = some [128, 1] ∧
      ¬Overwritten s.store s'.store cmd [str "a"] := by
  intro s s' cmd
  have hleft : s'.store.bitmap (xxh64 cmd.key 0) = some [128, 1] := by decide +kernel
  refine ⟨?_, by decide +kernel, hleft, ?_⟩
  · exact ⟨by decide +kernel, rfl, rfl, by decide +kernel, rfl, by decide +kernel, by decide +kernel,
      by decide +kernel⟩
  · intro h
    exact absurd (hleft.symm.trans h.bitmap) (by decide +kernel)

end Runs

end Solidbits
