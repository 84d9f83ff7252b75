import Solidbits.File.Lemmas
import Solidbits.Lib.Chain
import Solidbits.Lib.Run

namespace Solidbits

open Chain Transition

section Walks

variable {st : Store} {hash : UInt64} {chain : List Slot}

theorem walk_path {first : Slot} {rest : List Slot} {fuel depth : Nat}
    (hp : Path st.nextOf (some first) (first :: rest)) (hf : rest.length < fuel) :
    walk st.descs hash fuel first depth =
      match (first :: rest).find? (fun slot => st.hashOf slot = hash) with
      | some slot => .found slot
      | none => .absent (first :: rest).getLast? (depth + rest.length) := by
  induction rest generalizing first fuel depth with
  | nil =>
      obtain ⟨fuel, rfl⟩ := Nat.exists_eq_succ_of_ne_zero (Nat.ne_of_gt hf)
      have hn : (st.descs first).next = none := hp.2
      simp only [walk, hn, Store.hashOf, List.find?_cons, List.find?_nil]
      by_cases hh : (st.descs first).hash = hash <;> simp [hh]
  | cons next rest ih =>
      obtain ⟨fuel, rfl⟩ := Nat.exists_eq_succ_of_ne_zero (Nat.ne_of_gt (Nat.zero_lt_of_lt hf))
      have hn : (st.descs first).next = some next := hp.2.1
      have hrest := @ih next fuel (depth + 1) ⟨rfl, hp.2.2⟩
        (by simp only [List.length_cons] at hf; omega)
      simp only [walk, hn, hrest]
      by_cases hh : (st.descs first).hash = hash
      · simp [Store.hashOf, hh]
      · have harith : depth + 1 + rest.length = depth + (rest.length + 1) := by omega
        simp [Store.hashOf, hh, List.find?_cons, harith]

-- The chain of the bucket decides what prepare_file finds.
theorem lookup_path (hp : Path st.nextOf (st.xxtable (bucketOf hash)) chain) :
    lookup st hash =
      match chain.find? (fun slot => st.hashOf slot = hash) with
      | some slot => .found slot
      | none => .absent chain.getLast? (chain.length - 1) := by
  unfold lookup
  cases chain with
  | nil =>
      have hn : st.xxtable (bucketOf hash) = none := hp
      simp [hn]
  | cons first rest =>
      have hlen := hp.length_le
      rw [Fintype.card_fin] at hlen
      have hshort : rest.length < DESC_TABLE_SIZE := by
        simp only [List.length_cons] at hlen
        omega
      have hw := @walk_path st hash first rest DESC_TABLE_SIZE 0 ⟨rfl, hp.2⟩ hshort
      simp only [hp.1, hw, Nat.zero_add, List.length_cons, Nat.add_sub_cancel]

end Walks

section Calls

structure Call where
  choice : Choice
  hash : UInt64
  mode : Nat

def Store.prepare (st : Store) (call : Call) : Store :=
  (prepareHashed call.choice call.hash call.mode st).2

def Store.scanned (st : Store) (choice : Choice) : Scan :=
  scan st.descs (DESC_TABLE_SIZE - st.idx) st.idx choice.scanUs none

def Store.misses (st : Store) (hash : UInt64) : Prop := ∀ slot, lookup st hash ≠ .found slot

def NeedsEviction (st : Store) (call : Call) : Prop :=
  st.misses call.hash ∧ ∃ victim, st.scanned call.choice = .full (some victim)

-- Whether open_file succeeds on a free slot.
def canOpen (choice : Choice) (hash : UInt64) (mode : Nat) (fs : Fs) : Bool :=
  !choice.pathFails &&
    match fs.disk hash with
    | some _ => 2 < mode || !choice.fopenFails
    | none => mode ≠ 1 && !choice.fopenFails

-- The call creates a descriptor, in this slot.
structure Creates (st : Store) (call : Call) (new : Slot) : Prop where
  miss : st.misses call.hash
  free : st.scanned call.choice = .free new
  opens : canOpen call.choice call.hash call.mode st.fs = true

theorem scanned_cursor {st : Store} {choice : Choice} (h : ¬st.live st.idx) :
    st.scanned choice = .free st.idx := by
  have hfree : (st.descs st.idx).hash = 0 := not_not.mp h
  have hlt : (st.idx : Nat) < DESC_TABLE_SIZE := st.idx.isLt
  obtain ⟨fuel, hf⟩ := Nat.exists_eq_succ_of_ne_zero (Nat.sub_ne_zero_of_lt hlt)
  simp only [Store.scanned, hf, Nat.succ_eq_add_one, scan, hlt, dite_true, Fin.eta, hfree, ite_true]

theorem Creates.spare {st : Store} {call : Call} {new : Slot} (h : Creates st call new) :
    ¬st.live new :=
  not_not.mpr (scan_free h.free).1

theorem setFd_sameLinks (st : Store) (fd : FilePtr) (fs : Fs) : SameLinks st (st.setFd fd fs) := by
  have h : SameLinks st { st with fs := fs } := ⟨rfl, rfl, rfl, rfl⟩
  exact h.trans (SameLinks.setDesc rfl rfl rfl)

theorem setLength_sameLinks (st : Store) (length : Nat) : SameLinks st (st.setLength length) :=
  SameLinks.setDesc rfl rfl rfl

-- open_file on a free slot succeeds as canOpen says and moves no link.
theorem openPath_links (choice : Choice) (hash : UInt64) (mode : Nat) (st : Store) :
    SameLinks st (openPath choice hash mode st).2 ∧
      (openPath choice hash mode st).2.idx = st.idx ∧
      if canOpen choice hash mode st.fs then (openPath choice hash mode st).1 = .ok st.idx
      else ∃ error, (openPath choice hash mode st).1 = .error error := by
  have hopened : ∀ fd length fs, SameLinks st ((st.setFd fd fs).setLength length) :=
    fun fd length fs => (setFd_sameLinks st fd fs).trans (setLength_sameLinks _ length)
  unfold openPath canOpen
  cases choice.pathFails with
  | true => exact ⟨SameLinks.refl st, rfl, ⟨_, rfl⟩⟩
  | false =>
      cases hdisk : st.fs.disk hash with
      | some content =>
          by_cases hread : mode < 2
          · have hthird : ¬2 < mode := by omega
            cases choice.fopenFails
            · simp [hread, hthird, hopened]
            · simp [hread, hthird, setFd_sameLinks]
          · by_cases hwrite : mode = 2
            · cases choice.fopenFails
              · simp [hwrite, hopened]
              · simp [hwrite, setFd_sameLinks]
            · have hthird : 2 < mode := by omega
              simp [hread, hwrite, hthird, setLength_sameLinks]
      | none =>
          by_cases hmissing : mode = 1
          · simp [hmissing, SameLinks.refl]
          · cases choice.fopenFails
            · simp [hmissing, hopened]
            · simp [hmissing, setFd_sameLinks]

theorem misses_of_absent {st : Store} {hash : UInt64} {last : Option Slot} {depth : Nat}
    (h : lookup st hash = .absent last depth) : st.misses hash := by
  intro slot hf
  rw [h] at hf
  cases hf

-- What a call without an eviction does to the links: nothing, with the cursor
-- where it was or behind it, or it links the descriptor it creates.
theorem prepare_cases {st : Store} {call : Call} (hroom : ¬NeedsEviction st call) :
    ((∀ new, ¬Creates st call new) ∧ SameLinks st (st.prepare call) ∧
      ((st.prepare call).idx = st.idx ∨ st.scanned call.choice = .free (st.prepare call).idx ∨
        st.scanned call.choice = .full none)) ∨
    ∃ new base last depth, Creates st call new ∧ lookup st call.hash = .absent last depth ∧
      SameLinks st base ∧ base.idx = new ∧
      st.prepare call = link (base.setDesc new (stamp call.choice call.hash (base.descs new)))
        (bucketOf call.hash) last depth new := by
  unfold Store.prepare prepareHashed
  cases hl : lookup st call.hash with
  | found slot =>
      refine Or.inl ⟨?_, SameLinks.setDesc rfl rfl rfl, Or.inl rfl⟩
      intro new hc
      exact hc.miss slot hl
  | absent last depth =>
      have hmiss := misses_of_absent hl
      rcases getAvalibleSlot_cases call.choice st with ⟨new, hs, hg⟩ | ⟨hs, hg⟩ | ⟨victim, hs, hg⟩
      · have hlinks := openPath_links call.choice call.hash call.mode { st with idx := new }
        have hmoved : SameLinks st { st with idx := new } := ⟨rfl, rfl, rfl, rfl⟩
        obtain ⟨hsame, hidx, hresult⟩ := hlinks
        simp only [openFile, hg]
        cases ho : openPath call.choice call.hash call.mode { st with idx := new } with
        | mk result base =>
            rw [ho] at hsame hidx hresult
            cases hopens : canOpen call.choice call.hash call.mode st.fs with
            | true =>
                rw [if_pos hopens] at hresult
                cases hresult
                exact Or.inr ⟨new, base, last, depth, ⟨hmiss, hs, hopens⟩, rfl, hmoved.trans hsame, hidx, rfl⟩
            | false =>
                rw [if_neg (by simp [hopens])] at hresult
                obtain ⟨error, hresult⟩ := hresult
                cases hresult
                refine Or.inl ⟨?_, hmoved.trans hsame, Or.inr (Or.inl ?_)⟩
                · intro other hc
                  rw [hc.opens] at hopens
                  cases hopens
                · show st.scanned call.choice = .free base.idx
                  rw [hidx]
                  exact hs
      · simp only [openFile, hg]
        refine Or.inl ⟨?_, ⟨rfl, rfl, rfl, rfl⟩, Or.inr (Or.inr hs)⟩
        intro new hc
        cases hs.symm.trans hc.free
      · exact absurd ⟨hmiss, victim, hs⟩ hroom

end Calls

section Invariant

-- XXTABLE as an index of the live descriptors.
structure Indexed (st : Store) : Prop where
  acyclic : ∀ bucket, ∃ chain, Path st.nextOf (st.xxtable bucket) chain
  inverse : ∀ i j, st.nextOf i = some j ↔ st.prevOf j = some i
  filed : ∀ slot, st.live slot →
    ∃ chain, Path st.nextOf (st.xxtable (bucketOf (st.hashOf slot))) chain ∧ slot ∈ chain
  distinct : ∀ i j, st.live i → st.live j → st.hashOf i = st.hashOf j → i = j

-- Free descriptors as calloc and bzero leave them.
def FreeUnlinked (st : Store) : Prop :=
  ∀ slot, ¬st.live slot → st.nextOf slot = none ∧ st.prevOf slot = none

-- What is kept of that: a descriptor created for hash 0 stays free, with a prev,
-- but the cursor stands on it.
structure Spare (st : Store) : Prop where
  next : ∀ slot, ¬st.live slot → st.nextOf slot = none
  prev : ∀ slot, ¬st.live slot → slot ≠ st.idx → st.prevOf slot = none

-- The links that a created descriptor needs: a chain of one element must hold
-- no descriptor of the bucket, and a longer chain takes a descriptor without prev.
def Linkable (st : Store) (call : Call) : Prop :=
  ∀ new, Creates st call new →
    ∀ chain, Path st.nextOf (st.xxtable (bucketOf call.hash)) chain →
      (∀ only, chain = [only] → st.live only → bucketOf (st.hashOf only) ≠ bucketOf call.hash) ∧
      (2 ≤ chain.length → st.prevOf new = none)

variable {st st' : Store}

theorem live_iff_hashOf {slot : Slot} : st.live slot ↔ st.hashOf slot ≠ 0 := Iff.rfl

theorem SameLinks.live (h : SameLinks st st') {slot : Slot} : st'.live slot ↔ st.live slot := by
  rw [live_iff_hashOf, live_iff_hashOf, h.hash]

theorem Indexed.congr (h : SameLinks st st') (hi : Indexed st) : Indexed st' := by
  constructor
  · rw [h.next, h.head]
    exact hi.acyclic
  · rw [h.next, h.prev]
    exact hi.inverse
  · intro slot hl
    rw [h.next, h.head, h.hash]
    exact hi.filed slot (h.live.mp hl)
  · intro i j hli hlj
    rw [h.hash]
    exact hi.distinct i j (h.live.mp hli) (h.live.mp hlj)

-- The cursor leaves a free descriptor only by filling it.
theorem Spare.congr {choice : Choice} (h : SameLinks st st') (hs : Spare st)
    (hidx : st'.idx = st.idx ∨ st.scanned choice = .free st'.idx ∨ st.scanned choice = .full none) :
    Spare st' := by
  constructor
  · intro slot hl
    rw [h.next]
    exact hs.next slot (mt h.live.mpr hl)
  · intro slot hl hne
    rw [h.prev]
    have hfree : ¬st.live slot := mt h.live.mpr hl
    apply hs.prev slot hfree
    rintro rfl
    have hcursor : st.scanned choice = .free st.idx := scanned_cursor hfree
    rcases hidx with hidx | hidx | hidx
    · exact hne hidx.symm
    · rw [hcursor] at hidx
      exact hne (Scan.free.inj hidx)
    · rw [hcursor] at hidx
      cases hidx

-- A live descriptor is found by its hash.
theorem Indexed.lookup_live (hi : Indexed st) {slot : Slot} (hl : st.live slot) :
    lookup st (st.hashOf slot) = .found slot := by
  obtain ⟨chain, hp, hm⟩ := hi.filed slot hl
  rw [lookup_path hp]
  cases hf : chain.find? (fun other => st.hashOf other = st.hashOf slot) with
  | none => exact absurd (List.find?_eq_none.mp hf slot hm) (by simp)
  | some other =>
      have he : st.hashOf other = st.hashOf slot := by simpa using List.find?_some hf
      have hlo : st.live other := by rwa [live_iff_hashOf, he]
      rw [hi.distinct other slot hlo hl he]

-- On a miss no live descriptor has the hash, and the walk ends at the last
-- element of the chain.
theorem Indexed.absent (hi : Indexed st) {hash : UInt64} (hm : st.misses hash) (slot : Slot)
    (hl : st.live slot) : st.hashOf slot ≠ hash := by
  rintro rfl
  exact hm slot (hi.lookup_live hl)

theorem absent_path {hash : UInt64} {chain : List Slot} {last : Option Slot} {depth : Nat}
    (hp : Path st.nextOf (st.xxtable (bucketOf hash)) chain) (h : lookup st hash = .absent last depth) :
    last = chain.getLast? ∧ depth = chain.length - 1 := by
  rw [lookup_path hp] at h
  split at h
  · cases h
  · cases h
    exact ⟨rfl, rfl⟩

end Invariant

section Linking

variable {st st' : Store} {call : Call} {new last : Slot} {chain : List Slot}

-- The links after a descriptor became the head of its bucket, or its last
-- element.
structure LinkedHead (st st' : Store) (call : Call) (new : Slot) : Prop where
  hash : st'.hashOf = Function.update st.hashOf new call.hash
  next : st'.nextOf = st.nextOf
  prev : st'.prevOf = st.prevOf
  head : st'.xxtable = Function.update st.xxtable (bucketOf call.hash) (some new)
  cursor : st'.idx = new

structure LinkedLast (st st' : Store) (call : Call) (new last : Slot) : Prop where
  hash : st'.hashOf = Function.update st.hashOf new call.hash
  next : st'.nextOf = Function.update st.nextOf last (some new)
  prev : st'.prevOf = Function.update st.prevOf new (some last)
  head : st'.xxtable = st.xxtable
  cursor : st'.idx = new

variable (call) in
theorem link_head {base : Store} (h : SameLinks st base) (hidx : base.idx = new) :
    LinkedHead st ((base.setDesc new (stamp call.choice call.hash (base.descs new))).setHead
      (bucketOf call.hash) (some new)) call new := by
  constructor
  · show (base.setDesc new _).hashOf = _
    rw [hashOf_setDesc, h.hash]
    rfl
  · show (base.setDesc new _).nextOf = _
    rw [nextOf_setDesc, ← h.next]
    exact Function.update_eq_self new base.nextOf
  · show (base.setDesc new _).prevOf = _
    rw [prevOf_setDesc, ← h.prev]
    exact Function.update_eq_self new base.prevOf
  · show Function.update base.xxtable _ _ = _
    rw [h.head]
  · exact hidx

theorem link_last {base : Store} {depth : Nat} (h : SameLinks st base) (hidx : base.idx = new)
    (hd : depth ≠ 0) :
    LinkedLast st (link (base.setDesc new (stamp call.choice call.hash (base.descs new)))
      (bucketOf call.hash) (some last) depth new) call new last := by
  have hstamped := link_head call h hidx
  have hx : (base.setDesc new (stamp call.choice call.hash (base.descs new))).xxtable = st.xxtable := h.head
  have hcursor : (base.setDesc new (stamp call.choice call.hash (base.descs new))).idx = new := hidx
  simp only [link, hd, ite_false]
  generalize base.setDesc new (stamp call.choice call.hash (base.descs new)) = stamped at hstamped hx hcursor
  have hh : stamped.hashOf = Function.update st.hashOf new call.hash := hstamped.hash
  have hn : stamped.nextOf = st.nextOf := hstamped.next
  have hp : stamped.prevOf = st.prevOf := hstamped.prev
  constructor
  · rw [hashOf_setDesc, ← hh]
    have hsame : (stamped.setDesc last { stamped.descs last with next := some new }).hashOf = stamped.hashOf := by
      rw [hashOf_setDesc]
      exact Function.update_eq_self last stamped.hashOf
    rw [← hsame]
    exact Function.update_eq_self new _
  · rw [← hn, ← nextOf_setDesc stamped last { stamped.descs last with next := some new }, nextOf_setDesc]
    exact Function.update_eq_self new _
  · rw [prevOf_setDesc, prevOf_setDesc, ← hp]
    congr 1
    exact Function.update_eq_self last stamped.prevOf
  · exact hx
  · exact hcursor

theorem prepare_links (hroom : ¬NeedsEviction st call) (hi : Indexed st) :
    ((∀ new, ¬Creates st call new) ∧ SameLinks st (st.prepare call) ∧
      ((st.prepare call).idx = st.idx ∨ st.scanned call.choice = .free (st.prepare call).idx ∨
        st.scanned call.choice = .full none)) ∨
    ∃ new chain, Creates st call new ∧ Path st.nextOf (st.xxtable (bucketOf call.hash)) chain ∧
      (chain.length ≤ 1 ∧ LinkedHead st (st.prepare call) call new ∨
        ∃ last, 2 ≤ chain.length ∧ chain.getLast? = some last ∧
          LinkedLast st (st.prepare call) call new last) := by
  rcases prepare_cases hroom with h | ⟨new, base, last, depth, hc, hl, hsame, hidx, hprepare⟩
  · exact Or.inl h
  · obtain ⟨chain, hp⟩ := hi.acyclic (bucketOf call.hash)
    obtain ⟨hlast, hdepth⟩ := absent_path hp hl
    refine Or.inr ⟨new, chain, hc, hp, ?_⟩
    rw [hprepare]
    by_cases hshort : chain.length ≤ 1
    · have hzero : depth = 0 := by omega
      simp only [link, hzero, ite_true]
      exact Or.inl ⟨hshort, link_head call hsame hidx⟩
    · have hne : chain ≠ [] := by
        rintro rfl
        simp at hshort
      have hget := List.getLast?_eq_some_getLast hne
      rw [hlast, hget]
      exact Or.inr ⟨chain.getLast hne, by omega, rfl, link_last hsame hidx (by omega)⟩

theorem Creates.unlinked (hc : Creates st call new) (hs : Spare st) : st.nextOf new = none :=
  hs.next new hc.spare

-- The other live descriptors keep their hashes, and none has the new one.
theorem hashOf_new (hh : st'.hashOf = Function.update st.hashOf new call.hash) :
    st'.hashOf new = call.hash := by
  rw [hh, Function.update_self]

theorem hashOf_other {slot : Slot} (hh : st'.hashOf = Function.update st.hashOf new call.hash)
    (hne : slot ≠ new) : st'.hashOf slot = st.hashOf slot := by
  rw [hh, Function.update_of_ne hne]

theorem live_other {slot : Slot} (hh : st'.hashOf = Function.update st.hashOf new call.hash)
    (hne : slot ≠ new) : st'.live slot ↔ st.live slot := by
  rw [live_iff_hashOf, live_iff_hashOf, hashOf_other hh hne]

theorem distinct_new (hi : Indexed st) (hc : Creates st call new)
    (hh : st'.hashOf = Function.update st.hashOf new call.hash) (i j : Slot)
    (hli : st'.live i) (hlj : st'.live j) (he : st'.hashOf i = st'.hashOf j) : i = j := by
  by_cases hin : i = new
  · by_cases hjn : j = new
    · rw [hin, hjn]
    · rw [hin, hashOf_new hh, hashOf_other hh hjn] at he
      exact absurd he.symm (hi.absent hc.miss j ((live_other hh hjn).mp hlj))
  · by_cases hjn : j = new
    · rw [hjn, hashOf_new hh, hashOf_other hh hin] at he
      exact absurd he (hi.absent hc.miss i ((live_other hh hin).mp hli))
    · rw [hashOf_other hh hin, hashOf_other hh hjn] at he
      exact hi.distinct i j ((live_other hh hin).mp hli) ((live_other hh hjn).mp hlj) he

theorem LinkedHead.indexed (hi : Indexed st) (hs : Spare st) (hc : Creates st call new)
    (hp : Path st.nextOf (st.xxtable (bucketOf call.hash)) chain) (hshort : chain.length ≤ 1)
    (halone : ∀ only, chain = [only] → st.live only → bucketOf (st.hashOf only) ≠ bucketOf call.hash)
    (h : LinkedHead st st' call new) : Indexed st' := by
  have hself : Path st.nextOf (some new) [new] := ⟨rfl, hc.unlinked hs⟩
  constructor
  · intro bucket
    rw [h.next, h.head]
    by_cases hb : bucket = bucketOf call.hash
    · subst hb
      rw [Function.update_self]
      exact ⟨[new], hself⟩
    · rw [Function.update_of_ne hb]
      exact hi.acyclic bucket
  · rw [h.next, h.prev]
    exact hi.inverse
  · intro slot hl
    rw [h.next, h.head]
    by_cases hn : slot = new
    · rw [hn, hashOf_new h.hash, Function.update_self]
      exact ⟨[new], hself, List.mem_singleton_self new⟩
    · rw [hashOf_other h.hash hn]
      have hlive := (live_other h.hash hn).mp hl
      obtain ⟨filed, hfiled, hm⟩ := hi.filed slot hlive
      by_cases hb : bucketOf (st.hashOf slot) = bucketOf call.hash
      · rw [hb] at hfiled
        rw [hfiled.unique hp] at hm
        have honly : chain = [slot] := by
          cases chain with
          | nil => cases hm
          | cons first rest =>
              have hrest : rest = [] := by
                rw [← List.length_eq_zero_iff]
                simp only [List.length_cons] at hshort
                omega
              rw [hrest, List.mem_singleton] at hm
              rw [hrest, hm]
        exact absurd hb (halone slot honly hlive)
      · rw [Function.update_of_ne hb]
        exact ⟨filed, hfiled, hm⟩
  · exact distinct_new hi hc h.hash

-- The last element of a longer chain has a prev, so it is not the descriptor
-- that is linked behind it.
theorem last_ne_new (hi : Indexed st) (hp : Path st.nextOf (st.xxtable (bucketOf call.hash)) chain)
    (hlong : 2 ≤ chain.length) (hlast : chain.getLast? = some last) (hnew : st.prevOf new = none) :
    last ≠ new := by
  rintro rfl
  obtain ⟨before, hbefore⟩ := hp.pred_last hlast hlong
  have hprev := (hi.inverse before last).mp hbefore
  rw [hnew] at hprev
  cases hprev

theorem LinkedLast.indexed (hi : Indexed st) (hs : Spare st) (hc : Creates st call new)
    (hp : Path st.nextOf (st.xxtable (bucketOf call.hash)) chain) (hlast : chain.getLast? = some last)
    (hne : last ≠ new) (hnew : st.prevOf new = none) (h : LinkedLast st st' call new last) :
    Indexed st' := by
  have hend : st.nextOf last = none := hp.getLast_none hlast
  have hlinked : st'.nextOf last = some new := by rw [h.next, Function.update_self]
  have hsame : ∀ slot, slot ≠ last → st'.nextOf slot = st.nextOf slot := by
    intro slot hslot
    rw [h.next, Function.update_of_ne hslot]
  -- Every chain that ended at the last element goes on to the new one.
  have hextend : ∀ first old, Path st.nextOf first old → ∃ longer, Path st'.nextOf first longer ∧
      (∀ slot ∈ old, slot ∈ longer) ∧ (last ∈ old → new ∈ longer) := by
    intro first old hold
    by_cases hm : last ∈ old
    · refine ⟨old ++ [new], hold.snoc hm hend hne (hc.unlinked hs) hlinked hsame, ?_, ?_⟩
      · exact fun slot hslot => List.mem_append_left _ hslot
      · exact fun _ => List.mem_append_right _ (List.mem_singleton_self new)
    · refine ⟨old, hold.congr ?_, fun _ hslot => hslot, fun hin => absurd hin hm⟩
      rintro slot hslot
      apply hsame
      rintro rfl
      exact hm hslot
  constructor
  · intro bucket
    obtain ⟨old, hold⟩ := hi.acyclic bucket
    obtain ⟨longer, hlonger, _⟩ := hextend _ old hold
    rw [h.head]
    exact ⟨longer, hlonger⟩
  · intro i j
    rw [h.next, h.prev]
    by_cases hil : i = last
    · rw [hil, Function.update_self]
      by_cases hjn : j = new
      · simp [hjn]
      · have hn : ¬st.prevOf j = some last := by
          rw [← hi.inverse, hend]
          exact nofun
        simp [hjn, Ne.symm hjn, hn]
    · rw [Function.update_of_ne hil]
      by_cases hjn : j = new
      · have hn : ¬st.nextOf i = some new := by
          rw [hi.inverse, hnew]
          exact nofun
        simp [hjn, hn, Ne.symm hil]
      · rw [Function.update_of_ne hjn]
        exact hi.inverse i j
  · intro slot hl
    rw [h.head]
    by_cases hn : slot = new
    · rw [hn, hashOf_new h.hash]
      obtain ⟨longer, hlonger, _, hnewmem⟩ := hextend _ chain hp
      exact ⟨longer, hlonger, hnewmem (List.mem_of_getLast? hlast)⟩
    · rw [hashOf_other h.hash hn]
      obtain ⟨old, hold, hm⟩ := hi.filed slot ((live_other h.hash hn).mp hl)
      obtain ⟨longer, hlonger, hmem, _⟩ := hextend _ old hold
      exact ⟨longer, hlonger, hmem slot hm⟩
  · exact distinct_new hi hc h.hash

-- A descriptor that stays free was not under the cursor, or the call would
-- have filled it.
theorem Creates.prev_none {slot : Slot} (hs : Spare st) (hc : Creates st call new)
    (hfree : ¬st.live slot) (hne : slot ≠ new) : st.prevOf slot = none := by
  apply hs.prev slot hfree
  rintro rfl
  exact hne (Scan.free.inj ((scanned_cursor hfree).symm.trans hc.free))

theorem LinkedHead.spare (hs : Spare st) (hc : Creates st call new) (h : LinkedHead st st' call new) :
    Spare st' := by
  constructor
  · intro slot hl
    rw [h.next]
    by_cases hn : slot = new
    · rw [hn]
      exact hc.unlinked hs
    · exact hs.next slot (mt (live_other h.hash hn).mpr hl)
  · intro slot hl hne
    rw [h.cursor] at hne
    rw [h.prev]
    exact hc.prev_none hs (mt (live_other h.hash hne).mpr hl) hne

theorem LinkedLast.spare (hi : Indexed st) (hs : Spare st) (hc : Creates st call new)
    (hp : Path st.nextOf (st.xxtable (bucketOf call.hash)) chain) (hlong : 2 ≤ chain.length)
    (hlast : chain.getLast? = some last) (hne : last ≠ new) (h : LinkedLast st st' call new last) :
    Spare st' := by
  constructor
  · intro slot hl
    rw [h.next]
    by_cases hn : slot = new
    · rw [hn, Function.update_of_ne (Ne.symm hne)]
      exact hc.unlinked hs
    · have hfree := mt (live_other h.hash hn).mpr hl
      have hslot : slot ≠ last := by
        rintro rfl
        obtain ⟨before, hbefore⟩ := hp.pred_last hlast hlong
        have hprev := (hi.inverse before slot).mp hbefore
        rw [hc.prev_none hs hfree hn] at hprev
        cases hprev
      rw [Function.update_of_ne hslot]
      exact hs.next slot hfree
  · intro slot hl hcursor
    rw [h.cursor] at hcursor
    rw [h.prev, Function.update_of_ne hcursor]
    exact hc.prev_none hs (mt (live_other h.hash hcursor).mpr hl) hcursor

end Linking

section Runs

variable {st : Store} {call : Call}

theorem indexed_step (hi : Indexed st ∧ Spare st) (hroom : ¬NeedsEviction st call)
    (hgood : Linkable st call) : Indexed (st.prepare call) ∧ Spare (st.prepare call) := by
  obtain ⟨hi, hs⟩ := hi
  rcases prepare_links hroom hi with ⟨_, hsame, hidx⟩ | ⟨new, chain, hc, hp, h⟩
  · exact ⟨hi.congr hsame, hs.congr hsame hidx⟩
  · obtain ⟨halone, hunlinked⟩ := hgood new hc chain hp
    rcases h with ⟨hshort, h⟩ | ⟨last, hlong, hlast, h⟩
    · exact ⟨h.indexed hi hs hc hp hshort halone, h.spare hs hc⟩
    · have hnew := hunlinked hlong
      have hne := last_ne_new hi hp hlong hlast hnew
      exact ⟨h.indexed hi hs hc hp hlast hne hnew, h.spare hi hs hc hp hlong hlast hne⟩

-- A link that is not good loses the only descriptor of the bucket, or takes the
-- new one away from its predecessor.
theorem indexed_break (hi : Indexed st ∧ Spare st) (hroom : ¬NeedsEviction st call)
    (hbad : ¬Linkable st call) : ¬Indexed (st.prepare call) := by
  obtain ⟨hi, hs⟩ := hi
  intro hnext
  rcases prepare_links hroom hi with ⟨hnone, _⟩ | ⟨new, chain, hc, hp, h⟩
  · exact hbad fun new hc => absurd hc (hnone new)
  · apply hbad
    intro other ho chain' hp'
    rw [Scan.free.inj (ho.free.symm.trans hc.free), hp'.unique hp]
    rcases h with ⟨hshort, h⟩ | ⟨last, hlong, hlast, h⟩
    · refine ⟨?_, by omega⟩
      rintro only rfl hlive hb
      have hn : only ≠ new := by
        rintro rfl
        exact hc.spare hlive
      obtain ⟨filed, hfiled, hm⟩ := hnext.filed only ((live_other h.hash hn).mpr hlive)
      rw [hashOf_other h.hash hn, hb, h.head, h.next, Function.update_self] at hfiled
      have hself : Path st.nextOf (some new) [new] := ⟨rfl, hc.unlinked hs⟩
      rw [hfiled.unique hself, List.mem_singleton] at hm
      exact hn hm
    · refine ⟨?_, ?_⟩
      · rintro only rfl
        simp at hlong
      · intro _
        cases hprev : st.prevOf new with
        | none => rfl
        | some before =>
            have hlink := (hi.inverse before new).mpr hprev
            have hbefore : before ≠ last := by
              rintro rfl
              rw [hp.getLast_none hlast] at hlink
              cases hlink
            have hstill : (st.prepare call).nextOf before = some new := by
              rw [h.next, Function.update_of_ne hbefore, hlink]
            rw [hnext.inverse, h.prev, Function.update_self] at hstill
            exact absurd (Option.some.inj hstill).symm hbefore

theorem Indexed.hashOf_found (hi : Indexed st) {hash : UInt64} {slot : Slot}
    (h : lookup st hash = .found slot) : st.hashOf slot = hash := by
  obtain ⟨chain, hp⟩ := hi.acyclic (bucketOf hash)
  rw [lookup_path hp] at h
  split at h
  · rename_i hf
    cases h
    simpa using List.find?_some hf
  · cases h

-- What a lookup found before the call, it finds after the call.
def KeepsFound (st : Store) (call : Call) : Prop :=
  ∀ hash slot, hash ≠ 0 → lookup st hash = .found slot → lookup (st.prepare call) hash = .found slot

theorem keepsFound_step (hi : Indexed st ∧ Spare st) (hroom : ¬NeedsEviction st call)
    (hgood : Linkable st call) : KeepsFound st call := by
  intro hash slot hne hfound
  have hslot := hi.1.hashOf_found hfound
  have hlive : st.live slot := by rwa [live_iff_hashOf, hslot]
  have hkept : (st.prepare call).hashOf slot = hash := by
    rcases prepare_links hroom hi.1 with ⟨_, hsame, _⟩ | ⟨new, _, hc, _, h⟩
    · rw [hsame.hash, hslot]
    · have hn : slot ≠ new := by
        rintro rfl
        exact hc.spare hlive
      rcases h with ⟨_, h⟩ | ⟨_, _, _, h⟩
      · rw [hashOf_other h.hash hn, hslot]
      · rw [hashOf_other h.hash hn, hslot]
  rw [← hkept]
  apply (indexed_step hi hroom hgood).1.lookup_live
  rwa [live_iff_hashOf, hkept]

theorem indexed_initFile (disk : UInt64 → Option Bytes) : Indexed (initFile disk) := by
  constructor
  · exact fun _ => ⟨[], rfl⟩
  · exact fun _ _ => ⟨nofun, nofun⟩
  · exact fun _ hl => absurd rfl hl
  · exact fun _ _ hl _ _ => absurd rfl hl

theorem freeUnlinked_initFile (disk : UInt64 → Option Bytes) : FreeUnlinked (initFile disk) :=
  fun _ _ => ⟨rfl, rfl⟩

theorem linkable_of_empty (h : st.xxtable (bucketOf call.hash) = none) : Linkable st call := by
  intro new _ chain hp
  have hnil : chain = [] := hp.unique (show Path st.nextOf _ [] from h)
  rw [hnil]
  exact ⟨nofun, nofun⟩

-- XXTABLE stays an index, and no descriptor gets lost, in every run without an
-- eviction whose new descriptors can all be linked, and in no other.
theorem index_kept_iff (calls : List Call) (hi : Indexed st) (hfree : FreeUnlinked st)
    (hroom : AllSteps Store.prepare (fun st call => ¬NeedsEviction st call) st calls) :
    AllStates Store.prepare Indexed st calls ∧ AllSteps Store.prepare KeepsFound st calls ↔
      AllSteps Store.prepare Linkable st calls := by
  have hstart : Indexed st ∧ Spare st :=
    ⟨hi, fun slot hl => (hfree slot hl).1, fun slot hl _ => (hfree slot hl).2⟩
  have hindexed : AllStates Store.prepare Indexed st calls ↔ AllSteps Store.prepare Linkable st calls :=
    allStates_iff_allSteps Store.prepare (fun st => Indexed st ∧ Spare st) (fun _ h => h.1)
    (fun _ _ => indexed_step) (fun _ _ => indexed_break) hstart hroom
  constructor
  · exact fun h => hindexed.mp h.1
  · intro h
    refine ⟨hindexed.mpr h, ?_⟩
    exact allSteps_of_invariant Store.prepare (fun st => Indexed st ∧ Spare st)
      (fun _ _ hi hgood => indexed_step hi hgood.1 hgood.2)
      (fun _ _ hi hgood => keepsFound_step hi hgood.1 hgood.2) hstart (hroom.and Store.prepare h)

-- Two keys of different buckets.
theorem index_kept_two_buckets :
    AllStates Store.prepare Indexed (initFile fun _ => none) [⟨{}, 1, 0⟩, ⟨{}, 2, 0⟩] := by
  have hroom : AllSteps Store.prepare (fun st call => ¬NeedsEviction st call) (initFile fun _ => none)
      [⟨{}, 1, 0⟩, ⟨{}, 2, 0⟩] := ⟨nofun, nofun, trivial⟩
  have hlinkable : AllSteps Store.prepare Linkable (initFile fun _ => none)
      [⟨{}, 1, 0⟩, ⟨{}, 2, 0⟩] := ⟨linkable_of_empty rfl, linkable_of_empty rfl, trivial⟩
  exact ((index_kept_iff _ (indexed_initFile _) (freeUnlinked_initFile _) hroom).mpr hlinkable).1

-- Two keys of one bucket: the second takes the place of the first, which is
-- live but not found any more.
theorem shared_bucket_loses_first :
    Indexed (initFile fun _ => none) ∧ FreeUnlinked (initFile fun _ => none) ∧
    AllSteps Store.prepare (fun st call => ¬NeedsEviction st call) (initFile fun _ => none)
      [⟨{}, 1, 0⟩, ⟨{}, 65538, 0⟩] ∧
    ¬AllStates Store.prepare Indexed (initFile fun _ => none) [⟨{}, 1, 0⟩, ⟨{}, 65538, 0⟩] := by
  refine ⟨indexed_initFile _, freeUnlinked_initFile _, ⟨nofun, nofun, trivial⟩, ?_⟩
  intro h
  have hlive : (run Store.prepare (initFile fun _ => none) [⟨{}, 1, 0⟩, ⟨{}, 65538, 0⟩]).live 0 := by decide
  cases (AllStates.last Store.prepare h).lookup_live hlive

end Runs

end Solidbits
