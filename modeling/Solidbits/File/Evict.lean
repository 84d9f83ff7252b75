import Solidbits.File.Index

namespace Solidbits

open Chain

section Defs

-- The chains of the table: every chain ends, it holds the live descriptors of
-- its bucket, and next and prev of live descriptors undo each other.
structure WellFormed (st : Store) : Prop where
  chains : ∀ bucket, ∃ chain, Path st.nextOf (st.xxtable bucket) chain ∧
    ∀ slot, slot ∈ chain ↔ st.live slot ∧ bucketOf (st.hashOf slot) = bucket
  next_prev : ∀ i j, st.live i → st.nextOf i = some j → st.prevOf j = some i
  prev_next : ∀ i j, st.live j → st.prevOf j = some i → st.live i ∧ st.nextOf i = some j

-- The table without a victim: the others stay in their chains in the same order,
-- and none of them points to the cleared slot.
structure Excised (st st' : Store) (victim : Slot) : Prop where
  wellFormed : WellFormed st'
  live : ∀ slot, st'.live slot ↔ st.live slot ∧ slot ≠ victim
  hash : ∀ slot, slot ≠ victim → st'.hashOf slot = st.hashOf slot
  order : ∀ bucket chain, Path st.nextOf (st.xxtable bucket) chain →
    Path st'.nextOf (st'.xxtable bucket) (chain.erase victim)
  apart : ∀ slot, st'.live slot → st'.nextOf slot ≠ some victim ∧ st'.prevOf slot ≠ some victim

end Defs

section Links

variable {fails : Bool} {st : Store} {victim : Slot}

theorem evict_hashOf (st : Store) (victim : Slot) :
    (evict fails st victim).hashOf = Function.update st.hashOf victim 0 := by
  have hunlink := @parts_unlink _ Desc.hash st (fun _ _ _ => rfl) victim
  rw [evict, hashOf_setDesc]
  exact congrArg (Function.update · victim _) hunlink

theorem evict_live {slot : Slot} : (evict fails st victim).live slot ↔ st.live slot ∧ slot ≠ victim := by
  rw [live_iff_hashOf, live_iff_hashOf, evict_hashOf]
  by_cases h : slot = victim
  · simp [h]
  · simp [h]

theorem evict_nextOf (st : Store) (victim : Slot) :
    (evict fails st victim).nextOf = Function.update (unlink st victim).nextOf victim none :=
  nextOf_setDesc _ _ _

theorem evict_prevOf (st : Store) (victim : Slot) :
    (evict fails st victim).prevOf = Function.update (unlink st victim).prevOf victim none :=
  prevOf_setDesc _ _ _

-- The first element of a chain: its successor becomes the head.
theorem unlink_first (h : st.prevOf victim = none) :
    (unlink st victim).nextOf = st.nextOf ∧
    (unlink st victim).xxtable = Function.update st.xxtable (bucketOf (st.hashOf victim)) (st.nextOf victim) ∧
    ∀ slot, (unlink st victim).prevOf slot = if st.nextOf victim = some slot then none else st.prevOf slot := by
  have hprev : (st.descs victim).prev = none := h
  cases hnext : st.nextOf victim with
  | none =>
      have hnext' : (st.descs victim).next = none := hnext
      simp only [unlink, hprev, hnext']
      exact ⟨rfl, rfl, fun _ => rfl⟩
  | some next =>
      have hnext' : (st.descs victim).next = some next := hnext
      simp only [unlink, hprev, hnext']
      refine ⟨?_, rfl, fun slot => ?_⟩
      · exact (nextOf_setDesc _ _ _).trans (Function.update_eq_self next st.nextOf)
      · refine (congrFun (prevOf_setDesc _ _ _) slot).trans ?_
        by_cases hs : slot = next
        · subst hs
          rw [Function.update_self, if_pos rfl]
        · rw [Function.update_of_ne hs, if_neg (fun he => hs (Option.some.inj he).symm)]
          rfl

-- Any other element: its predecessor is led past it.
theorem unlink_behind {prev : Slot} (h : st.prevOf victim = some prev) :
    (unlink st victim).nextOf = Function.update st.nextOf prev (st.nextOf victim) ∧
    (unlink st victim).xxtable = st.xxtable ∧ (unlink st victim).prevOf = st.prevOf := by
  have hprev : (st.descs victim).prev = some prev := h
  cases hnext : st.nextOf victim with
  | none =>
      have hnext' : (st.descs victim).next = none := hnext
      simp only [unlink, hprev, hnext']
      exact ⟨nextOf_setDesc _ _ _, rfl, (prevOf_setDesc _ _ _).trans (Function.update_eq_self prev st.prevOf)⟩
  | some next =>
      have hnext' : (st.descs victim).next = some next := hnext
      simp only [unlink, hprev, hnext']
      exact ⟨nextOf_setDesc _ _ _, rfl, (prevOf_setDesc _ _ _).trans (Function.update_eq_self prev st.prevOf)⟩

end Links

section Excision

variable {fails : Bool} {st : Store} {victim : Slot} {chain : List Slot} {bucket : Bucket}

theorem WellFormed.mem (h : WellFormed st) (hp : Path st.nextOf (st.xxtable bucket) chain) {slot : Slot} :
    slot ∈ chain ↔ st.live slot ∧ bucketOf (st.hashOf slot) = bucket := by
  obtain ⟨chain', hp', hmem⟩ := h.chains bucket
  rw [hp.unique hp']
  exact hmem slot

theorem WellFormed.mem_own (h : WellFormed st) {slot : Slot} (hlive : st.live slot) :
    ∃ chain, Path st.nextOf (st.xxtable (bucketOf (st.hashOf slot))) chain ∧ slot ∈ chain := by
  obtain ⟨chain, hp, hmem⟩ := h.chains (bucketOf (st.hashOf slot))
  exact ⟨chain, hp, (hmem slot).mpr ⟨hlive, rfl⟩⟩

-- The place of a descriptor in its chain, from its prev.
theorem WellFormed.place_first (h : WellFormed st) (hp : Path st.nextOf (st.xxtable bucket) chain)
    (hm : victim ∈ chain) (hfirst : st.prevOf victim = none) : ∃ after, chain = victim :: after := by
  rcases hp.pred hm with hplace | ⟨before, p, after, rfl, hlink⟩
  · exact hplace
  · have hback := h.next_prev p victim ((h.mem hp).mp (by simp)).1 hlink
    rw [hfirst] at hback
    cases hback

theorem WellFormed.place_behind (h : WellFormed st) (hp : Path st.nextOf (st.xxtable bucket) chain)
    (hm : victim ∈ chain) {prev : Slot} (hprev : st.prevOf victim = some prev) :
    ∃ before after, chain = before ++ prev :: victim :: after := by
  obtain ⟨hlive, hbucket⟩ := (h.mem hp).mp hm
  rcases hp.pred hm with ⟨after, rfl⟩ | ⟨before, p, after, rfl, hlink⟩
  · obtain ⟨hprevLive, hlink⟩ := h.prev_next prev victim hlive hprev
    obtain ⟨chain', hp', hm'⟩ := h.mem_own hprevLive
    have hsame := ((h.mem hp').mp (hp'.next_mem hm' hlink)).2
    rw [← hsame, hbucket] at hp'
    rw [hp'.unique hp] at hm'
    exact absurd hlink (hp.first_apart hm')
  · have hback := h.next_prev p victim ((h.mem hp).mp (by simp)).1 hlink
    obtain rfl := Option.some.inj (hback.symm.trans hprev)
    exact ⟨before, after, rfl⟩

-- The chains of the table without the victim, from the paths of the new links.
theorem WellFormed.excised (h : WellFormed st)
    (horder : ∀ bucket chain, Path st.nextOf (st.xxtable bucket) chain →
      Path (evict fails st victim).nextOf ((evict fails st victim).xxtable bucket) (chain.erase victim))
    (hnext : ∀ i j, i ≠ victim → st.live i → (evict fails st victim).nextOf i = some j →
      j ≠ victim ∧ (evict fails st victim).prevOf j = some i)
    (hprev : ∀ i j, j ≠ victim → st.live j → (evict fails st victim).prevOf j = some i →
      i ≠ victim ∧ st.live i ∧ (evict fails st victim).nextOf i = some j) :
    Excised st (evict fails st victim) victim := by
  have hhash : ∀ slot, slot ≠ victim → (evict fails st victim).hashOf slot = st.hashOf slot := by
    intro slot hs
    rw [evict_hashOf, Function.update_of_ne hs]
  refine ⟨⟨?_, ?_, ?_⟩, fun _ => evict_live, hhash, horder, ?_⟩
  · intro bucket
    obtain ⟨chain, hp, hmem⟩ := h.chains bucket
    refine ⟨chain.erase victim, horder bucket chain hp, fun slot => ?_⟩
    rw [hp.nodup.mem_erase_iff, hmem, evict_live]
    by_cases hs : slot = victim
    · simp [hs]
    · rw [hhash slot hs]
      tauto
  · intro i j hl hn
    obtain ⟨hi, hne⟩ := evict_live.mp hl
    exact (hnext i j hne hi hn).2
  · intro i j hl hp
    obtain ⟨hj, hne⟩ := evict_live.mp hl
    obtain ⟨hiv, hi, hn⟩ := hprev i j hne hj hp
    exact ⟨evict_live.mpr ⟨hi, hiv⟩, hn⟩
  · intro slot hl
    obtain ⟨hs, hne⟩ := evict_live.mp hl
    exact ⟨fun hn => (hnext slot victim hne hs hn).1 rfl, fun hp => (hprev victim slot hne hs hp).1 rfl⟩

theorem WellFormed.excise_first (h : WellFormed st) (hlive : st.live victim) (hfirst : st.prevOf victim = none) :
    Excised st (evict fails st victim) victim := by
  obtain ⟨hnextOf, hxxtable, hprevOf⟩ := unlink_first hfirst
  have hnextOf' : ∀ slot, slot ≠ victim → (evict fails st victim).nextOf slot = st.nextOf slot := by
    intro slot hs
    rw [evict_nextOf, hnextOf, Function.update_of_ne hs]
  have hprevOf' : ∀ slot, slot ≠ victim → (evict fails st victim).prevOf slot =
      if st.nextOf victim = some slot then none else st.prevOf slot := by
    intro slot hs
    rw [evict_prevOf, Function.update_of_ne hs, hprevOf]
  refine h.excised ?_ ?_ ?_
  · intro bucket chain hp
    have hhead : (evict fails st victim).xxtable = _ := hxxtable
    by_cases hm : victim ∈ chain
    · obtain ⟨after, rfl⟩ := h.place_first hp hm hfirst
      rw [List.erase_cons_head, hhead, ((h.mem hp).mp hm).2, Function.update_self]
      refine hp.2.congr fun slot hs => hnextOf' slot ?_
      rintro rfl
      exact (List.nodup_cons.mp hp.nodup).1 hs
    · have hbucket : bucket ≠ bucketOf (st.hashOf victim) := by
        rintro rfl
        exact hm ((h.mem hp).mpr ⟨hlive, rfl⟩)
      rw [List.erase_of_not_mem hm, hhead, Function.update_of_ne hbucket]
      refine hp.congr fun slot hs => hnextOf' slot ?_
      rintro rfl
      exact hm hs
  · intro i j hiv hi hn
    rw [hnextOf' i hiv] at hn
    have hback := h.next_prev i j hi hn
    have hjv : j ≠ victim := by
      rintro rfl
      rw [hfirst] at hback
      cases hback
    refine ⟨hjv, ?_⟩
    rw [hprevOf' j hjv, if_neg, hback]
    intro hvj
    exact hiv (Option.some.inj (hback.symm.trans (h.next_prev victim j hlive hvj)))
  · intro i j hjv hj hp
    rw [hprevOf' j hjv] at hp
    split at hp
    · cases hp
    · rename_i hnot
      obtain ⟨hi, hn⟩ := h.prev_next i j hj hp
      have hiv : i ≠ victim := by
        rintro rfl
        exact hnot hn
      exact ⟨hiv, hi, by rw [hnextOf' i hiv, hn]⟩

theorem WellFormed.excise_last (h : WellFormed st) (hlive : st.live victim) {prev : Slot}
    (hprev : st.prevOf victim = some prev) (hlast : st.nextOf victim = none) :
    Excised st (evict fails st victim) victim := by
  obtain ⟨hnextOf, hxxtable, hprevOf⟩ := unlink_behind hprev
  obtain ⟨hprevLive, hlink⟩ := h.prev_next prev victim hlive hprev
  have hne : prev ≠ victim := by
    rintro rfl
    rw [hlast] at hlink
    cases hlink
  have hend : (evict fails st victim).nextOf prev = none := by
    rw [evict_nextOf, hnextOf, Function.update_of_ne hne, Function.update_self, hlast]
  have hnextOf' : ∀ slot, slot ≠ prev → slot ≠ victim → (evict fails st victim).nextOf slot = st.nextOf slot := by
    intro slot hs hv
    rw [evict_nextOf, hnextOf, Function.update_of_ne hv, Function.update_of_ne hs]
  have hprevOf' : ∀ slot, slot ≠ victim → (evict fails st victim).prevOf slot = st.prevOf slot := by
    intro slot hs
    rw [evict_prevOf, hprevOf, Function.update_of_ne hs]
  refine h.excised ?_ ?_ ?_
  · intro bucket chain hp
    have hhead : (evict fails st victim).xxtable = st.xxtable := hxxtable
    rw [hhead]
    by_cases hm : victim ∈ chain
    · obtain ⟨before, after, rfl⟩ := h.place_behind hp hm hprev
      rw [erase_behind hp.nodup]
      exact hp.remove (hend.trans hlast.symm) hnextOf'
    · rw [List.erase_of_not_mem hm]
      refine hp.congr fun slot hs => hnextOf' slot ?_ ?_
      · rintro rfl
        exact hm (hp.next_mem hs hlink)
      · rintro rfl
        exact hm hs
  · intro i j hiv hi hn
    have hip : i ≠ prev := by
      rintro rfl
      rw [hend] at hn
      cases hn
    rw [hnextOf' i hip hiv] at hn
    have hback := h.next_prev i j hi hn
    have hjv : j ≠ victim := by
      rintro rfl
      rw [hprev] at hback
      exact hip (Option.some.inj hback).symm
    exact ⟨hjv, by rw [hprevOf' j hjv, hback]⟩
  · intro i j hjv hj hp
    rw [hprevOf' j hjv] at hp
    obtain ⟨hi, hn⟩ := h.prev_next i j hj hp
    have hiv : i ≠ victim := by
      rintro rfl
      rw [hlast] at hn
      cases hn
    have hip : i ≠ prev := by
      rintro rfl
      exact hjv (Option.some.inj (hn.symm.trans hlink))
    exact ⟨hiv, hi, by rw [hnextOf' i hip hiv, hn]⟩

-- The successor of a middle element goes on pointing to it.
theorem WellFormed.middle_stays (h : WellFormed st) (hlive : st.live victim) {prev next : Slot}
    (hprev : st.prevOf victim = some prev) (hnext : st.nextOf victim = some next) :
    (evict fails st victim).live next ∧ (evict fails st victim).prevOf next = some victim := by
  obtain ⟨chain, hp, hm⟩ := h.mem_own hlive
  have hnextLive := ((h.mem hp).mp (hp.next_mem hm hnext)).1
  have hne : next ≠ victim := by
    rintro rfl
    obtain ⟨before, after, rfl⟩ := List.append_of_mem hm
    exact hp.suffix.first_apart List.mem_cons_self hnext
  refine ⟨evict_live.mpr ⟨hnextLive, hne⟩, ?_⟩
  rw [evict_prevOf, (unlink_behind hprev).2.2, Function.update_of_ne hne]
  exact h.next_prev victim next hlive hnext

-- Taking a descriptor out of its chain and clearing it leaves a table without
-- it, exactly if it is not a middle element.
theorem excised_iff (h : WellFormed st) (hlive : st.live victim) :
    Excised st (evict fails st victim) victim ↔ st.prevOf victim = none ∨ st.nextOf victim = none := by
  constructor
  · intro he
    cases hprev : st.prevOf victim with
    | none => exact Or.inl rfl
    | some prev =>
        cases hnext : st.nextOf victim with
        | none => exact Or.inr rfl
        | some next =>
            obtain ⟨hnextLive, hback⟩ := h.middle_stays hlive hprev hnext
            exact absurd hback (he.apart next hnextLive).2
  · intro hplace
    cases hprev : st.prevOf victim with
    | none => exact h.excise_first hlive hprev
    | some prev => exact h.excise_last hlive hprev (hplace.resolve_left (by rw [hprev]; exact nofun))

end Excision

section Middle

-- A chain of three descriptors, of the hashes 1, 65538 and 131075.
def chainOfThree : Store :=
  { descs := fun slot =>
      if slot = 0 then { hash := 1, next := some 1 }
      else if slot = 1 then { hash := 65538, next := some 2, prev := some 0 }
      else if slot = 2 then { hash := 131075, prev := some 1 }
      else {}
    xxtable := fun bucket => if bucket = 1 then some 0 else none
    fs := { disk := fun _ => none } }

theorem chainOfThree_cases (slot : Slot) :
    slot = 0 ∨ slot = 1 ∨ slot = 2 ∨ slot ∉ [(0 : Slot), 1, 2] ∧ chainOfThree.descs slot = {} := by
  by_cases h0 : slot = 0
  · exact Or.inl h0
  · by_cases h1 : slot = 1
    · exact Or.inr (Or.inl h1)
    · by_cases h2 : slot = 2
      · exact Or.inr (Or.inr (Or.inl h2))
      · refine Or.inr (Or.inr (Or.inr ⟨by simp [h0, h1, h2], ?_⟩))
        simp only [chainOfThree, h0, h1, h2, ite_false]

theorem chainOfThree_wellFormed : WellFormed chainOfThree := by
  have hfiled0 : chainOfThree.live 0 ∧ bucketOf (chainOfThree.hashOf 0) = 1 :=
    ⟨by decide, (by decide : bucketOf 1 = 1)⟩
  have hfiled1 : chainOfThree.live 1 ∧ bucketOf (chainOfThree.hashOf 1) = 1 :=
    ⟨by decide, (by decide : bucketOf 65538 = 1)⟩
  have hfiled2 : chainOfThree.live 2 ∧ bucketOf (chainOfThree.hashOf 2) = 1 :=
    ⟨by decide, (by decide : bucketOf 131075 = 1)⟩
  have hfree : ∀ slot, chainOfThree.descs slot = {} → ¬chainOfThree.live slot :=
    fun slot hs hl => hl (congrArg Desc.hash hs)
  have hlast : chainOfThree.nextOf 2 = none := by decide
  constructor
  · intro bucket
    by_cases hb : bucket = 1
    · subst hb
      refine ⟨[0, 1, 2], ⟨by decide, by decide, by decide, hlast⟩, fun slot => ?_⟩
      rcases chainOfThree_cases slot with rfl | rfl | rfl | ⟨hm, hs⟩
      · exact iff_of_true (by simp) hfiled0
      · exact iff_of_true (by simp) hfiled1
      · exact iff_of_true (by simp) hfiled2
      · exact iff_of_false hm fun h => hfree slot hs h.1
    · refine ⟨[], if_neg hb, fun slot => iff_of_false List.not_mem_nil fun h => ?_⟩
      rcases chainOfThree_cases slot with rfl | rfl | rfl | ⟨_, hs⟩
      · exact hb (h.2.symm.trans hfiled0.2)
      · exact hb (h.2.symm.trans hfiled1.2)
      · exact hb (h.2.symm.trans hfiled2.2)
      · exact hfree slot hs h.1
  · intro i j hl hn
    rcases chainOfThree_cases i with rfl | rfl | rfl | ⟨_, hs⟩
    · obtain rfl : (1 : Slot) = j := Option.some.inj hn
      decide
    · obtain rfl : (2 : Slot) = j := Option.some.inj hn
      decide
    · cases hn
    · exact absurd hl (hfree i hs)
  · intro i j hl hp
    rcases chainOfThree_cases j with rfl | rfl | rfl | ⟨_, hs⟩
    · cases hp
    · obtain rfl : (0 : Slot) = i := Option.some.inj hp
      decide
    · obtain rfl : (1 : Slot) = i := Option.some.inj hp
      decide
    · exact absurd hl (hfree j hs)

-- The last element can be taken out,
theorem excised_last_of_three : Excised chainOfThree (evict false chainOfThree 2) 2 :=
  (excised_iff chainOfThree_wellFormed (by decide)).mpr (Or.inr (by decide))

-- but after the middle one the last still points to the cleared slot.
theorem middle_of_three_stays : WellFormed chainOfThree ∧ chainOfThree.live 1 ∧ (chainOfThree.descs 1).refs = 0 ∧
    ¬Excised chainOfThree (evict false chainOfThree 1) 1 := by
  refine ⟨chainOfThree_wellFormed, by decide, by decide, fun h => ?_⟩
  obtain ⟨hlive, hback⟩ := @WellFormed.middle_stays false _ 1 chainOfThree_wellFormed (by decide) 0 2 (by decide) (by decide)
  exact (h.apart 2 hlive).2 hback

end Middle

end Solidbits
