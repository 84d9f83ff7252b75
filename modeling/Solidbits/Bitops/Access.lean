import Solidbits.Bitops.Defs

namespace Solidbits

open Prog

section Access

-- What a command does between prepare_file and release_desc: it works on the
-- descriptors it holds and allocates buffers.
def Accesses (held : Slot → Prop) : Act → Prop
  | .descLength dt => held dt
  | .readFrom dt _ _ => held dt
  | .writeTo dt _ _ => held dt
  | .posixMemalign => True
  | _ => False

variable {held : Slot → Prop} {dt : Slot}

-- The slots of a list of sources that are not missing are held.
def Held (held : Slot → Prop) (dts : List (Option Slot)) : Prop := ∀ dt, some dt ∈ dts → held dt

theorem setbitWrite_accesses (h : held dt) (cmd : SetbitCmd) (byteval : UInt8) :
    (setbitWrite cmd dt byteval).Only (Accesses held) fun _ => True := by
  refine only_ask h fun r => ?_
  split <;> trivial

theorem setbitCommand_accesses (h : held dt) (cmd : SetbitCmd) :
    (setbitCommand cmd dt).Only (Accesses held) fun _ => True := by
  refine only_ask h fun length => ?_
  split
  · refine only_ask h fun dst => ?_
    split
    · trivial
    · exact setbitWrite_accesses h cmd _
  · split
    · trivial
    · exact setbitWrite_accesses h cmd 0

theorem getbitCommand_accesses (h : held dt) (cmd : GetbitCmd) :
    (getbitCommand cmd dt).Only (Accesses held) fun _ => True := by
  refine only_ask h fun length => ?_
  split
  · refine only_ask h fun dst => ?_
    split <;> trivial
  · trivial

theorem bitcountLoop_accesses (h : held dt) (fuel remaining o bits : Nat) :
    (bitcountLoop dt fuel remaining o bits).Only (Accesses held) fun _ => True := by
  induction fuel generalizing remaining o bits with
  | zero => trivial
  | succ fuel ih =>
      unfold bitcountLoop
      split
      · trivial
      · refine only_ask h fun s => ?_
        split
        · trivial
        · exact ih _ _ _

theorem bitcountCommand_accesses (h : held dt) (cmd : BitcountCmd) :
    (bitcountCommand cmd dt).Only (Accesses held) fun _ => True := by
  refine only_ask h fun strlen => ?_
  split
  · trivial
  · simp only
    split
    · trivial
    · refine only_ask trivial fun ok => ?_
      split
      · trivial
      · exact bitcountLoop_accesses h _ _ _ _

theorem Held.tail {first : Option Slot} {dts : List (Option Slot)} (h : Held held (first :: dts)) :
    Held held dts :=
  fun dt hm => h dt (List.mem_cons_of_mem first hm)

theorem Held.snoc {dts : List (Option Slot)} (h : Held held dts) {last : Option Slot}
    (hlast : ∀ dt, last = some dt → held dt) : Held held (dts ++ [last]) := by
  intro dt hm
  rcases List.mem_append.mp hm with hm | hm
  · exact h dt hm
  · exact hlast dt (List.mem_singleton.mp hm).symm

theorem opScan_accesses {dts : List (Option Slot)} (h : Held held dts) (i maxidx maxlen : Nat)
    {sources : List Source} (hs : Held held (sources.map Source.dt)) :
    (opScan dts i maxidx maxlen sources).Only (Accesses held)
      fun result => Held held (result.1.map Source.dt) := by
  induction dts generalizing i maxidx maxlen sources with
  | nil => exact hs
  | cons first dts ih =>
      have hsnoc : ∀ source : Source, source.dt = first →
          Held held ((sources ++ [source]).map Source.dt) := by
        rintro source rfl
        rw [List.map_append]
        exact hs.snoc fun dt he => h dt (he ▸ List.mem_cons_self)
      cases first with
      | none => exact ih h.tail _ _ _ (hsnoc _ rfl)
      | some dt =>
          have hdt : held dt := h dt List.mem_cons_self
          refine only_ask hdt fun _ => only_ask hdt fun _ => only_ask hdt fun _ => ?_
          split
          · refine only_ask hdt fun _ => ih h.tail _ _ _ (hsnoc _ ?_)
            split <;> rfl
          · refine ih h.tail _ _ _ (hsnoc _ ?_)
            split <;> rfl

theorem opMalloc_accesses (count : Nat) : (opMalloc count).Only (Accesses held) fun _ => True := by
  induction count with
  | zero => trivial
  | succ count ih =>
      refine only_ask trivial fun ok => ?_
      split
      · trivial
      · exact ih

-- The reads of a round leave every source with its descriptor.
theorem opRead_accesses (offset : Int) {sources : List Source} (h : Held held (sources.map Source.dt)) :
    (opRead offset sources).Only (Accesses held)
      fun result => result.2.map Source.dt = sources.map Source.dt := by
  induction sources with
  | nil => exact rfl
  | cons source sources ih =>
      have hrest := ih h.tail
      unfold opRead
      split
      · refine only_bind hrest fun result hresult => ?_
        exact congrArg (source.dt :: ·) hresult
      · rename_i dt hdt
        split
        · refine only_bind hrest fun result hresult => ?_
          exact congrArg (source.dt :: ·) hresult
        · have hheld : held dt := h dt (by simp [hdt])
          refine only_ask hheld fun data => only_bind hrest fun result hresult => ?_
          exact congrArg (source.dt :: ·) hresult

theorem opLoop_accesses (cmd : BitopCmd) {dest : Option Slot} (hdest : ∀ dt, dest = some dt → held dt)
    (rmax left : Nat) {sources : List Source} (h : Held held (sources.map Source.dt)) (offset : Int)
    (bits : Nat) :
    (opLoop cmd dest rmax left sources offset bits).Only (Accesses held) fun _ => True := by
  induction left generalizing sources offset bits with
  | zero => trivial
  | succ left ih =>
      refine only_bind (opRead_accesses offset h) fun result hresult => ?_
      have hnext : Held held (result.2.map Source.dt) := by rwa [hresult]
      simp only
      split
      · refine only_ask (hdest _ rfl) fun r => ?_
        split
        · trivial
        · exact ih hnext _ _
      · trivial
      · exact ih hnext _ _
      · exact ih hnext _ _

theorem bitopCommand_accesses (cmd : BitopCmd) {dest : Option Slot} {dts : List (Option Slot)}
    (h : Held held (dest :: dts)) : (bitopCommand cmd dest dts).Only (Accesses held) fun _ => True := by
  have hempty : Held held (([] : List Source).map Source.dt) := fun dt hm => by cases hm
  refine only_bind (opScan_accesses h.tail 0 0 0 hempty) fun result hs => ?_
  obtain ⟨sources, maxidx, maxlen⟩ := result
  simp only
  split
  · trivial
  · refine only_bind (opMalloc_accesses cmd.count) fun ok _ => ?_
    split
    · trivial
    · split
      · trivial
      · exact opLoop_accesses cmd (fun dt he => h dt (he ▸ List.mem_cons_self)) _ _ hs _ _

end Access

end Solidbits
