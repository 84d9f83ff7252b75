import Solidbits.Lib.Prog
import Solidbits.File.Defs

namespace Solidbits

-- What a worker does to the shared state, one critical section or one unlocked
-- read of dt->length at a time. The reply goes to the request's own buffer.
inductive Act where
  | prepareFile (key : Bytes) (mode : Nat)
  | releaseDesc (dt : Slot)
  | descLength (dt : Slot)
  | readFrom (dt : Slot) (size : Nat) (offset : Int)
  | writeTo (dt : Slot) (buf : Bytes) (offset : Int)
  | posixMemalign
  | reply (s : Bytes) (len : Nat)

abbrev Res : Act → Type
  | .prepareFile _ _ => Except OpenError Slot
  | .releaseDesc _ => Unit
  | .descLength _ => Nat
  | .readFrom _ _ _ => Received
  | .writeTo _ _ _ => Nat
  | .posixMemalign => Bool
  | .reply _ _ => Bool

abbrev Cmd := Prog Act Res

namespace Cmd

abbrev prepareFile (key : Bytes) (mode : Nat) : Cmd (Except OpenError Slot) :=
  Prog.ask (Act.prepareFile key mode)

abbrev releaseDesc (dt : Slot) : Cmd Unit := Prog.ask (Act.releaseDesc dt)

abbrev descLength (dt : Slot) : Cmd Nat := Prog.ask (Act.descLength dt)

abbrev readFrom (dt : Slot) (size : Nat) (offset : Int) : Cmd Received :=
  Prog.ask (Act.readFrom dt size offset)

abbrev writeTo (dt : Slot) (buf : Bytes) (offset : Int) : Cmd Nat :=
  Prog.ask (Act.writeTo dt buf offset)

abbrev posixMemalign : Cmd Bool := Prog.ask Act.posixMemalign

abbrev reply (s : Bytes) (len : Nat) : Cmd Bool := Prog.ask (Act.reply s len)

end Cmd

section Exec

-- posix_memalign, and the realloc behind reply, answer whether they succeed.
def execAct (choice : Choice) : (action : Act) → Store → Res action × Store
  | .prepareFile key mode, st => prepareFile choice key mode st
  | .releaseDesc dt, st => ((), releaseDesc dt st)
  | .descLength dt, st => ((st.descs dt).length, st)
  | .readFrom dt size offset, st => readFrom choice dt size offset st
  | .writeTo dt buf offset, st => writeTo choice dt buf offset st
  | .posixMemalign, st => (!choice.memoryFails, st)
  | .reply _ _, st => (!choice.memoryFails, st)

end Exec

end Solidbits
