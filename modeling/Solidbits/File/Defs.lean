import Solidbits.Stdio
import Mathlib.Data.Fin.Basic

namespace Solidbits

def FILE_SIZE_LIMIT : Nat := 2147483647
def FILE_BUFFER_SIZE : Nat := 1146880
def DESC_TABLE_SIZE : Nat := 8192
def DESC_HARD_LIMIT : Bool := false
def DESC_HASH_TABLE_SIZE : Nat := 65537

-- A pointer to an element of descs, and a bucket of XXTABLE.
abbrev Slot := Fin DESC_TABLE_SIZE
abbrev Bucket := Fin DESC_HASH_TABLE_SIZE

instance : NeZero DESC_TABLE_SIZE := ⟨by decide⟩
instance : NeZero DESC_HASH_TABLE_SIZE := ⟨by decide⟩

-- struct desc_table; the default is the zeroed entry. The mutex is left out:
-- what it guards is one action of the model.
structure Desc where
  hash : UInt64 := 0
  fd : FilePtr := none
  length : Nat := 0
  lastAccess : Nat := 0
  accessTimes : Nat := 0
  createdAt : Nat := 0
  refs : Int := 0
  next : Option Slot := none
  prev : Option Slot := none

structure Store where
  descs : Slot → Desc := fun _ => {}
  xxtable : Bucket → Option Slot := fun _ => none
  idx : Slot := 0
  fs : Fs

-- init_file: a zeroed table over the files of the data directory.
def initFile (disk : UInt64 → Option Bytes) : Store := { fs := { disk := disk } }

-- What the surroundings decide for one action: the clock readings, which of its
-- system calls fail (seekFails and flushFails are the flush in fseek and that in
-- close_file), and how many bytes a failing read or write has moved before.
structure Choice where
  scanUs : Nat := 0
  stampUs : Nat := 0
  pathFails : Bool := false
  fopenFails : Bool := false
  seekFails : Bool := false
  flushFails : Bool := false
  ioFails : Bool := false
  ioBytes : Nat := 0
  memoryFails : Bool := false

section Table

def bucketOf (hash : UInt64) : Bucket := Fin.ofNat DESC_HASH_TABLE_SIZE hash.toNat

def Store.live (st : Store) (slot : Slot) : Prop := (st.descs slot).hash ≠ 0

instance (st : Store) (slot : Slot) : Decidable (st.live slot) :=
  inferInstanceAs (Decidable (_ ≠ _))

def Store.setDesc (st : Store) (slot : Slot) (desc : Desc) : Store :=
  { st with descs := Function.update st.descs slot desc }

def Store.setHead (st : Store) (bucket : Bucket) (head : Option Slot) : Store :=
  { st with xxtable := Function.update st.xxtable bucket head }

-- What the scan of get_avalible_slot finds: a free slot, or the end of the
-- table with the least recently used unpinned descriptor it has seen.
inductive Scan where
  | free (slot : Slot)
  | full (lowest : Option Slot)

def scan (descs : Slot → Desc) : Nat → Nat → Nat → Option Slot → Scan
  | 0, _, _, lowest => .full lowest
  | fuel + 1, i, tmp, lowest =>
      if h : i < DESC_TABLE_SIZE then
        let desc := descs ⟨i, h⟩
        if desc.hash = 0 then .free ⟨i, h⟩
        else if desc.refs = 0 ∧ desc.lastAccess < tmp then
          scan descs fuel (i + 1) desc.lastAccess (some ⟨i, h⟩)
        else scan descs fuel (i + 1) tmp lowest
      else .full lowest

-- No result is looked at, not even that of the flush.
def closeFile (fails : Bool) (fs : Fs) (desc : Desc) : Fs := (fs.fflush fails desc.fd).fclose desc.fd

-- Taking a descriptor out of the chain of its bucket. A middle element leaves
-- the prev of its successor as it was.
def unlink (st : Store) (lowest : Slot) : Store :=
  let desc := st.descs lowest
  let id := bucketOf desc.hash
  match desc.prev, desc.next with
  | none, none => st.setHead id none
  | none, some next =>
      (st.setHead id (some next)).setDesc next { st.descs next with prev := none }
  | some prev, none => st.setDesc prev { st.descs prev with next := none }
  | some prev, some next => st.setDesc prev { st.descs prev with next := some next }

def evict (fails : Bool) (st : Store) (lowest : Slot) : Store :=
  let st := unlink st lowest
  { st with fs := closeFile fails st.fs (st.descs lowest) }.setDesc lowest {}

def getAvalibleSlot (choice : Choice) (st : Store) : Option Slot × Store :=
  match scan st.descs (DESC_TABLE_SIZE - st.idx) st.idx choice.scanUs none with
  | .free slot => (some slot, { st with idx := slot })
  | .full lowest =>
      let st := { st with idx := 0 }
      if DESC_HARD_LIMIT then (none, st)
      else
        match lowest with
        | none => (none, st)
        | some lowest => (some lowest, evict choice.flushFails st lowest)

def closeLive (fails : Slot → Bool) (st : Store) (fs : Fs) (slot : Slot) : Fs :=
  if (st.descs slot).hash ≠ 0 then closeFile (fails slot) fs (st.descs slot) else fs

-- The flush of any descriptor may fail.
def closeFiles (fails : Slot → Bool) (st : Store) : Store :=
  { st with fs := (List.finRange DESC_TABLE_SIZE).foldl (closeLive fails st) st.fs }

-- The return codes -2 and -1.
inductive OpenError where
  | missing
  | failed
  deriving DecidableEq

-- The descriptor that open_file fills is descs[idx], whatever slot
-- get_avalible_slot returned.
def Store.setFd (st : Store) (fd : FilePtr) (fs : Fs) : Store :=
  { st with fs := fs }.setDesc st.idx { st.descs st.idx with fd := fd }

def Store.setLength (st : Store) (length : Nat) : Store :=
  st.setDesc st.idx { st.descs st.idx with length := length }

-- open_file once there is a slot.
def openPath (choice : Choice) (hash : UInt64) (mode : Nat) (st : Store) :
    Except OpenError Slot × Store :=
  if choice.pathFails then (.error .failed, st)
  else
    match st.fs.disk hash with
    | some content =>
        if mode < 2 then
          if choice.fopenFails then (.error .failed, st.setFd none st.fs)
          else
            let (fd, fs) := st.fs.fopenRead hash
            (.ok st.idx, (st.setFd fd fs).setLength content.length)
        else if mode = 2 then
          if choice.fopenFails then (.error .failed, st.setFd none st.fs)
          else
            let (fd, fs) := st.fs.fopenWrite hash
            (.ok st.idx, (st.setFd fd fs).setLength content.length)
        else (.ok st.idx, st.setLength content.length)
    | none =>
        if mode = 1 then (.error .missing, st)
        else if choice.fopenFails then (.error .failed, st.setFd none st.fs)
        else
          let (fd, fs) := st.fs.fopenWrite hash
          (.ok st.idx, (st.setFd fd fs).setLength 0)

def openFile (choice : Choice) (hash : UInt64) (mode : Nat) (st : Store) :
    Except OpenError Slot × Store :=
  match getAvalibleSlot choice st with
  | (none, st) => (.error .failed, st)
  | (some _, st) => openPath choice hash mode st

-- The walk along a chain: the descriptor of the hash, or the last element and
-- its depth. The fuel exceeds the length of every acyclic chain.
inductive Lookup where
  | found (slot : Slot)
  | absent (last : Option Slot) (depth : Nat)
  deriving DecidableEq

def walk (descs : Slot → Desc) (hash : UInt64) : Nat → Slot → Nat → Lookup
  | 0, tmp, depth => .absent (some tmp) depth
  | fuel + 1, tmp, depth =>
      if (descs tmp).hash = hash then .found tmp
      else
        match (descs tmp).next with
        | some next => walk descs hash fuel next (depth + 1)
        | none => .absent (some tmp) depth

def lookup (st : Store) (hash : UInt64) : Lookup :=
  match st.xxtable (bucketOf hash) with
  | none => .absent none 0
  | some tmp => walk st.descs hash DESC_TABLE_SIZE tmp 0

def touch (choice : Choice) (desc : Desc) : Desc :=
  { desc with
    refs := desc.refs + 1
    accessTimes := desc.accessTimes + 1
    lastAccess := choice.stampUs }

def stamp (choice : Choice) (hash : UInt64) (desc : Desc) : Desc :=
  { desc with
    hash := hash
    createdAt := choice.stampUs
    lastAccess := choice.stampUs
    accessTimes := 1
    refs := 1 }

-- Linking a new descriptor: behind the last element of the walk when the walk
-- took a step, else as the head of the bucket.
def link (st : Store) (bucket : Bucket) (last : Option Slot) (depth : Nat) (new : Slot) : Store :=
  if depth = 0 then st.setHead bucket (some new)
  else
    match last with
    | none => st
    | some tmp =>
        let st := st.setDesc tmp { st.descs tmp with next := some new }
        st.setDesc new { st.descs new with prev := some tmp }

-- prepare_file once the key is hashed.
def prepareHashed (choice : Choice) (hash : UInt64) (mode : Nat) (st : Store) :
    Except OpenError Slot × Store :=
  match lookup st hash with
  | .found slot => (.ok slot, st.setDesc slot (touch choice (st.descs slot)))
  | .absent last depth =>
      match openFile choice hash mode st with
      | (.error error, st) => (.error error, st)
      | (.ok new, st) =>
          let st := st.setDesc new (stamp choice hash (st.descs new))
          (.ok new, link st (bucketOf hash) last depth new)

def prepareFile (choice : Choice) (key : Bytes) (mode : Nat) (st : Store) :
    Except OpenError Slot × Store :=
  prepareHashed choice (xxh64 key 0) mode st

def releaseDesc (slot : Slot) (st : Store) : Store :=
  st.setDesc slot { st.descs slot with refs := (st.descs slot).refs - 1 }

end Table

section Access

def writeTo (choice : Choice) (slot : Slot) (buf : Bytes) (offset : Int) (st : Store) : Nat × Store :=
  let fd := (st.descs slot).fd
  match st.fs.fseek choice.seekFails fd offset with
  | (true, fs) => (0, { st with fs := fs })
  | (false, fs) =>
      let (r, fs) := fs.fwrite choice.ioFails choice.ioBytes fd buf
      if fs.ferror fd then (0, { st with fs := fs })
      else if (st.descs slot).length < fs.ftell fd then
        (r, { st with fs := fs }.setDesc slot { st.descs slot with length := fs.ftell fd })
      else (r, { st with fs := fs })

-- What read_from returns, and what it leaves in the buffer of its caller.
structure Received where
  r : Nat
  buf : Bytes
  deriving DecidableEq

def Received.all (buf : Bytes) : Received := ⟨buf.length, buf⟩

@[simp] theorem all_r (buf : Bytes) : (Received.all buf).r = buf.length := rfl

@[simp] theorem all_buf (buf : Bytes) : (Received.all buf).buf = buf := rfl

-- The result of the seek is not looked at. With the error indicator set the
-- bytes are in the buffer, but 0 is returned.
def readFrom (choice : Choice) (slot : Slot) (size : Nat) (offset : Int) (st : Store) : Received × Store :=
  let fd := (st.descs slot).fd
  let (_, fs) := st.fs.fseek choice.seekFails fd offset
  let (buf, fs) := fs.fread choice.ioFails choice.ioBytes fd size
  if fs.ferror fd then (⟨0, buf⟩, { st with fs := fs })
  else (Received.all buf, { st with fs := fs })

end Access

end Solidbits
