import Solidbits.Lib.Bytes
import Solidbits.Xxhash
import Mathlib.Logic.Function.Basic

namespace Solidbits

-- The buffer of a FILE object (st_blksize).
def BLOCK_SIZE : Nat := 4096

-- A FILE object opened for reading and writing. What stays in its buffer is
-- private to it, in order, until the next seek, flush or close.
structure File where
  path : UInt64
  pos : Nat := 0
  pending : List (Nat × Bytes) := []
  err : Bool := false
  deriving DecidableEq

-- FILE *, with none for NULL.
abbrev FilePtr := Option Nat

-- The data directory and the FILE objects of the process. A file is named by
-- the hash its path spells. A closed FILE object is none.
structure Fs where
  disk : UInt64 → Option Bytes
  files : Nat → Option File := fun _ => none
  nextFile : Nat := 0

section Stdio

def File.applied (file : File) (content : Bytes) : Bytes :=
  file.pending.foldl (fun content write => Padded.overwrite content write.1 write.2) content

def Fs.content (fs : Fs) (path : UInt64) : Bytes := (fs.disk path).getD []

def Fs.file (fs : Fs) (fp : FilePtr) : Option File := fp.bind fs.files

def Fs.setFile (fs : Fs) (fp : FilePtr) (file : Option File) : Fs :=
  match fp with
  | none => fs
  | some n => { fs with files := Function.update fs.files n file }

-- fopen(path, "r+") on a path that exists.
def Fs.fopenRead (fs : Fs) (path : UInt64) : FilePtr × Fs :=
  (some fs.nextFile,
    { fs with
      files := Function.update fs.files fs.nextFile (some { path := path })
      nextFile := fs.nextFile + 1 })

-- fopen(path, "w+") creates the file or truncates it.
def Fs.fopenWrite (fs : Fs) (path : UInt64) : FilePtr × Fs :=
  (some fs.nextFile,
    { disk := Function.update fs.disk path (some [])
      files := Function.update fs.files fs.nextFile (some { path := path })
      nextFile := fs.nextFile + 1 })

-- A write to the kernel that fails loses what was pending and leaves the error
-- indicator behind.
def File.lost (file : File) : File :=
  { file with pending := [], err := file.err || !file.pending.isEmpty }

def Fs.fflush (fs : Fs) (fails : Bool) (fp : FilePtr) : Fs :=
  match fs.file fp with
  | none => fs
  | some file =>
      if fails then fs.setFile fp (some file.lost)
      else
        { fs with disk := Function.update fs.disk file.path (some (file.applied (fs.content file.path))) }.setFile
          fp (some { file with pending := [] })

-- A NULL or closed FILE * is undefined behaviour in C; here every call on it
-- fails and changes nothing.
-- fseek(fp, offset, SEEK_SET); true when it fails. What is pending is flushed
-- first, and it is that flush that may fail.
def Fs.fseek (fs : Fs) (fails : Bool) (fp : FilePtr) (offset : Int) : Bool × Fs :=
  match fs.file fp with
  | none => (true, fs)
  | some _ =>
      if fails then (true, fs.fflush true fp)
      else if offset < 0 then (true, fs.fflush false fp)
      else
        match (fs.fflush false fp).file fp with
        | none => (true, fs)
        | some file => (false, (fs.fflush false fp).setFile fp (some { file with pos := offset.toNat }))

-- A read that fails has brought some bytes before that.
def Fs.fread (fs : Fs) (fails : Bool) (got : Nat) (fp : FilePtr) (size : Nat) : Bytes × Fs :=
  match (fs.fflush false fp).file fp with
  | none => ([], fs)
  | some file =>
      let data := Padded.slice ((fs.fflush false fp).content file.path) file.pos
        (if fails then min got size else size)
      (data, (fs.fflush false fp).setFile fp
        (some { file with pos := file.pos + data.length, err := file.err || fails }))

def Fs.buffer (fs : Fs) (fp : FilePtr) (bytes : Bytes) : Fs :=
  match fs.file fp with
  | none => fs
  | some file =>
      if bytes = [] then fs
      else fs.setFile fp (some
        { file with pos := file.pos + bytes.length, pending := file.pending ++ [(file.pos, bytes)] })

-- Bytes that do not wait in the buffer.
def Fs.pass (fs : Fs) (fp : FilePtr) (bytes : Bytes) : Fs :=
  if bytes = [] then fs else (fs.buffer fp bytes).fflush false fp

def Fs.setErr (fs : Fs) (fp : FilePtr) : Fs :=
  match fs.file fp with
  | none => fs
  | some file => fs.setFile fp (some { file with err := true })

-- Whole blocks are passed on at once and only the rest is buffered. A write that
-- fails has passed some bytes on before that.
def Fs.fwrite (fs : Fs) (fails : Bool) (got : Nat) (fp : FilePtr) (buf : Bytes) : Nat × Fs :=
  match fs.file fp with
  | none => (0, fs)
  | some _ =>
      let blocks := buf.length - buf.length % BLOCK_SIZE
      let direct := if fails then min got blocks else blocks
      let fs := fs.pass fp (buf.take direct)
      if fails then (direct, fs.setErr fp) else (buf.length, fs.buffer fp (buf.drop direct))

def Fs.ferror (fs : Fs) (fp : FilePtr) : Bool :=
  match fs.file fp with
  | none => true
  | some file => file.err

def Fs.ftell (fs : Fs) (fp : FilePtr) : Nat :=
  match fs.file fp with
  | none => 0
  | some file => file.pos

def Fs.fclose (fs : Fs) (fp : FilePtr) : Fs := (fs.fflush false fp).setFile fp none

end Stdio

end Solidbits
