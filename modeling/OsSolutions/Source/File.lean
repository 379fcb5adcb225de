import OsSolutions.Source.Log
import OsSolutions.Source.Pipe
import OsSolutions.Source.Proc

/-! # Open files (`file.c` and the descriptors of `sysfile.c`)

`Page` are the addresses that `kalloc` gives out. The inode and the offset of a file are left
out, and whether `writei` fails there is an input. `none` stands for a panic. -/

namespace OsSolutions

abbrev NOFILE : ℕ := 16

abbrev NFILE : ℕ := 100

inductive FileType
  | none
  | pipe
  | inode
  deriving DecidableEq

/-- `struct file` -/
structure File (Page : Type) where
  type : FileType
  ref : ℕ
  readable : Bool
  writable : Bool
  pipe : Option Page

abbrev FTable (Page : Type) := Fin NFILE → File Page

/-- `ofile` of every process. -/
abbrev OFile := Fin NPROC → Fin NOFILE → Option (Fin NFILE)

/-- `fileread` and `filewrite` up to the call of what does the work. -/
inductive Target (Page : Type)
  | denied
  | pipe (p : Page)
  | inode

namespace File

variable {Page : Type}

def zero : File Page := ⟨.none, 0, false, false, none⟩

/-- The rest of `fileread` and `filewrite` after the flag of the file has been looked at. -/
def dispatch (f : File Page) (allowed : Bool) : Option (Target Page) :=
  if allowed then
    match f.type, f.pipe with
    | .pipe, some p => some (.pipe p)
    | .inode, _ => some .inode
    | _, _ => none
  else some .denied

def fileread (f : File Page) : Option (Target Page) := f.dispatch f.readable

def filewrite (f : File Page) : Option (Target Page) := f.dispatch f.writable

/-- The most that `filewrite` writes to an inode at a time. -/
def maxWrite : ℕ := (LOGSIZE - 1 - 1 - 2) / 2 * 512

/-- `pipealloc` makes a file one end of a pipe. -/
def asPipe (f : File Page) (p : Page) (writable : Bool) : File Page :=
  { f with type := .pipe, readable := !writable, writable := writable, pipe := some p }

/-- The end of `sys_open`. `O_WRONLY` is 1 and `O_RDWR` is 2. -/
def asInode (f : File Page) (omode : UInt32) : File Page :=
  { f with
    type := .inode
    readable := omode &&& 1 = 0
    writable := omode &&& 1 ≠ 0 ∨ omode &&& 2 ≠ 0 }

end File

/-- `writei` fails, or it takes all of the bytes. -/
def writei (fails : Bool) (n : ℕ) : ℤ := if fails then -1 else n

namespace FTable

variable {Page : Type}

/-- Write to one file. -/
def modify (t : FTable Page) (f : Fin NFILE) (g : File Page → File Page) : FTable Page :=
  Function.update t f (g (t f))

/-- The first file without references gets one. -/
def filealloc (t : FTable Page) : Option (FTable Page × Fin NFILE) :=
  ((List.finRange NFILE).find? fun f => (t f).ref = 0).map fun f =>
    (t.modify f fun x => { x with ref := 1 }, f)

def filedup (t : FTable Page) (f : Fin NFILE) : Option (FTable Page) :=
  if (t f).ref < 1 then none
  else some (t.modify f fun x => { x with ref := x.ref + 1 })

/-- The critical section of `fileclose`, and the file as copied if that was its last
reference. -/
def fileclose (t : FTable Page) (f : Fin NFILE) : Option (FTable Page × Option (File Page)) :=
  if (t f).ref < 1 then none
  else if (t f).ref - 1 > 0 then
    some (t.modify f fun x => { x with ref := x.ref - 1 }, none)
  else
    some (t.modify f fun x => { x with ref := 0, type := .none },
      some { t f with ref := (t f).ref - 1 })

end FTable

namespace OFile

def set (o : OFile) (p : Fin NPROC) (fd : Fin NOFILE) (v : Option (Fin NFILE)) : OFile :=
  Function.update o p (Function.update (o p) fd v)

/-- The first free descriptor of the process. -/
def fdalloc (o : OFile) (p : Fin NPROC) (f : Fin NFILE) : Option (OFile × Fin NOFILE) :=
  ((List.finRange NOFILE).find? fun fd => o p fd = none).map fun fd => (o.set p fd (some f), fd)

end OFile

end OsSolutions
