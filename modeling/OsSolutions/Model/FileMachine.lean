import OsSolutions.Source.File
import OsSolutions.Model.PipeMachine

/-! # Descriptors, files and pipes of all processes

One step is one critical section of `ftable.lock`, of a pipe's lock or of `ptable.lock`, together
with what the process does next to it in its own memory and its own `ofile`, or one pass of the
loop of `filewrite` over an inode. `exit` clears a descriptor in a step of its own, behind the
sections of `fileclose` and `pipeclose`. The contents of inodes and the semaphores are left
out. -/

namespace OsSolutions.Files

variable {Page : Type}

/-- Where a process is inside of a call: in `piperead` or `pipewrite`; in `filewrite` with `n`
bytes for an inode to go; in `pipealloc` with one or two files; behind `end_op` in `sys_open`;
closing files, possibly with a `pipeclose` to do first; in `fork`, before and in the loop over
`ofile`; in the loop of `exit`, before `ofile[fd]` and behind the first section of `fileclose` for
it. -/
inductive Pc (Page : Type)
  | user
  | inPipe (f : Fin NFILE) (pg : Page) (c : Pipes.Pc)
  | inInode (f : Fin NFILE) (n : ℕ)
  | pipealloc (f0 : Fin NFILE) (f1 : Option (Fin NFILE))
  | opened (f : Fin NFILE) (omode : UInt32)
  | closing (pend : Option (Page × Bool)) (f0 f1 : Option (Fin NFILE))
  | allocated (np : Fin NPROC)
  | forking (np : Fin NPROC) (i : ℕ)
  | exiting (fd : ℕ)
  | exitClosing (fd : Fin NOFILE) (pend : Option (Page × Bool))
  deriving DecidableEq

/-- `pages` are the pages in use as pipes. `fault` is set by a panic and by a use of a page that
is not in use. The last two fields are bookkeeping: the bytes that went into the pipe in a page
since that pipe was made, and those that came out. -/
structure State (Page : Type) where
  kernel : Kernel
  ofile : OFile
  ftable : FTable Page
  pages : Page → Option Pipe
  pc : Fin NPROC → Pc Page
  fault : Bool
  bytesIn : Page → List UInt8
  bytesOut : Page → List UInt8

/-- `run` goes on inside of a call, except for `writei`, `kalloc` and `copyuvm`, which have an
outcome: whether it fails, a page with what was in it, and whether there was memory. -/
inductive Act (Page : Type)
  | dup (p : Fin NPROC) (fd : Fin NOFILE)
  | close (p : Fin NPROC) (fd : Fin NOFILE)
  | read (p : Fin NPROC) (fd : Fin NOFILE) (n : ℕ)
  | write (p : Fin NPROC) (fd : Fin NOFILE) (addr : List UInt8)
  | writei (p : Fin NPROC) (fails : Bool)
  | pipe (p : Fin NPROC)
  | kalloc (p : Fin NPROC) (page : Option (Page × (Fin PIPESIZE → UInt8)))
  | openFile (p : Fin NPROC) (omode : UInt32)
  | fork (p : Fin NPROC)
  | copyuvm (p : Fin NPROC) (ok : Bool)
  | exit (p : Fin NPROC)
  | wait (p : Fin NPROC)
  | kill (p : Fin NPROC) (pid : Int32)
  | run (p : Fin NPROC)

def boot : State Page where
  kernel := .boot
  ofile _ _ := none
  ftable _ := .zero
  pages _ := none
  pc _ := .user
  fault := false
  bytesIn _ := []
  bytesOut _ := []

variable [DecidableEq Page]

/-- Apply a change to the places inside of one pipe. -/
def Pc.mapPipe (pg : Page) (g : Pipes.Pc → Pipes.Pc) : Pc Page → Pc Page
  | .inPipe f pg' c => .inPipe f pg' (if pg' = pg then g c else c)
  | c => c

/-- What `wakeup(&p->nread)` does to a place. -/
def wokenReader : Pipes.Pc → Pipes.Pc
  | .readAsleep n => .read n
  | c => c

/-- What `wakeup(&p->nwrite)` does to a place. -/
def wokenWriter : Pipes.Pc → Pipes.Pc
  | .writeAsleep rest => .write rest
  | c => c

namespace State

/-- A process may be chosen by the scheduler, and is not inside of a call. -/
def Ready (s : State Page) (p : Fin NPROC) : Prop :=
  (s.kernel.proc p).state = .runnable ∧ s.pc p = .user

instance (s : State Page) (p : Fin NPROC) : Decidable (s.Ready p) :=
  inferInstanceAs (Decidable (_ ∧ _))

def goto (s : State Page) (p : Fin NPROC) (c : Pc Page) : State Page :=
  { s with pc := Function.update s.pc p c }

def withKernel (s : State Page) (k : Kernel) : State Page := { s with kernel := k }

def withFiles (s : State Page) (o : OFile) (t : FTable Page) : State Page :=
  { s with ofile := o, ftable := t }

def setPage (s : State Page) (pg : Page) (q : Option Pipe) : State Page :=
  { s with pages := Function.update s.pages pg q }

def accept (s : State Page) (pg : Page) (bytes : List UInt8) : State Page :=
  { s with bytesIn := Function.update s.bytesIn pg (s.bytesIn pg ++ bytes) }

def deliver (s : State Page) (pg : Page) (bytes : List UInt8) : State Page :=
  { s with bytesOut := Function.update s.bytesOut pg (s.bytesOut pg ++ bytes) }

/-- A new pipe in the page. -/
def makePipe (s : State Page) (pg : Page) (data : Fin PIPESIZE → UInt8) : State Page :=
  { s with
    pages := Function.update s.pages pg (some (.alloc data))
    bytesIn := Function.update s.bytesIn pg []
    bytesOut := Function.update s.bytesOut pg [] }

def crash (s : State Page) : State Page := { s with fault := true }

def wakeReaders (s : State Page) (pg : Page) : State Page :=
  { s with pc := fun p => (s.pc p).mapPipe pg wokenReader }

def wakeWriters (s : State Page) (pg : Page) : State Page :=
  { s with pc := fun p => (s.pc p).mapPipe pg wokenWriter }

/-- A process asleep in a pipe is awake. -/
def wake (s : State Page) (p : Fin NPROC) : State Page :=
  match s.pc p with
  | .inPipe f pg c => s.goto p (.inPipe f pg (wokenReader (wokenWriter c)))
  | _ => s

/-- `fileclose` up to a call of `pipeclose`, which is still to be made at `next`. -/
def closeFile (s : State Page) (p : Fin NPROC) (f : Fin NFILE)
    (next : Option (Page × Bool) → Pc Page) : State Page :=
  match s.ftable.fileclose f with
  | none => s.crash
  | some (t, none) => (s.withFiles s.ofile t).goto p (next none)
  | some (t, some ff) =>
      match ff.type, ff.pipe with
      | .pipe, some pg => (s.withFiles s.ofile t).goto p (next (some (pg, ff.writable)))
      | .pipe, none => s.crash
      | _, _ => (s.withFiles s.ofile t).goto p (next none)

/-- `pipeclose` on the page at that address. -/
def closePipe (s : State Page) (p : Fin NPROC) (pg : Page) (writable : Bool) (c : Pc Page) :
    State Page :=
  match s.pages pg with
  | none => s.crash
  | some q =>
      let (q, free) := pipeclose writable q
      let s := s.setPage pg (if free then none else some q)
      (if writable then s.wakeReaders pg else s.wakeWriters pg).goto p c

/-- A section of `pipewrite` or `piperead`; asleep there is none. -/
def runPipe (s : State Page) (p : Fin NPROC) (f : Fin NFILE) (pg : Page) (c : Pipes.Pc) :
    Option (State Page) :=
  match s.pages pg, c with
  | none, _ => some s.crash
  | some q, .write addr =>
      let (q, e) := pipewrite (s.kernel.proc p).killed addr q
      let s := (s.setPage pg (some q)).accept pg (addr.take (addr.length - e.rest.length))
      match e with
      | .returned => some ((s.wakeReaders pg).goto p .user)
      | .failed _ => some (s.goto p .user)
      | .asleep rest => some ((s.wakeReaders pg).goto p (.inPipe f pg (.writeAsleep rest)))
  | some q, .read n =>
      let (q, e) := piperead (s.kernel.proc p).killed n q
      match e with
      | .returned bytes =>
          some ((((s.setPage pg (some q)).deliver pg bytes).wakeWriters pg).goto p .user)
      | .failed => some (s.goto p .user)
      | .asleep => some (s.goto p (.inPipe f pg (.readAsleep n)))
  | some _, _ => none

/-- `pipealloc` from `kalloc` on, and the rest of `sys_pipe`. -/
def finishPipe (s : State Page) (p : Fin NPROC) (f0 f1 : Fin NFILE)
    (page : Option (Page × (Fin PIPESIZE → UInt8))) : State Page :=
  match page with
  | none => s.goto p (.closing none (some f0) (some f1))
  | some (pg, data) =>
      let t := (s.ftable.modify f0 fun x => x.asPipe pg false).modify f1 fun x => x.asPipe pg true
      let s := (s.makePipe pg data).withFiles s.ofile t
      match s.ofile.fdalloc p f0 with
      | none => s.goto p (.closing none (some f0) (some f1))
      | some (o, fd0) =>
          match o.fdalloc p f1 with
          | none => (s.withFiles (o.set p fd0 none) t).goto p (.closing none (some f0) (some f1))
          | some (o, _) => (s.withFiles o t).goto p .user

/-- One turn of the loop of `fork` over `ofile`, or what comes behind it. -/
def runFork (s : State Page) (p np : Fin NPROC) (i : ℕ) : State Page :=
  if h : i < NOFILE then
    match s.ofile p ⟨i, h⟩ with
    | none => s.goto p (.forking np (i + 1))
    | some f =>
        match s.ftable.filedup f with
        | none => s.crash
        | some t => (s.withFiles (s.ofile.set np ⟨i, h⟩ (some f)) t).goto p (.forking np (i + 1))
  else
    (s.withKernel (s.kernel.modify np fun x => { x with state := .runnable })).goto p .user

/-- One turn of the loop of `exit` over `ofile`, or what comes behind it. -/
def runExit (s : State Page) (p : Fin NPROC) (fd : ℕ) : State Page :=
  if h : fd < NOFILE then
    match s.ofile p ⟨fd, h⟩ with
    | none => s.goto p (.exiting (fd + 1))
    | some f => s.closeFile p f (.exitClosing ⟨fd, h⟩)
  else
    (s.withKernel ((s.kernel.reparent p).modify p fun x => { x with state := .zombie })).goto p
      .user

/-- The place behind a call of `dup`. -/
def dup (s : State Page) (p : Fin NPROC) (f : Fin NFILE) : State Page :=
  match s.ofile.fdalloc p f with
  | none => s
  | some (o, _) =>
      match s.ftable.filedup f with
      | none => s.crash
      | some t => s.withFiles o t

/-- `sys_read` and `sys_write` behind the look at the file, with the state behind it if the file
is an inode. `readi` leaves all of this alone. -/
def transfer (s : State Page) (p : Fin NPROC) (f : Fin NFILE) (c : Pipes.Pc)
    (inode : State Page) : Option (Target Page) → State Page
  | none => s.crash
  | some .denied => s
  | some .inode => inode
  | some (.pipe pg) => s.goto p (.inPipe f pg c)

/-- One pass of the loop of `filewrite` over an inode, with its panic "short filewrite". -/
def runInode (s : State Page) (p : Fin NPROC) (f : Fin NFILE) (n : ℕ) (fails : Bool) :
    State Page :=
  if n > 0 then
    let n1 := if n > File.maxWrite then File.maxWrite else n
    let r := writei fails n1
    if r < 0 then s.goto p .user
    else if r ≠ n1 then s.crash
    else s.goto p (.inInode f (n - n1))
  else s.goto p .user

/-- `sys_open` from `filealloc` to `end_op`. -/
def openFile (s : State Page) (p : Fin NPROC) (omode : UInt32) : State Page :=
  match s.ftable.filealloc with
  | none => s
  | some (t, f) =>
      match s.ofile.fdalloc p f with
      | none => (s.withFiles s.ofile t).goto p (.closing none (some f) none)
      | some (o, _) => (s.withFiles o t).goto p (.opened f omode)

/-- What a process inside of a call does next. -/
def run (s : State Page) (p : Fin NPROC) : Option (State Page) :=
  match s.pc p with
  | .user | .inInode .. | .pipealloc _ (some _) | .allocated _ => none
  | .inPipe f pg c => s.runPipe p f pg c
  | .pipealloc f0 none =>
      match s.ftable.filealloc with
      | none => some (s.goto p (.closing none (some f0) none))
      | some (t, f1) => some ((s.withFiles s.ofile t).goto p (.pipealloc f0 (some f1)))
  | .opened f omode =>
      some ((s.withFiles s.ofile (s.ftable.modify f fun x => x.asInode omode)).goto p .user)
  | .closing (some (pg, writable)) f0 f1 =>
      some (s.closePipe p pg writable (.closing none f0 f1))
  | .closing none (some f0) f1 => some (s.closeFile p f0 fun e => .closing e none f1)
  | .closing none none (some f1) => some (s.closeFile p f1 fun e => .closing e none none)
  | .closing none none none => some (s.goto p .user)
  | .forking np i => some (s.runFork p np i)
  | .exiting fd => some (s.runExit p fd)
  | .exitClosing fd (some (pg, writable)) =>
      some (s.closePipe p pg writable (.exitClosing fd none))
  | .exitClosing fd none =>
      some ((s.withFiles (s.ofile.set p fd none) s.ftable).goto p (.exiting (fd + 1)))

/-- `kill`, with the wakeup of the process it finds. It takes `ptable.lock` only, and what that
means for the sections of a pipe is said at `Pipes.step`. -/
def kill (s : State Page) (pid : Int32) : State Page :=
  match (List.finRange NPROC).find? fun p => (s.kernel.proc p).pid = pid with
  | none => s
  | some p => (s.withKernel (s.kernel.kill pid).1).wake p

end State

/-- There is no step after a fault. `exit` of `initproc` is its own panic and left out; a call
with a bad descriptor changes nothing. -/
def step (s : State Page) (a : Act Page) : Option (State Page) :=
  if s.fault then none
  else match a with
  | .dup p fd => if s.Ready p then some ((s.ofile p fd).elim s (s.dup p)) else none
  | .close p fd =>
      if s.Ready p then
        some ((s.ofile p fd).elim s fun f =>
          (s.withFiles (s.ofile.set p fd none) s.ftable).closeFile p f (.closing · none none))
      else none
  | .read p fd n =>
      if s.Ready p then
        some ((s.ofile p fd).elim s fun f => s.transfer p f (.read n) s (s.ftable f).fileread)
      else none
  | .write p fd addr =>
      if s.Ready p then
        some ((s.ofile p fd).elim s fun f =>
          s.transfer p f (.write addr) (s.goto p (.inInode f addr.length)) (s.ftable f).filewrite)
      else none
  | .writei p fails =>
      match s.pc p with
      | .inInode f n => some (s.runInode p f n fails)
      | _ => none
  | .pipe p =>
      if s.Ready p then
        some (match s.ftable.filealloc with
          | none => s
          | some (t, f0) => (s.withFiles s.ofile t).goto p (.pipealloc f0 none))
      else none
  | .kalloc p page =>
      match s.pc p with
      | .pipealloc f0 (some f1) =>
          if ∀ x ∈ page, s.pages x.1 = none then some (s.finishPipe p f0 f1 page) else none
      | _ => none
  | .openFile p omode => if s.Ready p then some (s.openFile p omode) else none
  | .fork p =>
      if s.Ready p then
        match s.kernel.allocproc true with
        | (k, none) => some (s.withKernel k)
        | (k, some np) => some ((s.withKernel k).goto p (.allocated np))
      else none
  | .copyuvm p ok =>
      match s.pc p with
      | .allocated np =>
          if ok then
            some ((s.withKernel (s.kernel.modify np fun x => { x with parent := some p })).goto p
              (.forking np 0))
          else
            some ((s.withKernel (s.kernel.modify np fun x => { x with state := .unused })).goto p
              .user)
      | _ => none
  | .exit p => if s.Ready p ∧ p ≠ Kernel.initproc then some (s.goto p (.exiting 0)) else none
  | .wait p => if s.Ready p then (s.kernel.wait p).map fun r => s.withKernel r.1 else none
  | .kill p pid => if s.Ready p then some (s.kill pid) else none
  | .run p => s.run p

end OsSolutions.Files
