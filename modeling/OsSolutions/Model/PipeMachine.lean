import OsSolutions.Source.Pipe
import OsSolutions.Source.Proc

/-! # One pipe and its readers and writers

One step is one critical section. A process that is inside of a call holds a descriptor of its
end of the pipe, so that the end is not closed before the call returns. -/

namespace OsSolutions.Pipes

inductive Pc
  | outside
  | write (rest : List UInt8)
  | writeAsleep (rest : List UInt8)
  | read (n : ℕ)
  | readAsleep (n : ℕ)
  deriving DecidableEq

namespace Pc

/-- Inside of `pipewrite`. -/
def Writes : Pc → Prop
  | .write _ | .writeAsleep _ => True
  | _ => False

/-- Inside of `piperead`. -/
def Reads : Pc → Prop
  | .read _ | .readAsleep _ => True
  | _ => False

instance : DecidablePred Writes
  | .write _ | .writeAsleep _ => isTrue trivial
  | .outside | .read _ | .readAsleep _ => isFalse id

instance : DecidablePred Reads
  | .read _ | .readAsleep _ => isTrue trivial
  | .outside | .write _ | .writeAsleep _ => isFalse id

/-- The bytes of a call of `pipewrite` that are not yet in the pipe. -/
def rest : Pc → List UInt8
  | .write rest | .writeAsleep rest => rest
  | _ => []

end Pc

/-- The last five fields are bookkeeping: the bytes that went into the pipe and those that came
out, each with the process that brought or took it, the bytes that a process has passed to
`pipewrite`, whether one of its calls has returned -1, and whether one of its calls of
`piperead` with `n > 0` has returned 0. -/
structure State where
  pipe : Pipe
  killed : Fin NPROC → Bool
  pc : Fin NPROC → Pc
  accepted : List (Fin NPROC × UInt8)
  delivered : List (Fin NPROC × UInt8)
  passed : Fin NPROC → List UInt8
  failed : Fin NPROC → Bool
  eof : Fin NPROC → Bool

/-- `call` and `run` are the entry into a call and one section of it. `reap` gives the entry of a
process that has exited to a new one. -/
inductive Act
  | callWrite (p : Fin NPROC) (addr : List UInt8)
  | callRead (p : Fin NPROC) (n : ℕ)
  | run (p : Fin NPROC)
  | kill (p : Fin NPROC)
  | reap (p : Fin NPROC)
  | close (writable : Bool)

def init (page : Fin PIPESIZE → UInt8) : State where
  pipe := .alloc page
  killed _ := false
  pc _ := .outside
  accepted := []
  delivered := []
  passed _ := []
  failed _ := false
  eof _ := false

namespace State

def goto (st : State) (p : Fin NPROC) (c : Pc) : State :=
  { st with pc := Function.update st.pc p c }

def withPipe (st : State) (q : Pipe) : State := { st with pipe := q }

/-- `wakeup(&p->nread)` -/
def wakeReaders (st : State) : State :=
  { st with pc := fun p => match st.pc p with | .readAsleep n => .read n | c => c }

/-- `wakeup(&p->nwrite)` -/
def wakeWriters (st : State) : State :=
  { st with pc := fun p => match st.pc p with | .writeAsleep rest => .write rest | c => c }

def setKilled (st : State) (p : Fin NPROC) : State :=
  { st with killed := Function.update st.killed p true }

def clearKilled (st : State) (p : Fin NPROC) : State :=
  { st with killed := Function.update st.killed p false }

/-- The process is awake. -/
def wake (st : State) (p : Fin NPROC) : State :=
  match st.pc p with
  | .readAsleep n => st.goto p (.read n)
  | .writeAsleep rest => st.goto p (.write rest)
  | _ => st

def pass (st : State) (p : Fin NPROC) (addr : List UInt8) : State :=
  { st with passed := Function.update st.passed p (st.passed p ++ addr) }

def accept (st : State) (p : Fin NPROC) (bytes : List UInt8) : State :=
  { st with accepted := st.accepted ++ bytes.map fun c => (p, c) }

def deliver (st : State) (p : Fin NPROC) (bytes : List UInt8) : State :=
  { st with delivered := st.delivered ++ bytes.map fun c => (p, c) }

def fail (st : State) (p : Fin NPROC) : State :=
  { st with failed := Function.update st.failed p true }

def atEnd (st : State) (p : Fin NPROC) : State :=
  { st with eof := Function.update st.eof p true }

/-- A section of `pipewrite`. -/
def runWrite (st : State) (p : Fin NPROC) (addr : List UInt8) : State :=
  let (q, e) := pipewrite (st.killed p) addr st.pipe
  let st := (st.withPipe q).accept p (addr.take (addr.length - e.rest.length))
  match e with
  | .returned => st.wakeReaders.goto p .outside
  | .failed _ => (st.fail p).goto p .outside
  | .asleep rest => st.wakeReaders.goto p (.writeAsleep rest)

/-- A section of `piperead`. -/
def runRead (st : State) (p : Fin NPROC) (n : ℕ) : State :=
  let (q, e) := piperead (st.killed p) n st.pipe
  match e with
  | .returned bytes =>
      let st := (((st.withPipe q).deliver p bytes).wakeWriters).goto p .outside
      if n > 0 ∧ bytes = [] then st.atEnd p else st
  | .failed => st.goto p .outside
  | .asleep => st.goto p (.readAsleep n)

def close (st : State) (writable : Bool) : State :=
  let st := st.withPipe (pipeclose writable st.pipe).1
  if writable then st.wakeReaders else st.wakeWriters

end State

/-- `kill` takes `ptable.lock` and not the lock of the pipe. So in the code it may also come between
the test of `killed` and `sleep` of one section, and that process sleeps on although it is killed;
a section is one step here, and such runs are left out. -/
def step (st : State) : Act → Option State
  | .callWrite p addr =>
      if st.pc p = .outside ∧ st.pipe.writeopen then some ((st.pass p addr).goto p (.write addr))
      else none
  | .callRead p n =>
      if st.pc p = .outside ∧ st.pipe.readopen then some (st.goto p (.read n)) else none
  | .run p =>
      match st.pc p with
      | .write rest => some (st.runWrite p rest)
      | .read n => some (st.runRead p n)
      | _ => none
  | .kill p => some ((st.setKilled p).wake p)
  | .reap p => if st.pc p = .outside then some (st.clearKilled p) else none
  | .close true =>
      if st.pipe.writeopen ∧ ∀ p, ¬ (st.pc p).Writes then some (st.close true) else none
  | .close false =>
      if st.pipe.readopen ∧ ∀ p, ¬ (st.pc p).Reads then some (st.close false) else none

end OsSolutions.Pipes
