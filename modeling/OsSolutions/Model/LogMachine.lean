import OsSolutions.Source.Log
import OsSolutions.Source.Proc

/-! # The log under concurrent operations and crashes

Any number of processes run file system operations and read blocks in between. One step is one
critical section of `log.c`, the tests that `log_write` makes before its section, one call of
`bread` or `brelse`, or one pass of a loop of the commit with one disk write, which holds its
buffers inside the step only. Whoever waits for a locked buffer has not made its step yet, and the
reference that `bget` counts for it meanwhile is left out. A crash keeps the disk, and may come
between any two steps; `recover_from_log` runs before the first process. -/

namespace OsSolutions.FsLog

/-- Where a process is. `logged` are the blocks of its calls of `log_write` since `begin_op`, and
in `logging` it is between the tests and the section of the next one. -/
inductive Pc
  | outside
  | beginOp
  | asleep
  | inOp (logged : List BlockNo)
  | logging (logged : List BlockNo) (b : BlockNo)
  | commit
  | writeLog (tail : ℕ)
  | writeHead
  | installTrans (tail : ℕ)
  | eraseHead
  | endCommit
  deriving DecidableEq

/-- A process that calls `bread` and `brelse`. -/
def Pc.UsesBuffers : Pc → Prop
  | .outside | .inOp _ => True
  | _ => False

instance : DecidablePred Pc.UsesBuffers
  | .outside | .inOp _ => isTrue trivial
  | .beginOp | .asleep | .logging _ _ | .commit | .writeLog _ | .writeHead | .installTrans _
  | .eraseHead | .endCommit => isFalse id

/-- Where `recover_from_log` is, `up` after it. The machine stops in a panic of `log.c`
(`panicked`) or of `bget` (`noBuffers`), and nothing is known of it once the section of
`log_write` has stored behind the end of `lh.block` (`overrun`). -/
inductive Phase
  | readHead
  | installTrans (tail : ℕ)
  | eraseHead
  | up
  | panicked
  | noBuffers
  | overrun
  deriving DecidableEq

/-- `held` are the buffers that processes have locked. -/
structure State where
  drive : Drive
  log : Log
  pc : Fin NPROC → Pc
  held : List (Fin NPROC × BlockNo)
  phase : Phase

/-- `write` stores new data in a buffer of an operation and calls `log_write` up to its section,
which is `append`. -/
inductive Act
  | bread (p : Fin NPROC) (b : BlockNo)
  | brelse (p : Fin NPROC) (b : BlockNo)
  | call (p : Fin NPROC)
  | enter (p : Fin NPROC)
  | sleep (p : Fin NPROC)
  | write (p : Fin NPROC) (b : BlockNo) (data : Block)
  | append (p : Fin NPROC)
  | endOp (p : Fin NPROC)
  | commit (p : Fin NPROC)
  | recover
  | crash

/-- The machine is switched on. -/
def boot (disk : BlockNo → Block) : State where
  drive := .boot disk
  log := .zero
  pc _ := .outside
  held := []
  phase := .readHead

namespace State

def goto (s : State) (p : Fin NPROC) (c : Pc) : State :=
  { s with pc := Function.update s.pc p c }

def withLog (s : State) (log : Log) : State := { s with log := log }

def withDrive (s : State) (d : Drive) : State := { s with drive := d }

def withHeld (s : State) (held : List (Fin NPROC × BlockNo)) : State := { s with held := held }

def inPhase (s : State) (ph : Phase) : State := { s with phase := ph }

/-- `wakeup(&log)`. -/
def wakeup (s : State) : State :=
  { s with pc := fun p => if s.pc p = .asleep then .beginOp else s.pc p }

def locked (s : State) : List BlockNo := s.held.map Prod.snd

/-- Operations start and end without buffers. -/
def HoldsNone (s : State) (p : Fin NPROC) : Prop := ∀ x ∈ s.held, x.1 ≠ p

instance (s : State) (p : Fin NPROC) : Decidable (s.HoldsNone p) :=
  List.decidableBAll (fun x : Fin NPROC × BlockNo => x.1 ≠ p) s.held

instance (s : State) (bs : List BlockNo) : Decidable (∀ b ∈ bs, b ∉ s.locked) :=
  List.decidableBAll (fun b => b ∉ s.locked) bs

/-- The process needs the buffers of `bs` and makes `d` out of the drive, or `bget` panics. It
waits while one of the buffers is locked. -/
def pass (s : State) (bs : List BlockNo) (d : Option Drive) (next : State → State) :
    Option State :=
  if bs.Nodup ∧ ∀ b ∈ bs, b ∉ s.locked then
    match d with
    | some d => some (next (s.withDrive d))
    | none => some (s.inPhase .noBuffers)
  else none

/-- A step of the process that is in `commit` or in the last section of `end_op`. -/
def commitStep (area : LogArea) (s : State) (p : Fin NPROC) : Option State :=
  match s.pc p with
  | .commit => some (s.goto p (if s.log.lh.length > 0 then .writeLog 0 else .endCommit))
  | .writeLog tail =>
      match s.log.lh[tail]? with
      | some b =>
          s.pass [area.block tail, b] (area.writeLog s.locked tail b s.drive) fun s =>
            s.goto p (.writeLog (tail + 1))
      | none => some (s.goto p .writeHead)
  | .writeHead =>
      s.pass [area.start] (area.writeHead s.locked s.log.lh s.drive) fun s =>
        s.goto p (.installTrans 0)
  | .installTrans tail =>
      match s.log.lh[tail]? with
      | some b =>
          s.pass [area.block tail, b] (area.installTrans s.locked tail b s.drive) fun s =>
            s.goto p (.installTrans (tail + 1))
      | none => some ((s.withLog { s.log with lh := [] }).goto p .eraseHead)
  | .eraseHead =>
      s.pass [area.start] (area.writeHead s.locked s.log.lh s.drive) fun s => s.goto p .endCommit
  | .endCommit => some ((s.withLog s.log.endCommit).wakeup.goto p .outside)
  | _ => none

/-- A step of `recover_from_log`. -/
def recoverStep (area : LogArea) (s : State) : Option State :=
  match s.phase with
  | .readHead =>
      match area.readHead s.locked s.drive with
      | some (d, some lh) =>
          some (((s.withDrive d).withLog { s.log with lh := lh }).inPhase (.installTrans 0))
      | some (_, none) => none
      | none => some (s.inPhase .noBuffers)
  | .installTrans tail =>
      match s.log.lh[tail]? with
      | some b =>
          s.pass [area.block tail, b] (area.installTrans s.locked tail b s.drive) fun s =>
            s.inPhase (.installTrans (tail + 1))
      | none => some ((s.withLog { s.log with lh := [] }).inPhase .eraseHead)
  | .eraseHead =>
      s.pass [area.start] (area.writeHead s.locked s.log.lh s.drive) fun s => s.inPhase .up
  | _ => none

/-- A step of a process while the machine is up. -/
def procStep (area : LogArea) (s : State) : Act → Option State
  | .bread p b =>
      if (s.pc p).UsesBuffers ∧ b ∉ s.locked then
        match s.drive.bread s.locked b with
        | some (d, _) => some ((s.withDrive d).withHeld ((p, b) :: s.held))
        | none => some (s.inPhase .noBuffers)
      else none
  | .brelse p b =>
      if (s.pc p).UsesBuffers ∧ (p, b) ∈ s.held then
        some ((s.withDrive (s.drive.brelse b)).withHeld (s.held.erase (p, b)))
      else none
  | .call p => if s.pc p = .outside ∧ s.HoldsNone p then some (s.goto p .beginOp) else none
  | .enter p =>
      if s.pc p = .beginOp then s.log.beginOp.map fun log => (s.withLog log).goto p (.inOp [])
      else none
  | .sleep p =>
      if s.pc p = .beginOp ∧ s.log.beginOp = none then some (s.goto p .asleep) else none
  | .write p b data =>
      match s.pc p with
      | .inOp logged =>
          if (p, b) ∈ s.held then
            let s := s.withDrive (s.drive.store b data)
            if s.log.logWriteTests area then some (s.goto p (.logging logged b))
            else some (s.inPhase .panicked)
          else none
      | _ => none
  | .append p =>
      match s.pc p with
      | .logging logged b =>
          match s.log.logWrite b with
          | some log =>
              some (((s.withDrive (s.drive.pin b)).withLog log).goto p (.inOp (b :: logged)))
          | none => some (s.inPhase .overrun)
      | _ => none
  | .endOp p =>
      match s.pc p with
      | .inOp _ =>
          if s.HoldsNone p then
            match s.log.endOp with
            | some (log, true) => some ((s.withLog log).goto p .commit)
            | some (log, false) => some ((s.withLog log).wakeup.goto p .outside)
            | none => some (s.inPhase .panicked)
          else none
      | _ => none
  | .commit p => s.commitStep area p
  | _ => none

end State

def step (area : LogArea) (s : State) : Act → Option State
  | .crash => if s.phase = .overrun then none else some (boot s.drive.disk)
  | .recover => s.recoverStep area
  | a => if s.phase = .up then s.procStep area a else none

end OsSolutions.FsLog
