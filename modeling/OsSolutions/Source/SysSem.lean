import OsSolutions.Source.Proc

/-! # The semaphore system calls (`syssem.c`)

Each function is the call made without interference: the kernel it leaves and the value it
returns. -/

namespace OsSolutions

/-- The words on the stack of the caller, as `argint` and `argstr` fetch them. `none` is a
failed fetch. -/
structure Args where
  argint : ℕ → Option Int32
  argstr : ℕ → Option CString

namespace Kernel

variable (k : Kernel) (curproc : Fin NPROC) (args : Args)

/-- The descriptor in argument `n` and the semaphore behind it. -/
def argsd (n : ℕ) : Option (Fin NOSEM × Fin NSEM) :=
  match args.argint n with
  | none => none
  | some sd =>
      if hsd : 0 ≤ sd.toInt ∧ sd.toInt < NOSEM then
        let i : Fin NOSEM := ⟨sd.toInt.toNat, by omega⟩
        ((k.proc curproc).osem i).map fun s => (i, s)
      else none

def sysSemOpen : Kernel × ℤ :=
  match args.argstr 0, args.argint 1, args.argint 2 with
  | some name, some init, some maxVal =>
      match semOpen k.sem name init maxVal (k.proc curproc).pid with
      | (t, none) => ({ k with sem := t }, -1)
      | (t, some sem) =>
          let k := { k with sem := t }
          match (List.finRange NOSEM).find? fun sd => (k.proc curproc).osem sd = none with
          | some sd => (k.setOsem curproc sd (some sem), sd)
          | none => (k, -1)
  | _, _, _ => (k, -1)

def sysSemClose : Kernel × ℤ :=
  match k.argsd curproc args 0 with
  | some (sd, s) => ({ k.setOsem curproc sd none with sem := (semClose k.sem s).1 }, 0)
  | none => (k, -1)

/-- `none` is a call that has to sleep. -/
def sysSemWait : Option (Kernel × ℤ) :=
  match k.argsd curproc args 0 with
  | some (_, s) =>
      match semWaitPass (k.proc curproc).killed (k.sem s) with
      | (x, some r) => some ({ k with sem := k.sem.modify s fun _ => x }, r)
      | (_, none) => none
  | none => some (k, -1)

def sysSemTryWait : Kernel × ℤ :=
  match k.argsd curproc args 0 with
  | some (_, s) =>
      ({ k with sem := k.sem.modify s fun x => (semTryWait x).1 }, (semTryWait (k.sem s)).2)
  | none => (k, -1)

def sysSemPost : Kernel × ℤ :=
  match k.argsd curproc args 0 with
  | some (_, s) =>
      ({ k with sem := k.sem.modify s fun x => (semPost x).1 }, (semPost (k.sem s)).2.1)
  | none => (k, -1)

def sysSemReset : Kernel × ℤ :=
  match k.argsd curproc args 0, args.argint 1, args.argint 2 with
  | some (_, s), some newVal, some newMaxVal =>
      let pid := (k.proc curproc).pid
      ({ k with sem := k.sem.modify s fun x => (semReset pid newVal newMaxVal x).1 },
        (semReset pid newVal newMaxVal (k.sem s)).2)
  | _, _, _ => (k, -1)

/-- `sleep found` is a call that waits for the slot `found`. -/
def sysSemUnlink : Kernel × Unlink :=
  match args.argstr 0 with
  | some name =>
      let (t, r) := semUnlink (k.proc curproc).killed k.sem name
      ({ k with sem := t }, r)
  | none => (k, .ret (-1))

end Kernel

/-- The system calls on an open semaphore, and `sys_sem_open`. -/
inductive SysCall
  | semOpen
  | semClose
  | semWait
  | semTryWait
  | semPost
  | semReset
  deriving DecidableEq

/-- `none` is a `sys_sem_wait` that has to sleep. -/
def SysCall.exec (k : Kernel) (curproc : Fin NPROC) (args : Args) :
    SysCall → Option (Kernel × ℤ)
  | .semOpen => some (k.sysSemOpen curproc args)
  | .semClose => some (k.sysSemClose curproc args)
  | .semWait => k.sysSemWait curproc args
  | .semTryWait => some (k.sysSemTryWait curproc args)
  | .semPost => some (k.sysSemPost curproc args)
  | .semReset => some (k.sysSemReset curproc args)

end OsSolutions
