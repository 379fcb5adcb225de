import OsSolutions.Source.Sem
import Mathlib.Algebra.GroupWithZero.Nat

/-! # Processes and their semaphore descriptors (`proc.h` and `proc.c`)

The parts of the process table that the semaphores depend on. Each function is a whole
operation made without interference; memory that may run out is a Boolean argument. -/

namespace OsSolutions

abbrev NPROC : ℕ := 64

instance : NeZero NPROC := ⟨by decide⟩

abbrev NOSEM : ℕ := 5

inductive ProcState
  | unused
  | embryo
  | sleeping
  | runnable
  | running
  | zombie
  deriving DecidableEq

/-- `struct proc`. `osem` holds the open semaphores of the process by descriptor. -/
structure Proc where
  state : ProcState
  pid : Int32
  parent : Option (Fin NPROC)
  killed : Bool
  osem : Fin NOSEM → Option (Fin NSEM)

/-- `ptable`, `nextpid` and `stable`. -/
structure Kernel where
  proc : Fin NPROC → Proc
  nextpid : Int32
  sem : STable

namespace Kernel

/-- `userinit` takes the first entry of the zeroed table. -/
def initproc : Fin NPROC := 0

/-- The kernel after `userinit`. -/
def boot : Kernel where
  proc p := ⟨if p = initproc then .runnable else .unused, if p = initproc then 1 else 0, none,
    false, fun _ => none⟩
  nextpid := 2
  sem := .zero

/-- Write to the entry of one process. -/
def modify (k : Kernel) (p : Fin NPROC) (f : Proc → Proc) : Kernel :=
  { k with proc := Function.update k.proc p (f (k.proc p)) }

def setOsem (k : Kernel) (p : Fin NPROC) (sd : Fin NOSEM) (v : Option (Fin NSEM)) : Kernel :=
  k.modify p fun x => { x with osem := Function.update x.osem sd v }

/-- The first `UNUSED` entry, if any, gets a pid; `kalloc` tells whether there is memory for
its stack. -/
def allocproc (k : Kernel) (kalloc : Bool) : Kernel × Option (Fin NPROC) :=
  match (List.finRange NPROC).find? fun p => (k.proc p).state = .unused with
  | none => (k, none)
  | some p =>
      let k := { k.modify p fun x => { x with state := .embryo, pid := k.nextpid } with
        nextpid := k.nextpid + 1 }
      if kalloc then
        (k, some p)
      else
        (k.modify p fun x => { x with state := .unused }, none)

/-- One turn of the loop of `fork` over the descriptors. -/
def forkSem (curproc np : Fin NPROC) (k : Kernel) (i : Fin NOSEM) : Kernel :=
  match (k.proc curproc).osem i with
  | some s => { k with sem := semdup k.sem s }.setOsem np i (some s)
  | none => k

/-- `copyuvm` tells whether there is memory for the copy. -/
def fork (k : Kernel) (curproc : Fin NPROC) (kalloc copyuvm : Bool) : Kernel × ℤ :=
  match k.allocproc kalloc with
  | (k, none) => (k, -1)
  | (k, some np) =>
      if copyuvm then
        let k := k.modify np fun x => { x with parent := some curproc }
        let k := (List.finRange NOSEM).foldl (forkSem curproc np) k
        (k.modify np fun x => { x with state := .runnable }, (k.proc np).pid.toInt)
      else
        (k.modify np fun x => { x with state := .unused }, -1)

/-- One turn of the loop of `exit` over the descriptors. -/
def exitSem (curproc : Fin NPROC) (k : Kernel) (sd : Fin NOSEM) : Kernel :=
  match (k.proc curproc).osem sd with
  | some s => { k with sem := (semClose k.sem s).1 }.setOsem curproc sd none
  | none => k

/-- Abandoned children are passed to `initproc`. -/
def reparent (k : Kernel) (curproc : Fin NPROC) : Kernel :=
  { k with proc := fun p =>
      if (k.proc p).parent = some curproc then
        { k.proc p with parent := some initproc }
      else k.proc p }

/-- `none` is the panic when `initproc` exits. -/
def exit (k : Kernel) (curproc : Fin NPROC) : Option Kernel :=
  if curproc = initproc then
    none
  else
    let k := (List.finRange NOSEM).foldl (exitSem curproc) k
    some ((k.reparent curproc).modify curproc fun x => { x with state := .zombie })

/-- One search of `wait` for an exited child. `none` is to sleep and search again. -/
def wait (k : Kernel) (curproc : Fin NPROC) : Option (Kernel × ℤ) :=
  match (List.finRange NPROC).find? fun p =>
      (k.proc p).parent = some curproc ∧ (k.proc p).state = .zombie with
  | some p =>
      some (k.modify p fun x =>
        { x with pid := 0, parent := none, killed := false, state := .unused },
        (k.proc p).pid.toInt)
  | none =>
      if (∀ p, (k.proc p).parent ≠ some curproc) ∨ (k.proc curproc).killed then
        some (k, -1)
      else none

/-- The first entry with that pid, whatever its state. -/
def kill (k : Kernel) (pid : Int32) : Kernel × ℤ :=
  match (List.finRange NPROC).find? fun p => (k.proc p).pid = pid with
  | some p =>
      (k.modify p fun x =>
        { x with killed := true, state := if x.state = .sleeping then .runnable else x.state },
        0)
  | none => (k, -1)

end Kernel

end OsSolutions
