import OsSolutions.Source.SysSem

/-! # Processes and system calls, one at a time

From boot on, processes fork, exit, wait and use semaphores. Each call is atomic, except
that a `sem_unlink` that has to wait keeps its slot pointer and looks again at any later
time. -/

namespace OsSolutions.Machine

/-- `unlinking` holds the slot pointer of a blocked `sem_unlink`. -/
structure State where
  kernel : Kernel
  unlinking : Fin NPROC → Option (Fin NSEM)

/-- The process that runs, and its call. `fork` carries the outcomes of `kalloc` and
`copyuvm`. -/
inductive Act
  | semOpen (p : Fin NPROC) (args : Args)
  | semClose (p : Fin NPROC) (args : Args)
  | semUnlink (p : Fin NPROC) (args : Args)
  | recheck (p : Fin NPROC)
  | fork (p : Fin NPROC) (kalloc copyuvm : Bool)
  | exit (p : Fin NPROC)
  | wait (p : Fin NPROC)
  | kill (p : Fin NPROC) (pid : Int32)

def boot : State := ⟨.boot, fun _ => none⟩

namespace State

/-- A process may be chosen by the scheduler, and is not inside a blocked call. -/
def Ready (st : State) (p : Fin NPROC) : Prop :=
  (st.kernel.proc p).state = .runnable ∧ st.unlinking p = none

instance (st : State) (p : Fin NPROC) : Decidable (st.Ready p) :=
  inferInstanceAs (Decidable (_ ∧ _))

def withKernel (st : State) (k : Kernel) : State := { st with kernel := k }

/-- Where a `sem_unlink` stands after the section it ran. -/
def unlinked (st : State) (p : Fin NPROC) (k : Kernel) (found : Option (Fin NSEM)) : State :=
  ⟨k, Function.update st.unlinking p found⟩

end State

/-- A call of a process that is not ready, or a `wait` with nothing to return yet, is no
step. -/
def step (st : State) : Act → Option State
  | .semOpen p args =>
      if st.Ready p then some (st.withKernel (st.kernel.sysSemOpen p args).1) else none
  | .semClose p args =>
      if st.Ready p then some (st.withKernel (st.kernel.sysSemClose p args).1) else none
  | .semUnlink p args =>
      if st.Ready p then
        match st.kernel.sysSemUnlink p args with
        | (k, .ret _) => some (st.withKernel k)
        | (k, .sleep found) => some (st.unlinked p k (some found))
      else none
  | .recheck p =>
      match st.unlinking p with
      | some found =>
          match semUnlinkPass (st.kernel.proc p).killed st.kernel.sem found with
          | (t, some _) => some (st.unlinked p { st.kernel with sem := t } none)
          | (t, none) => some (st.unlinked p { st.kernel with sem := t } (some found))
      | none => none
  | .fork p kalloc copyuvm =>
      if st.Ready p then some (st.withKernel (st.kernel.fork p kalloc copyuvm).1) else none
  | .exit p =>
      if st.Ready p then (st.kernel.exit p).map st.withKernel else none
  | .wait p =>
      if st.Ready p then (st.kernel.wait p).map fun r => st.withKernel r.1 else none
  | .kill p pid =>
      if st.Ready p then some (st.withKernel (st.kernel.kill pid).1) else none

end OsSolutions.Machine
