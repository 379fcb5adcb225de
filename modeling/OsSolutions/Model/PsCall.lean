import OsSolutions.Model.PsMachine

/-! # `get_proc_data` among the calls of other processes

`sys_get_proc_data` takes no lock. One step is one of its two lookups, its test, its copy of
the name and the pid, one turn of the loop of `getchildrenpid`, or its last read. In between the
other processes make whole calls. -/

namespace OsSolutions.Ps

/-- The next step of the call. `p` is what the first lookup has found, and `slots` are the
entries that the loop has still to visit. -/
inductive CallPc
  | lookup
  | test (p : Option (Fin NPROC))
  | copy (p : Fin NPROC)
  | second (p : Fin NPROC)
  | visit (p : Fin NPROC) (curproc : Option (Fin NPROC)) (slots : List (Fin NPROC))
    (numchildren : ℕ)
  | last (p : Fin NPROC)
  | returned (ret : Int32)

/-- `seen` is bookkeeping: the tables that there have been since the call began. -/
structure Call where
  table : Table
  pc : CallPc
  data : ProcData
  seen : List Table

/-- A step of the call, or a whole call of another process. -/
inductive CallAct
  | call
  | other (a : Act)

def Act.actor : Act → Fin NPROC
  | .fork p _ _ | .exit p | .wait p | .exec p _ => p

namespace Call

def start (t : Table) (data : ProcData) : Call := ⟨t, .lookup, data, [t]⟩

/-- The next step of `sys_get_proc_data(pid, data)`. -/
def next (pid : Int32) (s : Call) : Option Call :=
  match s.pc with
  | .lookup => some { s with pc := .test (s.table.getprocbypid pid) }
  | .test none => some { s with pc := .returned (-1) }
  | .test (some p) =>
      if (s.table.proc p).state = .unused then some { s with pc := .returned (-1) }
      else some { s with pc := .copy p }
  | .copy p =>
      let proc := s.table.proc p
      some { s with
        data := { s.data with pid := proc.pid.toUInt32, name := strncpy s.data.name proc.name 16 }
        pc := .second p }
  | .second p => some { s with pc := .visit p (s.table.getprocbypid pid) (List.finRange NPROC) 0 }
  | .visit p curproc (q :: slots) n =>
      let (pids, n) := s.table.childrenTurn curproc (s.data.pids, n) q
      some { s with data := { s.data with pids }, pc := .visit p curproc slots n }
  | .visit p _ [] n =>
      some { s with data := { s.data with chldNum := UInt32.ofNat n }, pc := .last p }
  | .last p => some { s with pc := .returned (s.table.proc p).pid }
  | .returned _ => none

/-- `caller` makes the call, and nothing else meanwhile. -/
def step (caller : Fin NPROC) (pid : Int32) (s : Call) : CallAct → Option Call
  | .call => s.next pid
  | .other a =>
      if a.actor = caller then none
      else (Ps.step s.table a).map fun table => { s with table, seen := s.seen ++ [table] }

end Call

end OsSolutions.Ps
