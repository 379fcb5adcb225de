import OsSolutions.Source.CString
import OsSolutions.Source.Proc

/-! # The process table and `ps` (`ex2/q2`)

What `ps` depends on in `proc.c` and `sysfile.c`, and `ps.c` itself. Each function of `proc.c`
is a whole operation made without interference; memory that may run out is a Boolean
argument. A process that is neither a zombie nor unused counts as runnable. -/

namespace OsSolutions.Ps

/-- `struct proc`. `name` is the memory from the field on, of 16 bytes. -/
structure Proc where
  state : ProcState
  pid : Int32
  parent : Option (Fin NPROC)
  killed : Bool
  name : Bytes

/-- `ptable` and `nextpid`. -/
structure Table where
  proc : Fin NPROC → Proc
  nextpid : Int32

namespace Table

/-- `userinit` takes the first entry of the zeroed table. -/
def initproc : Fin NPROC := 0

/-- The characters of `initcode`. -/
def initcode : CString := ⟨[105, 110, 105, 116, 99, 111, 100, 101], by decide⟩

/-- The table after `userinit`. -/
def boot : Table where
  proc p :=
    if p = initproc then ⟨.runnable, 1, none, false, safestrcpy (fun _ => 0) initcode.ptr 16⟩
    else ⟨.unused, 0, none, false, fun _ => 0⟩
  nextpid := 2

/-- Write to the entry of one process. -/
def modify (t : Table) (p : Fin NPROC) (f : Proc → Proc) : Table :=
  { t with proc := Function.update t.proc p (f (t.proc p)) }

/-! ## `proc.c` -/

/-- The first entry with that pid, whatever its state. -/
def getprocbypid (t : Table) (pid : Int32) : Option (Fin NPROC) :=
  (List.finRange NPROC).find? fun p => (t.proc p).pid = pid

/-- One turn of the loop of `getchildrenpid`, on the memory from `children` on and
`numchildren`. -/
def childrenTurn (t : Table) (curproc : Option (Fin NPROC)) (r : (ℕ → UInt32) × ℕ)
    (p : Fin NPROC) : (ℕ → UInt32) × ℕ :=
  if (t.proc p).parent = curproc then
    (Function.update r.1 r.2 (t.proc p).pid.toUInt32, r.2 + 1)
  else r

def getchildrenpid (t : Table) (pid : Int32) (children : ℕ → UInt32) : (ℕ → UInt32) × ℕ :=
  (List.finRange NPROC).foldl (t.childrenTurn (t.getprocbypid pid)) (children, 0)

/-- The first `UNUSED` entry, if any, gets a pid; `kalloc` tells whether there is memory for
its stack. -/
def allocproc (t : Table) (kalloc : Bool) : Table × Option (Fin NPROC) :=
  match (List.finRange NPROC).find? fun p => (t.proc p).state = .unused with
  | none => (t, none)
  | some p =>
      let t := { t.modify p fun x => { x with state := .embryo, pid := t.nextpid } with
        nextpid := t.nextpid + 1 }
      if kalloc then
        (t, some p)
      else
        (t.modify p fun x => { x with state := .unused }, none)

/-- `copyuvm` tells whether there is memory for the copy. -/
def fork (t : Table) (curproc : Fin NPROC) (kalloc copyuvm : Bool) : Table × ℤ :=
  match t.allocproc kalloc with
  | (t, none) => (t, -1)
  | (t, some np) =>
      if copyuvm then
        let t := t.modify np fun x =>
          { x with parent := some curproc, name := safestrcpy x.name (t.proc curproc).name 16 }
        (t.modify np fun x => { x with state := .runnable }, (t.proc np).pid.toInt)
      else
        (t.modify np fun x => { x with state := .unused }, -1)

/-- Abandoned children are passed to `initproc`. -/
def reparent (t : Table) (curproc : Fin NPROC) : Table :=
  { t with
    proc := fun p =>
      if (t.proc p).parent = some curproc then { t.proc p with parent := some initproc }
      else t.proc p }

/-- `none` is the panic when `initproc` exits. -/
def exit (t : Table) (curproc : Fin NPROC) : Option Table :=
  if curproc = initproc then
    none
  else
    some ((t.reparent curproc).modify curproc fun x => { x with state := .zombie })

/-- One search of `wait` for an exited child. `none` is to sleep and search again. -/
def wait (t : Table) (curproc : Fin NPROC) : Option (Table × ℤ) :=
  match (List.finRange NPROC).find? fun p =>
      (t.proc p).parent = some curproc ∧ (t.proc p).state = .zombie with
  | some p =>
      some (t.modify p fun x =>
        { x with
          pid := 0, parent := none, name := Function.update x.name 0 0, killed := false,
          state := .unused },
        (t.proc p).pid.toInt)
  | none =>
      if (∀ p, (t.proc p).parent ≠ some curproc) ∨ (t.proc curproc).killed then some (t, -1)
      else none

/-- What a successful `exec` does to the table. -/
def exec (t : Table) (curproc : Fin NPROC) (last : CString) : Table :=
  t.modify curproc fun x => { x with name := safestrcpy x.name last.ptr 16 }

end Table

/-! ## `sysfile.c` -/

abbrev MAX_CHILDREN : ℕ := 10

/-- `struct proc_data`, with the memory from the start of `name` and of `pids` on. The array
`pids` ends at `MAX_CHILDREN`. -/
structure ProcData where
  pid : UInt32
  name : Bytes
  chldNum : UInt32
  pids : ℕ → UInt32

/-- `argptr` tells whether the arguments are there and `data` is inside the user memory. -/
def Table.sysGetProcData (t : Table) (argptr : Bool) (pid : Int32) (data : ProcData) :
    ProcData × Int32 :=
  if argptr then
    match t.getprocbypid pid with
    | none => (data, -1)
    | some p =>
        if (t.proc p).state = .unused then (data, -1)
        else
          let (pids, numchildren) := t.getchildrenpid pid data.pids
          ({ pid := (t.proc p).pid.toUInt32
             name := strncpy data.name (t.proc p).name 16
             chldNum := UInt32.ofNat numchildren
             pids := pids }, (t.proc p).pid)
  else (data, -1)

/-! ## `ps.c` -/

/-- What one line shows: the characters of the name, and numbers as `%d` prints them. -/
structure Line where
  name : List UInt8
  pid : Int32
  chldNum : Int32
  pids : List Int32

/-- The characters before the NUL, of which there are at most 16. -/
def chars (name : Bytes) : List UInt8 := ((List.range 16).map name).takeWhile (· ≠ 0)

def printProcData (pdata : ProcData) : Line where
  name := chars pdata.name
  pid := pdata.pid.toInt32
  chldNum := pdata.chldNum.toInt32
  pids := (List.range pdata.chldNum.toNat).map fun i => (pdata.pids i).toInt32

/-- The size of a page. -/
abbrev PGSIZE : ℕ := 4096

/-- The size of `struct proc_data`. -/
abbrev sizeofProcData : ℕ := 4 + 16 + 4 + 4 * MAX_CHILDREN

/-- `exec` gives a program one page of stack and takes the page below it away from the user.
How many calls of `print_proc_and_children` inside each other have room on it is up to the
compiler, but each keeps its local `p`, and the arguments of `main` lie above. -/
structure UserStack where
  frames : ℕ
  fits : frames * sizeofProcData < PGSIZE

/-- The lines that `print_proc_and_children` prints, with room for `frames` calls inside each
other. `stack` is what the local `p` holds at first, for each call by the path of loop variables
that leads to it. `none` stands for a call beyond the page, where a page fault ends `ps`, or
whose `get_proc_data` stores beyond the end of `p` and so destroys the frame of the call. -/
def printProcAndChildren (t : Table) (stack : List ℕ → ProcData) :
    ℕ → List ℕ → Int32 → Option (List Line)
  | 0, _, _ => none
  | frames + 1, path, pid =>
      let (p, ret) := t.sysGetProcData true pid (stack path)
      if ret ≠ -1 ∧ MAX_CHILDREN < p.chldNum.toNat then none
      else
        let calls := (List.range p.chldNum.toNat).mapM fun i =>
          printProcAndChildren t stack frames (path ++ [i]) (p.pids i).toInt32
        calls.map fun lines => printProcData p :: lines.flatten

end OsSolutions.Ps
