import OsSolutions.Source.Proc

/-! # The producer and consumer program (`pc.c` and `pc_def.c`)

The constants of `main` and its control points. A control point is written down where a
process may be interrupted: before each critical section of a semaphore call, before each
step of `fork`, `exit` and `wait`, and before a loop test or a message. -/

namespace OsSolutions.ProdCons

/-- The arguments of `main`, and the pid of its process. -/
structure Main where
  prodNum : ℕ
  consNum : ℕ
  msgNumPerProd : ℕ
  pid : Int32

def MAX_MSG : ℕ := 3

/-! ## The five semaphores

They are numbered by the descriptors that `main` gets for them. -/

abbrev waitcd : Fin NOSEM := 0

abbrev buffa : Fin NOSEM := 1

abbrev buffb : Fin NOSEM := 2

abbrev totald : Fin NOSEM := 3

abbrev write : Fin NOSEM := 4

def semName (sd : Fin NOSEM) : CString :=
  match sd with
  | 0 => ⟨[119, 97, 105, 116, 99], by decide⟩
  | 1 => ⟨[98, 117, 102, 102, 97], by decide⟩
  | 2 => ⟨[98, 117, 102, 102, 98], by decide⟩
  | 3 => ⟨[116, 111, 116, 97, 108], by decide⟩
  | 4 => ⟨[119, 114, 105, 116, 101], by decide⟩

namespace Main

variable (main : Main)

/-- The bound of the second loop of `wait`. Every `fork` that succeeds takes an entry of the
process table, so the sum stays far below the range of `int`. -/
def children : ℕ := main.prodNum + main.consNum

def total : ℕ := main.prodNum * main.msgNumPerProd

/-- The initial count of each semaphore. -/
def init (sd : Fin NOSEM) : ℕ :=
  match sd with
  | 0 => 0
  | 1 => MAX_MSG
  | 2 => 0
  | 3 => main.total
  | 4 => 1

def maxVal (sd : Fin NOSEM) : ℕ :=
  match sd with
  | 0 => 0
  | 1 => MAX_MSG
  | 2 => MAX_MSG
  | 3 => main.total
  | 4 => 1

end Main

/-! ## Control points -/

/-- Inside the loop of a producer or consumer: before `sem_wait(buffa)` or
`sem_wait(buffb)`, before `sem_wait(write)`, before the message, before `sem_post(write)`,
and before `sem_post(buffb)` or `sem_post(buffa)`. -/
inductive Phase
  | waitBuff
  | waitWrite
  | message
  | postWrite
  | postBuff
  deriving DecidableEq

/-- `fork i` is the test of the fork loops with `i` children made, and the `fork` that may
follow; `embryo k` is a child that has been given copies of the first `k` descriptors.
`unlinking` and `unlinkLoop` are the second part of `sem_unlink` on the slot found. `wait i`
is the test of the loop of `wait` and the call. `exit k` closes descriptor `k` next. -/
inductive Pc
  | semOpen (sd : Fin NOSEM)
  | fork (i : ℕ)
  | embryo (k : ℕ)
  | semClose (sd : Fin NOSEM)
  | semUnlink (sd : Fin NOSEM)
  | unlinking (sd : Fin NOSEM) (found : Fin NSEM)
  | unlinkLoop (sd : Fin NOSEM) (found : Fin NSEM)
  | loop
  | body (ph : Phase)
  | wait (i : ℕ)
  | exit (k : ℕ)
  | exited
  | reaped
  deriving DecidableEq

end OsSolutions.ProdCons
