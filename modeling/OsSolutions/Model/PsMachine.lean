import OsSolutions.Source.Ps
import OsSolutions.Transition.Run
import Mathlib.Algebra.Group.Int.Defs

/-! # The processes that `ps` shows

From boot on, processes fork, exit, wait and load programs, one call at a time. -/

namespace OsSolutions.Ps

/-- The process that runs, and its call. `fork` carries the outcomes of `kalloc` and
`copyuvm`. -/
inductive Act
  | fork (p : Fin NPROC) (kalloc copyuvm : Bool)
  | exit (p : Fin NPROC)
  | wait (p : Fin NPROC)
  | exec (p : Fin NPROC) (last : CString)

/-- A call of a process that does not run, or a `wait` with nothing to return yet, is no
step. -/
def step (t : Table) : Act → Option Table
  | .fork p kalloc copyuvm =>
      if (t.proc p).state = .runnable then some (t.fork p kalloc copyuvm).1 else none
  | .exit p => if (t.proc p).state = .runnable then t.exit p else none
  | .wait p => if (t.proc p).state = .runnable then (t.wait p).map Prod.fst else none
  | .exec p last => if (t.proc p).state = .runnable then some (t.exec p last) else none

/-- The next pid does not wrap. -/
def NoWrap (t : Table) (_ : Act) : Prop := t.nextpid.toInt + 1 < 2 ^ 31

instance (t : Table) (a : Act) : Decidable (NoWrap t a) := inferInstanceAs (Decidable (_ < _))

end OsSolutions.Ps
