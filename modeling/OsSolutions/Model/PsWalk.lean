import OsSolutions.Source.Ps
import OsSolutions.Transition.Run

/-! # The calls of `print_proc_and_children`

`ps` walks a table that does not change meanwhile. One step is one call of
`print_proc_and_children` up to its loop; the calls of the loop come next, before those that
were due already. -/

namespace OsSolutions.Ps

/-- A table in which no process has more children than `struct proc_data` has room for. -/
structure SmallTable extends Table where
  few : ∀ p, ((List.finRange NPROC).filter fun q => (proc q).parent = some p).length ≤ MAX_CHILDREN

/-- The calls that are due, each with the loop variables that lead to it, and the lines that
have been printed. -/
structure Walk where
  calls : List (List ℕ × Int32)
  out : List Line

namespace Walk

/-- `print_proc_and_children` is called with `pid`. -/
def start (pid : Int32) : Walk := ⟨[([], pid)], []⟩

/-- `stack` is what the local `p` of each call holds at first. `get_proc_data` may leave it as
it is. -/
def step (t : SmallTable) (stack : List ℕ → ProcData) (w : Walk) (_ : Unit) : Option Walk :=
  match w.calls with
  | [] => none
  | (path, pid) :: calls =>
      let p := (t.sysGetProcData true pid (stack path)).1
      let loop := (List.range p.chldNum.toNat).map fun i => (path ++ [i], (p.pids i).toInt32)
      some ⟨loop ++ calls, w.out ++ [printProcData p]⟩

end Walk

end OsSolutions.Ps
