import OsSolutions.Source.Sem

/-! # Calls on the semaphore table, one at a time

Each call runs to its end before the next begins, except that a `sem_unlink` that has to
wait keeps its slot pointer and looks again at any later time. -/

namespace OsSolutions.Calls

/-- A name that `sem_open` stores and compares without touching `owner_pid`. -/
abbrev Name := { name : CString // name.length ≤ 7 }

structure State (P : Type*) where
  table : STable
  blocked : P → Option (Fin NSEM × Name)

/-- `semdup` and `sem_close` come with any slot. The two actions of an unlinker carry its
`killed` flag at the time. -/
inductive Act (P : Type*)
  | open (name : Name) (init maxVal pid : Int32)
  | dup (s : Fin NSEM)
  | close (s : Fin NSEM)
  | unlink (p : P) (name : Name) (killed : Bool)
  | recheck (p : P) (killed : Bool)

variable {P : Type*} [DecidableEq P]

def start : State P := ⟨.zero, fun _ => none⟩

def step (st : State P) : Act P → Option (State P)
  | .open name init maxVal pid =>
      some { st with table := (semOpen st.table name init maxVal pid).1 }
  | .dup s => some { st with table := semdup st.table s }
  | .close s => some { st with table := (semClose st.table s).1 }
  | .unlink p name killed =>
      match st.blocked p with
      | none =>
          match semUnlink killed st.table name with
          | (t, .ret _) => some { st with table := t }
          | (t, .sleep found) =>
              some ⟨t, Function.update st.blocked p (some (found, name))⟩
      | some _ => none
  | .recheck p killed =>
      match st.blocked p with
      | some (found, _) =>
          match semUnlinkPass killed st.table found with
          | (t, some _) => some ⟨t, Function.update st.blocked p none⟩
          | (t, none) => some { st with table := t }
      | none => none

end OsSolutions.Calls
