import OsSolutions.Source.Sem

/-! # Processes on the semaphore table

Any number of processes call `sem_open`, `semdup`, `sem_close` and `sem_unlink`. One step
is one critical section under `stable.gslock`. -/

namespace OsSolutions.Table

/-- Where a process stands: outside any call, between the two sections of a `sem_open`
that creates, between the two sections of `sem_unlink`, or in the loop of `sem_unlink`
(`SLEEPING` or made runnable again). -/
inductive Pc
  | idle
  | opening (spot : Fin NSEM) (name : CString) (init maxVal : Int32)
  | unlinking (name : CString) (found : Fin NSEM)
  | waiting (name : CString) (found : Fin NSEM) (asleep : Bool)
  deriving DecidableEq

/-- An outstanding reference of a process to a slot, with the name it was opened under. -/
structure Hold (P : Type*) where
  proc : P
  slot : Fin NSEM
  name : CString
  deriving DecidableEq

/-- `holds` is bookkeeping of the model: it only decides who may duplicate and close. -/
structure State (P : Type*) where
  table : STable
  pc : P → Pc
  killed : P → Bool
  holds : List (Hold P)

/-- A process enters a call, or runs the next section of the one it is in; or somebody
kills it. `dup h q` is `semdup` on behalf of a new holder `q`. -/
inductive Act (P : Type*)
  | open (p : P) (name : CString) (init maxVal : Int32)
  | dup (h : Hold P) (q : P)
  | close (h : Hold P)
  | unlink (p : P) (name : CString)
  | resume (p : P)
  | kill (p : P)

variable {P : Type*} [DecidableEq P]

/-- The zeroed table of `seminit`. -/
def start : State P := ⟨.zero, fun _ => .idle, fun _ => false, []⟩

/-- `wakeup(&stable.gslock)`: the lock is the first member of `stable`, so the channel is
the one on which every unlinker sleeps. -/
def wakeup (pc : P → Pc) : P → Pc := fun p =>
  match pc p with
  | .waiting name found _ => .waiting name found false
  | c => c

namespace State

def goto (st : State P) (p : P) (c : Pc) : State P :=
  { st with pc := Function.update st.pc p c }

def wakeIf (st : State P) (wake : Bool) : State P :=
  if wake then { st with pc := wakeup st.pc } else st

/-- One pass of the loop of `sem_unlink`; `sleep` releases the lock and sleeps at once. -/
def unlinkPass (st : State P) (p : P) (name : CString) (found : Fin NSEM) : State P :=
  match semUnlinkPass (st.killed p) st.table found with
  | (t, some _) => { st with table := t }.goto p .idle
  | (t, none) => { st with table := t }.goto p (.waiting name found true)

end State

/-- `pid` gives the processes their pids. -/
def step (pid : P → Int32) (st : State P) : Act P → Option (State P)
  | .open p name init maxVal =>
      if st.pc p = .idle then
        match semOpenScan st.table name (List.finRange NSEM) none with
        | .attach s =>
            some { st with table := semdup st.table s, holds := ⟨p, s, name⟩ :: st.holds }
        | .create (some spot) => some (st.goto p (.opening spot name init maxVal))
        | .create none => some st
      else none
  | .dup h q =>
      if h ∈ st.holds ∧ st.pc h.proc = .idle then
        some { st with
          table := semdup st.table h.slot, holds := { h with proc := q } :: st.holds }
      else none
  | .close h =>
      if h ∈ st.holds ∧ st.pc h.proc = .idle then
        let (t, wake) := semClose st.table h.slot
        some ({ st with table := t, holds := st.holds.erase h }.wakeIf wake)
      else none
  | .unlink p name =>
      if st.pc p = .idle then
        match semUnlinkScan st.table name (List.finRange NSEM) none with
        | some found => some (st.goto p (.unlinking name found))
        | none => some st
      else none
  | .resume p =>
      match st.pc p with
      | .opening spot name init maxVal =>
          some ({ st with
            table := semOpenInit st.table spot name init maxVal (pid p)
            holds := ⟨p, spot, name⟩ :: st.holds }.goto p .idle)
      | .unlinking name found =>
          some ({ st with table := semUnlinkMark st.table found }.unlinkPass p name found)
      | .waiting name found false => some (st.unlinkPass p name found)
      | _ => none
  | .kill p =>
      -- `kill` makes a sleeping process runnable, wherever it sleeps
      let pc := match st.pc p with
        | .waiting name found _ => .waiting name found false
        | c => c
      some { st.goto p pc with killed := Function.update st.killed p true }

end OsSolutions.Table
