import OsSolutions.Model.Calls

/-! # Processes on one semaphore

Any number of processes call `sem_wait`, `sem_try_wait`, `sem_post` and `sem_reset` on one
open semaphore. One step is one critical section under `sslock`, or one of the two tests
that `sem_reset` makes without the lock. -/

namespace OsSolutions.Slot

/-- Where a process stands: outside any call, inside the loop of `sem_wait` (`SLEEPING` or
made runnable again), or before the next part of a `sem_reset` that passed its guard. -/
inductive Pc
  | idle
  | waiting (asleep : Bool)
  | resetCount (newVal newMaxVal : Int32)
  | resetTest (newVal newMaxVal : Int32)
  | resetMax (newVal newMaxVal : Int32)
  deriving DecidableEq

/-- A finished call with the value it returned. -/
structure Return (P : Type*) where
  proc : P
  call : Call
  val : ℤ
  deriving DecidableEq

structure State (P : Type*) where
  sem : Sem
  pc : P → Pc
  killed : P → Bool
  returned : List (Return P)

/-- A process enters a call, or runs the next section of the one it is in; or somebody
kills it. -/
inductive Act (P : Type*)
  | wait (p : P)
  | tryWait (p : P)
  | post (p : P)
  | reset (p : P) (newVal newMaxVal : Int32)
  | resume (p : P)
  | kill (p : P)

variable {P : Type*} [DecidableEq P]

/-- Everybody is outside the calls and nothing has returned. -/
def start (s : Sem) : State P := ⟨s, fun _ => .idle, fun _ => false, []⟩

/-- `wakeup(s)` on the channel of the semaphore. -/
def wakeup (pc : P → Pc) : P → Pc := fun p =>
  match pc p with
  | .waiting _ => .waiting false
  | c => c

namespace State

def goto (st : State P) (p : P) (c : Pc) : State P :=
  { st with pc := Function.update st.pc p c }

/-- The call of `p` ends with the value `val`. -/
def finish (st : State P) (p : P) (call : Call) (val : ℤ) : State P :=
  { st.goto p .idle with returned := ⟨p, call, val⟩ :: st.returned }

def wakeIf (st : State P) (wake : Bool) : State P :=
  if wake then { st with pc := wakeup st.pc } else st

/-- One pass of the loop of `sem_wait`; `sleep` releases the lock and sleeps at once. -/
def waitPass (st : State P) (p : P) : State P :=
  match semWaitPass (st.killed p) st.sem with
  | (s, some r) => { st with sem := s }.finish p (.wait (st.killed p)) r
  | (s, none) => { st with sem := s }.goto p (.waiting true)

end State

/-- `pid` gives the processes their pids. -/
def step (pid : P → Int32) (st : State P) : Act P → Option (State P)
  | .wait p => if st.pc p = .idle then some (st.waitPass p) else none
  | .tryWait p =>
      if st.pc p = .idle then
        let (s, r) := semTryWait st.sem
        some ({ st with sem := s }.finish p .tryWait r)
      else none
  | .post p =>
      if st.pc p = .idle then
        let (s, r, wake) := semPost st.sem
        some (({ st with sem := s }.wakeIf wake).finish p .post r)
      else none
  | .reset p newVal newMaxVal =>
      if st.pc p = .idle then
        if semResetRefuses (pid p) newVal newMaxVal st.sem then
          some (st.finish p (.reset (pid p) newVal newMaxVal) (-1))
        else if 0 ≤ newVal then
          some (st.goto p (.resetCount newVal newMaxVal))
        else
          some (st.goto p (.resetTest newVal newMaxVal))
      else none
  | .resume p =>
      match st.pc p with
      | .waiting false => some (st.waitPass p)
      | .resetCount newVal newMaxVal =>
          let (s, wake) := semResetCount newVal st.sem
          some (({ st with sem := s }.wakeIf wake).goto p (.resetTest newVal newMaxVal))
      | .resetTest newVal newMaxVal =>
          if st.sem.maxVal < newMaxVal then
            some (st.goto p (.resetMax newVal newMaxVal))
          else
            some (st.finish p (.reset (pid p) newVal newMaxVal) 0)
      | .resetMax newVal newMaxVal =>
          some ({ st with sem := semResetMax newMaxVal st.sem }.finish p
            (.reset (pid p) newVal newMaxVal) 0)
      | _ => none
  | .kill p =>
      -- `kill` makes a sleeping process runnable, wherever it sleeps
      let pc := if st.pc p = .waiting true then .waiting false else st.pc p
      some { st.goto p pc with killed := Function.update st.killed p true }

/-- Replay one finished call without interference: it has to return the same value. -/
def replay (s : Sem) (r : Return P) : Option Sem :=
  match r.call.exec s with
  | some (s', val) => if val = r.val then some s' else none
  | none => none

end OsSolutions.Slot
