import OsSolutions.Transition.Run
import Mathlib.Logic.Function.Basic

/-! # A store with transactions

Operations change the contents at their will between their start and their end. A commit makes
all changes durable at once and comes only when no operation is active, and a crash
takes the contents back to the last commit. -/

namespace Storage

open Transition

variable {ι V : Type*}

structure Store (ι V : Type*) where
  now : ι → V
  durable : ι → V
  active : ℕ

/-- What the operations and the outside world do. -/
inductive Event (ι V : Type*)
  | start
  | write (i : ι) (v : V)
  | finish
  | crash

inductive Act (ι V : Type*)
  | event (e : Event ι V)
  | commit

def Act.events : Act ι V → List (Event ι V)
  | .event e => [e]
  | .commit => []

namespace Store

def init (c : ι → V) : Store ι V := ⟨c, c, 0⟩

def crashed (s : Store ι V) : Store ι V := init s.durable

variable [DecidableEq ι]

def put (s : Store ι V) (i : ι) (v : V) : Store ι V :=
  { s with now := Function.update s.now i v }

def step (s : Store ι V) : Act ι V → Option (Store ι V)
  | .event .start => some { s with active := s.active + 1 }
  | .event (.write i v) => if s.active > 0 then some (s.put i v) else none
  | .event .finish => if s.active > 0 then some { s with active := s.active - 1 } else none
  | .event .crash => some s.crashed
  | .commit => if s.active = 0 then some { s with durable := s.now } else none

variable {s t : Store ι V}

theorem run_event {e : Event ι V} (h : s.step (.event e) = some t) :
    run step s [.event e] = some t := by
  simp [run_cons, h]

theorem step_start (s : Store ι V) :
    s.step (.event .start) = some { s with active := s.active + 1 } := rfl

theorem step_write {i : ι} {v : V} (h : 0 < s.active) :
    s.step (.event (.write i v)) = some (s.put i v) := if_pos h

theorem step_finish (h : 0 < s.active) :
    s.step (.event .finish) = some { s with active := s.active - 1 } := if_pos h

theorem step_commit (h : s.active = 0) : s.step .commit = some { s with durable := s.now } :=
  if_pos h

end Store

end Storage
