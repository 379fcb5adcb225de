import OsSolutions.Source.ProdCons
import Mathlib.Data.Fintype.Option
import Mathlib.Data.Fintype.Basic

/-! # The processes of `pc.c`

The parent opens the semaphores, forks the producers and the consumers, and waits for them.
One step is one critical section, or one loop test, message or part of `fork`, `exit` or
`wait`. Nobody is killed, every `fork` has memory and a free process entry, and no other
program uses semaphores. -/

namespace OsSolutions.ProdCons

/-- `none` is the parent. The producers are the children with the smaller numbers. -/
abbrev Proc (main : Main) := Option (Fin main.children)

/-- What a process can sleep on: a semaphore, `stable`, or its own process entry. -/
inductive Chan (main : Main)
  | sem (s : Fin NSEM)
  | stable
  | proc (p : Proc main)
  deriving DecidableEq

/-- `chan p` is `none` when `p` is not `SLEEPING`. `rounds` is the loop variable `j`, which a
consumer does not have but counts its finished rounds all the same. `opened`, `written` and
`taken` are bookkeeping: the slots that `main` got, and the messages of the producers and
of the consumers. -/
structure State (main : Main) where
  table : STable
  osem : Proc main → Fin NOSEM → Option (Fin NSEM)
  pc : Proc main → Pc
  chan : Proc main → Option (Chan main)
  rounds : Proc main → ℕ
  opened : Fin NOSEM → Option (Fin NSEM)
  written : ℕ
  taken : ℕ

/-- A process that is not asleep runs its next section; or the `wait` of the parent finds
the zombie `i`. Which zombie it finds first depends on the process table. -/
inductive Act (main : Main)
  | run (p : Proc main)
  | reap (i : Fin main.children)

variable {main : Main}

def start (main : Main) (table : STable) : State main where
  table := table
  osem _ _ := none
  pc p := if p = none then .semOpen waitcd else .embryo 0
  chan _ := none
  rounds _ := 0
  opened _ := none
  written := 0
  taken := 0

namespace Proc

def isProducer : Proc main → Bool
  | none => false
  | some i => i.val < main.prodNum

/-- The semaphore of the first `sem_wait` of a round. -/
def waits (p : Proc main) : Fin NOSEM := if p.isProducer then buffa else buffb

/-- The semaphore of the last `sem_post` of a round. -/
def posts (p : Proc main) : Fin NOSEM := if p.isProducer then buffb else buffa

/-- After `sem_open`: the next one, or the fork loops. -/
def afterOpen (sd : Fin NOSEM) : Pc :=
  if h : sd.val + 1 < NOSEM then .semOpen ⟨sd.val + 1, h⟩ else .fork 0

/-- After `sem_close`: a child unlinks "waitc"; the parent waits for the children once it has
closed `waitcd`, and unlinks the other semaphores. -/
def afterClose (p : Proc main) (sd : Fin NOSEM) : Pc :=
  if p = none ∧ sd = waitcd then .wait 0 else .semUnlink sd

/-- After `sem_unlink`: a child enters its loop; the parent goes on to the next semaphore. -/
def afterUnlink (p : Proc main) (sd : Fin NOSEM) : Pc :=
  if p = none then
    if h : sd.val + 1 < NOSEM then .semClose ⟨sd.val + 1, h⟩ else .exit 0
  else .loop

end Proc

namespace State

def goto (st : State main) (p : Proc main) (c : Pc) : State main :=
  { st with pc := Function.update st.pc p c }

def setRounds (st : State main) (p : Proc main) (j : ℕ) : State main :=
  { st with rounds := Function.update st.rounds p j }

def setOsem (st : State main) (p : Proc main) (sd : Fin NOSEM) (v : Option (Fin NSEM)) :
    State main :=
  { st with osem := Function.update st.osem p (Function.update (st.osem p) sd v) }

def withTable (st : State main) (t : STable) : State main := { st with table := t }

/-- Write to the slot of a semaphore. -/
def setSem (st : State main) (s : Fin NSEM) (x : Sem) : State main :=
  st.withTable (st.table.modify s fun _ => x)

def sleep (st : State main) (p : Proc main) (c : Chan main) : State main :=
  { st with chan := Function.update st.chan p (some c) }

/-- `wakeup` on the channel, if `wake` says so. -/
def wakeIf (st : State main) (wake : Bool) (c : Chan main) : State main :=
  { st with chan := fun p => if wake ∧ st.chan p = some c then none else st.chan p }

/-- One pass of the loop of `sem_wait`. -/
def semWait (st : State main) (p : Proc main) (sd : Fin NOSEM) (next : Pc) : State main :=
  match st.osem p sd with
  | some s =>
      match semWaitPass false (st.table s) with
      | (x, some _) => (st.setSem s x).goto p next
      | (_, none) => st.sleep p (.sem s)
  | none => st.goto p next

/-- `sem_post`, and the loop variable after it. -/
def semPost (st : State main) (p : Proc main) (sd : Fin NOSEM) (next : Pc) (j : ℕ) :
    State main :=
  match st.osem p sd with
  | some s =>
      let (x, _, wake) := OsSolutions.semPost (st.table s)
      (((st.setSem s x).wakeIf wake (.sem s)).goto p next).setRounds p j
  | none => (st.goto p next).setRounds p j

def semClose (st : State main) (p : Proc main) (sd : Fin NOSEM) (next : Pc) : State main :=
  match st.osem p sd with
  | some s =>
      let (t, wake) := OsSolutions.semClose st.table s
      (((st.withTable t).setOsem p sd none).wakeIf wake .stable).goto p next
  | none => st.goto p next

/-- One pass of the loop of `sem_unlink`. -/
def unlinkPass (st : State main) (p : Proc main) (sd : Fin NOSEM) (found : Fin NSEM) :
    State main :=
  match semUnlinkPass false st.table found with
  | (t, some _) => (st.withTable t).goto p (p.afterUnlink sd)
  | (_, none) => (st.goto p (.unlinkLoop sd found)).sleep p .stable

/-- The `sem_open` of `main`. No other process runs yet, so the call is one step. -/
def semOpen (st : State main) (p : Proc main) (sd : Fin NOSEM) : State main :=
  let (t, spot) := OsSolutions.semOpen st.table (semName sd) (Int32.ofNat (main.init sd))
    (Int32.ofNat (main.maxVal sd)) main.pid
  { ((st.withTable t).setOsem p sd spot).goto p (Proc.afterOpen sd) with
    opened := Function.update st.opened sd spot }

/-- The next descriptor is copied to the child; after the last one the child may run. -/
def fork (st : State main) (p : Proc main) (i : Fin main.children) (k : ℕ) : State main :=
  if h : k < NOSEM then
    match st.osem p ⟨k, h⟩ with
    | some s =>
        ((st.withTable (semdup st.table s)).setOsem (some i) ⟨k, h⟩ (some s)).goto (some i)
          (.embryo (k + 1))
    | none => st.goto (some i) (.embryo (k + 1))
  else
    (st.goto (some i) (.semClose waitcd)).goto p (.fork (i.val + 1))

/-- The test of the loop of a producer or of a consumer. -/
def loop (st : State main) (p : Proc main) : State main :=
  if p.isProducer then
    st.goto p (if st.rounds p < main.msgNumPerProd then .body .waitBuff else .exit 0)
  else
    match st.osem p totald with
    | some s =>
        let (x, r) := semTryWait (st.table s)
        (st.setSem s x).goto p (if r > -1 then .body .waitBuff else .exit 0)
    | none => st.goto p (.exit 0)

/-- `write_prod_msg` or `write_cons_msg`. -/
def message (st : State main) (p : Proc main) : State main :=
  if p.isProducer then { st with written := st.written + 1 } else { st with taken := st.taken + 1 }

def body (st : State main) (p : Proc main) : Phase → State main
  | .waitBuff => st.semWait p p.waits (.body .waitWrite)
  | .waitWrite => st.semWait p write (.body .message)
  | .message => (st.message p).goto p (.body .postWrite)
  | .postWrite => st.semPost p write (.body .postBuff) (st.rounds p)
  | .postBuff => st.semPost p p.posts .loop (st.rounds p + 1)

/-- The search of `wait` when it finds no zombie. -/
def waitNoZombie (st : State main) (p : Proc main) (i : ℕ) : State main :=
  if ∀ c, st.pc (some c) = .reaped then st.goto p (.wait (i + 1)) else st.sleep p (.proc p)

/-- The next descriptor is closed; after the last one the parent is woken and the process is
a zombie. -/
def exit (st : State main) (p : Proc main) (k : ℕ) : State main :=
  if h : k < NOSEM then
    st.semClose p ⟨k, h⟩ (.exit (k + 1))
  else
    (st.wakeIf true (.proc none)).goto p .exited

end State

/-- The next section of a process that is not asleep. -/
def exec (st : State main) (p : Proc main) : Option (State main) :=
  match st.pc p with
  | .semOpen sd => some (st.semOpen p sd)
  | .fork i =>
      if h : i < main.children then
        match st.pc (some ⟨i, h⟩) with
        | .embryo k => some (st.fork p ⟨i, h⟩ k)
        | _ => none
      else
        some (st.goto p (.semClose waitcd))
  | .semClose sd => some (st.semClose p sd (p.afterClose sd))
  | .semUnlink sd =>
      match semUnlinkScan st.table (semName sd) (List.finRange NSEM) none with
      | some found => some (st.goto p (.unlinking sd found))
      | none => some (st.goto p (p.afterUnlink sd))
  | .unlinking sd found =>
      some ((st.withTable (semUnlinkMark st.table found)).unlinkPass p sd found)
  | .unlinkLoop sd found => some (st.unlinkPass p sd found)
  | .loop => some (st.loop p)
  | .body ph => some (st.body p ph)
  | .wait i =>
      if i < main.children then
        if ∃ c, st.pc (some c) = .exited then none else some (st.waitNoZombie p i)
      else
        some (st.goto p (.semClose buffa))
  | .exit k => some (st.exit p k)
  | .embryo _ | .exited | .reaped => none

def step (st : State main) : Act main → Option (State main)
  | .run p => if st.chan p = none then exec st p else none
  | .reap c =>
      match st.pc none with
      | .wait i =>
          if i < main.children ∧ st.chan none = none ∧ st.pc (some c) = .exited then
            some ((st.goto (some c) .reaped).goto none (.wait (i + 1)))
          else none
      | _ => none

end OsSolutions.ProdCons
