import OsSolutions.Source.Sem

/-! # Calls on one semaphore, one at a time -/

namespace OsSolutions

/-- A call on an open semaphore. `wait` carries the `killed` flag of its caller and
`reset` the caller's pid. -/
inductive Call
  | wait (killed : Bool)
  | tryWait
  | post
  | reset (pid newVal newMaxVal : Int32)
  deriving DecidableEq

/-- The slot and the returned value of a call made without interference, or `none` for a
`sem_wait` that has to sleep. -/
def Call.exec (s : Sem) : Call → Option (Sem × ℤ)
  | .wait killed => (semWaitPass killed s).2.map fun r => ((semWaitPass killed s).1, r)
  | .tryWait => some (semTryWait s)
  | .post => some ((semPost s).1, (semPost s).2.1)
  | .reset pid newVal newMaxVal => some (semReset pid newVal newMaxVal s)

/-- The machine of calls executed one after the other. -/
def callStep (s : Sem) (c : Call) : Option Sem := (c.exec s).map Prod.fst

end OsSolutions
