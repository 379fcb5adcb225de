import OsSolutions.Source.CString
import Mathlib.Algebra.Group.Nat.Defs
import Mathlib.Data.Int.Notation
import Mathlib.Data.List.FinRange

/-! # Named semaphores (`sem.h` and `sem.c`)

Every critical section of `sem.c` is a function here: sections under `sslock` act on
one `Sem`, sections under `stable.gslock` on the whole table. A function under the
source's own name composes the sections of one call made without interference. The
locks are not part of the state, because one section is one step of every machine. -/

namespace OsSolutions

abbrev NSEM : ℕ := 7

abbrev SEMNAME : ℕ := 10

/-- `struct sem` without its lock. `bytes` is the storage that starts at `name`: the
field itself at offsets 0 to 5, two bytes of padding, and `owner_pid`, little-endian,
at offsets 8 to 11. `ref` is taken as a mathematical integer, which the `int` of the code is as long
as fewer than `2 ^ 31` references to the slot are outstanding. -/
structure Sem where
  bytes : Bytes
  count : Int32
  ref : ℤ
  maxVal : Int32
  linked : Bool
  waitingForDeath : Bool

namespace Sem

/-- A slot of the zeroed data segment. -/
def zero : Sem := ⟨fun _ => 0, 0, 0, 0, false, false⟩

/-- Byte `k` of a pid in memory. -/
def pidByte (pid : Int32) (k : ℕ) : UInt8 := UInt8.ofNat (pid.toUInt32.toNat / 256 ^ k)

def ownerPid (s : Sem) : Int32 :=
  (UInt32.ofNat ((s.bytes 8).toNat + 256 * (s.bytes 9).toNat + 256 ^ 2 * (s.bytes 10).toNat
    + 256 ^ 3 * (s.bytes 11).toNat)).toInt32

def setOwnerPid (s : Sem) (pid : Int32) : Sem :=
  { s with bytes := fun i => if 8 ≤ i ∧ i < 12 then pidByte pid (i - 8) else s.bytes i }

end Sem

/-! ## Sections under `sslock` -/

/-- One pass of the loop of `sem_wait`: the returned value, or `none` to sleep. -/
def semWaitPass (killed : Bool) (s : Sem) : Sem × Option ℤ :=
  if 0 < s.count then
    ({ s with count := s.count - 1 }, some 0)
  else if killed then
    (s, some (-1))
  else
    (s, none)

def semTryWait (s : Sem) : Sem × ℤ :=
  if 0 < s.count then ({ s with count := s.count - 1 }, 0) else (s, -1)

/-- The slot, the result, and whether sleepers on the slot are woken. -/
def semPost (s : Sem) : Sem × ℤ × Bool :=
  if s.count = s.maxVal then
    (s, -2, false)
  else
    ({ s with count := s.count + 1 }, 0, s.count + 1 = 1)

/-- The test with which `sem_reset` begins, made without the lock. -/
def semResetRefuses (pid newVal newMaxVal : Int32) (s : Sem) : Bool :=
  pid ≠ s.ownerPid ∨ (0 ≤ newMaxVal ∧ newMaxVal < s.maxVal) ∨ (newMaxVal < 0 ∧ newVal < 0)

/-- The first section of `sem_reset`, entered when `newVal >= 0`. -/
def semResetCount (newVal : Int32) (s : Sem) : Sem × Bool :=
  ({ s with count := newVal }, 0 < newVal ∧ s.count = 0)

/-- The second section of `sem_reset`, entered when `newMaxVal > s->maxVal`. -/
def semResetMax (newMaxVal : Int32) (s : Sem) : Sem :=
  { s with maxVal := newMaxVal }

def semReset (pid newVal newMaxVal : Int32) (s : Sem) : Sem × ℤ :=
  if semResetRefuses pid newVal newMaxVal s then
    (s, -1)
  else
    let s := if 0 ≤ newVal then (semResetCount newVal s).1 else s
    let s := if s.maxVal < newMaxVal then semResetMax newMaxVal s else s
    (s, 0)

/-! ## Sections under `gslock` -/

abbrev STable := Fin NSEM → Sem

namespace STable

def zero : STable := fun _ => Sem.zero

/-- Write to the slot behind a pointer. -/
def modify (t : STable) (s : Fin NSEM) (f : Sem → Sem) : STable :=
  Function.update t s (f (t s))

end STable

def semdup (t : STable) (s : Fin NSEM) : STable :=
  t.modify s fun x => { x with ref := x.ref + 1 }

/-- The name test of `sem_open` and `sem_unlink`. -/
def Sem.matches (x : Sem) (name : CString) : Bool := strncmp x.bytes name.ptr SEMNAME = 0

/-- How the scan of `sem_open` ends: on an open slot of that name, or at the end of the
table with the first free slot met, if any. -/
inductive Scan
  | attach (s : Fin NSEM)
  | create (spot : Option (Fin NSEM))

/-- The `for` loop of `sem_open`, over the slots still to visit. -/
def semOpenScan (t : STable) (name : CString) :
    List (Fin NSEM) → Option (Fin NSEM) → Scan
  | [], spot => .create spot
  | s :: rest, spot =>
      if 0 < (t s).ref ∧ (t s).matches name then
        .attach s
      else if (t s).linked = false ∧ spot = none then
        semOpenScan t name rest (some s)
      else
        semOpenScan t name rest spot

/-- The assignments of the second section of `sem_open`. `owner_pid` is stored after the
name and over its tail. -/
def Sem.opened (x : Sem) (name : CString) (init maxVal pid : Int32) : Sem :=
  let named := { x with bytes := safestrcpy x.bytes name.ptr SEMNAME }
  { named.setOwnerPid pid with
    linked := true, ref := 1, count := init, maxVal := maxVal, waitingForDeath := false }

/-- The second section of `sem_open`, on the slot found free by the first. -/
def semOpenInit (t : STable) (spot : Fin NSEM) (name : CString) (init maxVal pid : Int32) :
    STable :=
  t.modify spot fun x => x.opened name init maxVal pid

def semOpen (t : STable) (name : CString) (init maxVal pid : Int32) :
    STable × Option (Fin NSEM) :=
  match semOpenScan t name (List.finRange NSEM) none with
  | .attach s => (semdup t s, some s)
  | .create (some spot) => (semOpenInit t spot name init maxVal pid, some spot)
  | .create none => (t, none)

/-- The table, and whether sleepers on `stable` are woken. The result is always 0. -/
def semClose (t : STable) (s : Fin NSEM) : STable × Bool :=
  let t := t.modify s fun x => { x with ref := x.ref - 1 }
  (t, (t s).ref = 0 ∧ (t s).waitingForDeath)

/-- The `for` loop of `sem_unlink`, over the slots still to visit. -/
def semUnlinkScan (t : STable) (name : CString) :
    List (Fin NSEM) → Option (Fin NSEM) → Option (Fin NSEM)
  | [], found => found
  | s :: rest, found =>
      if found.isSome then
        found
      else if (t s).matches name then
        semUnlinkScan t name rest (some s)
      else
        semUnlinkScan t name rest none

def semUnlinkMark (t : STable) (found : Fin NSEM) : STable :=
  t.modify found fun x => { x with waitingForDeath := true }

/-- One pass of the loop of `sem_unlink`: the returned value, or `none` to sleep. -/
def semUnlinkPass (killed : Bool) (t : STable) (found : Fin NSEM) : STable × Option ℤ :=
  if (t found).ref = 0 then
    (t.modify found fun x => { x with linked := false }, some 0)
  else if killed then
    (t, some (-1))
  else
    (t, none)

/-- How far a call of `sem_unlink` gets without interference. -/
inductive Unlink
  | ret (r : ℤ)
  | sleep (found : Fin NSEM)
  deriving DecidableEq

def semUnlink (killed : Bool) (t : STable) (name : CString) : STable × Unlink :=
  match semUnlinkScan t name (List.finRange NSEM) none with
  | none => (t, .ret (-1))
  | some found =>
      match semUnlinkPass killed (semUnlinkMark t found) found with
      | (t, some r) => (t, .ret r)
      | (t, none) => (t, .sleep found)

end OsSolutions
