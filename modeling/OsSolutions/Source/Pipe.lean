import Mathlib.Algebra.Group.Nat.Defs
import Mathlib.Logic.Function.Basic

/-! # Pipes (`pipe.c`)

A critical section of `pipewrite` or `piperead` goes from an acquisition of the lock, by a
call or by a return from `sleep`, to the next release, by a return or by `sleep`. -/

namespace OsSolutions

abbrev PIPESIZE : ℕ := 512

/-- `struct pipe` without its lock. -/
structure Pipe where
  data : Fin PIPESIZE → UInt8
  nread : UInt32
  nwrite : UInt32
  readopen : Bool
  writeopen : Bool

namespace Pipe

/-- What `pipealloc` makes of a page. -/
def alloc (page : Fin PIPESIZE → UInt8) : Pipe := ⟨page, 0, 0, true, true⟩

/-- `p->data[n % PIPESIZE]` -/
def slot (n : UInt32) : Fin PIPESIZE := Fin.ofNat PIPESIZE n.toNat

def full (p : Pipe) : Bool := p.nwrite = p.nread + 512

def empty (p : Pipe) : Bool := p.nread = p.nwrite

def put (p : Pipe) (c : UInt8) : Pipe :=
  { p with data := Function.update p.data (slot p.nwrite) c, nwrite := p.nwrite + 1 }

def front (p : Pipe) : UInt8 := p.data (slot p.nread)

def drop (p : Pipe) : Pipe := { p with nread := p.nread + 1 }

end Pipe

/-- How a section of `pipewrite` ends: with the return of `n` or of -1, or asleep on `nwrite`.
`rest` are the bytes from `addr[i]` on. -/
inductive WriteEnd
  | returned
  | failed (rest : List UInt8)
  | asleep (rest : List UInt8)

def WriteEnd.rest : WriteEnd → List UInt8
  | .returned => []
  | .failed rest => rest
  | .asleep rest => rest

/-- The loop of `pipewrite` up to a return or `sleep`. All but the return of -1 wake the
sleepers on `nread`. -/
def pipewrite (killed : Bool) : List UInt8 → Pipe → Pipe × WriteEnd
  | [], p => (p, .returned)
  | c :: cs, p =>
      if p.full then
        if p.readopen = false ∨ killed then (p, .failed (c :: cs)) else (p, .asleep (c :: cs))
      else
        pipewrite killed cs (p.put c)

/-- The copying loop of `piperead`. -/
def copyOut : ℕ → Pipe → Pipe × List UInt8
  | 0, p => (p, [])
  | n + 1, p =>
      if p.empty then (p, [])
      else
        let (q, cs) := copyOut n p.drop
        (q, p.front :: cs)

/-- How a section of `piperead` ends: with the return of bytes or of -1, or asleep on
`nread`. -/
inductive ReadEnd
  | returned (bytes : List UInt8)
  | failed
  | asleep

/-- A return with bytes, also with none, wakes the sleepers on `nwrite`. -/
def piperead (killed : Bool) (n : ℕ) (p : Pipe) : Pipe × ReadEnd :=
  if p.empty && p.writeopen then
    if killed then (p, .failed) else (p, .asleep)
  else
    let (q, cs) := copyOut n p
    (q, .returned cs)

/-- Closes one end and wakes the sleepers on the other side. The page is freed if the other end
is closed as well. -/
def pipeclose (writable : Bool) (p : Pipe) : Pipe × Bool :=
  let q := if writable then { p with writeopen := false } else { p with readopen := false }
  (q, !q.readopen && !q.writeopen)

end OsSolutions
