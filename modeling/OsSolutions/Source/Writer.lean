import Mathlib.Data.List.Basic

/-! # The writer process (`ex2/q1/writer.c`)

Bytes arrive on the standard input until the other end is closed. A `char` is an `Int8`. One
step of the program is one pass of its loop. -/

namespace OsSolutions.Writer

def EOF : Int32 := -1

/-- `stdin`: the bytes that have arrived so far, and how many of them `getchar` has returned. -/
structure Stream where
  arrived : List UInt8
  taken : ℕ
  closed : Bool

/-- `none` when `getchar` waits for a byte. -/
def getchar (stdin : Stream) : Option (Int32 × Stream) :=
  match stdin.arrived[stdin.taken]? with
  | some c => some (c.toUInt32.toInt32, { stdin with taken := stdin.taken + 1 })
  | none => if stdin.closed then some (EOF, stdin) else none

/-- `putchar` converts its argument to an `unsigned char`. -/
def putchar (c : Int32) (stdout : List UInt8) : List UInt8 := stdout ++ [c.toUInt32.toUInt8]

/-- `done` tells that the loop of `main` is over. -/
structure State where
  stdin : Stream
  stdout : List UInt8
  done : Bool

def start : State := ⟨⟨[], 0, false⟩, [], false⟩

/-- The test and the body of the loop. -/
def loop (st : State) : Option State :=
  if st.done then none
  else
    (getchar st.stdin).map fun (c, stdin) =>
      let ch := c.toInt8
      if ch.toInt32 ≠ EOF then { st with stdin, stdout := putchar ch.toInt32 st.stdout }
      else { st with stdin, done := true }

inductive Act
  | arrive (c : UInt8)
  | close
  | loop
  deriving DecidableEq

/-- Nothing arrives once the other end is closed. -/
def step (st : State) : Act → Option State
  | .arrive c =>
      if st.stdin.closed then none
      else some { st with stdin := { st.stdin with arrived := st.stdin.arrived ++ [c] } }
  | .close =>
      if st.stdin.closed then none else some { st with stdin := { st.stdin with closed := true } }
  | .loop => loop st

end OsSolutions.Writer
