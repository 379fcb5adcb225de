import OsSolutions.Model.ReaderMachine
import OsSolutions.Source.Readers

/-! # The main process and the readers of `ex2/q1` on any input

The machine of `ReaderMachine` with the bytes on their way. The standard input has no buffer, so
a process takes from it character by character what its `scanf` looks at, and keeps the last one
if that does not belong to the number. A reply is the 16 characters that the reader has printed,
and `main` scans what its `polygonBuffer` holds then. -/

namespace OsSolutions.Streams

open Readers

/-! ## The standard input -/

/-- What no process has read, and the character that each process has given back with `ungetc`.
Another process does not get that one. -/
structure Input where
  rest : Text
  pushed : Act → Option UInt8

namespace Input

/-- What a process has before it. -/
def seen (i : Input) (p : Act) : Text := (i.pushed p).toList ++ i.rest

/-- The process has taken what is in front of `text`, and the first character of `text`, which
it gives back. -/
def giveBack (i : Input) (p : Act) (text : Text) : Input :=
  ⟨text.tail, Function.update i.pushed p text.head?⟩

/-- `scanf` looks at the first character behind the number, also where the field width ends the
number. -/
def scanf {α : Type*} (i : Input) (p : Act) (scan : Text → Option α × Text) : Option α × Input :=
  let (value, text) := scan (i.seen p)
  (value, i.giveBack p text)

end Input

/-! ## The processes -/

/-- `stdin` is the text that no process has read. `replies` are the bytes in the reply pipe, and
`fdBoth` the words that they have been printed from, which is bookkeeping. -/
structure Session extends State where
  pushed : Act → Option UInt8
  replies : Text
  polygonBuffer : Vector UInt8 17

/-- The variables that no one initialises. `above` is the memory behind `polygonBuffer`, in each
pass of the loop. -/
structure Stack extends Garbage where
  polygonBuffer : Vector UInt8 17
  above : ℕ → Text

/-- After the two `fork`s of `createReaders`. `stdin` is the text behind the name of the output
file, apart from its first character `delim`: the `scanf` of `main` that has read the name has
given it back, and a `fork` copies it. -/
def start (delim : Option UInt8) (stdin : Text) (g : Stack) : Session where
  toState := Readers.start stdin g.toGarbage
  pushed _ := delim
  replies := []
  polygonBuffer := g.polygonBuffer

namespace Session

def input (s : Session) : Input := ⟨s.stdin, s.pushed⟩

def withInput (s : Session) (i : Input) : Session := { s with stdin := i.rest, pushed := i.pushed }

/-- `polygonBuffer` after the `read` of at most 16 bytes. -/
def fill (s : Session) : Vector UInt8 17 :=
  ⟨(readReply s.replies s.polygonBuffer).toArray, by simp [readReply]⟩

/-- The steps of `runMainLoop`, and of `createReaders` behind it. A `read` of the reply pipe
gets nothing once both readers have exited. -/
def runMain (above : ℕ → Text) (s : Session) : Option Session :=
  match s.main with
  | .scan =>
      let (value, i) := s.input.scanf .main scanInt
      some { s.withInput i with readerToRun := value.getD s.readerToRun, main := .request }
  | .read =>
      if s.replies = [] ∧ ¬(s.exited .w32 ∧ s.exited .w64) then none
      else
        some { s with
          fdBoth := s.fdBoth.tail
          replies := s.replies.drop 16
          polygonBuffer := s.fill
          nextPolygon := (sscanfHex (s.fill.toList ++ above s.processed)).getD s.nextPolygon
          main := .run }
  | _ => s.toState.runMain.map fun st => { s with toState := st }

/-- `scanf` in a reader, which stores the value. -/
def scanf (s : Session) (k : Width) (scan : Text → Option UInt64 × Text)
    (store : Reader → Option UInt64 → Reader) : Session :=
  let (value, i) := s.input.scanf (.reader k) scan
  { s.withInput i with
    reader := Function.update s.reader k (store (s.reader k) value)
    late := if s.main.left then s.late + 1 else s.late }

/-- `write` of the 16 characters to the reply pipe. -/
def writeReply (s : Session) (k : Width) : Session :=
  { s with
    toState := s.toState.writeReply k
    replies := s.replies ++ reply (s.reader k).nextPolygon }

def reader32 (s : Session) : Option Session :=
  match (s.reader .w32).pc with
  | .read => (s.readSignal .w32).map fun st => { s with toState := st }
  | .scan => some (s.scanf .w32 scanLong Reader.storeLow)
  | .scanHigh => some (s.scanf .w32 scanLong Reader.storeHigh)
  | .write => some (s.writeReply .w32)
  | .exited => none

def reader64 (s : Session) : Option Session :=
  match (s.reader .w64).pc with
  | .read => (s.readSignal .w64).map fun st => { s with toState := st }
  | .scan => some (s.scanf .w64 scanHex16 Reader.storeWord)
  | .scanHigh => none
  | .write => some (s.writeReply .w64)
  | .exited => none

def step (above : ℕ → Text) (s : Session) : Act → Option Session
  | .main => s.runMain above
  | .reader .w32 => s.reader32
  | .reader .w64 => s.reader64

end Session

end OsSolutions.Streams
