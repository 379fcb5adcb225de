import OsSolutions.Model.PolygonLoop

/-! # The main process and the readers of `ex2/q1`

`runMainLoop` asks one of two readers for the next word, a byte for each word. The readers
share the standard input with it, and one pipe for their replies. One step is one call of
`scanf`, `read`, `write`, `close` or `wait`, or one `runOnPolygon`.

The standard input is one text that the three processes consume in turn, the reply pipe holds
the words themselves, and no pipe fills up. The writer process, which is also a child of
`main`, outlives the readers: they hold its pipe open. -/

namespace OsSolutions.Readers

open OsSolutions.Polygon

/-- The form of a word in the input: two halves for `reader32`, one number for `reader64`. -/
inductive Width
  | w32
  | w64
  deriving DecidableEq

/-- Where `main` stands in `runMainLoop`, or behind its loop. -/
inductive MainPc
  | scan
  | request
  | read
  | run
  | stop
  | close32
  | close64
  | wait (reaped : Fin 2)
  | exited
  deriving DecidableEq

/-- Whether `runMainLoop` has left its loop. -/
def MainPc.left : MainPc → Bool
  | .scan | .request | .read | .run => false
  | _ => true

/-- Where a reader stands: only `reader32` has the second `scanf`. -/
inductive ReaderPc
  | read
  | scan
  | scanHigh
  | write
  | exited
  deriving DecidableEq

/-- The variables of a reader, with its pipe: the bytes in it, and whether `main` has the
write end. -/
structure Reader where
  pc : ReaderPc
  pipe : Text
  isOpen : Bool
  part0 : UInt64
  part1 : UInt64
  nextPolygon : UInt64

namespace Reader

/-- The first `scanf` of `reader32`. A `scanf` that fails stores nothing. -/
def storeLow (r : Reader) (value : Option UInt64) : Reader :=
  { r with part0 := value.getD r.part0, pc := .scanHigh }

/-- The second `scanf` of `reader32`, and the word made of the two halves. -/
def storeHigh (r : Reader) (value : Option UInt64) : Reader :=
  let part1 := value.getD r.part1
  { r with part1, nextPolygon := (part1 <<< 32) + r.part0, pc := .write }

/-- The `scanf` of `reader64`. -/
def storeWord (r : Reader) (value : Option UInt64) : Reader :=
  { r with nextPolygon := value.getD r.nextPolygon, pc := .write }

end Reader

/-- `processed` and `sent` are bookkeeping: the words that `main` has run on, and those that
the readers have written. `late` counts the calls of `scanf` in the readers after `main` has
left its loop. -/
structure State where
  stdin : Text
  main : MainPc
  readerToRun : Int32
  nextPolygon : UInt64
  polygons : Polygons
  reader : Width → Reader
  fdBoth : List UInt64
  processed : ℕ
  sent : ℕ
  late : ℕ

inductive Act
  | main
  | reader (k : Width)
  deriving DecidableEq

/-- The variables that no one initialises. -/
structure Garbage where
  readerToRun : Int32
  nextPolygon : UInt64
  part0 : UInt64
  part1 : UInt64
  readerPolygon : Width → UInt64

/-- After the two `fork`s of `createReaders`. -/
def start (stdin : Text) (g : Garbage) : State where
  stdin := stdin
  main := .scan
  readerToRun := g.readerToRun
  nextPolygon := g.nextPolygon
  polygons := .empty
  reader k := ⟨.read, [], true, g.part0, g.part1, g.readerPolygon k⟩
  fdBoth := []
  processed := 0
  sent := 0
  late := 0

namespace State

def setReader (st : State) (k : Width) (r : Reader) : State :=
  { st with reader := Function.update st.reader k r }

/-- `write` to the pipe of a reader. -/
def send (st : State) (k : Width) (bytes : Text) : State :=
  st.setReader k { st.reader k with pipe := (st.reader k).pipe ++ bytes }

/-- `close` of the write end of the pipe. -/
def close (st : State) (k : Width) : State := st.setReader k { st.reader k with isOpen := false }

def exited (st : State) (k : Width) : Bool := (st.reader k).pc = .exited

/-- The readers that `wait` can have reaped so far. -/
def zombies (st : State) : ℕ :=
  (if st.exited .w32 then 1 else 0) + (if st.exited .w64 then 1 else 0)

/-- The reader for the number that was scanned. -/
def target (st : State) : Width := if st.readerToRun = 32 then .w32 else .w64

/-- The steps of `runMainLoop`, and of `createReaders` behind it. A `read` of the reply pipe
gets nothing once both readers have exited. -/
def runMain (st : State) : Option State :=
  match st.main with
  | .scan =>
      let (value, stdin) := scanInt st.stdin
      some { st with stdin, readerToRun := value.getD st.readerToRun, main := .request }
  | .request => some { st.send st.target [49] with main := .read }
  | .read =>
      match st.fdBoth with
      | word :: rest => some { st with fdBoth := rest, nextPolygon := word, main := .run }
      | [] => if st.exited .w32 ∧ st.exited .w64 then some { st with main := .run } else none
  | .run =>
      (st.polygons.runOnPolygon st.nextPolygon).map fun (polygons, done) =>
        { st with
          polygons, processed := st.processed + 1, main := if done then .stop else .scan }
  | .stop => some { st.send .w64 [48, 10] with main := .close32 }
  | .close32 => some { st.close .w32 with main := .close64 }
  | .close64 => some { st.close .w64 with main := .wait 0 }
  | .wait reaped =>
      if reaped < st.zombies then
        some { st with main := if reaped = 0 then .wait 1 else .exited }
      else none
  | .exited => none

/-- `read` of one byte of the request pipe: at the end of the file the loop of the reader is
over. -/
def readSignal (st : State) (k : Width) : Option State :=
  match (st.reader k).pipe with
  | _ :: pipe => some (st.setReader k { st.reader k with pipe, pc := .scan })
  | [] =>
      if (st.reader k).isOpen then none
      else some (st.setReader k { st.reader k with pc := .exited })

/-- `scanf` in a reader, which stores the value. -/
def scanf (st : State) (k : Width) (scan : Text → Option UInt64 × Text)
    (store : Reader → Option UInt64 → Reader) : State :=
  let (value, stdin) := scan st.stdin
  { st.setReader k (store (st.reader k) value) with
    stdin, late := if st.main.left then st.late + 1 else st.late }

/-- `write` of the word to the reply pipe. -/
def writeReply (st : State) (k : Width) : State :=
  { st.setReader k { st.reader k with pc := .read } with
    fdBoth := st.fdBoth ++ [(st.reader k).nextPolygon], sent := st.sent + 1 }

def reader32 (st : State) : Option State :=
  match (st.reader .w32).pc with
  | .read => st.readSignal .w32
  | .scan => some (st.scanf .w32 scanLong Reader.storeLow)
  | .scanHigh => some (st.scanf .w32 scanLong Reader.storeHigh)
  | .write => some (st.writeReply .w32)
  | .exited => none

def reader64 (st : State) : Option State :=
  match (st.reader .w64).pc with
  | .read => st.readSignal .w64
  | .scan => some (st.scanf .w64 scanHex16 Reader.storeWord)
  | .scanHigh => none
  | .write => some (st.writeReply .w64)
  | .exited => none

def step (st : State) : Act → Option State
  | .main => st.runMain
  | .reader .w32 => st.reader32
  | .reader .w64 => st.reader64

end State

/-! ## The input -/

/-- A word with its form. -/
structure Entry where
  width : Width
  word : UInt64

/-- Scanning the word in its form leaves `rest`. -/
def ReadsWord (e : Entry) (text rest : Text) : Prop :=
  match e.width with
  | .w32 =>
      ∃ high, scanLong text = (some (e.word &&& 0xffffffff), high) ∧
        scanLong high = (some (e.word >>> 32), rest)
  | .w64 => scanHex16 text = (some e.word, rest)

/-- The text gives the words, each behind the number of its form. What follows is not read. -/
def ReadsEntries : Text → List Entry → Prop
  | _, [] => True
  | text, e :: es =>
      ∃ n body rest, scanInt text = (some n, body) ∧ (n = 32 ↔ e.width = .w32) ∧
        ReadsWord e body rest ∧ ReadsEntries rest es

end OsSolutions.Readers
