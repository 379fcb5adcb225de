import OsSolutions.Source.Stdio
import Mathlib.Logic.Function.Basic

/-! # The polygon program (`ex1/q1/main.c`)

One word holds a polygon and what to do. A `char` is an `Int8`. Memory for a new list node is
never short. `ex2/q1/main.c` has the same functions, with the body of the main loop as
`runOnPolygon`. -/

namespace OsSolutions.Polygon

/-! ## The fields of a word -/

def isLastIteration (input : UInt64) : Bool := input &&& 0x1 ≠ 0

def isNewPolygon (input : UInt64) : Bool := 0 < input &&& 0x2

def getPolygonType (input : UInt64) : Int8 := (input &&& 0x4).toUInt8.toInt8

def getAction (input : UInt64) : Int8 := (input &&& 0x38).toUInt8.toInt8

def getWhomRunOn (input : UInt64) : Int8 := ((input &&& 0xc0) >>> 6).toUInt8.toInt8

/-- The coordinates that the source stores through `_x` and `_y`. -/
def getXAndY (input : UInt64) (vertixNumber : ℕ) : Int8 × Int8 :=
  let n := UInt64.ofNat (vertixNumber * 12)
  let x := ((input &&& (0x3f00 <<< n)) >>> (8 + n)).toUInt8.toInt8
  let y := ((input &&& (0xfc000 <<< n)) >>> (14 + n)).toUInt8.toInt8
  (if x < 32 then x else x ^^^ 0xc0, if y < 32 then y else y ^^^ 0xc0)

def TRIANGLE : Int8 := 0

def SQUARE : Int8 := 4

def THIS_POLYGON : Int8 := 0

def ALL_TRIANGLES : Int8 := 1

def ALL_SQUARES : Int8 := 2

def ALL_POLYGONS : Int8 := 3

def WRITE_VERTICES : Int8 := 0b1000

def CALC_PERIMETER : Int8 := 0b10000

def CALC_AREA : Int8 := 0b100000

/-! ## Reports -/

/-- What `print_polygon`, `perimeter` or `area` has printed for a polygon. -/
inductive Report
  | vertices (polygon : UInt64)
  | perimeter (polygon : UInt64)
  | area (polygon : UInt64)
  deriving DecidableEq

/-- The texts that `%.1f` makes of the two `float`s computed from a polygon. -/
structure Floats where
  perimeter : UInt64 → String
  area : UInt64 → String

def printPolygon (input : UInt64) : String :=
  let type := getPolygonType input
  let numVertices := if type = SQUARE then 4 else 3
  let vertex := fun i =>
    " \x7b" ++ toString (getXAndY input i).1.toInt ++ ", " ++ toString (getXAndY input i).2.toInt
      ++ "\x7d"
  (if type = SQUARE then "square" else "triangle") ++
    String.join ((List.range numVertices).map vertex) ++ "\n"

def Report.text (floats : Floats) : Report → String
  | .vertices w => printPolygon w
  | .perimeter w => "\t perimeter = " ++ floats.perimeter w ++ "\n"
  | .area w => "\t area = " ++ floats.area w ++ "\n"

/-! ## The list of polygons -/

structure ListNode where
  polygon : UInt64
  next : Option ℕ

/-- The globals of the program, and its output. `malloc` hands out the addresses from 0 on,
and `used` have been handed out. -/
structure Polygons where
  node : ℕ → ListNode
  used : ℕ
  head : Option ℕ
  tail : Option ℕ
  out : List Report

namespace Polygons

def empty : Polygons where
  node _ := ⟨0, none⟩
  used := 0
  head := none
  tail := none
  out := []

/-- The text that the program has printed. -/
def text (st : Polygons) (floats : Floats) : String := String.join (st.out.map (Report.text floats))

/-- `none` stands for the write through a null `tail`. -/
def addPolygon (st : Polygons) (input : UInt64) : Option Polygons :=
  let newItem := st.used
  let st := { st with node := Function.update st.node newItem ⟨input, none⟩, used := newItem + 1 }
  match st.head, st.tail with
  | none, _ => some { st with head := some newItem, tail := some newItem }
  | some _, some tail =>
      some { st with
        node := Function.update st.node tail { st.node tail with next := some newItem }
        tail := some newItem }
  | some _, none => none

def report (st : Polygons) (r : Report) : Polygons := { st with out := st.out ++ [r] }

def PERIMETER : Int8 := 1

def AREA : Int8 := 2

def PRINT_POLYGON : Int8 := 3

/-- `runFunction` for the entries of `polygon_functions` that print. The program calls it with
the constants above only. -/
def runPrinter (func : Int8) (st : Polygons) (input : UInt64) : Polygons :=
  if func = PERIMETER then st.report (.perimeter input)
  else if func = AREA then st.report (.area input)
  else if func = PRINT_POLYGON then st.report (.vertices input)
  else st

def runAction (action : Int8) (st : Polygons) (input : UInt64) : Polygons :=
  let st := if 0 < action &&& WRITE_VERTICES then runPrinter PRINT_POLYGON st input else st
  let st := if 0 < action &&& CALC_PERIMETER then runPrinter PERIMETER st input else st
  if 0 < action &&& CALC_AREA then runPrinter AREA st input else st

def doCurrent (st : Polygons) (input : UInt64) : Polygons := runAction (getAction input) st input

def shouldRunOnThisPolygon (runOn type : Int8) : Bool :=
  runOn = ALL_POLYGONS ∨ runOn = ALL_TRIANGLES ∧ type = TRIANGLE ∨
    runOn = ALL_SQUARES ∧ type = SQUARE

/-- The `while` loop of `do_all`. A list without a cycle has at most `fuel` nodes when `fuel`
nodes have been allocated, so a loop that runs out of it never ends. -/
def doAllLoop (action runOn : Int8) : ℕ → Option ℕ → Polygons → Option Polygons
  | _, none, st => some st
  | 0, some _, _ => none
  | fuel + 1, some itr, st =>
      let polygon := (st.node itr).polygon
      let type := getPolygonType polygon
      doAllLoop action runOn fuel (st.node itr).next
        (if shouldRunOnThisPolygon runOn type then runAction action st polygon else st)

def doAll (st : Polygons) (input : UInt64) : Option Polygons :=
  doAllLoop (getAction input) (getWhomRunOn input) st.used st.head st

def ADD_POLYGON : Int8 := 0

def DO_CURRENT : Int8 := 4

def DO_ALL : Int8 := 5

/-- A call through `polygon_functions`. -/
def runFunction (func : Int8) (st : Polygons) (input : UInt64) : Option Polygons :=
  if func = ADD_POLYGON then st.addPolygon input
  else if func = DO_CURRENT then some (st.doCurrent input)
  else if func = DO_ALL then st.doAll input
  else some (runPrinter func st input)

/-- The body of the main loop on the word that was read, and whether it was the last one. -/
def runOnPolygon (st : Polygons) (polygon : UInt64) : Option (Polygons × Bool) :=
  let runOn := getWhomRunOn polygon
  let added := if isNewPolygon polygon then runFunction ADD_POLYGON st polygon else some st
  let done := added.bind fun st =>
    if runOn = THIS_POLYGON then runFunction DO_CURRENT st polygon
    else runFunction DO_ALL st polygon
  done.map fun st => (st, isLastIteration polygon)

end Polygons

end OsSolutions.Polygon
