import OsSolutions.Source.Polygon

/-! # The main loop of `ex1/q1`

One step is one pass of the `while` loop of `main`. `input` keeps its value when `scanf`
stores nothing; at first it is whatever the stack holds. -/

namespace OsSolutions.Polygon

structure Loop where
  stdin : Text
  input : UInt64
  polygons : Polygons
  done : Bool

namespace Loop

def start (stdin : Text) (input : UInt64) : Loop := ⟨stdin, input, .empty, false⟩

/-- `none` when the loop is over, or when a function that it calls does not return. -/
def step (st : Loop) (_ : Unit) : Option Loop :=
  if st.done then none
  else
    let (value, stdin) := scanHex16 st.stdin
    let input := value.getD st.input
    (st.polygons.runOnPolygon input).map fun (polygons, done) => ⟨stdin, input, polygons, done⟩

end Loop

/-- Reading the text one item after the other gives the values. What follows is not read. -/
def Reads {α : Type*} (scan : Text → Option α × Text) : Text → List α → Prop
  | _, [] => True
  | s, a :: as => ∃ s', scan s = (some a, s') ∧ Reads scan s' as

end OsSolutions.Polygon
