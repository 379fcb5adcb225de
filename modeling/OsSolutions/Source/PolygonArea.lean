import OsSolutions.Source.Polygon
import Mathlib.Data.Rat.Defs

/-! # The area of a polygon (`ex1/q1/main.c`)

`polygonArea` adds up in an `int`. Half of it, which the source returns as a `float`, is a
rational number here. `ex2/q1/main.c` has the same two functions. -/

namespace OsSolutions.Polygon

/-- The loop of `polygonArea` from `i` on, with `left` passes to go. -/
def areaLoop (X Y : List Int32) : ℕ → ℕ → ℕ → Int32 → Int32
  | 0, _, _, area => area
  | left + 1, i, j, area =>
      areaLoop X Y left (i + 1) i
        (area + (X.getD j 0 + X.getD i 0) * (Y.getD j 0 - Y.getD i 0))

/-- The arrays are lists with `numPoints` entries. -/
def polygonArea (X Y : List Int32) (numPoints : ℕ) : ℚ :=
  (areaLoop X Y numPoints 0 (numPoints - 1) 0).toInt / 2

/-- The number that `area` prints. -/
def area (input : UInt64) : ℚ :=
  let numPoints := if getPolygonType input = SQUARE then 4 else 3
  let x := (List.range numPoints).map fun k => (getXAndY input k).1.toInt32
  let y := (List.range numPoints).map fun k => (getXAndY input k).2.toInt32
  polygonArea x y numPoints

end OsSolutions.Polygon
