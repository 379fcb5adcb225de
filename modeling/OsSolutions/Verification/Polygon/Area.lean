import OsSolutions.Plane.Shoelace
import OsSolutions.Source.PolygonArea
import OsSolutions.Verification.Polygon.Vertices
import Mathlib.Algebra.Order.Field.Rat
import Mathlib.Algebra.Order.Ring.Abs
import Mathlib.Algebra.Order.Ring.Int
import Mathlib.Data.List.Nodup
import Mathlib.Data.List.Perm.Subperm
import Mathlib.Tactic.Linarith
import Mathlib.Tactic.NormNum

/-! # The area

The loop adds up the trapezoids of the edges, which is the shoelace sum with the opposite
sign. The result is the area of the polygons that are listed clockwise, and its negative for
all others. -/

namespace OsSolutions.Polygon

open Plane

/-- A coordinate as the words have them. -/
def InRange (x : Int32) : Prop := -32 ≤ x.toInt ∧ x.toInt ≤ 31

instance (x : Int32) : Decidable (InRange x) := inferInstanceAs (Decidable (_ ∧ _))

/-- The vertices as points of the plane. -/
def points (X Y : List Int32) : List (ℤ × ℤ) :=
  List.zipWith (fun x y => (x.toInt, y.toInt)) X Y

theorem points_length {X Y : List Int32} (h : X.length = Y.length) :
    (points X Y).length = X.length := by
  simp [points, h]

/-! ## The sum is exact -/

/-- The term of one edge is small. -/
theorem abs_trapezoid_le {xj yj xi yi : Int32} (hxj : InRange xj) (hyj : InRange yj)
    (hxi : InRange xi) (hyi : InRange yi) :
    |trapezoid (xj.toInt, yj.toInt) (xi.toInt, yi.toInt)| ≤ 4032 := by
  unfold InRange at *
  have hsum : |xj.toInt + xi.toInt| ≤ 64 := abs_le.mpr ⟨by omega, by omega⟩
  have hdiff : |yj.toInt - yi.toInt| ≤ 63 := abs_le.mpr ⟨by omega, by omega⟩
  rw [trapezoid, abs_mul]
  exact mul_le_mul hsum hdiff (abs_nonneg _) (by decide)

/-- No operation of a pass leaves the range of an `int`. -/
theorem pass_toInt {area xj xi yj yi : Int32} (hxj : InRange xj) (hxi : InRange xi)
    (hyj : InRange yj) (hyi : InRange yi) (h : |area.toInt| ≤ 2 ^ 30) :
    (area + (xj + xi) * (yj - yi)).toInt =
      area.toInt + trapezoid (xj.toInt, yj.toInt) (xi.toInt, yi.toInt) := by
  have harea := abs_le.mp h
  have hprod : -4032 ≤ (xj.toInt + xi.toInt) * (yj.toInt - yi.toInt) ∧
      (xj.toInt + xi.toInt) * (yj.toInt - yi.toInt) ≤ 4032 :=
    abs_le.mp (abs_trapezoid_le hxj hyj hxi hyi)
  unfold InRange at *
  have hsum : (xj + xi).toInt = xj.toInt + xi.toInt := by
    rw [Int32.toInt_add]
    exact Int.bmod_eq_of_le (by omega) (by omega)
  have hdiff : (yj - yi).toInt = yj.toInt - yi.toInt := by
    rw [Int32.toInt_sub]
    exact Int.bmod_eq_of_le (by omega) (by omega)
  have hterm : ((xj + xi) * (yj - yi)).toInt =
      (xj.toInt + xi.toInt) * (yj.toInt - yi.toInt) := by
    rw [Int32.toInt_mul, hsum, hdiff]
    exact Int.bmod_eq_of_le (by omega) (by omega)
  rw [Int32.toInt_add, hterm]
  exact Int.bmod_eq_of_le (by omega) (by omega)

/-- The point at index `i` of the arrays. -/
def point (X Y : List Int32) (i : ℕ) : ℤ × ℤ := ((X.getD i 0).toInt, (Y.getD i 0).toInt)

theorem points_drop {X Y : List Int32} {i : ℕ} (hX : i < X.length) (hY : i < Y.length) :
    (points X Y).drop i = point X Y i :: (points X Y).drop (i + 1) := by
  have hlt : i < (points X Y).length := by simp [points, hX, hY]
  rw [List.drop_eq_getElem_cons hlt]
  simp [points, point, hX, hY]

/-- Arrays with coordinates in range, and no more entries than an `int` can add up. -/
structure Fits (X Y : List Int32) (n : ℕ) : Prop where
  lengthX : X.length = n
  lengthY : Y.length = n
  rangeX : ∀ x ∈ X, InRange x
  rangeY : ∀ y ∈ Y, InRange y
  le : n ≤ 4096

namespace Fits

variable {X Y : List Int32} {n : ℕ}

theorem inRangeX (h : Fits X Y n) {i : ℕ} (hi : i < n) : InRange (X.getD i 0) := by
  have hlt : i < X.length := h.lengthX ▸ hi
  rw [List.getD_eq_getElem _ _ hlt]
  exact h.rangeX _ (List.getElem_mem hlt)

theorem inRangeY (h : Fits X Y n) {i : ℕ} (hi : i < n) : InRange (Y.getD i 0) := by
  have hlt : i < Y.length := h.lengthY ▸ hi
  rw [List.getD_eq_getElem _ _ hlt]
  exact h.rangeY _ (List.getElem_mem hlt)

/-- The loop adds the trapezoids of the path from vertex `j` through the vertices from `i` on. -/
theorem areaLoop_toInt (h : Fits X Y n) {left i j : ℕ} {area : Int32} (hleft : left + i = n)
    (hj : j < n) (harea : |area.toInt| ≤ 4032 * i) :
    (areaLoop X Y left i j area).toInt =
        area.toInt + pathSum trapezoid (point X Y j) ((points X Y).drop i) ∧
      |(areaLoop X Y left i j area).toInt| ≤ 4032 * n := by
  have hle := h.le
  induction left generalizing i j area with
  | zero =>
      obtain rfl : i = n := by omega
      have hall : (points X Y).drop i = [] := by
        simp [points, h.lengthX, h.lengthY]
      simpa [areaLoop, hall] using harea
  | succ left ih =>
      have hi : i < n := by omega
      let next := area + (X.getD j 0 + X.getD i 0) * (Y.getD j 0 - Y.getD i 0)
      have hterm : |trapezoid (point X Y j) (point X Y i)| ≤ 4032 :=
        abs_trapezoid_le (h.inRangeX hj) (h.inRangeY hj) (h.inRangeX hi) (h.inRangeY hi)
      have hnext : next.toInt = area.toInt + trapezoid (point X Y j) (point X Y i) :=
        pass_toInt (h.inRangeX hj) (h.inRangeX hi) (h.inRangeY hj) (h.inRangeY hi) (by omega)
      have hsmall : |next.toInt| ≤ 4032 * (i + 1 : ℕ) := by
        calc |next.toInt|
            ≤ |area.toInt| + |trapezoid (point X Y j) (point X Y i)| := hnext ▸ abs_add_le _ _
          _ ≤ 4032 * i + 4032 := add_le_add harea hterm
          _ = 4032 * (i + 1 : ℕ) := by push_cast; ring
      obtain ⟨hsum, hbound⟩ := ih (by omega) hi hsmall
      refine ⟨?_, hbound⟩
      rw [points_drop (h.lengthX ▸ hi) (h.lengthY ▸ hi), pathSum_cons, ← add_assoc, ← hnext]
      exact hsum

theorem points_eq_concat (h : Fits X Y n) (hn : 0 < n) :
    points X Y = (points X Y).take (n - 1) ++ [point X Y (n - 1)] := by
  have hX : n - 1 < X.length := by rw [h.lengthX]; omega
  have hY : n - 1 < Y.length := by rw [h.lengthY]; omega
  have hend : (points X Y).drop (n - 1 + 1) = [] := by
    simp [points, h.lengthX, h.lengthY, Nat.sub_add_cancel hn]
  rw [← hend, ← points_drop hX hY, List.take_append_drop]

/-- The sum of the loop. It is below `2 ^ 24`, so that a `float` holds its half exactly. -/
theorem areaLoop_eq (h : Fits X Y n) (hn : 0 < n) :
    (areaLoop X Y n 0 (n - 1) 0).toInt = -shoelace (points X Y) ∧
      |(areaLoop X Y n 0 (n - 1) 0).toInt| < 2 ^ 24 := by
  have hle := h.le
  obtain ⟨hsum, hbound⟩ := h.areaLoop_toInt (i := 0) (Nat.add_zero n) (Nat.sub_lt hn Nat.one_pos)
    (show |(0 : Int32).toInt| ≤ 4032 * (0 : ℕ) by decide)
  refine ⟨?_, by omega⟩
  have hcycle := cyclicSum_concat trapezoid (point X Y (n - 1)) ((points X Y).take (n - 1))
  rw [← h.points_eq_concat hn, cyclicSum_trapezoid] at hcycle
  rw [hsum, List.drop_zero, ← hcycle]
  exact zero_add _

theorem polygonArea_eq (h : Fits X Y n) (hn : 0 < n) :
    polygonArea X Y n = -((shoelace (points X Y) : ℤ) : ℚ) / 2 := by
  rw [polygonArea, (h.areaLoop_eq hn).1, Int.cast_neg]

theorem rotate (h : Fits X Y n) (k : ℕ) : Fits (X.rotate k) (Y.rotate k) n where
  lengthX := by rw [List.length_rotate, h.lengthX]
  lengthY := by rw [List.length_rotate, h.lengthY]
  rangeX x hx := h.rangeX x (List.mem_rotate.mp hx)
  rangeY y hy := h.rangeY y (List.mem_rotate.mp hy)
  le := h.le

theorem reverse (h : Fits X Y n) : Fits X.reverse Y.reverse n where
  lengthX := by rw [List.length_reverse, h.lengthX]
  lengthY := by rw [List.length_reverse, h.lengthY]
  rangeX x hx := h.rangeX x (List.mem_reverse.mp hx)
  rangeY y hy := h.rangeY y (List.mem_reverse.mp hy)
  le := h.le

theorem points_rotate (h : Fits X Y n) (k : ℕ) :
    points (X.rotate k) (Y.rotate k) = (points X Y).rotate k :=
  (List.zipWith_rotate_distrib _ X Y k (h.lengthX.trans h.lengthY.symm)).symm

theorem points_reverse (h : Fits X Y n) : points X.reverse Y.reverse = (points X Y).reverse :=
  (List.reverse_zipWith (h.lengthX.trans h.lengthY.symm)).symm

/-- The result does not depend on the first vertex. -/
theorem polygonArea_rotate (h : Fits X Y n) (hn : 0 < n) (k : ℕ) :
    polygonArea (X.rotate k) (Y.rotate k) n = polygonArea X Y n := by
  rw [(h.rotate k).polygonArea_eq hn, h.points_rotate, shoelace_rotate, h.polygonArea_eq hn]

/-- Reversing the list of vertices turns the sign of the result. -/
theorem polygonArea_reverse (h : Fits X Y n) (hn : 0 < n) :
    polygonArea X.reverse Y.reverse n = -polygonArea X Y n := by
  rw [h.reverse.polygonArea_eq hn, h.points_reverse, shoelace_reverse, h.polygonArea_eq hn]
  push_cast
  ring

end Fits

/-! ## The polygons of the words -/

/-- The vertices that `area` takes from a word. -/
def vertices (w : UInt64) : List (ℤ × ℤ) :=
  (List.range (if getPolygonType w = SQUARE then 4 else 3)).map fun k =>
    ((getXAndY w k).1.toInt, (getXAndY w k).2.toInt)

theorem inRange_of_isCoordinate {w : UInt64} {position : ℕ} {c : Int8}
    (h : IsCoordinate w position c) : InRange c.toInt32 := by
  rw [InRange, Int8.toInt_toInt32]
  exact ⟨h.1, h.2.1⟩

theorem fits_vertices (w : UInt64) {n : ℕ} (hn : n ≤ 4) :
    Fits ((List.range n).map fun k => (getXAndY w k).1.toInt32)
      ((List.range n).map fun k => (getXAndY w k).2.toInt32) n where
  lengthX := by simp
  lengthY := by simp
  rangeX x hx := by
    obtain ⟨k, hk, rfl⟩ := List.mem_map.mp hx
    have hk' := (List.mem_range.mp hk).trans_le hn
    exact inRange_of_isCoordinate (isCoordinate_getXAndY w ⟨k, hk'⟩).1
  rangeY y hy := by
    obtain ⟨k, hk, rfl⟩ := List.mem_map.mp hy
    have hk' := (List.mem_range.mp hk).trans_le hn
    exact inRange_of_isCoordinate (isCoordinate_getXAndY w ⟨k, hk'⟩).2
  le := hn.trans (by decide)

/-- The number that `area` prints for a word, from the vertices of the word. -/
theorem area_eq (w : UInt64) : area w = -((shoelace (vertices w) : ℤ) : ℚ) / 2 := by
  unfold area vertices
  generalize hn : (if getPolygonType w = SQUARE then 4 else 3) = n
  have hle : n ≤ 4 ∧ 0 < n := by
    rw [← hn]
    split <;> decide
  rw [(fits_vertices w hle.1).polygonArea_eq hle.2]
  simp [points, List.zipWith_map]

/-! ## The area of a polygon -/

/-- The lists of the vertices of the simple polygons are among these: a simple polygon passes
through no point twice. -/
structure VertexList (X Y : List Int32) (n : ℕ) : Prop where
  three_le : 3 ≤ n
  lengthX : X.length = n
  lengthY : Y.length = n
  rangeX : ∀ x ∈ X, InRange x
  rangeY : ∀ y ∈ Y, InRange y
  distinct : (points X Y).Nodup

theorem range_of_mem_points {X Y : List Int32} (hX : ∀ x ∈ X, InRange x)
    (hY : ∀ y ∈ Y, InRange y) {p : ℤ × ℤ} (hp : p ∈ points X Y) :
    (-32 ≤ p.1 ∧ p.1 ≤ 31) ∧ -32 ≤ p.2 ∧ p.2 ≤ 31 := by
  obtain ⟨i, hi, rfl⟩ := List.mem_iff_getElem.mp hp
  have hlen : i < X.length ∧ i < Y.length := by simpa [points] using hi
  simp only [points, List.getElem_zipWith]
  exact ⟨hX _ (List.getElem_mem hlen.1), hY _ (List.getElem_mem hlen.2)⟩

/-- The points in range, numbered row by row. -/
def pointNumber (p : ℤ × ℤ) : ℕ := (64 * (p.1 + 32) + (p.2 + 32)).toNat

/-- There are no more vertices than points in range. -/
theorem VertexList.fits {X Y : List Int32} {n : ℕ} (h : VertexList X Y n) : Fits X Y n where
  lengthX := h.lengthX
  lengthY := h.lengthY
  rangeX := h.rangeX
  rangeY := h.rangeY
  le := by
    have hrange := @range_of_mem_points X Y h.rangeX h.rangeY
    have hnodup : ((points X Y).map pointNumber).Nodup := by
      apply List.Nodup.map_on _ h.distinct
      intro p hp q hq heq
      have hp := hrange hp
      have hq := hrange hq
      unfold pointNumber at heq
      exact Prod.ext (by omega) (by omega)
    have hsub : (points X Y).map pointNumber ⊆ List.range 4096 := by
      intro k hk
      obtain ⟨p, hp, rfl⟩ := List.mem_map.mp hk
      have hp := hrange hp
      rw [List.mem_range, pointNumber]
      omega
    have hle := (List.subperm_of_subset hnodup hsub).length_le
    rwa [List.length_map, points_length (h.lengthX.trans h.lengthY.symm), h.lengthX,
      List.length_range] at hle

/-- The area of the polygon, whichever way it is listed. -/
def polygonSize (X Y : List Int32) : ℚ := |((shoelace (points X Y) : ℤ) : ℚ)| / 2

/-- The polygon is listed clockwise, or has no area. -/
def Clockwise (X Y : List Int32) : Prop := shoelace (points X Y) ≤ 0

/-- Three vertices are listed clockwise if the way through them does not turn left. -/
theorem clockwise_triangle (x₀ x₁ x₂ y₀ y₁ y₂ : Int32) :
    Clockwise [x₀, x₁, x₂] [y₀, y₁, y₂] ↔
      turn (x₀.toInt, y₀.toInt) (x₁.toInt, y₁.toInt) (x₂.toInt, y₂.toInt) ≤ 0 := by
  rw [Clockwise, ← shoelace_triangle]
  rfl

/-- What the result of `polygonArea` has to be: the area, from whichever vertex the list starts,
and never negative. -/
structure ComputesArea (X Y : List Int32) (n : ℕ) : Prop where
  area : polygonArea X Y n = polygonSize X Y
  rotate : ∀ k, polygonArea (X.rotate k) (Y.rotate k) n = polygonSize X Y
  nonneg : 0 ≤ polygonArea X Y n

theorem computesArea_iff {X Y : List Int32} {n : ℕ} (h : Fits X Y n) (hn : 0 < n) :
    ComputesArea X Y n ↔ Clockwise X Y := by
  have harea := h.polygonArea_eq hn
  constructor
  · intro hc
    have hpos := hc.nonneg
    rw [harea] at hpos
    have hle : ((shoelace (points X Y) : ℤ) : ℚ) ≤ 0 := by linarith
    exact_mod_cast hle
  · intro hc
    have hle : ((shoelace (points X Y) : ℤ) : ℚ) ≤ 0 := by exact_mod_cast hc
    have hsize : polygonArea X Y n = polygonSize X Y := by
      rw [harea, polygonSize, abs_of_nonpos hle]
    refine ⟨hsize, fun k => (h.polygonArea_rotate hn k).trans hsize, ?_⟩
    rw [harea]
    linarith

/-- The result is the area exactly for the clockwise lists. Only for a polygon without area is
it the same in both orders. -/
theorem polygonArea_iff {X Y : List Int32} {n : ℕ} (h : VertexList X Y n) :
    (ComputesArea X Y n ↔ Clockwise X Y) ∧
      (polygonArea X.reverse Y.reverse n = polygonArea X Y n ↔ polygonSize X Y = 0) := by
  have hn : 0 < n := lt_of_lt_of_le (by decide) h.three_le
  refine ⟨computesArea_iff h.fits hn, ?_⟩
  rw [h.fits.polygonArea_reverse hn, h.fits.polygonArea_eq hn, polygonSize]
  constructor
  · intro heq
    have hzero : ((shoelace (points X Y) : ℤ) : ℚ) = 0 := by linarith
    rw [hzero, abs_zero, zero_div]
  · intro hzero
    have habs : |((shoelace (points X Y) : ℤ) : ℚ)| = 0 := by linarith
    rw [abs_eq_zero.mp habs]
    ring

/-- The area of a clockwise triangle is six. -/
theorem polygonArea_iff_triangle :
    (ComputesArea [0, 0, 4] [0, 3, 0] 3 ↔ Clockwise [0, 0, 4] [0, 3, 0]) ∧
      (polygonArea [4, 0, 0] [0, 3, 0] 3 = polygonArea [0, 0, 4] [0, 3, 0] 3 ↔
        polygonSize [0, 0, 4] [0, 3, 0] = 0) :=
  polygonArea_iff ⟨by decide, rfl, rfl, by simp [InRange], by simp [InRange], by decide⟩

/-- The same triangle counter-clockwise: the program finds the area `-6`. -/
theorem counter_clockwise_negative :
    VertexList [0, 4, 0] [0, 0, 3] 3 ∧ polygonArea [0, 4, 0] [0, 0, 3] 3 = -6 ∧
      polygonSize [0, 4, 0] [0, 0, 3] = 6 ∧ ¬ComputesArea [0, 4, 0] [0, 0, 3] 3 := by
  have hloop : (areaLoop [0, 4, 0] [0, 0, 3] 3 0 2 0).toInt = -12 := by decide +kernel
  have hsum : shoelace (points [0, 4, 0] [0, 0, 3]) = 12 := by decide +kernel
  have harea : polygonArea [0, 4, 0] [0, 0, 3] 3 = -6 := by
    rw [polygonArea, hloop]
    norm_num
  refine ⟨⟨by decide, rfl, rfl, by simp [InRange], by simp [InRange], by decide⟩, harea, ?_, ?_⟩
  · rw [polygonSize, hsum]
    norm_num
  · intro h
    have hnonneg := h.nonneg
    rw [harea] at hnonneg
    norm_num at hnonneg

end OsSolutions.Polygon
