import Mathlib.Algebra.BigOperators.Group.List.Basic
import Mathlib.Algebra.Ring.Prod
import Mathlib.Data.List.Rotate
import Mathlib.Tactic.Abel
import Mathlib.Tactic.Ring

/-! # Sums over the edges of a closed polygon

A polygon is the list of its vertices. Every vertex has an edge to the next one, and the last
vertex to the first. -/

namespace Plane

variable {α R : Type*}

/-! ## Sums along paths and around cycles -/

section Sums

variable [AddCommGroup R]

/-- `f` summed over the edges of the path that starts in `a`. -/
def pathSum (f : α → α → R) : α → List α → R
  | _, [] => 0
  | a, b :: ps => f a b + pathSum f b ps

/-- `f` summed over the edges of the closed polygon. -/
def cyclicSum (f : α → α → R) (ps : List α) : R := (List.zipWith f ps (ps.rotate 1)).sum

@[simp] theorem pathSum_nil (f : α → α → R) (a : α) : pathSum f a [] = 0 := rfl

@[simp] theorem pathSum_cons (f : α → α → R) (a b : α) (ps : List α) :
    pathSum f a (b :: ps) = f a b + pathSum f b ps := rfl

theorem pathSum_concat (f : α → α → R) (a b : α) (ps : List α) :
    pathSum f a (ps ++ [b]) = (List.zipWith f (a :: ps) (ps ++ [b])).sum := by
  induction ps generalizing a with
  | nil => simp
  | cons c ps ih =>
      simp only [List.cons_append, pathSum_cons, List.zipWith_cons_cons, List.sum_cons]
      exact congrArg (f a c + ·) (ih c)

theorem cyclicSum_rotate (f : α → α → R) (ps : List α) (k : ℕ) :
    cyclicSum f (ps.rotate k) = cyclicSum f ps := by
  unfold cyclicSum
  rw [List.rotate_rotate, Nat.add_comm, ← List.rotate_rotate,
    ← List.zipWith_rotate_distrib f _ _ k (by simp)]
  exact (List.rotate_perm _ k).sum_eq

/-- The closed polygon is the path from its first vertex through the others and back. -/
theorem cyclicSum_cons (f : α → α → R) (a : α) (ps : List α) :
    cyclicSum f (a :: ps) = pathSum f a (ps ++ [a]) := by
  rw [pathSum_concat, cyclicSum, List.rotate_cons_succ, List.rotate_zero]

/-- The same path begun one edge earlier. -/
theorem cyclicSum_concat (f : α → α → R) (a : α) (ps : List α) :
    cyclicSum f (ps ++ [a]) = pathSum f a (ps ++ [a]) := by
  rw [← cyclicSum_cons, ← cyclicSum_rotate f (a :: ps) 1, List.rotate_cons_succ,
    List.rotate_zero]

theorem pathSum_append (f : α → α → R) (a b : α) (ps qs : List α) :
    pathSum f a (ps ++ b :: qs) = pathSum f a (ps ++ [b]) + pathSum f b qs := by
  induction ps generalizing a with
  | nil => simp
  | cons c ps ih => simp [ih, add_assoc]

theorem pathSum_reverse (f : α → α → R) (a b : α) (ps : List α) :
    pathSum f b (ps.reverse ++ [a]) = pathSum (fun p q => f q p) a (ps ++ [b]) := by
  induction ps generalizing a with
  | nil => simp
  | cons c ps ih =>
      rw [List.reverse_cons, List.append_assoc, List.singleton_append, pathSum_append, ih]
      simp [add_comm]

/-- Reversing the list turns every edge round. -/
theorem cyclicSum_reverse (f : α → α → R) (ps : List α) :
    cyclicSum f ps.reverse = cyclicSum (fun p q => f q p) ps := by
  cases ps with
  | nil => rfl
  | cons a ps => rw [List.reverse_cons, cyclicSum_concat, cyclicSum_cons, pathSum_reverse]

theorem pathSum_sub (f g : α → α → R) (a : α) (ps : List α) :
    pathSum (fun p q => f p q - g p q) a ps = pathSum f a ps - pathSum g a ps := by
  induction ps generalizing a with
  | nil => simp
  | cons b ps ih =>
      simp only [pathSum_cons, ih]
      abel

theorem cyclicSum_sub (f g : α → α → R) (ps : List α) :
    cyclicSum (fun p q => f p q - g p q) ps = cyclicSum f ps - cyclicSum g ps := by
  cases ps with
  | nil => simp [cyclicSum]
  | cons a ps => simp only [cyclicSum_cons, pathSum_sub]

/-- Along a path, what one edge adds the next one takes away. -/
theorem pathSum_telescope (g : α → R) (a b : α) (ps : List α) :
    pathSum (fun p q => g p - g q) a (ps ++ [b]) = g a - g b := by
  induction ps generalizing a with
  | nil => simp
  | cons c ps ih =>
      rw [List.cons_append, pathSum_cons, ih]
      abel

theorem cyclicSum_telescope (g : α → R) (ps : List α) :
    cyclicSum (fun p q => g p - g q) ps = 0 := by
  cases ps with
  | nil => rfl
  | cons a ps => rw [cyclicSum_cons, pathSum_telescope, sub_self]

end Sums

/-! ## The shoelace sum -/

section Shoelace

variable [CommRing R]

def cross (p q : R × R) : R := p.1 * q.2 - q.1 * p.2

/-- Twice the signed area, positive for a polygon that is listed counter-clockwise. -/
def shoelace (ps : List (R × R)) : R := cyclicSum cross ps

/-- The term of an edge in the trapezoid formula. -/
def trapezoid (p q : R × R) : R := (p.1 + q.1) * (p.2 - q.2)

/-- Twice the signed area of a triangle: positive when the way from `a` over `b` to `c` turns
left. -/
def turn (a b c : R × R) : R := cross (b - a) (c - a)

theorem cross_swap (p q : R × R) : cross q p = -cross p q := by
  unfold cross
  ring

theorem shoelace_rotate (ps : List (R × R)) (k : ℕ) : shoelace (ps.rotate k) = shoelace ps :=
  cyclicSum_rotate cross ps k

theorem shoelace_reverse (ps : List (R × R)) : shoelace ps.reverse = -shoelace ps := by
  have hswap : (fun p q : R × R => cross q p) = fun p q => (0 - 0) - cross p q := by
    funext p q
    rw [cross_swap, sub_self, zero_sub]
  have hzero : cyclicSum (fun _ _ : R × R => (0 : R) - 0) ps = 0 :=
    cyclicSum_telescope (fun _ => 0) ps
  rw [shoelace, cyclicSum_reverse, hswap, cyclicSum_sub, hzero, zero_sub, shoelace]

/-- The trapezoids and the cross products differ by terms that cancel around the cycle. -/
theorem cyclicSum_trapezoid (ps : List (R × R)) : cyclicSum trapezoid ps = -shoelace ps := by
  have hterm : (trapezoid : R × R → R × R → R) =
      fun p q => (p.1 * p.2 - q.1 * q.2) - cross p q := by
    funext p q
    unfold trapezoid cross
    ring
  rw [hterm, cyclicSum_sub, cyclicSum_telescope fun p : R × R => p.1 * p.2, zero_sub, shoelace]

theorem shoelace_triangle (a b c : R × R) : shoelace [a, b, c] = turn a b c := by
  rw [shoelace, cyclicSum_cons]
  simp only [List.cons_append, List.nil_append, pathSum_cons, pathSum_nil, turn, cross,
    Prod.fst_sub, Prod.snd_sub]
  ring

end Shoelace

end Plane
