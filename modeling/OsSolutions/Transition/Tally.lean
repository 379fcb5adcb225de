import Mathlib.Algebra.BigOperators.Group.Finset.Basic
import Mathlib.Algebra.BigOperators.Ring.Finset
import Mathlib.Algebra.Order.BigOperators.Group.Finset

/-! # Adding up what the processes contribute

Each of finitely many processes contributes a number that depends on its own state. When one
process moves, the total changes by its own contribution. -/

namespace Transition

variable {ι : Type*} [Fintype ι]

def tally (f : ι → ℕ) : ℕ := ∑ i, f i

theorem tally_congr {f g : ι → ℕ} (h : ∀ i, f i = g i) : tally f = tally g :=
  Finset.sum_congr rfl fun i _ => h i

theorem tally_add (f g : ι → ℕ) : tally (fun i => f i + g i) = tally f + tally g :=
  Finset.sum_add_distrib

theorem tally_le {f g : ι → ℕ} (h : ∀ i, f i ≤ g i) : tally f ≤ tally g :=
  Finset.sum_le_sum fun i _ => h i

theorem tally_le_mul {f g : ι → ℕ} {n : ℕ} (h : ∀ i, f i ≤ n * g i) : tally f ≤ n * tally g := by
  rw [tally, tally, Finset.mul_sum]
  exact Finset.sum_le_sum fun i _ => h i

theorem le_tally (f : ι → ℕ) (i : ι) : f i ≤ tally f :=
  Finset.single_le_sum (fun _ _ => Nat.zero_le _) (Finset.mem_univ i)

theorem tally_eq_zero_iff {f : ι → ℕ} : tally f = 0 ↔ ∀ i, f i = 0 := by
  simp [tally]

variable [DecidableEq ι]

/-- Only `i` has changed its contribution. -/
theorem tally_of_eq_off {f g : ι → ℕ} (i : ι) (h : ∀ j, j ≠ i → g j = f j) :
    tally g + f i = tally f + g i := by
  have hoff : ∑ j ∈ Finset.univ.erase i, g j = ∑ j ∈ Finset.univ.erase i, f j := by
    apply Finset.sum_congr rfl
    intro j hj
    exact h j (Finset.ne_of_mem_erase hj)
  rw [tally, tally, ← Finset.sum_erase_add _ g (Finset.mem_univ i),
    ← Finset.sum_erase_add _ f (Finset.mem_univ i), hoff]
  omega

/-- Two processes contribute at least their sum. -/
theorem add_le_tally (f : ι → ℕ) {i j : ι} (h : i ≠ j) : f i + f j ≤ tally f := by
  rw [tally, ← Finset.sum_pair h]
  exact Finset.sum_le_sum_of_subset (Finset.subset_univ _)

end Transition
