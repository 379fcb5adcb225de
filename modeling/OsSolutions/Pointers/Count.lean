import Mathlib.Data.Fintype.Card
import Mathlib.Data.Finset.Card

/-! # Counting pointers

Finitely many cells, each empty or pointing to a target. One write to one cell changes the
number of pointers to each target by what it removes and what it adds. -/

namespace Pointers

variable {ι κ : Type*} [Fintype ι] [DecidableEq ι] [DecidableEq κ]

def count (c : ι → Option κ) (s : κ) : ℕ := (Finset.univ.filter fun i => c i = some s).card

omit [DecidableEq ι] in
theorem count_pos_iff {c : ι → Option κ} {s : κ} : 0 < count c s ↔ ∃ i, c i = some s := by
  simp [count, Finset.card_pos, Finset.filter_nonempty_iff]

omit [DecidableEq ι] in
theorem count_pos {c : ι → Option κ} {i : ι} {s : κ} (h : c i = some s) : 0 < count c s :=
  count_pos_iff.mpr ⟨i, h⟩

omit [DecidableEq ι] in
theorem count_none (s : κ) : count (fun _ : ι => (none : Option κ)) s = 0 := by
  simp [count]

/-- The cells apart from one. -/
theorem count_eq_add (c : ι → Option κ) (i : ι) (s : κ) :
    count c s = (Finset.univ.filter fun j => j ≠ i ∧ c j = some s).card +
      if c i = some s then 1 else 0 := by
  have herase : (Finset.univ.filter fun j => j ≠ i ∧ c j = some s) =
      (Finset.univ.filter fun j => c j = some s).erase i := by
    ext j
    simp
  rw [herase]
  split
  · rename_i hi
    exact (Finset.card_erase_add_one (by simpa using hi)).symm
  · rename_i hi
    rw [Finset.erase_eq_of_notMem (by simpa using hi)]
    rfl

theorem count_update (c : ι → Option κ) (i : ι) (v : Option κ) (s : κ) :
    count (Function.update c i v) s + (if c i = some s then 1 else 0) =
      count c s + if v = some s then 1 else 0 := by
  have hrest : (Finset.univ.filter fun j => j ≠ i ∧ Function.update c i v j = some s) =
      Finset.univ.filter fun j => j ≠ i ∧ c j = some s := by
    refine Finset.filter_congr fun j _ => and_congr_right fun hj => ?_
    rw [Function.update_of_ne hj]
  rw [count_eq_add c i s, count_eq_add (Function.update c i v) i s, hrest,
    Function.update_self]
  omega

theorem count_update_le (c : ι → Option κ) (i : ι) (v : Option κ) (s : κ) :
    count (Function.update c i v) s ≤ count c s + if v = some s then 1 else 0 := by
  have := count_update c i v s
  omega

end Pointers
