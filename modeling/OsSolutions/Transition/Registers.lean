import OsSolutions.Transition.Exhaustion
import Mathlib.Data.List.Basic
import Mathlib.Data.Nat.Find
import Mathlib.Logic.Function.Basic

/-! # Variables that keep their values

Every reading of a source names a variable and gives a value for it, or none. Without a value
the variable keeps the one that it has, which is that of an earlier reading or the first one. -/

namespace Transition

/-- What the next reading leaves of the source, which variable it names and what it gives. -/
structure Source (σ ι W : Type*) where
  next : σ → σ
  name : σ → ι
  value : σ → Option W

namespace Source

variable {σ ι W : Type*} (src : Source σ ι W) (s : σ)

/-- The first `n` readings. -/
def readings (n : ℕ) : List (ι × Option W) :=
  (List.range n).map fun k => (src.name (src.next^[k] s), src.value (src.next^[k] s))

variable [DecidableEq ι] (r : ι → W)

def store : ι → W := Function.update r (src.name s) ((src.value s).getD (r (src.name s)))

/-- The variables after `k` readings. -/
def vars : ℕ → ι → W
  | 0 => r
  | k + 1 => src.store (src.next^[k] s) (vars k)

/-- What is in the variable that the reading behind `k` others has named. -/
def found (k : ℕ) : W := src.vars s r (k + 1) (src.name (src.next^[k] s))

variable {src s r}

theorem found_eq (k : ℕ) : src.found s r k =
    (src.value (src.next^[k] s)).getD (src.vars s r k (src.name (src.next^[k] s))) := by
  simp [found, vars, store]

variable {Q : W → Prop} {size : σ → ℕ}

end Source

end Transition
