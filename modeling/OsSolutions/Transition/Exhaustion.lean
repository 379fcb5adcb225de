import Mathlib.Logic.Function.Iterate
import Mathlib.Tactic.Common

/-! # Functions that use something up

Each application makes the state smaller or leaves it as it is. So after as many applications
as the state is large nothing new happens. -/

namespace Transition

variable {σ : Type*} {f : σ → σ} {size : σ → ℕ} {P : σ → Prop}

/-- `f` uses up what `size` measures. -/
def UsesUp (f : σ → σ) (size : σ → ℕ) : Prop := ∀ s, size (f s) < size s ∨ f s = s

theorem UsesUp.comp {g : σ → σ} (hf : UsesUp f size) (hg : UsesUp g size) :
    UsesUp (f ∘ g) size := by
  intro s
  rcases hg s with hlt | heq
  · rcases hf (g s) with hlt' | heq'
    · exact .inl (Nat.lt_trans hlt' hlt)
    · exact .inl (by rwa [Function.comp_apply, heq'])
  · rw [Function.comp_apply, heq]
    exact hf s

/-- After as many applications as the state is large nothing changes any more. -/
theorem UsesUp.iterate_eq (h : UsesUp f size) {n k : ℕ} (s : σ) (hs : size s ≤ n) (hk : n ≤ k) :
    f^[k] s = f^[n] s := by
  induction n generalizing s k with
  | zero =>
      rcases h s with hlt | heq
      · omega
      · exact Function.iterate_fixed heq k
  | succ n ih =>
      obtain ⟨k, rfl⟩ : ∃ j, k = j + 1 := ⟨k - 1, by omega⟩
      rcases h s with hlt | heq
      · exact ih (f s) (by omega) (by omega)
      · rw [Function.iterate_fixed heq, Function.iterate_fixed heq]

end Transition
