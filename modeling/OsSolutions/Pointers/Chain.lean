import Mathlib.Logic.Function.Basic
import Mathlib.Data.List.Nodup

/-! # Linked lists

Nodes that each point to the next one, from a start pointer to the null pointer. -/

namespace Pointers

variable {α : Type*}

/-- The nodes of the list, in order, when one follows `next` from `start`. -/
def Chain (next : α → Option α) : Option α → List α → Prop
  | start, [] => start = none
  | start, a :: l => start = some a ∧ Chain next (next a) l

variable {next next' : α → Option α} {start : Option α} {l : List α} {a b : α}

@[simp] theorem chain_nil : Chain next start [] ↔ start = none := Iff.rfl

@[simp] theorem chain_cons : Chain next start (a :: l) ↔ start = some a ∧ Chain next (next a) l :=
  Iff.rfl

theorem Chain.congr (h : Chain next start l) (hsame : ∀ x ∈ l, next' x = next x) :
    Chain next' start l := by
  induction l generalizing start with
  | nil => exact h
  | cons x l ih =>
      refine ⟨h.1, ?_⟩
      rw [hsame x (by simp)]
      exact ih h.2 fun y hy => hsame y (by simp [hy])

theorem Chain.eq_nil_iff (h : Chain next start l) : l = [] ↔ start = none := by
  cases l with
  | nil => simpa using h
  | cons x l => simp [h.1]

/-- A node is hung behind the last one. -/
theorem Chain.concat [DecidableEq α] (h : Chain next start (l ++ [a]))
    (hnodup : (l ++ [a]).Nodup) (hnew : b ∉ l ++ [a]) (hend : next b = none) :
    Chain (Function.update next a (some b)) start (l ++ [a] ++ [b]) := by
  induction l generalizing start with
  | nil =>
      have hne : b ≠ a := by
        rintro rfl
        simp at hnew
      exact ⟨h.1, by simp, by simp [Function.update_of_ne hne, hend]⟩
  | cons x l ih =>
      rw [List.cons_append, List.nodup_cons] at hnodup
      have hne : x ≠ a := by
        rintro rfl
        simp at hnodup
      refine ⟨h.1, ?_⟩
      rw [Function.update_of_ne hne]
      exact ih h.2 hnodup.2 fun hb => hnew (by simp at hb ⊢; exact .inr hb)

end Pointers
