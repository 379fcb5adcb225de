import Mathlib.Data.Nat.ModEq
import Mathlib.Data.List.Basic
import Mathlib.Logic.Function.Basic

/-! # Rings

A ring of `c` cells holds the last elements of a sequence: element `i` is in cell `i % c`, and
the first `k` elements are not needed any more. -/

namespace Storage

variable {α : Type*} {c : ℕ} [NeZero c]

structure Window (cells : Fin c → α) (all : List α) (k : ℕ) : Prop where
  le : k ≤ all.length
  room : all.length ≤ k + c
  cell : ∀ i x, k ≤ i → all[i]? = some x → cells (Fin.ofNat c i) = x

namespace Window

variable {cells : Fin c → α} {all : List α} {k : ℕ}

theorem nil (cells : Fin c → α) : Window cells [] 0 := ⟨by simp, by simp, by simp⟩

/-- Two elements that are in the ring at the same time are in different cells. -/
theorem cell_ne {i j : ℕ} (hi : i < j) (hj : j < i + c) : Fin.ofNat c i ≠ Fin.ofNat c j := by
  intro h
  have hmod : i % c = j % c := congrArg Fin.val h
  have hdvd : c ∣ j - i := (Nat.modEq_iff_dvd' (Nat.le_of_lt hi)).mp hmod
  exact absurd (Nat.le_of_dvd (by omega) hdvd) (by omega)

theorem push (h : Window cells all k) (hroom : all.length < k + c) (x : α) :
    Window (Function.update cells (Fin.ofNat c all.length) x) (all ++ [x]) k where
  le := by
    have := h.le
    rw [List.length_append]
    omega
  room := by
    rw [List.length_append, List.length_singleton]
    omega
  cell i y hi hy := by
    rcases Nat.lt_trichotomy i all.length with hlt | heq | hgt
    · rw [Function.update_of_ne (cell_ne hlt (by omega))]
      rw [List.getElem?_append_left hlt] at hy
      exact h.cell i y hi hy
    · subst heq
      simp only [List.getElem?_concat_length, Option.some.injEq] at hy
      rw [Function.update_self, hy]
    · have hlen := (List.getElem?_eq_some_iff.mp hy).1
      rw [List.length_append, List.length_singleton] at hlen
      omega

/-- The next element to be taken. -/
theorem front (h : Window cells all k) (hk : k < all.length) :
    all[k]? = some (cells (Fin.ofNat c k)) := by
  rw [h.cell k all[k] (Nat.le_refl k) (List.getElem?_eq_getElem hk)]
  exact List.getElem?_eq_getElem hk

theorem pop (h : Window cells all k) (hk : k < all.length) : Window cells all (k + 1) where
  le := hk
  room := by
    have := h.room
    omega
  cell i x hi hx := h.cell i x (by omega) hx

end Window

end Storage
