import OsSolutions.Source.CString
import Mathlib.Data.List.GetD
import Mathlib.Data.Nat.Basic
import Mathlib.Tactic.Common

/-! # What the string routines compare and copy -/

namespace OsSolutions

/-! ## Bounded comparison -/

/-- `strncmp` reports equality when the two sides agree up to the first NUL of the
left one, or on the first `n` bytes if there is none among them. -/
theorem strncmp_eq_zero_iff (p q : Bytes) (n : ℕ) :
    strncmp p q n = 0 ↔ ∀ i < n, (∀ j < i, p j ≠ 0) → p i = q i := by
  induction n generalizing p q with
  | zero => simp [strncmp]
  | succ n ih =>
      rw [strncmp]
      split
      · rename_i h
        rw [ih]
        constructor
        · intro hs i hi hj
          cases i with
          | zero => exact h.2
          | succ i => exact hs i (by omega) fun j hji => hj (j + 1) (by omega)
        · intro hs i hi hj
          refine hs (i + 1) (by omega) ?_
          intro j hji
          cases j with
          | zero => exact h.1
          | succ j => exact hj j (by omega)
      · rename_i h
        constructor
        · intro he i hi hj
          have hpq : p 0 = q 0 := UInt8.toNat.inj (by omega)
          cases i with
          | zero => exact hpq
          | succ i => exact absurd ⟨hj 0 (by omega), hpq⟩ h
        · intro hs
          rw [hs 0 (by omega) (by simp)]
          omega

/-! ## Strings and their pointers -/

namespace CString

theorem ptr_ne_zero {n : CString} {i : ℕ} (h : i < n.length) : n.ptr i ≠ 0 := by
  intro hz
  have hget : n.chars.get ⟨i, h⟩ = 0 := by rwa [ptr, List.getD_eq_getElem _ _ h] at hz
  exact n.nulFree (hget ▸ List.get_mem _ _)

@[simp] theorem ptr_length (n : CString) : n.ptr n.length = 0 := by
  simp [ptr, length]

/-- A string is determined by what its pointer reads up to and including the NUL. -/
theorem eq_of_ptr {m n : CString} (h : ∀ i ≤ m.length, m.ptr i = n.ptr i) : m = n := by
  have hlen : m.length = n.length := by
    have hle : n.length ≤ m.length := by
      by_contra hlt
      exact ptr_ne_zero (n := n) (i := m.length) (by omega) (by rw [← h _ le_rfl, ptr_length])
    have hge : m.length ≤ n.length := by
      by_contra hlt
      exact ptr_ne_zero (n := m) (i := n.length) (by omega)
        (by rw [h _ (by omega), ptr_length])
    omega
  have hchars : m.chars = n.chars := by
    refine List.ext_getElem hlen ?_
    intro i hi hi'
    have hp := h i (Nat.le_of_lt hi)
    simpa [ptr, hi, hi'] using hp
  cases m
  cases n
  simpa using hchars

end CString

/-! ## Bounded copy -/

private theorem safestrcpyLoop_below (s t : Bytes) (i n : ℕ) {k : ℕ} (h : k < i) :
    safestrcpyLoop s t i n k = s k := by
  fun_induction safestrcpyLoop s t i n with
  | case1 s i => rw [Function.update_of_ne (by omega)]
  | case2 s i => rw [Function.update_of_ne (by omega)]
  | case3 s i n _ ih => rw [ih (by omega), Function.update_of_ne (by omega)]
  | case4 s i n _ =>
      rw [Function.update_of_ne (by omega), Function.update_of_ne (by omega)]

private theorem safestrcpyLoop_get (s t : Bytes) (i n : ℕ) {k : ℕ} (hik : i ≤ k)
    (hk : k + 1 < i + n) (hne : ∀ j, i ≤ j → j < k → t j ≠ 0) :
    safestrcpyLoop s t i n k = t k := by
  fun_induction safestrcpyLoop s t i n with
  | case1 s i => omega
  | case2 s i => omega
  | case3 s i n _ ih =>
      rcases Nat.eq_or_lt_of_le hik with rfl | hlt
      · rw [safestrcpyLoop_below _ _ _ _ (by omega), Function.update_self]
      · exact ih hlt (by omega) fun j hij hjk => hne j (by omega) hjk
  | case4 s i n hz =>
      -- the NUL has been copied, so nothing before `k` can lie past it
      have hki : k = i := by
        by_contra hki
        exact hz (hne i le_rfl (by omega))
      rw [hki, Function.update_of_ne (by omega), Function.update_self]

/-- All but the last of the `n` bytes hold the source, up to and including its NUL. -/
theorem safestrcpy_get (s t : Bytes) {n k : ℕ} (hk : k + 1 < n) (hne : ∀ j < k, t j ≠ 0) :
    safestrcpy s t n k = t k := by
  rw [safestrcpy, if_neg (by omega)]
  exact safestrcpyLoop_get s t 0 n (by omega) (by omega) fun j _ hjk => hne j hjk

/-! ## `strncpy` -/

theorem strncpyFill_apply (s : Bytes) (i n j : ℕ) :
    strncpyFill s i n j = if i ≤ j ∧ j < i + n then 0 else s j := by
  induction n generalizing s i with
  | zero =>
      rw [strncpyFill, if_neg]
      omega
  | succ n ih =>
      rw [strncpyFill, ih]
      by_cases hj : j = i
      · subst hj
        simp
      · rw [Function.update_of_ne hj]
        have hiff : (i + 1 ≤ j ∧ j < i + 1 + n) ↔ (i ≤ j ∧ j < i + (n + 1)) := by omega
        simp only [hiff]

/-- Up to the first NUL the copy has the bytes of the source. -/
theorem strncpyLoop_apply (s t : Bytes) (i n j : ℕ) (hj : j < i + n)
    (hnul : ∀ k < j, t k ≠ 0) (hs : ∀ k < i, s k = t k) : strncpyLoop s t i n j = t j := by
  induction n generalizing s i with
  | zero => exact hs j hj
  | succ n ih =>
      have hupdate : ∀ k < i + 1, Function.update s i (t i) k = t k := by
        intro k hk
        by_cases hki : k = i
        · subst hki
          simp
        · rw [Function.update_of_ne hki]
          exact hs k (by omega)
      rw [strncpyLoop]
      by_cases hti : t i = 0
      · have hle : j ≤ i := by
          by_contra hlt
          exact hnul i (by omega) hti
        rw [if_neg (by simpa using hti), strncpyFill_apply, if_neg (by omega)]
        exact hupdate j (by omega)
      · rw [if_pos hti]
        exact ih _ _ (by omega) hupdate

end OsSolutions
