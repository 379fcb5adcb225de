import OsSolutions.Source.Stdio
import Mathlib.Data.List.Infix

/-! # What a scan consumes

A conversion takes at least a digit from the text. A scan that leaves as much text as there was
has stored nothing and has left the text as it was. -/

namespace OsSolutions

theorem scanSign_suffix (width : ℕ) (s : Text) : (scanSign width s).2.2 <:+ s := by
  unfold scanSign
  split
  · split
    · exact List.suffix_cons _ _
    · split
      · exact List.suffix_cons _ _
      · exact List.suffix_rfl
  · exact List.suffix_rfl

theorem scanPrefix_suffix (width : ℕ) (s : Text) : (scanPrefix width s).2.2 <:+ s := by
  unfold scanPrefix
  split
  · split
    · exact (List.suffix_cons _ _).trans (List.suffix_cons _ _)
    · exact List.suffix_rfl
  · exact List.suffix_rfl

/-- A prefix is taken from the text. -/
theorem scanPrefix_length (width : ℕ) (s : Text) (h : (scanPrefix width s).1 ≠ []) :
    (scanPrefix width s).2.2.length < s.length := by
  unfold scanPrefix at h ⊢
  split at h
  · split at h
    · rename_i hmark
      rw [if_pos hmark]
      simp only [List.length_cons]
      omega
    · exact absurd rfl h
  · exact absurd rfl h

/-- A scan that leaves a suffix, a shorter one if it stores a value, moves on or does nothing. -/
theorem moves_or_fails {α : Type*} {value : Option α} {rest s : Text} (hsuffix : rest <:+ s)
    (hvalue : value ≠ none → rest.length < s.length) :
    rest.length < s.length ∨ (value, rest) = (none, s) := by
  by_cases hlt : rest.length < s.length
  · exact .inl hlt
  · refine .inr (Prod.ext ?_ ?_)
    · by_contra hne
      exact hlt (hvalue hne)
    · exact hsuffix.eq_of_length (Nat.le_antisymm hsuffix.length_le (Nat.le_of_not_lt hlt))

theorem scanHex_moves (width : ℕ) (s : Text) :
    (scanHex width s).2.length < s.length ∨ scanHex width s = (none, s) := by
  have hspace : s.dropWhile isspace <:+ s := List.dropWhile_suffix _
  have hsign := (scanSign_suffix width (s.dropWhile isspace)).trans hspace
  unfold scanHex
  generalize scanSign width (s.dropWhile isspace) = sign at hsign ⊢
  obtain ⟨neg, width, s₁⟩ := sign
  have hafter := scanPrefix_suffix width s₁
  have hlength := scanPrefix_length width s₁
  dsimp only at hsign hafter hlength ⊢
  generalize scanPrefix width s₁ = r at hafter hlength ⊢
  obtain ⟨zero, width, s₂⟩ := r
  dsimp only at hafter hlength ⊢
  apply moves_or_fails ((List.drop_suffix _ _).trans (hafter.trans hsign))
  intro hvalue
  have hdigits : zero ++ (s₂.take width).takeWhile isxdigit ≠ [] := by
    intro hnil
    exact hvalue (if_pos hnil)
  have hle₁ := hsign.length_le
  have hle₂ := hafter.length_le
  have hmore : ((s₂.take width).takeWhile isxdigit).length ≤ s₂.length :=
    (List.takeWhile_prefix _).length_le.trans (by rw [List.length_take]; exact min_le_right _ _)
  rw [List.length_drop]
  cases hzero : zero with
  | nil =>
      -- a digit behind the sign is taken
      rw [hzero, List.nil_append] at hdigits
      have hpos := List.length_pos_of_ne_nil hdigits
      omega
  | cons c rest =>
      have hlt := hlength (by rw [hzero]; exact List.cons_ne_nil _ _)
      omega

theorem scanInt_moves (s : Text) :
    (scanInt s).2.length < s.length ∨ scanInt s = (none, s) := by
  have hspace : s.dropWhile isspace <:+ s := List.dropWhile_suffix _
  have hskip := (scanSign_suffix s.length (s.dropWhile isspace)).trans hspace
  unfold scanInt
  generalize scanSign s.length (s.dropWhile isspace) = sign at hskip ⊢
  obtain ⟨neg, width, s₁⟩ := sign
  dsimp only at hskip ⊢
  apply moves_or_fails ((List.drop_suffix _ _).trans hskip)
  intro hvalue
  have hdigits : s₁.takeWhile isdigit ≠ [] := by
    intro hnil
    exact hvalue (if_pos hnil)
  have hpos := List.length_pos_of_ne_nil hdigits
  have hle := hskip.length_le
  have htaken : (s₁.takeWhile isdigit).length ≤ s₁.length := (List.takeWhile_prefix _).length_le
  rw [List.length_drop]
  omega

end OsSolutions
