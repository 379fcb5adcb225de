import OsSolutions.Source.Stdio
import Mathlib.Data.Nat.Digits.Lemmas

/-! # Hexadecimal numerals

What `%llx` prints and what it reads back, digit by digit. -/

namespace OsSolutions

/-- To check a fact about all bytes it is enough to run through them. -/
theorem forall_byte {P : UInt8 → Prop} (h : ∀ n < 256, P (UInt8.ofNat n)) (c : UInt8) : P c := by
  have hc := h c.toNat c.toNat_lt
  rwa [UInt8.ofNat_toNat] at hc

theorem isxdigit_apart (c : UInt8) (h : isxdigit c = true) :
    isspace c = false ∧ c ≠ 45 ∧ c ≠ 43 ∧ c ≠ 120 ∧ c ≠ 88 ∧ c ≠ 0 ∧ digitValue c < 16 := by
  revert h
  apply forall_byte (P := fun c => isxdigit c = true → isspace c = false ∧ c ≠ 45 ∧ c ≠ 43 ∧
    c ≠ 120 ∧ c ≠ 88 ∧ c ≠ 0 ∧ digitValue c < 16)
  decide +kernel

theorem hexDigit_spec : ∀ d < 16, isxdigit (hexDigit d) = true ∧ digitValue (hexDigit d) = d := by
  decide +kernel

/-! ## The digits of a number -/

theorem hexDigits_ne_nil (n : ℕ) : hexDigits n ≠ [] := by
  unfold hexDigits
  split
  · simp
  · rename_i hn
    simpa [Nat.digits_eq_nil_iff_eq_zero] using hn

theorem isxdigit_of_mem {n : ℕ} {c : UInt8} (h : c ∈ hexDigits n) : isxdigit c = true := by
  unfold hexDigits at h
  split at h
  · obtain rfl : c = 48 := by simpa using h
    rfl
  · obtain ⟨d, hd, rfl⟩ := List.mem_map.mp h
    have hlt : d < 16 := Nat.digits_lt_base (by decide) (List.mem_reverse.mp hd)
    exact (hexDigit_spec d hlt).1

theorem numeral_hexDigits (n : ℕ) : numeral 16 (hexDigits n) = n := by
  unfold hexDigits numeral
  split
  · rename_i hn
    subst hn
    rfl
  · have hvalues : ((Nat.digits 16 n).map hexDigit).map digitValue = Nat.digits 16 n := by
      rw [List.map_map, List.map_congr_left, List.map_id]
      intro d hd
      exact (hexDigit_spec d (Nat.digits_lt_base (by decide) hd)).2
    rw [← List.map_reverse, List.reverse_reverse, hvalues, Nat.ofDigits_digits]

theorem hexDigits_length_le {n k : ℕ} (hk : 0 < k) : (hexDigits n).length ≤ k ↔ n < 16 ^ k := by
  unfold hexDigits
  split
  · rename_i hn
    subst hn
    have hpos : 0 < 16 ^ k := by positivity
    simp only [List.length_singleton]
    omega
  · rw [List.length_map, List.length_reverse, Nat.digits_length_le_iff (by decide)]

/-- Zero is the only number that is printed as `0`. -/
theorem hexDigits_eq_zero {n : ℕ} (h : hexDigits n = [48]) : n = 0 := by
  have hn := numeral_hexDigits n
  rw [h] at hn
  exact hn.symm

theorem numeral_append (ds es : Text) :
    numeral 16 (ds ++ es) = numeral 16 ds * 16 ^ es.length + numeral 16 es := by
  unfold numeral
  rw [List.reverse_append, List.map_append, Nat.ofDigits_append, List.length_map,
    List.length_reverse]
  ring

theorem numeral_lt {ds : Text} (h : ∀ c ∈ ds, isxdigit c = true) :
    numeral 16 ds < 16 ^ ds.length := by
  have hlt : numeral 16 ds < 16 ^ (ds.reverse.map digitValue).length := by
    apply Nat.ofDigits_lt_base_pow_length (by decide)
    intro d hd
    obtain ⟨c, hc, rfl⟩ := List.mem_map.mp hd
    exact (isxdigit_apart c (h c (List.mem_reverse.mp hc))).2.2.2.2.2.2
  simpa using hlt

/-! ## Reading digits -/

theorem strtoull_of_lt {n : ℕ} (h : n < 2 ^ 64) : strtoull false n = UInt64.ofNat n := by
  unfold strtoull
  rw [if_pos h]
  rfl

/-- White space, then digits, then whatever follows: the digits that follow are read too, as
far as the width goes. -/
theorem scanHex_digits {width : ℕ} {sp ds rest : Text} (hsp : ∀ c ∈ sp, isspace c = true)
    (hne : ds ≠ []) (hds : ∀ c ∈ ds, isxdigit c = true) (hlen : ds.length ≤ width)
    (hmark : ds = [48] → ∀ c ∈ rest.head?, c ≠ 120 ∧ c ≠ 88) :
    scanHex width (sp ++ (ds ++ rest)) =
      (some (strtoull false
          (numeral 16 (ds ++ (rest.take (width - ds.length)).takeWhile isxdigit))),
        rest.drop ((rest.take (width - ds.length)).takeWhile isxdigit).length) := by
  obtain ⟨d, ds, rfl⟩ := List.exists_cons_of_ne_nil hne
  obtain ⟨w, rfl⟩ : ∃ w, width = w + 1 := ⟨width - 1, by simp at hlen; omega⟩
  obtain ⟨hspace, hminus, hplus, _⟩ := isxdigit_apart d (hds d (by simp))
  have hskip : (sp ++ (d :: ds ++ rest)).dropWhile isspace = d :: ds ++ rest := by
    rw [List.dropWhile_append_of_pos hsp, List.cons_append,
      List.dropWhile_cons_of_neg (by simp [hspace])]
  have hsign : scanSign (w + 1) (d :: ds ++ rest) = (false, w + 1, d :: ds ++ rest) := by
    simp [scanSign, hminus, hplus]
  have hzero : scanPrefix (w + 1) (d :: ds ++ rest) = ([], w + 1, d :: ds ++ rest) := by
    cases w with
    | zero => rfl
    | succ w =>
        cases ds with
        | nil =>
            cases rest with
            | nil => rfl
            | cons c rest =>
                have hc : d = 48 → c ≠ 120 ∧ c ≠ 88 := by
                  rintro rfl
                  exact hmark rfl c rfl
                simp only [List.cons_append, List.nil_append, scanPrefix]
                rw [if_neg]
                rintro ⟨h0, hx⟩
                exact hx.elim (hc h0).1 (hc h0).2
        | cons e ds =>
            obtain ⟨_, _, _, hx, hX, _⟩ := isxdigit_apart e (hds e (by simp))
            simp [scanPrefix, hx, hX]
  have htake : ((d :: ds ++ rest).take (w + 1)).takeWhile isxdigit =
      d :: ds ++ (rest.take (w + 1 - (d :: ds).length)).takeWhile isxdigit := by
    rw [List.take_append, List.take_of_length_le hlen, List.takeWhile_append_of_pos hds]
  simp only [scanHex, hskip, hsign, hzero, htake, List.nil_append]
  rw [if_neg (by simp), List.length_append, List.drop_append]
  simp

/-- A number that nothing but white space or the end follows is read back. -/
theorem scanHex_hexDigits {width : ℕ} {sp rest : Text} (hsp : ∀ c ∈ sp, isspace c = true)
    (w : UInt64) (hlen : (hexDigits w.toNat).length ≤ width)
    (hrest : ∀ c ∈ rest.head?, isspace c = true) :
    scanHex width (sp ++ (hexDigits w.toNat ++ rest)) = (some w, rest) := by
  have hnot : ∀ c ∈ rest.head?, isxdigit c = false ∧ c ≠ 120 ∧ c ≠ 88 := by
    intro c hc
    have hspace := hrest c hc
    refine ⟨?_, ?_, ?_⟩
    · cases hx : isxdigit c with
      | false => rfl
      | true =>
          rw [(isxdigit_apart c hx).1] at hspace
          cases hspace
    · rintro rfl
      exact absurd hspace (by decide)
    · rintro rfl
      exact absurd hspace (by decide)
  have hstop : ∀ n, (rest.take n).takeWhile isxdigit = [] := by
    intro n
    cases n with
    | zero => simp
    | succ n =>
        cases rest with
        | nil => simp
        | cons c rest =>
            have hc := (hnot c rfl).1
            simp [hc]
  rw [scanHex_digits hsp (hexDigits_ne_nil _) (fun c hc => isxdigit_of_mem hc) hlen
    fun _ c hc => (hnot c hc).2, hstop]
  simp [numeral_hexDigits, strtoull_of_lt w.toNat_lt]

theorem hexDigits_word_length (w : UInt64) : (hexDigits w.toNat).length ≤ 16 := by
  rw [hexDigits_length_le (by decide)]
  exact w.toNat_lt

end OsSolutions
