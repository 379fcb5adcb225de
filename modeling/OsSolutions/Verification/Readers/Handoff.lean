import OsSolutions.Source.Readers
import OsSolutions.Verification.Text.Hex
import Mathlib.Data.List.TakeWhile

/-! # The word that the main loop gets from a reader

The reply has no NUL, and the scan goes on behind it when the word has fewer than 16 digits:
the spaces in front do not count towards the width. -/

namespace OsSolutions.Readers

/-- The string that goes on behind the 16 bytes of a reply. -/
def behind (polygonBuffer : Vector UInt8 17) (above : Text) : Text :=
  (polygonBuffer.get 16 :: above).takeWhile (· ≠ 0)

/-- The hexadecimal digits that the scan of a reply reads: those of the word, and the digits
behind the reply as far as the field width goes. Behind a `0` an `x` belongs to the prefix `0x`. -/
def digitsRead (w : UInt64) (rest : Text) : Text :=
  if w = 0 ∧ (rest.head? = some 120 ∨ rest.head? = some 88) then
    48 :: (rest.tail.take 14).takeWhile isxdigit
  else
    hexDigits w.toNat ++ (rest.take (16 - (hexDigits w.toNat).length)).takeWhile isxdigit

/-- The scan of a `0` finds no other number in what is behind it. -/
def StaysZero (rest : Text) : Prop :=
  if rest.head? = some 120 ∨ rest.head? = some 88 then
    ∀ c ∈ (rest.tail.take 14).takeWhile isxdigit, c = 48
  else ∀ c ∈ (rest.take 15).takeWhile isxdigit, c = 48

/-- The scan stops where the word stops, or what it reads in addition is zeros. -/
def Stops (w : UInt64) (rest : Text) : Prop :=
  2 ^ 60 ≤ w.toNat ∨ w ≠ 0 ∧ (∀ c ∈ rest.head?, isxdigit c = false) ∨ w = 0 ∧ StaysZero rest

theorem sprintfHex_length (w : UInt64) : (sprintfHex w).length = 16 := by
  have hlen := hexDigits_word_length w
  simp only [sprintfHex, List.length_append, List.length_replicate]
  omega

theorem reply_eq (w : UInt64) : reply w = sprintfHex w :=
  List.take_of_length_le (sprintfHex_length w).le

theorem sprintfHex_ne_zero {w : UInt64} {c : UInt8} (h : c ∈ sprintfHex w) : c ≠ 0 := by
  rcases List.mem_append.mp h with hspace | hdigit
  · rw [List.eq_of_mem_replicate hspace]
    decide
  · exact (isxdigit_apart c (isxdigit_of_mem hdigit)).2.2.2.2.2.1

/-- The string that `sscanf` sees is the reply and what is behind it. -/
theorem handOff_eq (w : UInt64) (polygonBuffer : Vector UInt8 17) (above : Text) :
    handOff w polygonBuffer above = (scanHex16 (sprintfHex w ++ behind polygonBuffer above)).1 := by
  have htake : (sprintfHex w).take 16 = sprintfHex w :=
    List.take_of_length_le (sprintfHex_length w).le
  have hdrop : polygonBuffer.toList.drop 16 = [polygonBuffer.get 16] := by
    rw [List.drop_eq_getElem_cons (by simp), List.drop_of_length_le (by simp)]
    rfl
  rw [handOff, readReply, reply_eq, htake, sprintfHex_length, hdrop, sscanfHex, List.append_assoc,
    List.takeWhile_append_of_pos fun c hc => by simpa using sprintfHex_ne_zero hc]
  rfl

/-! ## The digits that are read -/

theorem takeWhile_take_length_le (rest : Text) (k : ℕ) :
    ((rest.take k).takeWhile isxdigit).length ≤ k := by
  have htake := (List.takeWhile_prefix (l := rest.take k) isxdigit).length_le
  rw [List.length_take] at htake
  exact htake.trans (Nat.min_le_left _ _)

theorem isxdigit_of_mem_digitsRead {w : UInt64} {rest : Text} {c : UInt8}
    (h : c ∈ digitsRead w rest) : isxdigit c = true := by
  unfold digitsRead at h
  split at h
  · rcases List.mem_cons.mp h with rfl | hmem
    · rfl
    · exact List.mem_takeWhile_imp hmem
  · rcases List.mem_append.mp h with hmem | hmem
    · exact isxdigit_of_mem hmem
    · exact List.mem_takeWhile_imp hmem

theorem digitsRead_length_le (w : UInt64) (rest : Text) : (digitsRead w rest).length ≤ 16 := by
  unfold digitsRead
  split
  · have hle := takeWhile_take_length_le rest.tail 14
    rw [List.length_cons]
    omega
  · have hlen := hexDigits_word_length w
    have hle := takeWhile_take_length_le rest (16 - (hexDigits w.toNat).length)
    rw [List.length_append]
    omega

/-- What is read is never too large for a word. -/
theorem numeral_digitsRead_lt (w : UInt64) (rest : Text) :
    numeral 16 (digitsRead w rest) < 2 ^ 64 := by
  apply Nat.lt_of_lt_of_le (numeral_lt fun c hc => isxdigit_of_mem_digitsRead hc)
  rw [show 2 ^ 64 = 16 ^ 16 from rfl]
  exact Nat.pow_le_pow_right (by decide) (digitsRead_length_le w rest)

theorem spaces_isspace (n : ℕ) : ∀ c ∈ List.replicate n (32 : UInt8), isspace c = true := by
  intro c hc
  rw [List.eq_of_mem_replicate hc]
  rfl

/-- A `0` and an `x` behind it are read as the prefix of a hexadecimal number. -/
theorem scan_mark {x : UInt8} (rest : Text) (hx : x = 120 ∨ x = 88) :
    (scanHex16 (sprintfHex 0 ++ x :: rest)).1 =
      some (strtoull false (numeral 16 (48 :: (rest.take 14).takeWhile isxdigit))) := by
  have hskip : (sprintfHex 0 ++ x :: rest).dropWhile isspace = 48 :: x :: rest := by
    show (List.replicate 15 32 ++ [48] ++ x :: rest).dropWhile isspace = _
    rw [List.append_assoc, List.dropWhile_append_of_pos (spaces_isspace 15)]
    rfl
  have hsign : scanSign 16 (48 :: x :: rest) = (false, 16, 48 :: x :: rest) := rfl
  have hzero : scanPrefix 16 (48 :: x :: rest) = ([48], 14, rest) := by
    simp [scanPrefix, hx]
  simp only [scanHex16, scanHex, hskip, hsign, hzero]
  rw [if_neg (by simp), List.singleton_append]

/-- The scan of a reply reads the word's digits and those behind them as one number. -/
theorem scan_reply (w : UInt64) (rest : Text) :
    (scanHex16 (sprintfHex w ++ rest)).1 =
      some (UInt64.ofNat (numeral 16 (digitsRead w rest))) := by
  rw [← strtoull_of_lt (numeral_digitsRead_lt w rest)]
  unfold digitsRead
  split
  · rename_i hmark
    obtain ⟨rfl, hx⟩ := hmark
    cases rest with
    | nil => simp at hx
    | cons x rest => exact scan_mark rest (by simpa using hx)
  · rename_i hmark
    have hclear : hexDigits w.toNat = [48] → ∀ c ∈ rest.head?, c ≠ 120 ∧ c ≠ 88 := by
      intro h48 c hc
      have hw : w = 0 := UInt64.toNat_inj.mp (hexDigits_eq_zero h48)
      rw [Option.mem_def] at hc
      exact ⟨fun hx => hmark ⟨hw, .inl (hc.trans (congrArg some hx))⟩,
        fun hx => hmark ⟨hw, .inr (hc.trans (congrArg some hx))⟩⟩
    rw [scanHex16, sprintfHex, List.append_assoc, scanHex_digits (spaces_isspace _)
      (hexDigits_ne_nil _) (fun c hc => isxdigit_of_mem hc) (hexDigits_word_length w) hclear]

/-- What `runMainLoop` obtains. -/
theorem handOff_eq_numeral (w : UInt64) (polygonBuffer : Vector UInt8 17) (above : Text) :
    handOff w polygonBuffer above =
      some (UInt64.ofNat (numeral 16 (digitsRead w (behind polygonBuffer above)))) := by
  rw [handOff_eq, scan_reply]

/-! ## Digits that do not change the number -/

theorem numeral_eq_zero_iff {ds : Text} (h : ∀ c ∈ ds, isxdigit c = true) :
    numeral 16 ds = 0 ↔ ∀ c ∈ ds, c = 48 := by
  induction ds with
  | nil => simp [numeral]
  | cons d ds ih =>
      have hrest : ∀ c ∈ ds, isxdigit c = true := fun c hc => h c (by simp [hc])
      have hdigit : numeral 16 [d] = 0 ↔ d = 48 := by
        have hd := h d (by simp)
        revert hd
        apply forall_byte (P := fun d => isxdigit d = true → (numeral 16 [d] = 0 ↔ d = 48))
        decide +kernel
      have hsplit := numeral_append [d] ds
      rw [List.singleton_append] at hsplit
      rw [hsplit, Nat.add_eq_zero_iff, ih hrest, Nat.mul_eq_zero, hdigit]
      simp

/-- A number that is not zero stays the same only if no digit follows. -/
theorem numeral_extended_iff {n : ℕ} (hn : n ≠ 0) (ds : Text) :
    numeral 16 (hexDigits n ++ ds) = n ↔ ds = [] := by
  rw [numeral_append, numeral_hexDigits]
  constructor
  · intro heq
    cases ds with
    | nil => rfl
    | cons d ds =>
        have hpow : 16 ≤ 16 ^ (d :: ds).length := Nat.le_self_pow (by simp) 16
        have hmul : n * 16 ≤ n * 16 ^ (d :: ds).length := Nat.mul_le_mul_left n hpow
        omega
  · rintro rfl
    simp [numeral]

theorem takeWhile_eq_nil_iff (rest : Text) {k : ℕ} (hk : 0 < k) :
    (rest.take k).takeWhile isxdigit = [] ↔ ∀ c ∈ rest.head?, isxdigit c = false := by
  obtain ⟨k, rfl⟩ : ∃ m, k = m + 1 := ⟨k - 1, by omega⟩
  cases rest with
  | nil => simp
  | cons c rest => cases hc : isxdigit c <;> simp [hc]

theorem some_ofNat_eq_iff {n : ℕ} (hn : n < 2 ^ 64) (w : UInt64) :
    some (UInt64.ofNat n) = some w ↔ n = w.toNat := by
  rw [Option.some_inj, ← UInt64.toNat_inj, UInt64.toNat_ofNat_of_lt' hn]

theorem digitsRead_zero_iff (rest : Text) :
    numeral 16 (digitsRead 0 rest) = 0 ↔ StaysZero rest := by
  rw [numeral_eq_zero_iff fun c hc => isxdigit_of_mem_digitsRead hc]
  unfold digitsRead StaysZero
  by_cases hmark : rest.head? = some 120 ∨ rest.head? = some 88
  · rw [if_pos ⟨rfl, hmark⟩, if_pos hmark, List.forall_mem_cons]
    exact and_iff_right rfl
  · rw [if_neg fun h => hmark h.2, if_neg hmark, List.forall_mem_append]
    refine and_iff_right fun c hc => ?_
    simpa [hexDigits] using hc

theorem digitsRead_iff {w : UInt64} (hw : w ≠ 0) (rest : Text) :
    numeral 16 (digitsRead w rest) = w.toNat ↔
      2 ^ 60 ≤ w.toNat ∨ ∀ c ∈ rest.head?, isxdigit c = false := by
  have hn : w.toNat ≠ 0 := fun h => hw (UInt64.toNat_inj.mp h)
  rw [digitsRead, if_neg fun h => hw h.1, numeral_extended_iff hn]
  rcases Nat.lt_or_ge w.toNat (2 ^ 60) with hlt | hle
  · have hlen : (hexDigits w.toNat).length ≤ 15 := (hexDigits_length_le (by decide)).mpr hlt
    rw [takeWhile_eq_nil_iff rest (by omega)]
    exact (or_iff_right (Nat.not_le.mpr hlt)).symm
  · have hlen : 16 - (hexDigits w.toNat).length = 0 := by
      by_contra hpos
      have hshort : w.toNat < 16 ^ 15 := (hexDigits_length_le (by decide)).mp (by omega)
      have hpow : (2 : ℕ) ^ 60 = 16 ^ 15 := by decide
      omega
    rw [hlen]
    exact iff_of_true (by simp) (.inl hle)

/-! ## When the word arrives -/

/-- The word arrives exactly when its scan stops in time: it has 16 digits, or no digit is
behind it, or it is zero and only zeros are read behind it. -/
theorem handOff_iff (w : UInt64) (polygonBuffer : Vector UInt8 17) (above : Text) :
    handOff w polygonBuffer above = some w ↔ Stops w (behind polygonBuffer above) := by
  rw [handOff_eq_numeral, some_ofNat_eq_iff (numeral_digitsRead_lt w _)]
  unfold Stops
  by_cases hw : w = 0
  · subst hw
    rw [UInt64.toNat_zero, digitsRead_zero_iff]
    simp
  · rw [digitsRead_iff hw]
    simp only [hw, ne_eq, not_false_eq_true, true_and, false_and, or_false]

/-- The word 1 arrives as 0x15 when the last byte of the buffer happens to be `5`. -/
theorem handOff_one :
    handOff 1 (Vector.replicate 17 53) [0] = some 0x15 ∧
      ¬∀ (w : UInt64) (polygonBuffer : Vector UInt8 17) (above : Text),
        handOff w polygonBuffer above = some w := by
  have hone : handOff 1 (Vector.replicate 17 53) [0] = some 0x15 := by decide +kernel
  refine ⟨hone, ?_⟩
  intro h
  rw [h 1] at hone
  exact absurd hone (by decide)

end OsSolutions.Readers
