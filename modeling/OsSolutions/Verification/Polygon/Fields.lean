import OsSolutions.Source.Polygon
import Mathlib.Data.Nat.Bitwise

/-! # The fields of a word as bits

The masks and conversions of the source read off single bits and one two-bit field. All of
them lie in the lowest byte of the word. -/

namespace OsSolutions.Polygon

/-- Bit `i` of the word. -/
def bit (w : UInt64) (i : ℕ) : Bool := w.toNat.testBit i

/-- The two bits that tell on which polygons to run. -/
def runOnField (w : UInt64) : ℕ := w.toNat / 64 % 4

/-- The lowest byte of the word. -/
def lowByte (w : UInt64) : ℕ := w.toNat % 256

theorem lowByte_lt (w : UInt64) : lowByte w < 256 := Nat.mod_lt _ (by decide)

theorem bit_eq (w : UInt64) {i : ℕ} (hi : i < 8) : bit w i = (lowByte w).testBit i := by
  unfold bit lowByte
  rw [show 256 = 2 ^ 8 from rfl, Nat.testBit_mod_two_pow]
  simp [hi]

theorem runOnField_eq (w : UInt64) : runOnField w = lowByte w / 64 := by
  unfold runOnField lowByte
  omega

/-- A mask of eight bits sees the lowest byte only. -/
theorem and_low (w : UInt64) {mask : ℕ} (hmask : mask < 256) :
    w &&& UInt64.ofNat mask = UInt64.ofNat (lowByte w &&& mask) := by
  apply UInt64.toNat_inj.mp
  have hbyte := lowByte_lt w
  have hand : lowByte w &&& mask ≤ mask := Nat.and_le_right
  rw [UInt64.toNat_and, UInt64.toNat_ofNat_of_lt' (by simp [UInt64.size]; omega),
    UInt64.toNat_ofNat_of_lt' (by simp [UInt64.size]; omega)]
  apply Nat.eq_of_testBit_eq
  intro i
  rw [Nat.testBit_and, Nat.testBit_and, lowByte, show 256 = 2 ^ 8 from rfl,
    Nat.testBit_mod_two_pow]
  by_cases hi : i < 8
  · simp [hi]
  · have hpow : 2 ^ 8 ≤ 2 ^ i := Nat.pow_le_pow_right (by decide) (Nat.le_of_not_lt hi)
    have hnot : mask.testBit i = false := Nat.testBit_lt_two_pow (by omega)
    simp [hnot]

theorem isLastIteration_eq (w : UInt64) : isLastIteration w = bit w 0 := by
  have hbyte : ∀ n < 256, decide (UInt64.ofNat (n &&& 0x1) ≠ 0) = n.testBit 0 := by decide +kernel
  rw [bit_eq w (by decide), ← hbyte _ (lowByte_lt w), ← and_low w (by decide)]
  rfl

theorem isNewPolygon_eq (w : UInt64) : isNewPolygon w = bit w 1 := by
  have hbyte : ∀ n < 256, decide (0 < UInt64.ofNat (n &&& 0x2)) = n.testBit 1 := by decide +kernel
  rw [bit_eq w (by decide), ← hbyte _ (lowByte_lt w), ← and_low w (by decide)]
  rfl

theorem getPolygonType_eq (w : UInt64) :
    getPolygonType w = if bit w 2 = true then SQUARE else TRIANGLE := by
  have hbyte : ∀ n < 256, (UInt64.ofNat (n &&& 0x4)).toUInt8.toInt8 =
      if n.testBit 2 = true then SQUARE else TRIANGLE := by decide +kernel
  rw [bit_eq w (by decide), ← hbyte _ (lowByte_lt w), ← and_low w (by decide)]
  rfl

theorem getWhomRunOn_eq (w : UInt64) : getWhomRunOn w = Int8.ofNat (runOnField w) := by
  have hbyte : ∀ n < 256, ((UInt64.ofNat (n &&& 0xc0)) >>> 6).toUInt8.toInt8 =
      Int8.ofNat (n / 64) := by decide +kernel
  rw [runOnField_eq, ← hbyte _ (lowByte_lt w), ← and_low w (by decide)]
  rfl

theorem action_iff (w : UInt64) :
    (0 < getAction w &&& WRITE_VERTICES ↔ bit w 3 = true) ∧
      (0 < getAction w &&& CALC_PERIMETER ↔ bit w 4 = true) ∧
      (0 < getAction w &&& CALC_AREA ↔ bit w 5 = true) := by
  have hbyte : ∀ n < 256, let action := (UInt64.ofNat (n &&& 0x38)).toUInt8.toInt8
      (0 < action &&& WRITE_VERTICES ↔ n.testBit 3 = true) ∧
        (0 < action &&& CALC_PERIMETER ↔ n.testBit 4 = true) ∧
        (0 < action &&& CALC_AREA ↔ n.testBit 5 = true) := by decide +kernel
  have haction : getAction w = (UInt64.ofNat (lowByte w &&& 0x38)).toUInt8.toInt8 := by
    rw [← and_low w (by decide)]
    rfl
  rw [haction, bit_eq w (by decide), bit_eq w (by decide), bit_eq w (by decide)]
  exact hbyte _ (lowByte_lt w)

theorem runOnField_lt (w : UInt64) : runOnField w < 4 := Nat.mod_lt _ (by decide)

theorem this_polygon_iff (w : UInt64) : getWhomRunOn w = THIS_POLYGON ↔ runOnField w = 0 := by
  have hfield : ∀ n < 4, Int8.ofNat n = THIS_POLYGON ↔ n = 0 := by decide +kernel
  rw [getWhomRunOn_eq]
  exact hfield _ (runOnField_lt w)

end OsSolutions.Polygon
