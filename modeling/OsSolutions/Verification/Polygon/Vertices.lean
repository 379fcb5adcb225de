import OsSolutions.Verification.Polygon.Fields
import Mathlib.Tactic.IntervalCases

/-! # The vertices of a word

Behind its lowest byte a word holds eight coordinates of six bits each, `x` and `y` of four
vertices in turn. The masks of `getXAndY` select them without overlap. -/

namespace OsSolutions.Polygon

/-- Six bits of the word, from bit `position` on. -/
def sixBits (w : UInt64) (position : ℕ) : ℕ := w.toNat / 2 ^ position % 64

/-- A six-bit number as the source makes a coordinate of it. -/
def coordinate (n : ℕ) : Int8 :=
  let x := (UInt64.ofNat n).toUInt8.toInt8
  if x < 32 then x else x ^^^ 0xc0

theorem sixBits_lt (w : UInt64) (position : ℕ) : sixBits w position < 64 :=
  Nat.mod_lt _ (by decide)

/-- A number below `2 ^ n` is given by its lowest `n` bits. -/
theorem eq_of_low_bits {a b n : ℕ} (ha : a < 2 ^ n) (hb : b < 2 ^ n)
    (h : ∀ i < n, a.testBit i = b.testBit i) : a = b := by
  apply Nat.eq_of_testBit_eq
  intro i
  by_cases hi : i < n
  · exact h i hi
  · have hpow : 2 ^ n ≤ 2 ^ i := Nat.pow_le_pow_right (by decide) (Nat.le_of_not_lt hi)
    rw [Nat.testBit_lt_two_pow (ha.trans_le hpow), Nat.testBit_lt_two_pow (hb.trans_le hpow)]

theorem testBit_sixBits (w : UInt64) (position : ℕ) {i : ℕ} (hi : i < 6) :
    (sixBits w position).testBit i = bit w (position + i) := by
  unfold sixBits bit
  rw [show 64 = 2 ^ 6 from rfl, Nat.testBit_mod_two_pow, Nat.testBit_div_two_pow]
  simp [hi, Nat.add_comm]

theorem sixBits_congr {w v : UInt64} (position : ℕ)
    (h : ∀ i < 6, bit w (position + i) = bit v (position + i)) :
    sixBits w position = sixBits v position := by
  apply eq_of_low_bits (n := 6) (sixBits_lt w position) (sixBits_lt v position)
  intro i hi
  rw [testBit_sixBits w position hi, testBit_sixBits v position hi, h i hi]

/-- A mask of six ones and a shift take out six bits. -/
theorem mask_shift (w : UInt64) {mask shift : UInt64} {position : ℕ} (hp : position < 58)
    (hmask : mask.toNat = 63 * 2 ^ position) (hshift : shift.toNat = position) :
    (w &&& mask) >>> shift = UInt64.ofNat (sixBits w position) := by
  apply UInt64.toNat_inj.mp
  have hsix := sixBits_lt w position
  rw [UInt64.toNat_ofNat_of_lt' (by simp [UInt64.size]; omega), UInt64.toNat_shiftRight,
    UInt64.toNat_and, hmask, hshift, Nat.mod_eq_of_lt (by omega)]
  apply Nat.eq_of_testBit_eq
  intro i
  rw [Nat.testBit_shiftRight, Nat.testBit_and, Nat.testBit_mul_two_pow, sixBits,
    show 64 = 2 ^ 6 from rfl, Nat.testBit_mod_two_pow, Nat.testBit_div_two_pow,
    show 63 = 2 ^ 6 - 1 from rfl, Nat.testBit_two_pow_sub_one]
  simp [Nat.add_comm i, Bool.and_comm]

theorem getXAndY_eq (w : UInt64) (k : Fin 4) :
    getXAndY w k =
      (coordinate (sixBits w (8 + 12 * k)), coordinate (sixBits w (14 + 12 * k))) := by
  have hmasks : ∀ k : Fin 4, let n := UInt64.ofNat (k * 12)
      ((0x3f00 : UInt64) <<< n).toNat = 63 * 2 ^ (8 + 12 * k.val) ∧
        ((0xfc000 : UInt64) <<< n).toNat = 63 * 2 ^ (14 + 12 * k.val) ∧
        (8 + n).toNat = 8 + 12 * k.val ∧ (14 + n).toNat = 14 + 12 * k.val := by
    decide +kernel
  obtain ⟨hx, hy, hxshift, hyshift⟩ := hmasks k
  have hk := k.isLt
  unfold getXAndY coordinate
  simp only [mask_shift w (by omega) hx hxshift, mask_shift w (by omega) hy hyshift]

/-! ## The value of a coordinate -/

/-- `c` is the number from `-32` to `31` with the six bits of the word as its pattern. -/
def IsCoordinate (w : UInt64) (position : ℕ) (c : Int8) : Prop :=
  -32 ≤ c.toInt ∧ c.toInt ≤ 31 ∧
    ∀ i < 6, (BitVec.ofInt 6 c.toInt).getLsbD i = bit w (position + i)

/-- The sign extension by `^ 0xc0` is that of two's complement. -/
theorem coordinate_spec {n : ℕ} (h : n < 64) :
    -32 ≤ (coordinate n).toInt ∧ (coordinate n).toInt ≤ 31 ∧
      ∀ i < 6, (BitVec.ofInt 6 (coordinate n).toInt).getLsbD i = n.testBit i := by
  have hall : ∀ n < 64, -32 ≤ (coordinate n).toInt ∧ (coordinate n).toInt ≤ 31 ∧
      ∀ i < 6, (BitVec.ofInt 6 (coordinate n).toInt).getLsbD i = n.testBit i := by decide +kernel
  exact hall n h

theorem isCoordinate_sixBits (w : UInt64) (position : ℕ) :
    IsCoordinate w position (coordinate (sixBits w position)) := by
  obtain ⟨hlow, hhigh, hbits⟩ := coordinate_spec (sixBits_lt w position)
  exact ⟨hlow, hhigh, fun i hi => (hbits i hi).trans (testBit_sixBits w position hi)⟩

theorem isCoordinate_getXAndY (w : UInt64) (k : Fin 4) :
    IsCoordinate w (8 + 12 * k) (getXAndY w k).1 ∧
      IsCoordinate w (14 + 12 * k) (getXAndY w k).2 := by
  rw [getXAndY_eq]
  exact ⟨isCoordinate_sixBits w _, isCoordinate_sixBits w _⟩

theorem IsCoordinate.bit_eq {w v : UInt64} {position i : ℕ} {c : Int8}
    (hw : IsCoordinate w position c) (hv : IsCoordinate v position c) (hi : i < 6) :
    bit w (position + i) = bit v (position + i) :=
  (hw.2.2 i hi).symm.trans (hv.2.2 i hi)

/-! ## Words with the same fields -/

/-- No function that reads a field tells the words apart. -/
structure SameFields (w v : UInt64) : Prop where
  last : isLastIteration w = isLastIteration v
  new : isNewPolygon w = isNewPolygon v
  type : getPolygonType w = getPolygonType v
  action : getAction w = getAction v
  runOn : getWhomRunOn w = getWhomRunOn v
  vertex : ∀ k : Fin 4, getXAndY w k = getXAndY v k

theorem lowByte_congr {w v : UInt64} (h : ∀ i < 8, bit w i = bit v i) : lowByte w = lowByte v := by
  apply eq_of_low_bits (n := 8) (lowByte_lt w) (lowByte_lt v)
  intro i hi
  rw [← bit_eq w hi, ← bit_eq v hi, h i hi]

theorem getAction_eq (w : UInt64) :
    getAction w = (UInt64.ofNat (lowByte w &&& 0x38)).toUInt8.toInt8 := by
  rw [← and_low w (by decide)]
  rfl

theorem SameFields.of_bits {w v : UInt64} (h : ∀ i < 56, bit w i = bit v i) : SameFields w v where
  last := by rw [isLastIteration_eq, isLastIteration_eq, h 0 (by decide)]
  new := by rw [isNewPolygon_eq, isNewPolygon_eq, h 1 (by decide)]
  type := by rw [getPolygonType_eq, getPolygonType_eq, h 2 (by decide)]
  action := by
    rw [getAction_eq, getAction_eq, lowByte_congr fun i hi => h i (by omega)]
  runOn := by
    rw [getWhomRunOn_eq, getWhomRunOn_eq, runOnField_eq, runOnField_eq,
      lowByte_congr fun i hi => h i (by omega)]
  vertex k := by
    have hk := k.isLt
    rw [getXAndY_eq, getXAndY_eq,
      sixBits_congr (8 + 12 * k) fun i hi => h _ (by omega),
      sixBits_congr (14 + 12 * k) fun i hi => h _ (by omega)]

/-- The fields of the lowest byte give its bits back. -/
theorem SameFields.low {w v : UInt64} (h : SameFields w v) {i : ℕ} (hi : i < 8) :
    bit w i = bit v i := by
  have htype : ∀ b c : Bool, (if b = true then SQUARE else TRIANGLE) =
      (if c = true then SQUARE else TRIANGLE) → b = c := by decide
  have hfield : ∀ n < 4, ∀ m < 4, Int8.ofNat n = Int8.ofNat m → n = m := by decide +kernel
  have hrun : lowByte w / 64 = lowByte v / 64 := by
    rw [← runOnField_eq, ← runOnField_eq]
    apply hfield _ (runOnField_lt w) _ (runOnField_lt v)
    rw [← getWhomRunOn_eq, ← getWhomRunOn_eq, h.runOn]
  have hhigh : ∀ j, (lowByte w).testBit (j + 6) = (lowByte v).testBit (j + 6) := by
    intro j
    rw [← Nat.testBit_div_two_pow, ← Nat.testBit_div_two_pow]
    exact congrArg (Nat.testBit · j) hrun
  obtain ⟨hw3, hw4, hw5⟩ := action_iff w
  obtain ⟨hv3, hv4, hv5⟩ := action_iff v
  rw [h.action] at hw3 hw4 hw5
  interval_cases i
  · rw [← isLastIteration_eq, ← isLastIteration_eq, h.last]
  · rw [← isNewPolygon_eq, ← isNewPolygon_eq, h.new]
  · apply htype
    rw [← getPolygonType_eq, ← getPolygonType_eq, h.type]
  · exact Bool.eq_iff_iff.mpr (hw3.symm.trans hv3)
  · exact Bool.eq_iff_iff.mpr (hw4.symm.trans hv4)
  · exact Bool.eq_iff_iff.mpr (hw5.symm.trans hv5)
  · rw [bit_eq w (by decide), bit_eq v (by decide)]
    exact hhigh 0
  · rw [bit_eq w (by decide), bit_eq v (by decide)]
    exact hhigh 1

theorem SameFields.high {w v : UInt64} (h : SameFields w v) {i : ℕ} (hi : 8 ≤ i) (hi' : i < 56) :
    bit w i = bit v i := by
  let k : Fin 4 := ⟨(i - 8) / 12, by omega⟩
  have hk : k.val = (i - 8) / 12 := rfl
  obtain ⟨hxw, hyw⟩ := isCoordinate_getXAndY w k
  obtain ⟨hxv, hyv⟩ := isCoordinate_getXAndY v k
  rw [h.vertex k] at hxw hyw
  by_cases hx : (i - 8) % 12 < 6
  · have hbit := hxw.bit_eq hxv hx
    rwa [show 8 + 12 * k.val + (i - 8) % 12 = i by omega] at hbit
  · have hbit := hyw.bit_eq hyv (i := (i - 8) % 12 - 6) (by omega)
    rwa [show 14 + 12 * k.val + ((i - 8) % 12 - 6) = i by omega] at hbit

theorem sameFields_iff (w v : UInt64) : SameFields w v ↔ ∀ i < 56, bit w i = bit v i := by
  constructor
  · intro h i hi
    by_cases hlow : i < 8
    · exact h.low hlow
    · exact h.high (Nat.le_of_not_lt hlow) hi
  · exact SameFields.of_bits

/-- Every coordinate is the signed value of its own six bits, and the fields together are the
lowest 56 bits. -/
theorem word_decoded :
    (∀ (w : UInt64) (k : Fin 4),
      IsCoordinate w (8 + 12 * k) (getXAndY w k).1 ∧
        IsCoordinate w (14 + 12 * k) (getXAndY w k).2) ∧
    ∀ w v : UInt64, SameFields w v ↔ ∀ i < 56, bit w i = bit v i :=
  ⟨isCoordinate_getXAndY, sameFields_iff⟩

end OsSolutions.Polygon
