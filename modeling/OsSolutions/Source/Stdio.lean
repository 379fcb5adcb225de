import Mathlib.Data.Nat.Digits.Defs

/-! # Numbers in text

What the polygon programs use of `printf` and `scanf`: `%16llx` in both directions, and `%lx`
and `%d` for reading. A `scanf` returns the value that it stores, if any, and the text that
it leaves. The end of the list is the end of the file or of the string. -/

namespace OsSolutions

abbrev Text := List UInt8

def isspace (c : UInt8) : Bool := c = 32 ∨ 9 ≤ c ∧ c ≤ 13

def isdigit (c : UInt8) : Bool := 48 ≤ c ∧ c ≤ 57

def isxdigit (c : UInt8) : Bool := isdigit c ∨ 97 ≤ c ∧ c ≤ 102 ∨ 65 ≤ c ∧ c ≤ 70

/-- The value of a digit, decimal or hexadecimal. -/
def digitValue (c : UInt8) : ℕ :=
  if isdigit c then c.toNat - 48 else if 97 ≤ c then c.toNat - 87 else c.toNat - 55

/-- The lower-case digits of `%llx`. -/
def hexDigit (d : ℕ) : UInt8 := UInt8.ofNat (if d < 10 then 48 + d else 87 + d)

/-! ## Printing -/

/-- The digits of a number, the highest first. -/
def hexDigits (n : ℕ) : Text :=
  if n = 0 then [48] else (Nat.digits 16 n).reverse.map hexDigit

/-- `sprintf` with `%16llx`, without the NUL. -/
def sprintfHex (w : UInt64) : Text :=
  List.replicate (16 - (hexDigits w.toNat).length) 32 ++ hexDigits w.toNat

/-! ## Scanning -/

def numeral (base : ℕ) (digits : Text) : ℕ := Nat.ofDigits base (digits.reverse.map digitValue)

/-- A sign, if there is one. It counts towards the field width. -/
def scanSign (width : ℕ) (s : Text) : Bool × ℕ × Text :=
  match width, s with
  | width + 1, c :: s =>
      if c = 45 then (true, width, s)
      else if c = 43 then (false, width, s)
      else (false, width + 1, c :: s)
  | width, s => (false, width, s)

/-- The prefix `0x`, if it is there: its `0` is the first digit of the number. The prefix counts
towards the field width. -/
def scanPrefix (width : ℕ) (s : Text) : Text × ℕ × Text :=
  match width, s with
  | width + 2, a :: b :: s =>
      if a = 48 ∧ (b = 120 ∨ b = 88) then ([a], width, s) else ([], width + 2, a :: b :: s)
  | width, s => ([], width, s)

/-- The conversion of `strtoull`. -/
def strtoull (neg : Bool) (n : ℕ) : UInt64 :=
  if n < 2 ^ 64 then if neg then 0 - UInt64.ofNat n else UInt64.ofNat n
  else UInt64.ofNat (2 ^ 64 - 1)

/-- `scanf` with `%llx` and a field width. White space does not count towards the width. -/
def scanHex (width : ℕ) (s : Text) : Option UInt64 × Text :=
  let (neg, width, s) := scanSign width (s.dropWhile isspace)
  let (zero, width, s) := scanPrefix width s
  let more := (s.take width).takeWhile isxdigit
  let digits := zero ++ more
  (if digits = [] then none else some (strtoull neg (numeral 16 digits)), s.drop more.length)

/-- `scanf` with `%16llx`. -/
def scanHex16 (s : Text) : Option UInt64 × Text := scanHex 16 s

/-- `scanf` with `%lx`, which has no field width. A `long unsigned` has 64 bits. -/
def scanLong (s : Text) : Option UInt64 × Text := scanHex s.length s

/-- `scanf` with `%d`: the value is limited to the range of `long` and stored as an `int`. -/
def scanInt (s : Text) : Option Int32 × Text :=
  let (neg, _, s) := scanSign s.length (s.dropWhile isspace)
  let digits := s.takeWhile isdigit
  let n := numeral 10 digits
  let value : ℤ := if neg then max (-2 ^ 63) (-n) else min (2 ^ 63 - 1) n
  (if digits = [] then none else some (Int32.ofInt value), s.drop digits.length)

/-- `sscanf` with `%16llx` on the string that starts at the beginning of the memory. -/
def sscanfHex (mem : Text) : Option UInt64 := (scanHex16 (mem.takeWhile (· ≠ 0))).1

end OsSolutions
