import Mathlib.Logic.Function.Basic
import Mathlib.Data.Nat.Notation

/-! # C strings of the kernel

The string routines of `string.c`, on memory seen from a `char` pointer on. -/

namespace OsSolutions

/-- The bytes from a pointer on, by offset. -/
abbrev Bytes := ℕ → UInt8

/-- A NUL-terminated string: the characters before its NUL. -/
structure CString where
  chars : List UInt8
  nulFree : 0 ∉ chars
  deriving DecidableEq

namespace CString

def length (n : CString) : ℕ := n.chars.length

/-- What a pointer to the string reads. Offsets past the NUL are never read. -/
def ptr (n : CString) : Bytes := fun i => n.chars.getD i 0

end CString

/-- The difference is taken on `uchar` values, as in the last line of the routine. -/
def strncmp (p q : Bytes) : ℕ → Int
  | 0 => 0
  | n + 1 =>
      if p 0 ≠ 0 ∧ p 0 = q 0 then
        strncmp (fun i => p (i + 1)) (fun i => q (i + 1)) n
      else
        (p 0).toNat - (q 0).toNat

/-- The loop of `safestrcpy` with both pointers advanced by `i`; the last argument is
`n` before `--n`. A copied NUL leaves `s` past it, so one more zero is stored. -/
def safestrcpyLoop (s t : Bytes) (i : ℕ) : ℕ → Bytes
  | 0 | 1 => Function.update s i 0
  | n + 2 =>
      if t i ≠ 0 then
        safestrcpyLoop (Function.update s i (t i)) t (i + 1) (n + 1)
      else
        Function.update (Function.update s i (t i)) (i + 1) 0

def safestrcpy (s t : Bytes) (n : ℕ) : Bytes :=
  if n = 0 then s else safestrcpyLoop s t 0 n

/-- The second loop of `strncpy`, with `s` advanced by `i`. -/
def strncpyFill (s : Bytes) (i : ℕ) : ℕ → Bytes
  | 0 => s
  | n + 1 => strncpyFill (Function.update s i 0) (i + 1) n

/-- The first loop of `strncpy`, with both pointers advanced by `i`. -/
def strncpyLoop (s t : Bytes) (i : ℕ) : ℕ → Bytes
  | 0 => s
  | n + 1 =>
      if t i ≠ 0 then
        strncpyLoop (Function.update s i (t i)) t (i + 1) n
      else
        strncpyFill (Function.update s i (t i)) (i + 1) n

def strncpy (s t : Bytes) (n : ℕ) : Bytes := strncpyLoop s t 0 n

end OsSolutions
