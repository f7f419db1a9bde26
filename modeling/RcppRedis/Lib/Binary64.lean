import RcppRedis.Lib.Bytes
import Mathlib.Data.BitVec

/-!
# Doubles as bit patterns

A double is its 64-bit pattern.  This is what a binary protocol carries, so
`toBytes` and `ofBytes` (little endian) are exact on every pattern, payloads of
NaN included.

The arithmetic a client does on doubles is small: print one with `%f`, round one
to an integer, make one from an integer.  All three work on the sign, the
mantissa and the exponent, that is on the exact value `± mantissa * 2 ^ exponent`.
-/

/-- An IEEE 754 double, as its bit pattern. -/
abbrev Double := BitVec 64

namespace Double

open Bytes

/-! ## Bytes -/

/-- The eight bytes of a double, least significant first. -/
def toBytes (d : Double) : Bytes := (List.range 8).map fun i => UInt8.ofNat (d.toNat / 256 ^ i)

/-- The double with the given bytes, least significant first. -/
def ofBytes (b : Bytes) : Double := BitVec.ofNat 64 (Nat.ofDigits 256 (b.map UInt8.toNat))

/-- The bytes of a vector of doubles. -/
def bytesOfVector (x : List Double) : Bytes := (x.map toBytes).flatten

/-- The vector of doubles in a byte string; a rest shorter than a double is left out. -/
def vectorOfBytes (b : Bytes) : List Double :=
  (List.range (b.length / 8)).map fun i => ofBytes ((b.drop (8 * i)).take 8)

@[simp] theorem length_toBytes (d : Double) : d.toBytes.length = 8 := by simp [toBytes]

@[simp] theorem length_bytesOfVector (x : List Double) :
    (bytesOfVector x).length = 8 * x.length := by
  induction x with
  | nil => rfl
  | cons d x ih =>
      simp only [bytesOfVector, List.map_cons, List.flatten_cons, List.length_append,
        length_toBytes, List.length_cons] at ih ⊢
      omega

/-! ## The exact value -/

/-- The sign bit. -/
def negative (d : Double) : Bool := d.msb

/-- The exponent field. -/
def exponentBits (d : Double) : ℕ := d.toNat / 2 ^ 52 % 2 ^ 11

/-- The fraction field. -/
def fraction (d : Double) : ℕ := d.toNat % 2 ^ 52

/-- Neither an infinity nor a NaN. -/
def isFinite (d : Double) : Bool := d.exponentBits ≠ 2 ^ 11 - 1

/-- The mantissa, with the leading bit that normal numbers leave out. -/
def mantissa (d : Double) : ℕ :=
  if d.exponentBits = 0 then d.fraction else 2 ^ 52 + d.fraction

/-- The exponent of the last bit of the mantissa. -/
def exponent (d : Double) : ℤ := (max d.exponentBits 1 : ℕ) - 1075

/-- `num / den`, rounded to the nearest integer, ties to even. -/
def roundHalfEven (num den : ℕ) : ℕ :=
  let q := num / den
  let r := num % den
  if 2 * r > den ∨ (2 * r = den ∧ q % 2 = 1) then q + 1 else q

/-- `num / den`, rounded to the nearest integer, ties away from zero. -/
def roundHalfAway (num den : ℕ) : ℕ := (2 * num + den) / (2 * den)

/-- The magnitude of a finite double, scaled, as a fraction. -/
def magnitude (d : Double) (scale : ℕ) : ℕ × ℕ :=
  (d.mantissa * scale * 2 ^ d.exponent.toNat, 2 ^ (-d.exponent).toNat)

/-! ## Printing and conversion -/

/-- `%f`: six decimals, correctly rounded, ties to even. -/
def formatF (d : Double) : Bytes :=
  let sign := if d.negative then [45] else []
  if d.isFinite then
    let (num, den) := d.magnitude (10 ^ 6)
    let millionths := roundHalfEven num den
    let frac := decimal (millionths % 10 ^ 6)
    sign ++ decimal (millionths / 10 ^ 6) ++ 46 :: List.replicate (6 - frac.length)
      (digit 0) ++ frac
  else if d.fraction = 0 then sign ++ ascii "inf"
  else sign ++ ascii "nan"

/-- `std::round` of a finite double: to the nearest integer, ties away from zero. -/
def round (d : Double) : ℤ :=
  let (num, den) := d.magnitude 1
  if d.negative then -(roundHalfAway num den : ℤ) else roundHalfAway num den

/-- The pattern of a natural number, rounded to 53 bits, ties to even. -/
def ofNatBits (n : ℕ) : ℕ :=
  if n = 0 then 0
  else
    let e := n.log2
    let m := if e ≤ 52 then n * 2 ^ (52 - e) else roundHalfEven n (2 ^ (e - 52))
    (e + 1022) * 2 ^ 52 + m

/-- `static_cast<double>` of a `long long`. -/
def ofInt (n : ℤ) : Double :=
  BitVec.ofNat 64 (if n < 0 then 2 ^ 63 + ofNatBits n.natAbs else ofNatBits n.natAbs)

/-- The sum of two doubles that are whole numbers. -/
def addWhole (a b : Double) : Double := ofInt (a.round + b.round)

example : formatF (ofInt (-3)) = ascii "-3.000000" := by decide
example : ofBytes (toBytes (ofInt 9007199254740993)) = ofInt 9007199254740992 := by decide

end Double
