/-!
# Binary64 numbers

A real value is held as the 64 bits of its IEEE 754 binary64 encoding. Rounding a ratio to
the nearest such number, ties to even, is done in exact integer arithmetic: the quotient is
taken on the grid of the target exponent, and adding it to the shifted exponent field lets a
carry out of the significand run into the exponent, up to infinity.
-/

namespace TreeInterchange

namespace Number

def pow2 (n : Nat) : Nat := Nat.pow 2 n

def pow10 (n : Nat) : Nat := Nat.pow 10 n

end Number

open Number (pow2 pow10)

structure Binary64 where
  bits : UInt64
deriving DecidableEq, Inhabited

namespace Binary64

def magnitude (x : Binary64) : Nat := x.bits.toNat % pow2 63

def isNegative (x : Binary64) : Bool := decide (pow2 63 ≤ x.bits.toNat)

/-- Encoding of positive infinity; greater magnitudes are not numbers. -/
def infinityBits : Nat := 2047 * pow2 52

def isNaN (x : Binary64) : Bool := decide (infinityBits < x.magnitude)

def isInfinite (x : Binary64) : Bool := x.magnitude == infinityBits

def isFinite (x : Binary64) : Bool := decide (x.magnitude < infinityBits)

def ofMagnitude (negative : Bool) (m : Nat) : Binary64 :=
  ⟨UInt64.ofNat (if negative then pow2 63 + m else m)⟩

def infinity (negative : Bool) : Binary64 := ofMagnitude negative infinityBits

def nan : Binary64 := ofMagnitude false (infinityBits + pow2 51)

/-- Integer significand and power of two of a finite magnitude: its value is `m * 2 ^ q`. -/
def significand (x : Binary64) : Nat × Int :=
  let field : Nat := x.magnitude / pow2 52
  let fraction : Nat := x.magnitude % pow2 52
  if field = 0 then (fraction, -1074) else (fraction + pow2 52, Int.ofNat field - 1075)

/-- The quotient rounded to the nearest integer, a half to the even one. -/
def roundHalfEven (num den : Nat) : Nat :=
  let q := num / den
  let r := num % den
  if 2 * r < den then q
  else if den < 2 * r then q + 1
  else q + q % 2

/-- The largest `e` with `2 ^ e ≤ num / den`, for positive arguments. -/
def floorLog2 (num den : Nat) : Int :=
  let e : Int := (num.log2 : Int) - den.log2
  if den * pow2 e.toNat ≤ num * pow2 (-e).toNat then e else e - 1

/-- Magnitude nearest to `num / den`. -/
def roundMagnitude (num den : Nat) : Nat :=
  if num = 0 then 0
  else
    let q : Int := max (floorLog2 num den - 52) (-1074)
    let m := roundHalfEven (num * pow2 (-q).toNat) (den * pow2 q.toNat)
    min ((q + 1074).toNat * pow2 52 + m) infinityBits

def ofRatio (negative : Bool) (num den : Nat) : Binary64 :=
  ofMagnitude negative (roundMagnitude num den)

def ofInt (n : Int) : Binary64 := ofRatio (decide (n < 0)) n.natAbs 1

/-- The number nearest to `± digits * 10 ^ exponent`. The value lies between `2 ^ low` and
`2 ^ high`; when these are far outside the range of finite numbers the power of ten is not built. -/
def ofDecimal (negative : Bool) (digits : Nat) (exponent : Int) : Binary64 :=
  if digits = 0 then ofMagnitude negative 0
  else
    let low : Int := digits.log2 + exponent * (if exponent < 0 then 4 else 3)
    let high : Int := digits.log2 + 1 + exponent * (if exponent < 0 then 3 else 4)
    if 1024 < low then infinity negative
    else if high < -1076 then ofMagnitude negative 0
    else ofRatio negative (digits * pow10 exponent.toNat) (pow10 (-exponent).toNat)

/-- Numeric equality: zeros of either sign are equal and nothing equals a NaN. -/
def same (x y : Binary64) : Bool :=
  !x.isNaN && !y.isNaN && (x.bits == y.bits || (x.magnitude == 0 && y.magnitude == 0))

end Binary64

end TreeInterchange
