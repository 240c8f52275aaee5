import TreeInterchange.Number.Binary64

/-!
# Shortest decimals

The fewest significant digits whose value rounds back to a given number. The reals that
round to `m * 2 ^ q` form an interval around it, with its ends included exactly when `m` is
even. For one digit, two digits and so on up to seventeen, the two points of that decimal
grid next to the number are tested against the interval; the first grid with a hit wins, and
of two hits the nearer one. Formats differ only in which of two equally near points they take.
-/

namespace TreeInterchange

structure Decimal where
  digits : Nat
  exponent : Int
deriving DecidableEq, Inhabited

/-- Which of two equally near decimals of the same length is written. -/
inductive TieRule where
  | up
  | even
deriving DecidableEq

open Number (pow2 pow10)

namespace Shortest

/-- The interval of reals rounding to a magnitude: `low / den`, `mid / den` and `high / den`
are its ends and the number itself. -/
structure Interval where
  low : Nat
  mid : Nat
  high : Nat
  den : Nat
  closed : Bool

/-- The interval of `m * 2 ^ q`; below a power of two the grid is twice as fine. -/
def interval (m : Nat) (q : Int) : Interval :=
  let scale := pow2 (q - 2).toNat
  let fine := m = pow2 52 ∧ q ≠ -1074
  { low := (4 * m - if fine then 1 else 2) * scale
    mid := 4 * m * scale
    high := (4 * m + 2) * scale
    den := pow2 (2 - q).toNat
    closed := m % 2 == 0 }

def Interval.holds (i : Interval) (d : Nat) (e : Int) : Bool :=
  let x := d * pow10 e.toNat * i.den
  let unit := pow10 (-e).toNat
  if i.closed then decide (i.low * unit ≤ x) && decide (x ≤ i.high * unit)
  else decide (i.low * unit < x) && decide (x < i.high * unit)

/-- Number of decimal digits before the point of `num / den`, negative for zeros right after it. -/
def pointPlace (num den : Nat) : Int :=
  let guess : Int := ((Int.ofNat num.log2 - Int.ofNat den.log2) * 1233) / 4096
  let reaches := fun k : Int => decide (den * pow10 k.toNat ≤ num * pow10 (-k).toNat)
  -- The guess is off by at most one to either side.
  if reaches (guess + 1) then guess + 2
  else if reaches guess then guess + 1
  else if reaches (guess - 1) then guess
  else guess - 1

def hit? (i : Interval) (tie : TieRule) (e : Int) : Option Decimal :=
  let num := i.mid * pow10 (-e).toNat
  let den := i.den * pow10 e.toNat
  let below := num / den
  let twice := 2 * (num % den)
  match i.holds below e, i.holds (below + 1) e with
  | true, true =>
    let up := if twice = den then (match tie with | .up => true | .even => below % 2 == 1)
      else decide (den < twice)
    some ⟨if up then below + 1 else below, e⟩
  | true, false => some ⟨below, e⟩
  | false, true => some ⟨below + 1, e⟩
  | false, false => none

/-- The shortest decimal of a finite, non-zero number's magnitude. -/
def ofBinary64 (tie : TieRule) (x : Binary64) : Decimal :=
  let (m, q) := x.significand
  let i := interval m q
  let place := pointPlace i.mid i.den
  (((List.range 17).findSome? fun n => hit? i tie (place - 1 - (n : Nat)))).getD ⟨0, 0⟩

/-- The digits without trailing zeros, and the number of places before the point. -/
def Decimal.digitsAndPlace (d : Decimal) : List Char × Int :=
  let cs := Nat.toDigits 10 d.digits
  let kept := (cs.reverse.dropWhile (· = '0')).reverse
  (kept, d.exponent + cs.length)

end Shortest

end TreeInterchange
