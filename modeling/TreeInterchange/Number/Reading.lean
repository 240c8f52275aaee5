import TreeInterchange.Number.Binary64

/-!
# Numbers written in texts

Integers are an optional sign and at least one digit, and must fit the width that is asked
for; only signed widths admit a minus sign. Reals admit a point with digits on at least one
side of it, an exponent, and the names of the values that are not finite, in any case.
-/

namespace TreeInterchange.Number

def ofDigits (cs : List Char) : Nat := cs.foldl (fun n c => 10 * n + (c.toNat - '0'.toNat)) 0

def readNat? (cs : List Char) : Option Nat :=
  if cs ≠ [] ∧ cs.all Char.isDigit then some (ofDigits cs) else none

def readUnsigned? : List Char → Option Nat
  | '+' :: cs => readNat? cs
  | cs => readNat? cs

/-- A signed integer, with an optional sign of either kind. -/
def readSigned? : List Char → Option Int
  | '-' :: cs => (readNat? cs).map fun n => -(n : Int)
  | cs => (readUnsigned? cs).map Int.ofNat

def toInt64? (n : Int) : Option Int64 :=
  if Int64.minValue.toInt ≤ n ∧ n ≤ Int64.maxValue.toInt then some (Int64.ofInt n) else none

def toUInt32? (n : Int) : Option UInt32 :=
  if 0 ≤ n ∧ n.toNat < UInt32.size then some (UInt32.ofNat n.toNat) else none

def readInt64? (s : String) : Option Int64 := (readSigned? s.toList).bind toInt64?

def readUInt32? (s : String) : Option UInt32 :=
  (readUnsigned? s.toList).bind fun n => toUInt32? n

/-- A place in a list, which must fit 64 bits. -/
def readIndex? (s : String) : Option Nat :=
  (readUnsigned? s.toList).filter (· < UInt64.size)

/-- The exponent that ends a real, zero when there is none. -/
def readExponent? : List Char → Option Int
  | [] => some 0
  | c :: cs => if c = 'e' ∨ c = 'E' then readSigned? cs else none

def readMagnitude? (negative : Bool) (cs : List Char) : Option Binary64 :=
  let name := cs.map Char.toLower
  if name = "inf".toList ∨ name = "infinity".toList then some (.infinity negative)
  else if name = "nan".toList then some .nan
  else
    let whole := cs.takeWhile Char.isDigit
    let afterWhole := cs.dropWhile Char.isDigit
    let fraction := match afterWhole with
      | '.' :: rest => rest.takeWhile Char.isDigit
      | _ => []
    let afterFraction := match afterWhole with
      | '.' :: rest => rest.dropWhile Char.isDigit
      | _ => afterWhole
    if whole = [] ∧ fraction = [] then none
    else (readExponent? afterFraction).map fun e =>
      .ofDecimal negative (ofDigits (whole ++ fraction)) (e - Int.ofNat fraction.length)

def readReal? (s : String) : Option Binary64 :=
  match s.toList with
  | '-' :: cs => readMagnitude? true cs
  | '+' :: cs => readMagnitude? false cs
  | cs => readMagnitude? false cs

end TreeInterchange.Number
