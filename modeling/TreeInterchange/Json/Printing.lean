import TreeInterchange.Json.Basic
import TreeInterchange.Number.Shortest
import TreeInterchange.Text.Split

/-!
# Writing JSON texts

Two layouts: compact, with no blanks at all, and indented by two columns a level. Strings
escape the quote, the backslash and the control characters; reals are written with the
fewest digits that read back, positionally while the point stays near the digits.
-/

namespace TreeInterchange

/-- How a binary64 number is laid out once its shortest digits are known. -/
structure RealFormat where
  /-- Places before the point, from `fst` to `snd`, that are written without an exponent. -/
  positional : Option (Int × Int)
  tie : TieRule
  /-- Whether a whole number ends in `.0`. -/
  keepsPoint : Bool
  /-- The text of an infinity, given whether it is negative. -/
  infinity : Bool → String
  nan : String

/-- Reals in JSON texts; what is not finite has no JSON form and is written as null. -/
def RealFormat.json : RealFormat := ⟨some (-4, 16), .even, true, fun _ => "null", "null"⟩

/-- Reals in messages: always positional, and a whole number has no point. -/
def RealFormat.message : RealFormat :=
  ⟨none, .up, false, fun negative => if negative then "-inf" else "inf", "NaN"⟩

namespace RealFormat

def zeros (n : Nat) : List Char := List.replicate n '0'

/-- Digits with `place` of them before the point, padded with zeros. -/
def positionalText (keepsPoint : Bool) (digits : List Char) (place : Int) : List Char :=
  if place ≤ 0 then '0' :: '.' :: zeros (-place).toNat ++ digits
  else if digits.length ≤ place.toNat then
    digits ++ zeros (place.toNat - digits.length) ++ (if keepsPoint then ['.', '0'] else [])
  else digits.take place.toNat ++ '.' :: digits.drop place.toNat

/-- One digit before the point and a signed exponent. -/
def exponentText (digits : List Char) (place : Int) : List Char :=
  let e := place - 1
  digits.take 1 ++ (if digits.length ≤ 1 then [] else '.' :: digits.drop 1) ++
    'e' :: (if e < 0 then '-' else '+') :: Nat.toDigits 10 e.natAbs

def magnitudeText (f : RealFormat) (x : Binary64) : List Char :=
  if x.magnitude = 0 then '0' :: (if f.keepsPoint then ['.', '0'] else [])
  else
    let (digits, place) := Shortest.Decimal.digitsAndPlace (Shortest.ofBinary64 f.tie x)
    match f.positional with
    | some (low, high) =>
      if low ≤ place ∧ place ≤ high then positionalText f.keepsPoint digits place
      else exponentText digits place
    | none => positionalText f.keepsPoint digits place

def render (f : RealFormat) (x : Binary64) : String :=
  if x.isNaN then f.nan
  else if x.isInfinite then f.infinity x.isNegative
  else String.ofList ((if x.isNegative then ['-'] else []) ++ f.magnitudeText x)

end RealFormat

namespace Json

def hexPair (n : Nat) : List Char :=
  [Nat.digitChar (n / 16), Nat.digitChar (n % 16)]

def escapeChar (c : Char) : List Char :=
  if c = '"' then ['\\', '"']
  else if c = '\\' then ['\\', '\\']
  else if c = '\x08' then ['\\', 'b']
  else if c = '\x0c' then ['\\', 'f']
  else if c = '\n' then ['\\', 'n']
  else if c = '\r' then ['\\', 'r']
  else if c = '\t' then ['\\', 't']
  else if c.toNat < 0x20 then ['\\', 'u', '0', '0'] ++ hexPair c.toNat
  else [c]

def quote (s : String) : String :=
  String.ofList ('"' :: s.toList.flatMap escapeChar ++ ['"'])

def numberText : JsonNumber → String
  | .int n => toString n
  | .real x => RealFormat.json.render x

mutual

def compact : Json → String
  | .null => "null"
  | .bool b => if b then "true" else "false"
  | .number n => numberText n
  | .string s => quote s
  | .array items => "[" ++ Text.join "," (compactItems items) ++ "]"
  | .object members => "\x7b" ++ Text.join "," (compactMembers members) ++ "\x7d"

def compactItems : List Json → List String
  | [] => []
  | v :: vs => v.compact :: compactItems vs

def compactMembers : List (String × Json) → List String
  | [] => []
  | (k, v) :: ms => (quote k ++ ":" ++ v.compact) :: compactMembers ms

end

def newline (level : Nat) : String := String.ofList ('\n' :: List.replicate (2 * level) ' ')

mutual

/-- The value spread over lines, its inner lines indented one level deeper than `level`. -/
def indented (level : Nat) : Json → String
  | .array (v :: vs) =>
    "[" ++ newline (level + 1) ++
      Text.join ("," ++ newline (level + 1)) (indentedItems (level + 1) (v :: vs)) ++
      newline level ++ "]"
  | .object (m :: ms) =>
    "\x7b" ++ newline (level + 1) ++
      Text.join ("," ++ newline (level + 1)) (indentedMembers (level + 1) (m :: ms)) ++
      newline level ++ "\x7d"
  | v => v.compact

def indentedItems (level : Nat) : List Json → List String
  | [] => []
  | v :: vs => v.indented level :: indentedItems level vs

def indentedMembers (level : Nat) : List (String × Json) → List String
  | [] => []
  | (k, v) :: ms => (quote k ++ ": " ++ v.indented level) :: indentedMembers level ms

end

def pretty (v : Json) : String := v.indented 0

end Json

end TreeInterchange
