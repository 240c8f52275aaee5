import TreeInterchange.Json.Basic
import TreeInterchange.Table

/-!
# JSON as written

Reading a JSON text has two stages. The first follows the grammar and keeps everything as
it was written: escapes undecoded, digits unconverted, repeated keys in place. The second
turns that into a value and refuses what has none: a surrogate without its partner, a real
beyond the finite range, containers nested too deeply. Readers of fixed records start from
the written form, where a repeated key can still be seen and a member that is skipped is
never decoded.
-/

namespace TreeInterchange

/-- A piece of a string: a character, or one 16-bit unit of a `\u` escape. -/
inductive WrittenChar where
  | plain (c : Char)
  | unit (u : Nat)
deriving DecidableEq

/-- The digits of a number; the exponent is present when the text has one. -/
structure WrittenNumber where
  negative : Bool
  whole : List Char
  fraction : Option (List Char)
  exponent : Option Int

inductive WrittenJson where
  | null
  | bool (value : Bool)
  | number (value : WrittenNumber)
  | string (value : List WrittenChar)
  | array (items : List WrittenJson)
  | object (members : List (List WrittenChar × WrittenJson))

def nestingLimit : Nat := 128

namespace WrittenChar

/-- The characters that the pieces denote; a surrogate unit must stand in a proper pair. -/
def decode : List WrittenChar → Option (List Char)
  | [] => some []
  | .plain c :: rest => (decode rest).map (c :: ·)
  | .unit u :: .unit v :: rest =>
    if 0xD800 ≤ u ∧ u < 0xDC00 ∧ 0xDC00 ≤ v ∧ v < 0xE000 then
      (decode rest).map (Char.ofNat (0x10000 + (u - 0xD800) * 0x400 + (v - 0xDC00)) :: ·)
    else if 0xD800 ≤ u ∧ u < 0xE000 then none
    else (decode (.unit v :: rest)).map (Char.ofNat u :: ·)
  | .unit u :: rest =>
    if 0xD800 ≤ u ∧ u < 0xE000 then none else (decode rest).map (Char.ofNat u :: ·)

def text? (cs : List WrittenChar) : Option String := (decode cs).map String.ofList

end WrittenChar

namespace WrittenNumber

/-- Integers that fit 64 bits stay integers; all else becomes a real, which must be finite. -/
def value? (n : WrittenNumber) : Option JsonNumber :=
  let fraction := n.fraction.getD []
  let real := Binary64.ofDecimal n.negative (Number.ofDigits (n.whole ++ fraction))
    (n.exponent.getD 0 - Int.ofNat fraction.length)
  if n.fraction.isNone && n.exponent.isNone then
    let m := Number.ofDigits n.whole
    if n.negative then
      if 0 < m ∧ m ≤ Number.pow2 63 then some (.int (-(m : Int))) else finite real
    else if m < UInt64.size then some (.int m) else finite real
  else finite real
where
  finite (x : Binary64) : Option JsonNumber := if x.isFinite then some (.real x) else none

end WrittenNumber

namespace WrittenJson

/-- The value, if fewer than `room` brackets are ever open at once. A repeated key keeps its
first place and its last value. -/
def value? : Nat → WrittenJson → Option Json
  | _, .null => some .null
  | _, .bool b => some (.bool b)
  | _, .number n => n.value?.map .number
  | _, .string s => (WrittenChar.text? s).map .string
  | 0, .array _ => none
  | 0, .object _ => none
  | room + 1, .array items =>
    if room = 0 then none else (items.mapM (value? room)).map .array
  | room + 1, .object members =>
    if room = 0 then none
    else (members.mapM fun (key, v) => do
        return (← WrittenChar.text? key, ← value? room v)).map fun ms =>
      .object (Table.ofList ms).entries

end WrittenJson

end TreeInterchange
