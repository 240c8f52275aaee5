import TreeInterchange.Json.Written

/-!
# Reading JSON texts

A strict reader: one value, surrounded by blanks, and nothing else. Each function consumes
the front of a list of characters and returns what is left. Their common budget is twice
the number of characters, which is enough because at most two calls on the way to a nested
value share one character.
-/

namespace TreeInterchange.WrittenJson

def isBlank (c : Char) : Bool := c = ' ' || c = '\t' || c = '\n' || c = '\r'

def skipBlanks (cs : List Char) : List Char := cs.dropWhile isBlank

def hexDigit? (c : Char) : Option Nat :=
  if '0' ≤ c ∧ c ≤ '9' then some (c.toNat - '0'.toNat)
  else if 'a' ≤ c ∧ c ≤ 'f' then some (c.toNat - 'a'.toNat + 10)
  else if 'A' ≤ c ∧ c ≤ 'F' then some (c.toNat - 'A'.toNat + 10)
  else none

def shortEscape? : Char → Option Char
  | '"' => some '"'
  | '\\' => some '\\'
  | '/' => some '/'
  | 'b' => some '\x08'
  | 'f' => some '\x0c'
  | 'n' => some '\n'
  | 'r' => some '\r'
  | 't' => some '\t'
  | _ => none

/-- The pieces of a string up to its closing quote. -/
def readString : List Char → Option (List WrittenChar × List Char)
  | [] => none
  | '"' :: cs => some ([], cs)
  | '\\' :: 'u' :: a :: b :: c :: d :: cs => do
    let u := (← hexDigit? a) * 4096 + (← hexDigit? b) * 256 + (← hexDigit? c) * 16 + (← hexDigit? d)
    let (rest, cs) ← readString cs
    return (.unit u :: rest, cs)
  | '\\' :: e :: cs => do
    let c ← shortEscape? e
    let (rest, cs) ← readString cs
    return (.plain c :: rest, cs)
  | c :: cs =>
    if c.toNat < 0x20 || c = '\\' then none
    else (readString cs).map fun (rest, cs) => (.plain c :: rest, cs)

def readDigits (cs : List Char) : Option (List Char × List Char) :=
  let digits := cs.takeWhile Char.isDigit
  if digits = [] then none else some (digits, cs.dropWhile Char.isDigit)

def readFraction : List Char → Option (Option (List Char) × List Char)
  | '.' :: cs => (readDigits cs).map fun (ds, cs) => (some ds, cs)
  | cs => some (none, cs)

def readExponent : List Char → Option (Option Int × List Char)
  | c :: cs =>
    if c = 'e' || c = 'E' then
      match cs with
      | '-' :: cs => (readDigits cs).map fun (ds, cs) => (some (-(Number.ofDigits ds : Int)), cs)
      | '+' :: cs => (readDigits cs).map fun (ds, cs) => (some (Number.ofDigits ds : Int), cs)
      | cs => (readDigits cs).map fun (ds, cs) => (some (Number.ofDigits ds : Int), cs)
    else some (none, c :: cs)
  | [] => some (none, [])

/-- A number without its sign; a leading zero stands alone. -/
def readNumber (negative : Bool) (cs : List Char) : Option (WrittenNumber × List Char) := do
  let (whole, cs) ← readDigits cs
  if 1 < whole.length ∧ whole.head? = some '0' then none
  let (fraction, cs) ← readFraction cs
  let (exponent, cs) ← readExponent cs
  return ({ negative, whole, fraction, exponent }, cs)

def readWord (word : String) (v : WrittenJson) (cs : List Char) :
    Option (WrittenJson × List Char) :=
  if word.toList.isPrefixOf cs then some (v, cs.drop word.length) else none

mutual

def readValue : Nat → List Char → Option (WrittenJson × List Char)
  | 0, _ => none
  | fuel + 1, cs =>
    match skipBlanks cs with
    | 'n' :: cs => readWord "ull" .null cs
    | 't' :: cs => readWord "rue" (.bool true) cs
    | 'f' :: cs => readWord "alse" (.bool false) cs
    | '"' :: cs => (readString cs).map fun (s, cs) => (.string s, cs)
    | '-' :: cs => (readNumber true cs).map fun (n, cs) => (.number n, cs)
    | '[' :: cs =>
      match skipBlanks cs with
      | ']' :: cs => some (.array [], cs)
      | cs => (readItems fuel cs).map fun (items, cs) => (.array items, cs)
    | '\x7b' :: cs =>
      match skipBlanks cs with
      | '\x7d' :: cs => some (.object [], cs)
      | cs => (readMembers fuel cs).map fun (members, cs) => (.object members, cs)
    | cs => (readNumber false cs).map fun (n, cs) => (.number n, cs)

def readItems : Nat → List Char → Option (List WrittenJson × List Char)
  | 0, _ => none
  | fuel + 1, cs => do
    let (v, cs) ← readValue fuel cs
    match skipBlanks cs with
    | ']' :: cs => return ([v], cs)
    | ',' :: cs => (readItems fuel cs).map fun (items, cs) => (v :: items, cs)
    | _ => none

def readMembers : Nat → List Char → Option (List (List WrittenChar × WrittenJson) × List Char)
  | 0, _ => none
  | fuel + 1, cs =>
    match skipBlanks cs with
    | '"' :: cs => do
      let (key, cs) ← readString cs
      match skipBlanks cs with
      | ':' :: cs =>
        let (v, cs) ← readValue fuel cs
        match skipBlanks cs with
        | '\x7d' :: cs => return ([(key, v)], cs)
        | ',' :: cs => (readMembers fuel cs).map fun (ms, cs) => ((key, v) :: ms, cs)
        | _ => none
      | _ => none
    | _ => none

end

/-- The one value that makes up a text. -/
def read? (text : String) : Option WrittenJson :=
  match readValue (2 * text.length + 1) text.toList with
  | some (v, cs) => if skipBlanks cs = [] then some v else none
  | none => none

end TreeInterchange.WrittenJson

namespace TreeInterchange.Json

/-- The value of a JSON text with fewer than `room` brackets open at once. -/
def read? (room : Nat) (text : String) : Option Json :=
  (WrittenJson.read? text).bind (·.value? room)

/-- The value of a JSON document; its bytes must be well-formed UTF-8. -/
def ofBytes? (bytes : ByteArray) : Option Json :=
  (String.fromUTF8? bytes).bind (read? nestingLimit)

end TreeInterchange.Json
