import TreeInterchange.Number.Reading

/-!
# JSON values

The values of JSON documents. Numbers are integers of at most 64 bits or binary64 reals,
and the members of an object stay in the order in which they were written.
-/

namespace TreeInterchange

inductive JsonNumber where
  | int (value : Int)
  | real (value : Binary64)
deriving DecidableEq, Inhabited

inductive Json where
  | null
  | bool (value : Bool)
  | number (value : JsonNumber)
  | string (value : String)
  | array (items : List Json)
  | object (members : List (String × Json))
deriving Inhabited

abbrev JsonMembers := List (String × Json)

namespace JsonMembers

def get? (members : JsonMembers) (key : String) : Option Json := members.lookup key

def text? (members : JsonMembers) (key : String) : Option String :=
  match get? members key with
  | some (.string s) => some s
  | _ => none

def items (members : JsonMembers) (key : String) : List Json :=
  match get? members key with
  | some (.array items) => items
  | _ => []

def flag (members : JsonMembers) (key : String) : Bool :=
  match get? members key with
  | some (.bool b) => b
  | some (.string s) => s == "true"
  | _ => false

end JsonMembers

namespace Json

def integer (n : Int) : Json := .number (.int n)

def int64? : Json → Option Int64
  | .number (.int n) => Number.toInt64? n
  | _ => none

def nat? : Json → Option Nat
  | .number (.int n) => if 0 ≤ n then some n.toNat else none
  | _ => none

/-- Any number as a real, integers rounded to the nearest one. -/
def real? : Json → Option Binary64
  | .number (.int n) => some (.ofInt n)
  | .number (.real x) => some x
  | _ => none

def bool? : Json → Option Bool
  | .bool b => some b
  | _ => none

def text? : Json → Option String
  | .string s => some s
  | _ => none

/-- An integer, written as a number or as a text. -/
def lenientInt64? (v : Json) : Option Int64 :=
  match v.int64? with
  | some n => some n
  | none => v.text?.bind Number.readInt64?

mutual

/-- Number of containers on the longest way down. -/
def depth : Json → Nat
  | .array items => depthOfItems items + 1
  | .object members => depthOfMembers members + 1
  | _ => 0

def depthOfItems : List Json → Nat
  | [] => 0
  | v :: vs => max v.depth (depthOfItems vs)

def depthOfMembers : List (String × Json) → Nat
  | [] => 0
  | (_, v) :: ms => max v.depth (depthOfMembers ms)

end

end Json

end TreeInterchange
