import TreeInterchange.Json.Printing
import TreeInterchange.NodeType

/-!
# Values of properties

A slot of a node holds a plain value, owned children or references; nodes are named by their
place in the forest. Plain values may be lists, to any depth.
-/

namespace TreeInterchange

/-- The place of a node in its forest, in the order of creation. -/
abbrev NodeId := Nat

/-- A literal of an enumeration together with its ordinal there. -/
structure EnumValue where
  enumeration : QualifiedName
  literal : String
  ordinal : UInt32
deriving DecidableEq, Inhabited

inductive Value where
  | null
  | string (s : String)
  | integer (n : Int64)
  | real (x : Binary64)
  | boolean (b : Bool)
  | enumeration (e : EnumValue)
  | node (id : NodeId)
  | nodes (ids : List NodeId)
  | reference (id : NodeId)
  | references (ids : List NodeId)
  | list (items : List Value)
deriving Inhabited

namespace Value

def ofNat (n : Nat) : Value := .integer (Int64.ofNat n)

def isNull : Value → Bool
  | .null => true
  | _ => false

def text? : Value → Option String
  | .string s => some s
  | _ => none

def integer? : Value → Option Int64
  | .integer n => some n
  | _ => none

def child? : Value → Option NodeId
  | .node id => some id
  | _ => none

def target? : Value → Option NodeId
  | .reference id => some id
  | _ => none

/-- The children that the value owns, in order. -/
def children : Value → List NodeId
  | .node id => [id]
  | .nodes ids => ids
  | _ => []

/-- The nodes that the value refers to without owning them. -/
def targets : Value → List NodeId
  | .reference id => [id]
  | .references ids => ids
  | _ => []

/-- Whether the value itself, items of a list apart, names nodes. -/
def holdsNodes : Value → Bool
  | .node _ | .nodes _ | .reference _ | .references _ => true
  | _ => false

def shape : Value → String
  | .null => "null"
  | .string _ => "a string"
  | .integer _ => "an integer"
  | .real _ => "a real"
  | .boolean _ => "a boolean"
  | .enumeration _ => "an enum literal"
  | .node _ | .nodes _ => "a child node"
  | .reference _ | .references _ => "a reference"
  | .list _ => "a list"

mutual

/-- Equality of values, with reals compared as numbers. -/
def same : Value → Value → Bool
  | .null, .null => true
  | .string a, .string b => a == b
  | .integer a, .integer b => a == b
  | .real a, .real b => a.same b
  | .boolean a, .boolean b => a == b
  | .enumeration a, .enumeration b => a == b
  | .node a, .node b => a == b
  | .nodes a, .nodes b => a == b
  | .reference a, .reference b => a == b
  | .references a, .references b => a == b
  | .list a, .list b => sameList a b
  | _, _ => false

def sameList : List Value → List Value → Bool
  | [], [] => true
  | a :: as, b :: bs => a.same b && sameList as bs
  | _, _ => false

end

mutual

def render : Value → String
  | .null => "null"
  | .string s => s
  | .integer n => toString n
  | .real x => RealFormat.message.render x
  | .boolean b => if b then "true" else "false"
  | .enumeration e => e.literal
  | .node id | .reference id => "#" ++ toString id
  | .nodes ids | .references ids => toString ids.length ++ " nodes"
  | .list items => "[" ++ Text.join ", " (renderList items) ++ "]"

def renderList : List Value → List String
  | [] => []
  | v :: vs => v.render :: renderList vs

end

end Value

end TreeInterchange
