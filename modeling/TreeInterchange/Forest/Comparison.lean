import TreeInterchange.Forest.Traversal
import TreeInterchange.Locating

/-!
# Comparing trees

Two trees agree when their nodes have the same types, equal plain values, references to
nodes of the same types, and children that agree one by one; positions count on request. The
comparison reports the first difference, with the way that leads to it. The messages name
the actual side first.
-/

namespace TreeInterchange

/-- The first difference between two trees. -/
structure Mismatch where
  path : String
  message : String
deriving DecidableEq, Inhabited

def Mismatch.render (m : Mismatch) : String := m.path ++ ": " ++ m.message

/-- A node together with its forest. -/
structure NodeView where
  forest : Forest
  id : NodeId

namespace NodeView

def node (v : NodeView) : Node := v.forest.get v.id

def position (v : NodeView) : Option Position := v.forest.position v.id

def slot (v : NodeView) (name : String) : Value := (v.node.slots.get? name).getD .null

def childrenIn (v : NodeView) (name : String) : List NodeView :=
  (v.forest.childrenIn v.id name).map fun id => ⟨v.forest, id⟩

/-- The written types of the nodes that a slot refers to. -/
def targetTypes (v : NodeView) (name : String) : List String :=
  (v.slot name).targets.map fun id => (v.forest.get id).type.name.render

end NodeView

namespace Comparison

def positionText (p : Option Position) : String := (p.map (·.render)).getD "no position"

def differ (path message : String) : Except Mismatch Unit := .error ⟨path, message⟩

/-- What a child of a property is called in a path. -/
def childPath (path : String) (p : Property) (index : Nat) : String :=
  if p.multiple then path ++ "[" ++ toString index ++ "]" else path

def pairs (compare : String → NodeView → NodeView → Except Mismatch Unit) (path : String)
    (p : Property) : Nat → List NodeView → List NodeView → Except Mismatch Unit
  | index, l :: ls, r :: rs => do
    compare (childPath path p index) l r
    pairs compare path p (index + 1) ls rs
  | _, _, _ => .ok ()

def property (compare : String → NodeView → NodeView → Except Mismatch Unit) (path : String)
    (expected actual : NodeView) (p : Property) : Except Mismatch Unit :=
  let here := path ++ "." ++ p.name
  match p.kind with
  | .child =>
    let left := expected.childrenIn p.name
    let right := actual.childrenIn p.name
    if left.length ≠ right.length then
      differ here ("expected " ++ toString right.length ++ " children to equal " ++
        toString left.length ++ " children")
    else pairs compare here p 0 left right
  | .reference =>
    let left := expected.targetTypes p.name
    let right := actual.targetTypes p.name
    if left ≠ right then
      differ here ("expected references to [" ++ Text.join ", " right ++
        "] to equal references to [" ++ Text.join ", " left ++ "]")
    else .ok ()
  | .value =>
    let left := expected.slot p.name
    let right := actual.slot p.name
    if left.same right then .ok ()
    else differ here ("expected '" ++ right.render ++ "' to equal '" ++ left.render ++ "'")

/-- Compares trees down to `depth` levels. -/
def trees (positions : Bool) : Nat → String → NodeView → NodeView → Except Mismatch Unit
  | 0, _, _, _ => .ok ()
  | depth + 1, path, expected, actual =>
    if expected.node.type.name ≠ actual.node.type.name then
      differ path ("nodes are not of the same type: expected " ++ expected.node.type.name.render ++
        ", actual " ++ actual.node.type.name.render)
    else if positions ∧ expected.position ≠ actual.position then
      differ path ("position: expected '" ++ positionText actual.position ++ "' to equal '" ++
        positionText expected.position ++ "'")
    else expected.node.type.properties.forM (property (trees positions depth) path expected actual)

end Comparison

/-- Compares two trees, with or without their positions. -/
def NodeView.compare (expected actual : NodeView) (positions : Bool) : Except Mismatch Unit :=
  Comparison.trees positions expected.forest.size "<root>" expected actual

/-- The deepest node at or below `id` whose position contains `query`. -/
def Forest.findByPosition (f : Forest) (id : NodeId) (query : Position) : Option NodeId :=
  Locating.find? f.position f.children f.size id query

end TreeInterchange
