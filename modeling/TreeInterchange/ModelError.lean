import TreeInterchange.NodeType

/-!
# Errors of node types and trees

Why a node type was refused or an edit of a tree was not made.
-/

namespace TreeInterchange

/-- What a property would have had to be to take the value it was given. -/
inductive Expectation where
  | singleChild
  | childCollection
  | singleReference
  | referenceCollection
  | plainValue
  | compatible
deriving DecidableEq

def Expectation.render : Expectation → String
  | .singleChild => "a single child"
  | .childCollection => "a child collection"
  | .singleReference => "a single reference"
  | .referenceCollection => "a reference collection"
  | .plainValue => "a plain value"
  | .compatible => "compatible with this value"

inductive ModelError where
  /-- A property name is declared, or a source field mapped, twice. -/
  | duplicateProperty (type : QualifiedName) (property : String)
  | unknownProperty (type : QualifiedName) (property : String)
  | wrongKind (type : QualifiedName) (property : String) (expected : Expectation)
  /-- The child stands above the parent, or is the parent itself. -/
  | cycle (parent child : Nat)
  | unknownType (name : String)
deriving DecidableEq

def ModelError.message : ModelError → String
  | .duplicateProperty t p => "property '" ++ p ++ "' is declared more than once on " ++ t.render
  | .unknownProperty t p => t.render ++ " has no property '" ++ p ++ "'"
  | .wrongKind t p e => "property '" ++ p ++ "' of " ++ t.render ++ " is not " ++ e.render
  | .cycle parent child =>
    "attaching #" ++ toString child ++ " under #" ++ toString parent ++ " would create a cycle"
  | .unknownType name => "no node definition registered for " ++ name

namespace NodeType

/-- Tests each property against those before it. -/
def validateAfter (type : QualifiedName) (earlier : List Property) :
    List Property → Except ModelError Unit
  | [] => .ok ()
  | p :: ps =>
    if earlier.any (·.name = p.name) then .error (.duplicateProperty type p.name)
    else if p.isChild && earlier.any (fun q => q.isChild && q.source == p.source) then
      .error (.duplicateProperty type p.source)
    else validateAfter type (earlier ++ [p]) ps

/-- Refuses a type that declares a property name twice or fills two child properties from one
source field; the first offence in declaration order is reported. -/
def validate (t : NodeType) : Except ModelError Unit := validateAfter t.name [] t.properties

end NodeType

end TreeInterchange
