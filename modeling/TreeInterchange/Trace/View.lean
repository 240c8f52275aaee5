import TreeInterchange.Locating
import TreeInterchange.Trace.Basic

/-!
# Nodes of a trace

A view is an object of one of the two trees of a trace, seen as a node. Positions are not
nodes: their objects never show up as children.
-/

namespace TreeInterchange

structure TraceNode where
  trace : Trace
  side : TraceSide
  object : ObjectId

/-- A step on the way from the root: into a feature, or to a place in its list. -/
inductive PathStep where
  | feature (name : String)
  | place (index : Nat)
deriving DecidableEq

def PathStep.render : PathStep → String
  | .feature name => name
  | .place i => toString i

namespace Trace

def isPositional (t : Trace) (id : ObjectId) : Bool :=
  (t.store.get id).type ∈ [ClassifierRef.ast "Position", ClassifierRef.ast "Point"]

def children (t : Trace) (id : ObjectId) (feature : Option String) : List ObjectId :=
  let ids := match feature with
    | some name => t.store.contentsIn id name
    | none => t.store.contents id
  ids.filter (!t.isPositional ·)

/-- The container of an object, unless the object is the root of its side. -/
def parent? (t : Trace) (side : TraceSide) (id : ObjectId) : Option ObjectId :=
  if id = t.root side then none else t.store.container? id

/-- The steps from a container down to an object it holds. -/
def stepsInto (t : Trace) (owner id : ObjectId) : List PathStep :=
  match t.store.containingFeature? id with
  | none => []
  | some name =>
    .feature name :: match t.store.value? owner name with
      | some (.containedMany ids) => (ids.findIdx? (· = id)).toList.map .place
      | _ => []

/-- The way from the root of a side down to an object, past at most `steps` containers. -/
def pathWithin (t : Trace) (side : TraceSide) : Nat → ObjectId → List PathStep
  | 0, _ => []
  | steps + 1, id =>
    match t.parent? side id with
    | none => []
    | some owner => t.pathWithin side steps owner ++ t.stepsInto owner id

end Trace

namespace TraceNode

def type (n : TraceNode) : ClassifierRef := (n.trace.store.get n.object).type

def typeName (n : TraceNode) : String :=
  match n.trace.metamodel.qualifiedName n.type with
  | .ok name => name.render
  | .error _ => n.type.name

def simpleTypeName (n : TraceNode) : String := n.type.name

/-- The feature that holds the node; the root plays the role `root`. -/
def role? (n : TraceNode) : Option String :=
  if n.object = n.trace.root n.side then some "root" else n.trace.store.containingFeature? n.object

def children (n : TraceNode) (feature : Option String) : List TraceNode :=
  (n.trace.children n.object feature).map fun id => { n with object := id }

def parent? (n : TraceNode) : Option TraceNode :=
  (n.trace.parent? n.side n.object).map fun id => { n with object := id }

def path (n : TraceNode) : List PathStep :=
  n.trace.pathWithin n.side n.trace.store.size n.object

def pathText (n : TraceNode) : String := Text.join "/" (n.path.map (·.render))

def position? (n : TraceNode) : Option Position := n.trace.store.position? n.object

/-- The node on the other side that the trace links this one to. -/
def linked? (n : TraceNode) : Option TraceNode :=
  match n.side with
  | .source => (n.trace.links.destinations.get? n.object).map fun id => ⟨n.trace, .target, id⟩
  | .target => (n.trace.links.sources.get? n.object).map fun id => ⟨n.trace, .source, id⟩

/-- Whether the class of the node extends a class of the built-in package. -/
def extendsBuiltin (n : TraceNode) (name : String) : Bool :=
  n.trace.metamodel.isSubclass n.type (.ast name)

def isStatement (n : TraceNode) : Bool := n.extendsBuiltin "Statement"

def isExpression (n : TraceNode) : Bool := n.extendsBuiltin "Expression"

def isDeclaration (n : TraceNode) : Bool := n.extendsBuiltin "EntityDeclaration"

/-- The issues of the tree that lie within the node, or within its children in one feature. -/
def issues (n : TraceNode) (feature : Option String) : List Issue :=
  let scopes := match feature with
    | none => n.position?.toList
    | some name => (n.children (some name)).filterMap position?
  (n.trace.issues n.side).filter fun i => i.position.any fun p => scopes.any (·.contains p)

def value? (n : TraceNode) (feature : String) : Option FeatureValue :=
  n.trace.store.value? n.object feature

/-- The deepest node at or below this one whose position contains `query`. -/
def findByPosition (n : TraceNode) (query : Position) : Option TraceNode :=
  (Locating.find? n.trace.store.position? (n.trace.children · none) n.trace.store.size n.object
    query).map fun id => { n with object := id }

def preorder : Nat → TraceNode → List TraceNode
  | 0, _ => []
  | depth + 1, n => n :: (n.children none).flatMap (preorder depth)

def walk (n : TraceNode) : List TraceNode := n.preorder n.trace.store.size

end TraceNode

def Trace.rootNode (t : Trace) (side : TraceSide) : TraceNode := ⟨t, side, t.root side⟩

end TreeInterchange
