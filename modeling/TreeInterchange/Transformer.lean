import TreeInterchange.Conversion.Results
import TreeInterchange.Forest.Editing
import TreeInterchange.SourceTree.Basic
import TreeInterchange.TypeCatalog

/-!
# Transforming source trees

A transformer makes a node for each source element with the factory registered for its kind,
or a generic node if there is none. A factory makes one node; the transformer then fills its
child properties, by rules where the factory has them and from the field of the same name
otherwise. A factory that fails costs only its own subtree: an error node takes the place of
the node, and an issue reports the failure. Children that cannot be attached are likewise
reported and left as roots.
-/

namespace TreeInterchange

structure TransformOptions where
  /-- Fill child properties without a rule from the field of the same name. -/
  defaultMapping : Bool
  /-- Rules without a factory become generic nodes that keep their children. -/
  genericRules : Bool
  recordIssues : Bool
deriving DecidableEq

def TransformOptions.default : TransformOptions := ⟨true, false, true⟩

instance : Inhabited TransformOptions := ⟨.default⟩

/-- What is recorded as the origin of a node. -/
inductive OriginPolicy where
  /-- Only what the source element itself offers. -/
  | source
  /-- The kind, position and text of the source element. -/
  | parseTree
deriving DecidableEq, Inhabited

inductive FactoryError where
  | message (text : String)
  | model (e : ModelError)
deriving DecidableEq

def FactoryError.render : FactoryError → String
  | .message text => text
  | .model e => e.message

structure FactoryInput where
  source : SourceTree
  /-- The node that the new one will be attached to. -/
  parent : Option NodeId
  type : NodeType

/-- Makes a node in a forest; what was changed before a failure stays. -/
abbrev Build := EStateM FactoryError Forest

def Build.edit {α : Type} (e : Edit α) : Build α := fun f =>
  match e f with
  | .ok a f => .ok a f
  | .error e f => .error (.model e) f

def Build.newNode (t : NodeType) : Build NodeId := fun f =>
  let (id, f) := f.newNode t
  .ok id f

/-- Fills a property from selected source elements, in the usual way or by a given setter. -/
structure ChildRule where
  property : String
  select : SourceTree → Selection SourceTree
  setter : Option (NodeId → List NodeId → Edit Unit)

structure Factory where
  type : NodeType
  build : FactoryInput → Build NodeId
  rules : List ChildRule

namespace Factory

def ofType (t : NodeType) : Factory := ⟨t, fun input => Build.newNode input.type, []⟩

def fieldRule (property field : String) : ChildRule := ⟨property, (·.field field), none⟩

end Factory

structure Transformer where
  factories : Table String Factory
  options : TransformOptions
  policy : OriginPolicy
  generic : NodeType
  genericError : NodeType
  genericRule : NodeType

namespace Transformer

/-- A transformer without factories. -/
def ofCatalog (catalog : TypeCatalog) (policy : OriginPolicy) (options : TransformOptions) :
    Except ModelError Transformer := do
  return { factories := .empty
           options, policy
           generic := ← catalog.require TypeCatalog.genericName
           genericError := ← catalog.require TypeCatalog.genericErrorName
           genericRule := ← catalog.require TypeCatalog.genericRuleName }

def register (t : Transformer) (kind : String) (factory : Factory) : Transformer :=
  { t with factories := t.factories.insert kind factory }

def hasFactory (t : Transformer) (kind : String) : Bool := t.factories.contains kind

structure State where
  forest : Forest
  issues : List Issue

/-- A step of the transformation; steps do not fail. -/
abbrev Step := StateM State

def tryEdit (e : Edit Unit) : Step (Option ModelError) := fun st =>
  match e st.forest with
  | .ok _ forest => (none, { st with forest })
  | .error err forest => (some err, { st with forest })

/-- Records an error, if issues are recorded at all. -/
def report (t : Transformer) (message : String) (position : Option Position) : Step Unit :=
  modify fun st =>
    if t.options.recordIssues then
      { st with issues := st.issues ++ [⟨.transformation, .error, message, position⟩] }
    else st

/-- The usual way to put children into a property: all of them into a collection, the first into a
single slot. No children leave a single slot alone. -/
def attachEdit (node : NodeId) (property : String) (children : List NodeId) : Edit Unit := do
  let p ← Edit.check (·.property node property)
  if p.multiple then Forest.setChildren node property children
  else match children with
    | [] => return
    | c :: _ => Forest.setChild node property (some c)

def attach (t : Transformer) (node : NodeId) (property : String)
    (setter : Option (NodeId → List NodeId → Edit Unit)) (children : List NodeId) : Step Unit := do
  let edit := match setter with
    | some g => g node children
    | none => attachEdit node property children
  match ← tryEdit edit with
  | some err => t.report err.message ((← get).forest.position node)
  | none => return

/-- A node that stands for one that could not be made. -/
def errorNode (t : Transformer) (source : SourceTree) (err : FactoryError) : Step NodeId := do
  let node ← modifyGet fun st =>
    let (id, forest) := st.forest.newNode t.genericError
    (id, { st with forest })
  let _ ← tryEdit (Forest.setValue node "message" (.string err.render))
  t.report err.render source.info.position
  return node

/-- The origin that the policy gives to nodes made from an element. -/
def originOf (t : Transformer) (source : SourceTree) : Option Origin :=
  match t.policy with
  | .source => source.info.origin
  | .parseTree => some (.parseTree ⟨source.kind, source.info.position, source.info.text⟩)

/-- Whether a node keeps the origin it has: one from a parse tree always, any other only if the
policy records no parse tree. -/
def keepsOrigin (t : Transformer) (origin : Option Origin) : Bool :=
  origin.any fun o => o.isParseTree || t.policy == .source

def assignOrigin (t : Transformer) (source : SourceTree) (node : NodeId) : Step Unit :=
  modify fun st =>
    if t.keepsOrigin (st.forest.get node).origin then st
    else match t.originOf source with
      | some o => { st with forest := st.forest.setOrigin node (some o) }
      | none => st

/-- Runs a factory, or makes a generic node where there is none. -/
def makeNode (t : Transformer) (source : SourceTree) (parent : Option NodeId) :
    Step (Except FactoryError NodeId) := fun st =>
  match t.factories.get? source.kind with
  | some factory =>
    match factory.build ⟨source, parent, factory.type⟩ st.forest with
    | .ok node forest => (.ok node, { st with forest })
    | .error err forest => (.error err, { st with forest })
  | none =>
    let type := if source.info.isRule && t.options.genericRules then t.genericRule else t.generic
    let (node, forest) := st.forest.newNode type
    (.ok node, { st with forest })

def rulesFor (t : Transformer) (kind : String) : List ChildRule :=
  ((t.factories.get? kind).map (·.rules)).getD []

/-- The rules that fill the child properties of a type from fields of the same name, for those
properties that have no other rule and where the field holds something. -/
def defaultRules (source : SourceTree) (type : NodeType) (rules : List ChildRule) :
    List ChildRule :=
  (type.childProperties.filter fun p =>
    !rules.any (·.property = p.name) && !(source.field p.source).isNone).map fun p =>
      Factory.fieldRule p.name p.source

def applyRule (t : Transformer) (source : SourceTree) (node : NodeId)
    (child : SourceTree → Step (Option NodeId)) (rule : ChildRule) : Step Unit := do
  let made ← (rule.select source).toList.mapM child
  t.attach node rule.property rule.setter (made.filterMap id)

/-- Transforms an element and what its rules select, `depth` levels deep. -/
def transformWithin (t : Transformer) :
    Nat → SourceTree → Option NodeId → Step (Option NodeId)
  | 0, _, _ => return none
  | depth + 1, source, parent => do
    match ← t.makeNode source parent with
    | .error err =>
      let node ← t.errorNode source err
      t.assignOrigin source node
      return some node
    | .ok node =>
      let rules := t.rulesFor source.kind
      let type := ((← get).forest.get node).type
      let defaults := if t.options.defaultMapping then defaultRules source type rules else []
      (defaults ++ rules).forM
        (t.applyRule source node fun c => t.transformWithin depth c (some node))
      t.assignOrigin source node
      return some node

/-- Transforms a source tree for a future parent, and adds to the issues that are there. -/
def transformUnder (t : Transformer) (source : Option SourceTree) (parent : Option NodeId) :
    Step (Option NodeId) :=
  match source with
  | some s => t.transformWithin s.height s parent
  | none => return none

/-- Transforms a source tree into new nodes of a forest. -/
def transform (t : Transformer) (source : Option SourceTree) (f : Forest) : TreeResult × Forest :=
  let (root, st) := t.transformUnder source none ⟨f, []⟩
  (⟨root, st.issues⟩, st.forest)

end Transformer

end TreeInterchange
