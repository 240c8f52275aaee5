import TreeInterchange.Conversion.Basic
import TreeInterchange.Forest.Editing
import TreeInterchange.Metamodel.Inheritance
import TreeInterchange.ObjectStore.Basic
import TreeInterchange.TypeCatalog

/-!
# From objects to trees

Each object becomes a new node of the type that corresponds to its class. Features that the
built-in package declares and the type does not have are passed over; the position is read
from its nested object.
-/

namespace TreeInterchange.ToNodes

/-- A reference that waits for all nodes of the tree. -/
structure Pending where
  node : NodeId
  type : NodeType
  name : String
  targets : List ObjectId

structure State where
  forest : Forest
  /-- The node made for each object. -/
  created : Table ObjectId NodeId
  pending : List Pending

/-- Converts into a forest; what was made before a failure stays. -/
abbrev Convert := EStateM ConversionError State

def lift {α : Type} (e : Except ConversionError α) : Convert α := fun st =>
  match e with
  | .ok a => .ok a st
  | .error e => .error e st

def edit {α : Type} (e : Edit α) : Convert α := fun st =>
  match e st.forest with
  | .ok a forest => .ok a { st with forest }
  | .error e forest => .error (.model e) { st with forest }

def newNode (t : NodeType) : Convert NodeId := fun st =>
  let (id, forest) := st.forest.newNode t
  .ok id { st with forest }

def typeOf (m : Metamodel) (catalog : TypeCatalog) (c : ClassifierRef) :
    Except ConversionError NodeType := do
  let name ← (m.qualifiedName c).mapError .metamodel
  match catalog.get? name with
  | some t => return t
  | none => throw (.unregisteredType name)

/-- A plain value for a property; integers become reals where the property asks for them. -/
def plainValue (catalog : TypeCatalog) (t : NodeType) (p : Property) (v : FeatureValue) :
    Except ConversionError Value :=
  match v with
  | .null => .ok .null
  | .string s => .ok (.string s)
  | .integer n => .ok (if p.type = .data .real then .real (.ofInt n.toInt) else .integer n)
  | .real x => .ok (.real x)
  | .boolean b => .ok (.boolean b)
  | .enumeration ordinal =>
    match p.type with
    | .enumeration name =>
      match (catalog.enum? name).bind (·.literal? ordinal) with
      | some literal => .ok (.enumeration ⟨name, literal, ordinal⟩)
      | none => .error (.enumOutOfRange name.render ordinal)
    | _ => .error (.typeMismatch t.name.render p.name v.shape)
  | _ => .error (.typeMismatch t.name.render p.name v.shape)

def setChildren (node : NodeId) (p : Property) (ids : List NodeId) : Convert Unit :=
  if p.multiple then edit (Forest.setChildren node p.name ids)
  else edit (Forest.setChild node p.name ids.head?)

def wait (node : NodeId) (t : NodeType) (name : String) (targets : List ObjectId) : Convert Unit :=
  modify fun st => { st with pending := st.pending ++ [⟨node, t, name, targets⟩] }

/-- Converts a value for a property, with `child` for contained objects. -/
def convertProperty (catalog : TypeCatalog) (t : NodeType) (node : NodeId) (p : Property)
    (child : ObjectId → Convert NodeId) (v : FeatureValue) : Convert Unit := do
  match v, p.kind with
  | .contained id, .child => setChildren node p [← child id]
  | .containedMany ids, .child => setChildren node p (← ids.mapM child)
  | .reference id, .reference => wait node t p.name [id]
  | .references ids, .reference => wait node t p.name ids
  | .list items, .value =>
    edit (Forest.setValue node p.name (.list (← lift (items.mapM (plainValue catalog t p)))))
  | v, .value => edit (Forest.setValue node p.name (← lift (plainValue catalog t p v)))
  | v, _ => lift (.error (.typeMismatch t.name.render p.name v.shape))

/-- Whether a feature is declared by a class of the built-in package. -/
def isBuiltin (features : List OwnedFeature) (name : String) : Bool :=
  features.any fun f => f.feature.name = name && f.owner.uri == astUri

/-- Converts one value of an object whose node is `node`. -/
def convertValue (s : ObjectStore) (catalog : TypeCatalog) (options : ConversionOptions)
    (object : ObjectId) (features : List OwnedFeature) (t : NodeType) (node : NodeId)
    (child : ObjectId → Convert NodeId) (name : String) (v : FeatureValue) : Convert Unit := do
  if v.isNull then return
  if name = "position" then
    if options.positions then
      modify fun st => { st with forest := st.forest.setPosition node (s.position? object) }
  else match t.property? name with
    | some p => convertProperty catalog t node p child v
    | none =>
      if isBuiltin features name then return
      else lift (.error (.missingFeature t.name.render name))

/-- Converts the tree below an object, `depth` levels deep. -/
def convert (s : ObjectStore) (m : Metamodel) (catalog : TypeCatalog)
    (options : ConversionOptions) : Nat → ObjectId → Convert NodeId
  | 0, id => lift (.error (.unregisteredType ⟨"", (s.get id).type.name⟩))
  | depth + 1, id => do
    let o := s.get id
    let t ← lift (typeOf m catalog o.type)
    let features ← lift ((m.ownedFeatures o.type).mapError .metamodel)
    let node ← newNode t
    modify fun st => { st with created := st.created.insert id node }
    o.values.entries.forM fun (name, v) =>
      convertValue s catalog options id features t node (convert s m catalog options depth) name v
    return node

def found (options : ConversionOptions) (created : Table ObjectId NodeId) (p : Pending) :
    Except ConversionError (List NodeId) :=
  if options.failOnDangling && p.targets.any (!created.contains ·) then
    .error (.danglingReference p.type.name.render p.name)
  else .ok (p.targets.filterMap created.get?)

def settle (options : ConversionOptions) (p : Pending) : Convert Unit := do
  let ids ← lift (found options (← get).created p)
  if (p.type.property? p.name).any (·.multiple) then
    ids.forM fun id => edit (Forest.addReference p.node p.name id)
  else edit (Forest.setReference p.node p.name ids.head?)

def convertTree (s : ObjectStore) (m : Metamodel) (catalog : TypeCatalog)
    (options : ConversionOptions) (id : ObjectId) : Convert NodeId := do
  let root ← convert s m catalog options (s.size + 1) id
  (← get).pending.forM (settle options)
  return root

end TreeInterchange.ToNodes

namespace TreeInterchange

/-- Converts the tree below an object into new nodes of a forest and returns the node of the object.
The forest is returned in any case, with whatever was made. -/
def ObjectStore.toNodes (s : ObjectStore) (id : ObjectId) (m : Metamodel) (catalog : TypeCatalog)
    (options : ConversionOptions) (f : Forest) : Except ConversionError NodeId × Forest :=
  match ToNodes.convertTree s m catalog options id ⟨f, .empty, []⟩ with
  | .ok root st => (.ok root, st.forest)
  | .error e st => (.error e, st.forest)

end TreeInterchange
