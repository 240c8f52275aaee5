import TreeInterchange.Conversion.Basic
import TreeInterchange.Forest.Traversal
import TreeInterchange.Metamodel.Inheritance
import TreeInterchange.ObjectStore.Basic

/-!
# From trees to objects

Each node becomes a new object, made before the objects of its children. Null is left out; a
position becomes an object of its own. An enumeration literal is written with the ordinal
that the metamodel gives it.
-/

namespace TreeInterchange.ToObjects

/-- A reference that waits for all objects of the tree. -/
structure Pending where
  owner : ObjectId
  type : ClassifierRef
  feature : String
  many : Bool
  targets : List NodeId

structure State where
  store : ObjectStore
  /-- The object made for each node. -/
  created : Table NodeId ObjectId
  pending : List Pending

/-- Converts into a store; what was made before a failure stays. -/
abbrev Convert := EStateM ConversionError State

def lift {α : Type} (e : Except ConversionError α) : Convert α := fun st =>
  match e with
  | .ok a => .ok a st
  | .error e => .error e st

def onStore {α : Type} (g : ObjectStore → α × ObjectStore) : Convert α := fun st =>
  let (a, store) := g st.store
  .ok a { st with store }

def setValue (id : ObjectId) (feature : String) (v : FeatureValue) : Convert Unit :=
  onStore fun s => ((), s.set id feature v)

def pointObject (s : ObjectStore) (p : Point) : ObjectId × ObjectStore :=
  let (id, s) := s.newObject (.ast "Point")
  (id, (s.set id "line" (.integer (Int64.ofNat p.line.toNat))).set id "column"
    (.integer (Int64.ofNat p.column.toNat)))

def positionObject (p : Position) (s : ObjectStore) : ObjectId × ObjectStore :=
  let (id, s) := s.newObject (.ast "Position")
  let (first, s) := pointObject s p.first
  let s := s.set id "start" (.contained first)
  let (last, s) := pointObject s p.last
  (id, s.set id "end" (.contained last))

/-- The ordinal of a literal in the metamodel's enumeration, or the one it came with if the
enumeration does not have the literal; it must exist there. -/
def enumValue (m : Metamodel) (c : ClassifierRef) (e : EnumValue) :
    Except ConversionError FeatureValue :=
  let declared := m.enum? c
  let ordinal := (declared.bind (·.ordinal? e.literal)).getD e.ordinal
  if (declared.bind (·.literal? ordinal)).isSome then .ok (.enumeration ordinal)
  else .error (.enumOutOfRange c.name ordinal)

/-- A plain value as an attribute of the given type stores it. -/
def plainValue (m : Metamodel) (c : ClassifierRef) (f : Feature) (v : Value) :
    Except ConversionError FeatureValue :=
  let mismatch : Except ConversionError FeatureValue :=
    .error (.typeMismatch c.render f.name v.shape)
  match v, f.type with
  | .string s, .ofData _ .string => .ok (.string s)
  | .integer n, .ofData _ .integer => .ok (.integer n)
  | .integer n, .ofData _ .real => .ok (.real (.ofInt n.toInt))
  | .real x, .ofData _ .real => .ok (.real x)
  | .boolean b, .ofData _ .boolean => .ok (.boolean b)
  | .string s, t => if t.isUntyped then .ok (.string s) else mismatch
  | .integer n, t => if t.isUntyped then .ok (.integer n) else mismatch
  | .real x, t => if t.isUntyped then .ok (.real x) else mismatch
  | .boolean b, t => if t.isUntyped then .ok (.boolean b) else mismatch
  | .enumeration e, .ofEnum c => enumValue m c e
  | _, _ => mismatch

/-- What converting a slot leaves to be stored: a value, or a reference for later. -/
inductive Converted where
  | value (v : FeatureValue)
  | later (targets : List NodeId)

def slotValue (m : Metamodel) (c : ClassifierRef) (f : Feature) (child : NodeId → Convert ObjectId)
    (v : Value) : Convert Converted := do
  match v, f.kind with
  | .node id, .containment => return .value (.contained (← child id))
  | .nodes ids, .containment => return .value (.containedMany (← ids.mapM child))
  | .reference id, .reference => return .later [id]
  | .references ids, .reference => return .later ids
  | .list items, .plain => return .value (.list (← lift (items.mapM (plainValue m c f))))
  | v, .plain => return .value (← lift (plainValue m c f v))
  | v, _ => lift (.error (.typeMismatch c.render f.name v.shape))

def convertSlot (m : Metamodel) (c : ClassifierRef) (features : List Feature) (object : ObjectId)
    (child : NodeId → Convert ObjectId) (name : String) (v : Value) : Convert Unit := do
  if v.isNull then return
  match features.find? (·.name = name) with
  | none => lift (.error (.missingFeature c.render name))
  | some f =>
    match ← slotValue m c f child v with
    | .value w => setValue object f.name w
    | .later targets =>
      modify fun st => { st with pending := st.pending ++ [⟨object, c, f.name, f.isMany, targets⟩] }

def classOf (m : Metamodel) (name : QualifiedName) : Except ConversionError ClassifierRef :=
  match m.classNamed? name.package name.name with
  | some c => .ok c
  | none => .error (.unknownType name)

/-- Gives an object the position of its node, if there is one and the class has room for it. -/
def convertPosition (options : ConversionOptions) (features : List Feature) (object : ObjectId)
    (position : Option Position) : Convert Unit := do
  match position with
  | some p =>
    if options.positions && features.any (·.name = "position") then
      setValue object "position" (.contained (← onStore (positionObject p)))
  | none => return

/-- Converts the tree below a node, `depth` levels deep. -/
def convert (f : Forest) (m : Metamodel) (options : ConversionOptions) :
    Nat → NodeId → Convert ObjectId
  | 0, id => lift (.error (.unknownType (f.get id).type.name))
  | depth + 1, id => do
    let n := f.get id
    let c ← lift (classOf m n.type.name)
    let features ← lift ((m.features c).mapError .metamodel)
    let object ← onStore (·.newObject c)
    modify fun st => { st with created := st.created.insert id object }
    convertPosition options features object (f.position id)
    n.slots.entries.forM fun (name, v) =>
      convertSlot m c features object (convert f m options depth) name v
    return object

def found (options : ConversionOptions) (created : Table NodeId ObjectId) (p : Pending) :
    Except ConversionError (List ObjectId) :=
  if options.failOnDangling && p.targets.any (!created.contains ·) then
    .error (.danglingReference p.type.render p.feature)
  else .ok (p.targets.filterMap created.get?)

def settle (options : ConversionOptions) (p : Pending) : Convert Unit := do
  let ids ← lift (found options (← get).created p)
  setValue p.owner p.feature
    (if p.many then .references ids else (ids.head?.map .reference).getD .null)

def convertTree (f : Forest) (m : Metamodel) (options : ConversionOptions) (id : NodeId) :
    Convert ObjectId := do
  let root ← convert f m options (f.size + 1) id
  (← get).pending.forM (settle options)
  return root

end TreeInterchange.ToObjects

namespace TreeInterchange

/-- Converts the tree below a node into new objects of a store and returns the object of the node.
The store is returned in any case, with whatever was made. -/
def Forest.toObjects (f : Forest) (id : NodeId) (m : Metamodel) (options : ConversionOptions)
    (s : ObjectStore) : Except ConversionError ObjectId × ObjectStore :=
  match ToObjects.convertTree f m options id ⟨s, .empty, []⟩ with
  | .ok root st => (.ok root, st.store)
  | .error e st => (.error e, st.store)

end TreeInterchange
