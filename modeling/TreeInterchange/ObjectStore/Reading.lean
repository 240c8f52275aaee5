import TreeInterchange.Metamodel.Inheritance
import TreeInterchange.Metamodel.Reading
import TreeInterchange.ObjectStore.Fragment

/-!
# Reading object documents

An object names its class, or has the one that its feature declares. Its values are stored in
the order of the features of the class, whatever the order in the document. References are
fragments relative to the root of the document; they are resolved after all objects have
been made, and those that lead nowhere are dropped.
-/

namespace TreeInterchange.ObjectDocument

/-- A reference that waits for all objects of the document. -/
structure Pending where
  owner : ObjectId
  feature : String
  many : Bool
  targets : List String

structure ReadState where
  store : ObjectStore
  pending : List Pending

/-- Reads into a store; what was read before a failure stays. -/
abbrev Reading := EStateM MetamodelError ReadState

def lift {α : Type} (e : Except MetamodelError α) : Reading α := fun st =>
  match e with
  | .ok a => .ok a st
  | .error e => .error e st

def newObject (c : ClassifierRef) : Reading ObjectId := fun st =>
  let (id, store) := st.store.newObject c
  .ok id { st with store }

def setValue (id : ObjectId) (feature : String) (v : FeatureValue) : Reading Unit :=
  modify fun st => { st with store := st.store.set id feature v }

def untypedValue (mismatch : String → MetamodelError) : Json → Except MetamodelError FeatureValue
  | .string s => .ok (.string s)
  | .bool b => .ok (.boolean b)
  | .number (.int n) =>
    match Number.toInt64? n with
    | some i => .ok (.integer i)
    | none => .ok (.real (.ofInt n))
  | .number (.real x) => .ok (.real x)
  | _ => .error (mismatch "a plain value")

/-- The ordinal of an enumeration: a number, a literal, or a text of a number. -/
def enumValue (m : Metamodel) (c : ClassifierRef) (mismatch : String → MetamodelError) (v : Json) :
    Except MetamodelError FeatureValue :=
  match v.nat?, v.text? with
  | some n, _ =>
    match Number.toUInt32? n with
    | some ordinal => .ok (.enumeration ordinal)
    | none => .error (mismatch ("an ordinal of " ++ c.name))
  | none, none => .error (mismatch "an enum literal")
  | none, some literal =>
    match (m.enum? c).bind (·.ordinal? literal) with
    | some ordinal => .ok (.enumeration ordinal)
    | none =>
      match Number.readUInt32? literal with
      | some ordinal => .ok (.enumeration ordinal)
      | none => .error (mismatch ("a literal of " ++ c.name))

def expect (mismatch : String → MetamodelError) (expected : String) :
    Option FeatureValue → Except MetamodelError FeatureValue
  | some v => .ok v
  | none => .error (mismatch expected)

/-- One plain value of an attribute; texts are read as the attribute's type asks. -/
def scalar (m : Metamodel) (f : Feature) (v : Json) : Except MetamodelError FeatureValue :=
  let mismatch := fun expected => MetamodelError.invalid (.value f.name expected v)
  match v with
  | .null => .ok .null
  | v =>
    if f.type.isUntyped then untypedValue mismatch v
    else match f.type with
      | .ofData _ .string => .ok (.string (v.text?.getD v.compact))
      | .ofData _ .integer => expect mismatch "an integer" (v.lenientInt64?.map .integer)
      | .ofData _ .real => expect mismatch "a number"
          ((v.real?.or (v.text?.bind Number.readReal?)).map .real)
      | .ofData _ .boolean => expect mismatch "a boolean"
          ((v.bool?.or (v.text?.bind boolText?)).map .boolean)
      | .ofEnum c => enumValue m c mismatch v
      | .ofClass _ => .error (mismatch "a data value")
where
  /-- The words for truth values. -/
  boolText? : String → Option Bool
    | "true" => some true
    | "false" => some false
    | _ => none

/-- The value of an attribute; one that may have many takes a whole array. -/
def plainValue (m : Metamodel) (f : Feature) : Json → Except MetamodelError FeatureValue
  | .array items =>
    if f.isMany then .list <$> items.mapM (scalar m f) else scalar m f (.array items)
  | v => scalar m f v

/-- The texts of the references that a value holds; what is not a reference is skipped. -/
def targets : Json → List String
  | .array items => items.filterMap MetamodelDocument.reference?
  | v => (MetamodelDocument.reference? v).toList

def classOf (members : JsonMembers) (expected : Option ClassifierRef) :
    Except MetamodelError ClassifierRef :=
  match members.text? "eClass", expected with
  | some text, _ =>
    match ClassifierRef.parse? text with
    | some c => .ok c
    | none => .error (.invalid (.className text))
  | none, some c => .ok c
  | none, none => .error (.missing .objectClass)

/-- The first member that is no feature; the class and names with a dollar sign are exempt. -/
def strayKey? (members : JsonMembers) (features : List Feature) : Option String :=
  (members.map Prod.fst).find? fun key =>
    key ≠ "eClass" ∧ key.toList.head? ≠ some '$' ∧ !features.any (·.name = key)

/-- Reads one object with `read`, which is given the members and the expected class. -/
def readOwned (read : JsonMembers → Option ClassifierRef → Reading ObjectId) (f : Feature) :
    Json → Reading ObjectId
  | .object members => read members (some f.type.classifier)
  | _ => lift (.error (.invalid (.notAnObject f.name)))

def owned (read : JsonMembers → Option ClassifierRef → Reading ObjectId) (f : Feature) :
    Json → Reading FeatureValue
  | .null => return .null
  | .array items =>
    if f.isMany then return .containedMany (← items.mapM (readOwned read f))
    else return .contained (← readOwned read f (.array items))
  | v =>
    if f.isMany then return .containedMany [← readOwned read f v]
    else return .contained (← readOwned read f v)

/-- Stores the value of one feature, if the object has one. A reference keeps its place with null
until it is resolved. -/
def readFeature (m : Metamodel) (read : JsonMembers → Option ClassifierRef → Reading ObjectId)
    (id : ObjectId) (members : JsonMembers) (f : Feature) : Reading Unit := do
  match members.get? f.name with
  | none => return
  | some v =>
    match f.kind with
    | .plain => setValue id f.name (← lift (plainValue m f v))
    | .containment => setValue id f.name (← owned read f v)
    | .reference =>
      setValue id f.name .null
      modify fun st => { st with pending := st.pending ++ [⟨id, f.name, f.isMany, targets v⟩] }

/-- Reads an object whose values nest at most `depth` levels. -/
def readObject (m : Metamodel) : Nat → JsonMembers → Option ClassifierRef → Reading ObjectId
  | 0, _, _ => lift (.error (.document .notAnObject))
  | depth + 1, members, expected => do
    let c ← lift (classOf members expected)
    let features ← lift (m.features c)
    match strayKey? members features with
    | some key => lift (.error (.unknownFeature c key))
    | none =>
      let id ← newObject c
      features.forM (readFeature m (readObject m depth) id members)
      return id

/-- The value of a reference once its targets are known. -/
def referenceValue (many : Bool) (ids : List ObjectId) : FeatureValue :=
  if many then .references ids else (ids.head?.map .reference).getD .null

def fragmentOf (reference : String) : String :=
  ((Text.splitFirst '#' reference).map Prod.snd).getD reference

/-- Resolves one reference within the tree of `root`. -/
def resolvePending (root : ObjectId) (s : ObjectStore) (p : Pending) : ObjectStore :=
  s.set p.owner p.feature
    (referenceValue p.many (p.targets.filterMap fun t => s.resolve? root (fragmentOf t)))

/-- Reads a document into a store and returns its root. The root may leave out its class if a
default is given. The store is returned in any case, with whatever was read. -/
def read (m : Metamodel) (default : Option ClassifierRef) (document : Json) (s : ObjectStore) :
    Except MetamodelError ObjectId × ObjectStore :=
  match document with
  | .object members =>
    match readObject m document.depth members default ⟨s, []⟩ with
    | .ok root st => (.ok root, st.pending.foldl (resolvePending root) st.store)
    | .error e st => (.error e, st.store)
  | _ => (.error (.document .notAnObject), s)

def readBytes (m : Metamodel) (bytes : ByteArray) (s : ObjectStore) :
    Except MetamodelError ObjectId × ObjectStore :=
  match MetamodelDocument.ofBytes bytes with
  | .ok document => read m none document s
  | .error e => (.error e, s)

end TreeInterchange.ObjectDocument
