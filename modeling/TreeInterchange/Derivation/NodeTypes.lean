import TreeInterchange.Metamodel.Inheritance
import TreeInterchange.TypeCatalog

/-!
# Node types derived from classes

Every class of a package becomes a node type under the package's name, and every
enumeration an enumeration. A class is derived after its supertypes: the first supertype that
is no interface passes its properties on, the others are kept as tags, and features that
are still missing are added as properties. Classes of the built-in package have no types.
-/

namespace TreeInterchange

inductive DerivationError where
  | missingSupertype (type supertype : QualifiedName)
  /-- The classes that wait for each other. -/
  | cycle (names : List String)
  | metamodel (e : MetamodelError)
  | model (e : ModelError)

def DerivationError.message : DerivationError → String
  | .missingSupertype t s =>
    "dependency error: supertype " ++ s.render ++ " of " ++ t.render ++ " has not been generated"
  | .cycle names => "dependency error: inheritance cycle among " ++ Text.join ", " names
  | .metamodel e => e.message
  | .model e => e.message

namespace Derivation

/-- Derives types into a catalog; what was added before a failure stays. -/
abbrev Derive := EStateM DerivationError TypeCatalog

def lift {α : Type} (e : Except DerivationError α) : Derive α := fun c =>
  match e with
  | .ok a => .ok a c
  | .error e => .error e c

def typeName (m : Metamodel) (c : ClassifierRef) : Except DerivationError QualifiedName :=
  (m.qualifiedName c).mapError .metamodel

def requireClass (m : Metamodel) (c : ClassifierRef) : Except DerivationError ClassDecl :=
  (m.requireClass c).mapError .metamodel

def targetType (m : Metamodel) (c : ClassifierRef) : Except DerivationError PropertyType := do
  if c.isAstNode then return .any else return .node (← typeName m c)

def propertyOf (m : Metamodel) (f : Feature) : Except DerivationError Property := do
  match f.kind, f.type with
  | .containment, t => return ⟨f.name, .child, ← targetType m t.classifier, f.isMany, none⟩
  | .reference, t => return ⟨f.name, .reference, ← targetType m t.classifier, f.isMany, none⟩
  | .plain, .ofEnum c => return ⟨f.name, .value, .enumeration (← typeName m c), f.isMany, none⟩
  | .plain, .ofData c d =>
    let type := if (FeatureType.ofData c d).isUntyped then PropertyType.any else .data d
    return ⟨f.name, .value, type, f.isMany, none⟩
  | .plain, .ofClass _ => return ⟨f.name, .value, .any, f.isMany, none⟩

/-- Adds a supertype: the first that is no interface is extended, any other is a tag. -/
def addSupertypes (m : Metamodel) (catalog : TypeCatalog) (name : QualifiedName) :
    Bool → NodeType → List ClassifierRef → Except DerivationError NodeType
  | _, t, [] => .ok t
  | extended, t, c :: cs => do
    if c.uri = astUri then addSupertypes m catalog name extended t cs
    else
      let supertype ← typeName m c
      match catalog.get? supertype with
      | none => throw (.missingSupertype name supertype)
      | some parent =>
        let isInterface := ((m.class? c).map (·.isInterface)).getD false
        if !extended && !isInterface then addSupertypes m catalog name true (t.extending parent) cs
        else addSupertypes m catalog name extended (t.withTag supertype) cs

def addProperties (m : Metamodel) : NodeType → List OwnedFeature → Except DerivationError NodeType
  | t, [] => .ok t
  | t, f :: fs => do
    if f.owner.uri = astUri ∨ (t.property? f.feature.name).isSome then addProperties m t fs
    else addProperties m (t.withProperty (← propertyOf m f.feature)) fs

/-- The node type of a class, given the types of its supertypes. -/
def nodeTypeOf (m : Metamodel) (catalog : TypeCatalog) (c : ClassifierRef) :
    Except DerivationError NodeType := do
  let name ← typeName m c
  let d ← requireClass m c
  let t ← addSupertypes m catalog name false
    { NodeType.ofName name with isAbstract := d.isAbstract || d.isInterface } d.supertypes
  addProperties m t (← (m.ownedFeatures c).mapError .metamodel)

def deriveClass (m : Metamodel) (c : ClassifierRef) : Derive NodeType := do
  let catalog ← get
  let t ← lift (nodeTypeOf m catalog c)
  let catalog ← lift ((catalog.register t).mapError .model)
  set catalog
  return t

def enumTypes (p : Package) : List EnumType :=
  p.enums.map fun e => ⟨⟨p.name, e.name⟩, e.literals⟩

/-- Adds the enumerations of the packages and returns references to all their classes. -/
def collect (m : Metamodel) : List String → Derive (List ClassifierRef)
  | [] => return []
  | uri :: uris => do
    let p ← lift ((m.requirePackage uri).mapError .metamodel)
    modify fun catalog => (enumTypes p).foldl TypeCatalog.registerEnum catalog
    return (p.classes.map fun c => p.ref c.name) ++ (← collect m uris)

/-- The supertypes of a class that belong to the batch. The others must be built in or have a
node type already. -/
def dependencies (m : Metamodel) (catalog : TypeCatalog) (batch : List ClassifierRef)
    (c : ClassifierRef) : List ClassifierRef → Except DerivationError (List ClassifierRef)
  | [] => .ok []
  | s :: ss => do
    if s ∈ batch then return s :: (← dependencies m catalog batch c ss)
    else if s.uri = astUri then dependencies m catalog batch c ss
    else
      let supertype ← typeName m s
      if (catalog.get? supertype).isSome then dependencies m catalog batch c ss
      else throw (.missingSupertype (← typeName m c) supertype)

/-- A class together with the supertypes it waits for. -/
abbrev Waiting := ClassifierRef × List ClassifierRef

def isReady (done : List ClassifierRef) (w : Waiting) : Bool := w.2.all (· ∈ done)

def blocked (done : List ClassifierRef) (waiting : List Waiting) : List Waiting :=
  waiting.filter (!isReady done ·)

theorem length_blocked_lt {done : List ClassifierRef} {waiting : List Waiting}
    (h : waiting.any (isReady done) = true) : (blocked done waiting).length < waiting.length := by
  obtain ⟨w, hw, hr⟩ := List.any_eq_true.1 h
  exact List.length_filter_lt_length_iff_exists.2 ⟨w, hw, by simp [hr]⟩

/-- Moves the classes whose supertypes are all done to the end of `done`, round by round. -/
def rounds (done : List ClassifierRef) (waiting : List Waiting) :
    Except DerivationError (List ClassifierRef) :=
  if waiting = [] then .ok done
  else if waiting.any (isReady done) then
    rounds (done ++ (waiting.filter (isReady done)).map Prod.fst) (blocked done waiting)
  else .error (.cycle (waiting.map (·.1.name)))
termination_by waiting.length
decreasing_by exact length_blocked_lt ‹_›

/-- The batch in an order that puts each class after its supertypes. -/
def supertypesFirst (m : Metamodel) (catalog : TypeCatalog) (batch : List ClassifierRef) :
    Except DerivationError (List ClassifierRef) := do
  let waiting ← batch.mapM fun c => do
    let d ← requireClass m c
    return (c, ← dependencies m catalog batch c d.supertypes)
  rounds [] waiting

/-- Derives the enumerations and then the node types of the packages, supertypes first. -/
def derivePackages (m : Metamodel) (uris : List String) : Derive (List NodeType) := do
  let batch ← collect m uris
  let order ← lift (supertypesFirst m (← get) batch)
  order.mapM (deriveClass m)

end Derivation

end TreeInterchange
