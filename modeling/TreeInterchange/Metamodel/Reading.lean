import TreeInterchange.Json.Reading
import TreeInterchange.Metamodel.Error

/-!
# Reading metamodel documents

A document holds one package or an array of them. It is read in two passes: the first takes
down the name and kind of every classifier, the second reads supertypes and features, so that
a reference may point forward and into any package of the document. A reference is

* `#//Name` or `//Name`, a classifier of the same package, or else of any other,
* `uri#//Name`, a classifier of the package with that URI,
* `//@eClassifiers.3`, a classifier by its place in the package.

Packages of the document are searched before those of the metamodel.
-/

namespace TreeInterchange

/-- The kind of a classifier, known before its content is read. -/
inductive OutlineKind where
  | ofClass
  | ofEnum
  | ofData (storage : DataType)
deriving DecidableEq

/-- A classifier of a document after the first pass. -/
structure ClassifierOutline where
  name : String
  kind : OutlineKind
  members : JsonMembers

structure PackageOutline where
  name : String
  uri : String
  shortName : Option String
  classifiers : List ClassifierOutline

namespace ClassifierOutline

def type (c : ClassifierOutline) (uri : String) : FeatureType :=
  match c.kind with
  | .ofClass => .ofClass ⟨uri, c.name⟩
  | .ofEnum => .ofEnum ⟨uri, c.name⟩
  | .ofData storage => .ofData ⟨uri, c.name⟩ storage

/-- The kind that the end of the `eClass` text tells. -/
def kindOf (members : JsonMembers) : OutlineKind :=
  let eClass := (members.text? "eClass").getD ""
  if Text.endsWith "EEnum" eClass then .ofEnum
  else if Text.endsWith "EDataType" eClass then
    .ofData (instanceStorage ((members.text? "instanceClassName").getD ""))
  else .ofClass

def read (package : String) : Json → Except MetamodelError ClassifierOutline
  | .object members =>
    match JsonMembers.text? members "name" with
    | some name => .ok ⟨name, kindOf members, members⟩
    | none => .error (.missing (.classifierName package))
  | v => .error (.invalid (.classifier package v))

end ClassifierOutline

namespace PackageOutline

def read (members : JsonMembers) : Except MetamodelError PackageOutline := do
  match members.text? "name" with
  | none => throw (.missing .packageName)
  | some name =>
    let classifiers ← (members.items "eClassifiers").mapM (ClassifierOutline.read name)
    return ⟨name, (members.text? "nsURI").getD "", members.text? "nsPrefix", classifiers⟩

def find? (p : PackageOutline) (name : String) : Option FeatureType :=
  (p.classifiers.find? (·.name = name)).map (·.type p.uri)

end PackageOutline

def Classifier.type (p : Package) : Classifier → FeatureType
  | .classDecl c => .ofClass (p.ref c.name)
  | .enumDecl e => .ofEnum (p.ref e.name)
  | .dataDecl d => .ofData (p.ref d.name) d.storage

namespace MetamodelDocument

def reference? : Json → Option String
  | .string s => some s
  | .object members => JsonMembers.text? members "$ref"
  | _ => none

/-- The outlines to search for a reference: those with its URI, or for an empty URI the current
package followed by all others. -/
def candidates (outlines : List PackageOutline) (current : Nat) (uri : String) :
    List PackageOutline :=
  if uri = "" then outlines[current]?.toList ++ outlines.eraseIdx current
  else outlines.filter (·.uri = uri)

/-- The loaded packages to search after the outlines. -/
def loaded (m : Metamodel) (uri : String) : List Package :=
  if uri = "" then m.packages.values else (m.package? uri).toList

def byPlace? (outlines : List PackageOutline) (place : String) : Option FeatureType := do
  let i ← Number.readIndex? place
  let p ← outlines.head?
  let c ← p.classifiers[i]?
  return c.type p.uri

/-- The classifier of a name, in the first candidate or else the first loaded package with one. -/
def byName? (outlines : List PackageOutline) (packages : List Package) (name : String) :
    Option FeatureType :=
  match outlines.findSome? (·.find? name) with
  | some t => some t
  | none => packages.findSome? fun p => (p.classifiers.get? name).map (Classifier.type p)

/-- The type that a reference in package number `current` of the document names. -/
def resolve (m : Metamodel) (outlines : List PackageOutline) (current : Nat) (reference : String) :
    Except MetamodelError FeatureType :=
  let (uri, fragment) := (Text.splitFirst '#' reference).getD ("", reference)
  match Text.strip? "//" fragment with
  | none => .error (.unresolved reference)
  | some path =>
    if uri = ecoreUri then .ok (.ecore path)
    else
      let outlines := candidates outlines current uri
      let found := match Text.strip? "@eClassifiers." path with
        | some place => byPlace? outlines place
        | none => byName? outlines (loaded m uri) path
      match found with
      | some t => .ok t
      | none => .error (.unresolved reference)

/-- An integer member, cut to its low 32 bits. -/
def bound (members : JsonMembers) (key : String) (default : Int32) : Int32 :=
  match (members.get? key).bind Json.lenientInt64? with
  | some n => n.toInt32
  | none => default

/-- Whether the feature is a reference: the end of its `eClass` text says so, or else its type. -/
def saysReference (members : JsonMembers) (type : FeatureType) : Bool :=
  let eClass := (members.text? "eClass").getD ""
  if Text.endsWith "EReference" eClass then true
  else if Text.endsWith "EAttribute" eClass then false
  else match type with
    | .ofClass _ => true
    | _ => false

/-- The reference to a feature's type, from `eType` or the classifier of `eGenericType`. -/
def typeReference? (members : JsonMembers) : Option String :=
  match (members.get? "eType").bind reference? with
  | some r => some r
  | none =>
    match members.get? "eGenericType" with
    | some (.object generic) => (JsonMembers.get? generic "eClassifier").bind reference?
    | _ => none

def readFeature (resolve : String → Except MetamodelError FeatureType) (owner : String) :
    Json → Except MetamodelError Feature
  | .object members => do
    match JsonMembers.text? members "name" with
    | none => throw (.missing (.featureName owner))
    | some name =>
      match typeReference? members with
      | none => throw (.missing (.featureType owner name))
      | some reference =>
        let type ← resolve reference
        let kind ← match saysReference members type, type with
          | true, .ofClass _ =>
            .ok (if JsonMembers.flag members "containment" then .containment else .reference)
          | false, .ofData _ _ => .ok .plain
          | false, .ofEnum _ => .ok FeatureKind.plain
          | _, _ => .error (.invalid (.featureType owner name reference))
        return ⟨name, kind, type, bound members "lowerBound" 0, bound members "upperBound" 1⟩
  | v => .error (.invalid (.feature owner v))

def readSupertype (resolve : String → Except MetamodelError FeatureType) (owner : String)
    (v : Json) : Except MetamodelError ClassifierRef := do
  match reference? v with
  | none => throw (.invalid (.supertype owner))
  | some reference =>
    match ← resolve reference with
    | .ofClass c => return c
    | _ => throw (.invalid (.supertypeKind owner reference))

/-- A literal, written as a string or as an object with a name; anything else is skipped. -/
def literal? : Json → Option String
  | .string s => some s
  | .object members =>
    match JsonMembers.text? members "name" with
    | some s => some s
    | none => JsonMembers.text? members "literal"
  | _ => none

def readClassifier (resolve : String → Except MetamodelError FeatureType) (c : ClassifierOutline) :
    Except MetamodelError Classifier := do
  match c.kind with
  | .ofClass =>
    let supertypes ← (c.members.items "eSuperTypes").mapM (readSupertype resolve c.name)
    let features ← (c.members.items "eStructuralFeatures").mapM (readFeature resolve c.name)
    return .classDecl
      ⟨c.name, c.members.flag "abstract", c.members.flag "interface", supertypes, features⟩
  | .ofEnum => return .enumDecl ⟨c.name, (c.members.items "eLiterals").filterMap literal?⟩
  | .ofData storage => return .dataDecl ⟨c.name, c.members.text? "instanceClassName", storage⟩

def readPackage (m : Metamodel) (outlines : List PackageOutline) (current : Nat)
    (p : PackageOutline) : Except MetamodelError Package := do
  let classifiers ← p.classifiers.mapM (readClassifier (resolve m outlines current))
  return { Package.ofName p.name p.uri with shortName := p.shortName }.addAll classifiers

def packageMembers : Json → Except MetamodelError (List JsonMembers)
  | .object members => .ok [members]
  | .array items => items.mapM fun
    | .object members => .ok members
    | _ => .error (.document .notPackages)
  | _ => .error (.document .notObjectOrArray)

/-- The packages of a document, which may refer to packages of the metamodel. -/
def readPackages (m : Metamodel) (document : Json) : Except MetamodelError (List Package) := do
  let outlines ← (← packageMembers document).mapM PackageOutline.read
  outlines.zipIdx.mapM fun (p, i) => readPackage m outlines i p

def ofBytes (bytes : ByteArray) : Except MetamodelError Json :=
  match Json.ofBytes? bytes with
  | some v => .ok v
  | none => .error (.document .notJson)

/-- Adds the packages of a document, and returns their URIs. -/
def load (m : Metamodel) (bytes : ByteArray) : Except MetamodelError (List String × Metamodel) := do
  let packages ← readPackages m (← ofBytes bytes)
  return (packages.map (·.uri), packages.foldl Metamodel.add m)

end MetamodelDocument

end TreeInterchange
