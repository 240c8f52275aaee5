import TreeInterchange.Json.Printing
import TreeInterchange.Metamodel.Basic

/-!
# Errors of metamodels and their documents

Why a document could not be read or a classifier not be found.
-/

namespace TreeInterchange

/-- What is wrong with a document as a whole. -/
inductive DocumentFault where
  | notJson
  | notAnObject
  | notPackages
  | notObjectOrArray
deriving DecidableEq

/-- A part that a document leaves out. -/
inductive MissingPart where
  | packageName
  | classifierName (package : String)
  | featureName (owner : String)
  | featureType (owner feature : String)
  | objectClass
deriving DecidableEq

/-- An entry of a document that does not have the form it should have. -/
inductive InvalidEntry where
  | classifier (package : String) (found : Json)
  | supertype (owner : String)
  | supertypeKind (owner reference : String)
  | feature (owner : String) (found : Json)
  | featureType (owner feature reference : String)
  | className (text : String)
  | notAnObject (feature : String)
  | value (feature expected : String) (found : Json)

inductive MetamodelError where
  | document (fault : DocumentFault)
  | missing (part : MissingPart)
  | invalid (entry : InvalidEntry)
  | unresolved (reference : String)
  | packageNotFound (uri : String)
  | unknownClassifier (c : ClassifierRef)
  | unknownFeature (owner : ClassifierRef) (feature : String)
  | inheritanceCycle (c : ClassifierRef)

def DocumentFault.message : DocumentFault → String
  | .notJson => "Parse error"
  | .notAnObject => "Expected an object"
  | .notPackages => "Expected an array of packages"
  | .notObjectOrArray => "Expected object or array"

def MissingPart.message : MissingPart → String
  | .packageName => "field: EPackage.name"
  | .classifierName p => "field: " ++ p ++ ": classifier name"
  | .featureName c => "field: " ++ c ++ ": feature name"
  | .featureType c f => "eType: " ++ c ++ "." ++ f
  | .objectClass => "field: eClass"

def InvalidEntry.message : InvalidEntry → String
  | .classifier p found => "classifier: in " ++ p ++ ": " ++ found.compact
  | .supertype c => "eSuperTypes: in " ++ c
  | .supertypeKind c r => "eSuperTypes: " ++ c ++ " extends non-class " ++ r
  | .feature c found => "feature: in " ++ c ++ ": " ++ found.compact
  | .featureType c f r => "feature: " ++ c ++ "." ++ f ++ " has incompatible type " ++ r
  | .className text => "eClass: " ++ text
  | .notAnObject f => "value: " ++ f ++ ": expected an object"
  | .value f expected found =>
    "value: " ++ f ++ ": expected " ++ expected ++ ", found " ++ found.compact

def MetamodelError.message : MetamodelError → String
  | .document fault => "JSON error: " ++ fault.message
  | .missing part => "Missing required " ++ part.message
  | .invalid entry => "Invalid " ++ entry.message
  | .unresolved r => "Unresolved reference: " ++ r
  | .packageNotFound uri => "Package not found: " ++ uri
  | .unknownClassifier c => "Unknown classifier: " ++ c.render
  | .unknownFeature c f => "Class " ++ c.render ++ " has no feature '" ++ f ++ "'"
  | .inheritanceCycle c => "Inheritance cycle through " ++ c.render

namespace Metamodel

def requirePackage (m : Metamodel) (uri : String) : Except MetamodelError Package :=
  match m.package? uri with
  | some p => .ok p
  | none => .error (.packageNotFound uri)

def requireClass (m : Metamodel) (c : ClassifierRef) : Except MetamodelError ClassDecl := do
  let p ← m.requirePackage c.uri
  match p.class? c.name with
  | some d => return d
  | none => throw (.unknownClassifier c)

def qualifiedName (m : Metamodel) (c : ClassifierRef) : Except MetamodelError QualifiedName := do
  let p ← m.requirePackage c.uri
  return ⟨p.name, c.name⟩

end Metamodel

end TreeInterchange
