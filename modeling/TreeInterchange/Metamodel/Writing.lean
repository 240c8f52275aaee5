import TreeInterchange.Json.Printing
import TreeInterchange.Metamodel.Basic

/-!
# Writing metamodel documents

Flags that are off, a lower bound of zero and an empty list of supertypes are left out, and a
reference within a package leaves out the URI.
-/

namespace TreeInterchange.MetamodelDocument

def metaclass (name : String) : Json := .string (ClassifierRef.ecore name).render

def reference (p : Package) (target : ClassifierRef) : Json :=
  .object [("$ref", .string (if target.uri = p.uri then "#//" ++ target.name else target.render))]

def flagMember (key : String) (on : Bool) : List (String × Json) :=
  if on then [(key, .bool true)] else []

def writeFeature (p : Package) (f : Feature) : Json :=
  .object (
    [("eClass", metaclass (if f.isReference then "EReference" else "EAttribute")),
      ("name", .string f.name)] ++
    flagMember "containment" f.isContainment ++
    [("eType", reference p f.type.classifier)] ++
    (if f.lower = 0 then [] else [("lowerBound", .integer f.lower.toInt)]) ++
    [("upperBound", .integer f.upper.toInt)])

def writeClassifier (p : Package) : Classifier → Json
  | .classDecl c =>
    .object (
      [("eClass", metaclass "EClass"), ("name", .string c.name)] ++
      flagMember "abstract" c.isAbstract ++
      flagMember "interface" c.isInterface ++
      (if c.supertypes = [] then []
        else [("eSuperTypes", .array (c.supertypes.map (reference p)))]) ++
      [("eStructuralFeatures", .array (c.features.map (writeFeature p)))])
  | .enumDecl e =>
    .object [("eClass", metaclass "EEnum"), ("name", .string e.name),
      ("eLiterals", .array (e.literals.zipIdx.map fun (literal, i) =>
        .object [("name", .string literal), ("value", .integer i)]))]
  | .dataDecl d =>
    .object (
      [("eClass", metaclass "EDataType"), ("name", .string d.name)] ++
      (d.implementation.map fun s => ("instanceClassName", Json.string s)).toList)

def writePackage (p : Package) : Json :=
  .object (
    [("eClass", metaclass "EPackage"), ("name", .string p.name), ("nsURI", .string p.uri)] ++
    (p.shortName.map fun s => ("nsPrefix", Json.string s)).toList ++
    [("eClassifiers", .array (p.classifiers.values.map (writeClassifier p)))])

/-- A document: the package itself if there is only one, else an array. -/
def writePackages : List Package → Json
  | [p] => writePackage p
  | ps => .array (ps.map writePackage)

end TreeInterchange.MetamodelDocument
