import TreeInterchange.Metamodel.Basic
import TreeInterchange.TypeCatalog

/-!
# Packages derived from node types

The node types and enumerations of one package of a catalog become classes and enumerations
of a metamodel package. A class extends the class of its supertype if that lies in the same
package and the class of all nodes otherwise, and declares the properties that such a
supertype does not pass on.
-/

namespace TreeInterchange.Derivation

/-- The class for a node type: a class of the derived package, or else the class of all nodes. -/
def classFor (package uri : String) (name : QualifiedName) : ClassifierRef :=
  if name.package = package then ⟨uri, name.name⟩ else .ast "ASTNode"

def attributeType (uri : String) : PropertyType → FeatureType
  | .enumeration name => .ofEnum ⟨uri, name.name⟩
  | .data d => .ecore (ecoreNameOf d)
  | .any => .untyped
  | .node _ => .untyped

def featureOf (package uri : String) (p : Property) : Feature :=
  let target := match p.type with
    | .node name => classFor package uri name
    | _ => .ast "ASTNode"
  let f := match p.kind with
    | .child => Feature.single p.name .containment (.ofClass target)
    | .reference => Feature.single p.name .reference (.ofClass target)
    | .value => Feature.single p.name .plain (attributeType uri p.type)
  if p.multiple then f.many else f

def classOf (catalog : TypeCatalog) (package uri : String) (t : NodeType) : ClassDecl :=
  let supertype := t.supertype.bind catalog.get?
  let inherited := supertype.filter (·.name.package = package)
  { name := t.name.name
    isAbstract := t.isAbstract
    isInterface := false
    supertypes := (supertype.map fun s => classFor package uri s.name).getD (.ast "ASTNode") ::
      (t.tags.filter (·.package = package)).map (classFor package uri)
    features := (t.properties.filter fun p =>
      !inherited.any fun s => (s.property? p.name).isSome).map (featureOf package uri) }

/-- The package that describes the node types of `package`; enumerations come first. -/
def packageOf (catalog : TypeCatalog) (package uri : String) : Package :=
  (Package.ofName package uri).addAll
    (((catalog.enumsIn package).map fun e => .enumDecl ⟨e.name.name, e.literals⟩) ++
      (catalog.typesIn package).map fun t => .classDecl (classOf catalog package uri t))

end TreeInterchange.Derivation
