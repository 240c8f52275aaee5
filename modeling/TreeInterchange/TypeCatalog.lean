import TreeInterchange.ModelError
import TreeInterchange.Reachability
import TreeInterchange.Table

/-!
# Catalogs of node types

A catalog holds node types and enumerations by qualified name. It always starts from three
generic node types, which stand in for source nodes that have no type of their own.
-/

namespace TreeInterchange

structure TypeCatalog where
  nodeTypes : Table QualifiedName NodeType
  enumTypes : Table QualifiedName EnumType

namespace TypeCatalog

/-- The package of the generic node types. -/
def builtinPackage : String := "astbridge"

def genericName : QualifiedName := ⟨builtinPackage, "GenericNode"⟩

def genericErrorName : QualifiedName := ⟨builtinPackage, "GenericErrorNode"⟩

def genericRuleName : QualifiedName := ⟨builtinPackage, "GenericParseTreeNode"⟩

/-- Stands in for any source node. -/
def genericType : NodeType := .ofName genericName

/-- Stands in for a node that could not be built, and says why. -/
def genericErrorType : NodeType :=
  ((NodeType.ofName genericErrorName).withProperty
    ⟨"message", .value, .data .string, false, none⟩).extending genericType

/-- Stands in for a rule of the source tree, and keeps its children. -/
def genericRuleType : NodeType :=
  ((NodeType.ofName genericRuleName).withProperty
    ⟨"childNodes", .child, .any, true, some "children"⟩).extending genericType

/-- The catalog of the generic types alone. -/
def initial : TypeCatalog where
  nodeTypes := .ofList
    [(genericName, genericType), (genericErrorName, genericErrorType),
      (genericRuleName, genericRuleType)]
  enumTypes := .empty

instance : Inhabited TypeCatalog := ⟨initial⟩

def get? (c : TypeCatalog) (name : QualifiedName) : Option NodeType := c.nodeTypes.get? name

def enum? (c : TypeCatalog) (name : QualifiedName) : Option EnumType := c.enumTypes.get? name

def require (c : TypeCatalog) (name : QualifiedName) : Except ModelError NodeType :=
  match c.get? name with
  | some t => .ok t
  | none => .error (.unknownType name.render)

def put (c : TypeCatalog) (t : NodeType) : TypeCatalog :=
  { c with nodeTypes := c.nodeTypes.insert t.name t }

/-- Adds a valid type whose name is new. Otherwise the type already present is returned, and the
catalog stays as it is. -/
def define (c : TypeCatalog) (t : NodeType) : Except ModelError (NodeType × TypeCatalog) := do
  t.validate
  match c.get? t.name with
  | some present => return (present, c)
  | none => return (t, c.put t)

def register (c : TypeCatalog) (t : NodeType) : Except ModelError TypeCatalog := do
  t.validate
  return c.put t

def registerEnum (c : TypeCatalog) (e : EnumType) : TypeCatalog :=
  { c with enumTypes := c.enumTypes.insert e.name e }

def typesIn (c : TypeCatalog) (package : String) : List NodeType :=
  (c.nodeTypes.values.filter (·.name.package = package)).mergeSort fun a b => a.name.le b.name

def enumsIn (c : TypeCatalog) (package : String) : List EnumType :=
  (c.enumTypes.values.filter (·.name.package = package)).mergeSort fun a b => a.name.le b.name

/-- The supertype and the tags that a type names. -/
def parents (c : TypeCatalog) (name : QualifiedName) : List QualifiedName :=
  match c.get? name with
  | some t => t.supertype.toList ++ t.tags
  | none => []

/-- Whether `sup` is `sub` or is reached from it through supertypes and tags. -/
def isSubtype (c : TypeCatalog) (sub sup : QualifiedName) : Bool :=
  Reachability.reaches c.parents c.nodeTypes.keys sub sup

end TypeCatalog

end TreeInterchange
