import TreeInterchange.QualifiedName

/-!
# Node types

A node type lists the properties that every node of the type carries, inherited ones first.
A property holds a plain value, owns children, or refers to nodes that stand elsewhere; it
may be filled from a field of the source tree that bears another name. An enumeration lists
its literals, and the place of a literal is its ordinal.
-/

namespace TreeInterchange

inductive DataType where
  | string
  | integer
  | real
  | boolean
deriving DecidableEq, Inhabited

def DataType.render : DataType → String
  | .string => "String"
  | .integer => "Integer"
  | .real => "Real"
  | .boolean => "Boolean"

inductive PropertyKind where
  | value
  | child
  | reference
deriving DecidableEq, Inhabited

inductive PropertyType where
  | any
  | data (type : DataType)
  | node (name : QualifiedName)
  | enumeration (name : QualifiedName)
deriving DecidableEq, Inhabited

def PropertyType.render : PropertyType → String
  | .any => "Any"
  | .data d => d.render
  | .node n => n.name
  | .enumeration n => n.name

structure Property where
  name : String
  kind : PropertyKind
  type : PropertyType
  multiple : Bool
  /-- The field of the source tree that fills the property, when it is not `name`. -/
  source? : Option String
deriving DecidableEq, Inhabited

namespace Property

def isChild (p : Property) : Bool := p.kind == .child

def isReference (p : Property) : Bool := p.kind == .reference

/-- The field of the source tree that fills the property. -/
def source (p : Property) : String := p.source?.getD p.name

def render (p : Property) : String :=
  let kind := match p.kind with
    | .value => ""
    | .child => "child "
    | .reference => "ref "
  let many := if p.multiple then "*" else ""
  let source := match p.source? with
    | some s => " <- " ++ s
    | none => ""
  "    " ++ kind ++ p.name ++ ": " ++ p.type.render ++ many ++ source ++ "\n"

end Property

structure NodeType where
  name : QualifiedName
  isAbstract : Bool
  /-- The type whose properties come first. -/
  supertype : Option QualifiedName
  /-- Further supertypes, which pass on no properties. -/
  tags : List QualifiedName
  properties : List Property
deriving DecidableEq, Inhabited

namespace NodeType

def ofName (name : QualifiedName) : NodeType := ⟨name, false, none, [], []⟩

/-- Puts the properties of `parent` before all others. -/
def extending (t parent : NodeType) : NodeType :=
  { t with supertype := some parent.name, properties := parent.properties ++ t.properties }

def withTag (t : NodeType) (tag : QualifiedName) : NodeType := { t with tags := t.tags ++ [tag] }

def withProperty (t : NodeType) (p : Property) : NodeType :=
  { t with properties := t.properties ++ [p] }

/-- Fills the property declared last from the field `source`. -/
def mapped (t : NodeType) (source : String) : NodeType :=
  match t.properties.getLast? with
  | some p => { t with properties := t.properties.dropLast ++ [{ p with source? := some source }] }
  | none => t

def property? (t : NodeType) (name : String) : Option Property :=
  t.properties.find? (·.name = name)

def childProperties (t : NodeType) : List Property := t.properties.filter (·.isChild)

def render (t : NodeType) : String :=
  let supertype := match t.supertype with
    | some s => " : " ++ s.render
    | none => ""
  let tags := if t.tags = [] then ""
    else " [" ++ Text.join ", " (t.tags.map (·.render)) ++ "]"
  (if t.isAbstract then "abstract " else "") ++ "node " ++ t.name.render ++ supertype ++ tags ++
    " \x7b\n" ++ Text.join "" (t.properties.map (·.render)) ++ "\x7d"

end NodeType

structure EnumType where
  name : QualifiedName
  literals : List String
deriving DecidableEq, Inhabited

namespace EnumType

def literal? (e : EnumType) (ordinal : UInt32) : Option String := e.literals[ordinal.toNat]?

/-- The first place of `literal`. -/
def ordinal? (e : EnumType) (literal : String) : Option UInt32 :=
  (e.literals.findIdx? (· = literal)).map UInt32.ofNat

end EnumType

end TreeInterchange
