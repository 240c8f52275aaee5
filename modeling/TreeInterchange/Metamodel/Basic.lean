import TreeInterchange.NodeType
import TreeInterchange.Table

/-!
# Metamodels

A metamodel is a table of packages by namespace URI, and a package a table of classifiers by
name: classes with features, enumerations, and data types with the way their values are
stored. Classifiers refer to each other by URI and name, so that packages can be added in
any order and replaced as a whole.
-/

namespace TreeInterchange

def ecoreUri : String := "http://www.eclipse.org/emf/2002/Ecore"

/-- The namespace of the built-in classes of trees: nodes, positions, issues, results. -/
def astUri : String := "https://strumenta.com/kolasu/v2"

/-- The namespace of the built-in classes of transpilation traces. -/
def traceUri : String := "https://strumenta.com/kolasu/transpilation/v1"

/-- A classifier, by the URI of its package and its name. -/
structure ClassifierRef where
  uri : String
  name : String
deriving DecidableEq, Inhabited

namespace ClassifierRef

def ast (name : String) : ClassifierRef := ⟨astUri, name⟩

def ecore (name : String) : ClassifierRef := ⟨ecoreUri, name⟩

def render (c : ClassifierRef) : String := c.uri ++ "#//" ++ c.name

/-- Reads `uri#//Name`, cutting at the first number sign. -/
def parse? (s : String) : Option ClassifierRef := do
  let (uri, fragment) ← Text.splitFirst '#' s
  let name ← Text.strip? "//" fragment
  if name = "" ∨ '/' ∈ name.toList then none else some ⟨uri, name⟩

/-- Whether this is the class that all nodes extend. -/
def isAstNode (c : ClassifierRef) : Bool := c == ast "ASTNode"

end ClassifierRef

/-- How values of a primitive data type are stored; unknown names are stored as texts. -/
def ecoreStorage (name : String) : DataType :=
  if name ∈ ["EInt", "EIntegerObject", "ELong", "ELongObject", "EShort", "EShortObject", "EByte",
      "EByteObject", "EBigInteger"] then .integer
  else if name ∈ ["EFloat", "EFloatObject", "EDouble", "EDoubleObject", "EBigDecimal"] then .real
  else if name ∈ ["EBoolean", "EBooleanObject"] then .boolean
  else .string

/-- How values of a data type are stored that is implemented by the given class. -/
def instanceStorage (name : String) : DataType :=
  if name ∈ ["int", "long", "short", "byte", "java.lang.Integer", "java.lang.Long",
      "java.math.BigInteger"] then .integer
  else if name ∈ ["float", "double", "java.lang.Float", "java.lang.Double",
      "java.math.BigDecimal"] then .real
  else if name ∈ ["boolean", "java.lang.Boolean"] then .boolean
  else .string

/-- The primitive data type that stands for a way of storing values. -/
def ecoreNameOf : DataType → String
  | .string => "EString"
  | .integer => "EInt"
  | .real => "EDouble"
  | .boolean => "EBoolean"

inductive FeatureType where
  | ofClass (c : ClassifierRef)
  | ofEnum (c : ClassifierRef)
  | ofData (c : ClassifierRef) (storage : DataType)
deriving DecidableEq, Inhabited

namespace FeatureType

def classifier : FeatureType → ClassifierRef
  | .ofClass c => c
  | .ofEnum c => c
  | .ofData c _ => c

def ecore (name : String) : FeatureType := .ofData (.ecore name) (ecoreStorage name)

/-- The type of values that keep the shape they were written with. -/
def untyped : FeatureType := ecore "EJavaObject"

def isUntyped : FeatureType → Bool
  | .ofData c _ => c == .ecore "EJavaObject"
  | _ => false

end FeatureType

inductive FeatureKind where
  /-- Holds plain values. -/
  | plain
  /-- Owns the objects it holds. -/
  | containment
  /-- Refers to objects that something else owns. -/
  | reference
deriving DecidableEq, Inhabited

structure Feature where
  name : String
  kind : FeatureKind
  type : FeatureType
  lower : Int32
  /-- The greatest number of values, `-1` for no limit. -/
  upper : Int32
deriving DecidableEq, Inhabited

namespace Feature

/-- An optional, single-valued feature. -/
def single (name : String) (kind : FeatureKind) (type : FeatureType) : Feature :=
  ⟨name, kind, type, 0, 1⟩

def many (f : Feature) : Feature := { f with upper := -1 }

def isMany (f : Feature) : Bool := f.upper == -1 || decide (1 < f.upper)

def isReference (f : Feature) : Bool := f.kind != .plain

def isContainment (f : Feature) : Bool := f.kind == .containment

end Feature

structure ClassDecl where
  name : String
  isAbstract : Bool
  isInterface : Bool
  supertypes : List ClassifierRef
  /-- The features declared by the class itself. -/
  features : List Feature
deriving DecidableEq, Inhabited

def ClassDecl.feature? (c : ClassDecl) (name : String) : Option Feature :=
  c.features.find? (·.name = name)

structure EnumDecl where
  name : String
  literals : List String
deriving DecidableEq, Inhabited

namespace EnumDecl

def literal? (e : EnumDecl) (ordinal : UInt32) : Option String := e.literals[ordinal.toNat]?

def ordinal? (e : EnumDecl) (literal : String) : Option UInt32 :=
  (e.literals.findIdx? (· = literal)).map UInt32.ofNat

end EnumDecl

structure DataDecl where
  name : String
  /-- The class that implements the data type, if the document names one. -/
  implementation : Option String
  storage : DataType
deriving DecidableEq, Inhabited

inductive Classifier where
  | classDecl (c : ClassDecl)
  | enumDecl (e : EnumDecl)
  | dataDecl (d : DataDecl)
deriving DecidableEq, Inhabited

namespace Classifier

def name : Classifier → String
  | .classDecl c => c.name
  | .enumDecl e => e.name
  | .dataDecl d => d.name

def class? : Classifier → Option ClassDecl
  | .classDecl c => some c
  | _ => none

def enum? : Classifier → Option EnumDecl
  | .enumDecl e => some e
  | _ => none

end Classifier

/-- A package, whose classifiers are all stored under their own names, as `add` stores them. -/
structure Package where
  name : String
  /-- Empty when the document names none. -/
  uri : String
  shortName : Option String
  classifiers : Table String Classifier
  keyed : Table.KeyedBy Classifier.name classifiers

namespace Package

def ofName (name uri : String) : Package := ⟨name, uri, none, .empty, Table.keyedBy_empty _⟩

instance : Inhabited Package := ⟨ofName "" ""⟩

/-- Adds a classifier, in place of any other of its name. -/
def add (p : Package) (c : Classifier) : Package :=
  { p with classifiers := p.classifiers.insert c.name c, keyed := p.keyed.insert c }

def addAll (p : Package) (cs : List Classifier) : Package := cs.foldl add p

def class? (p : Package) (name : String) : Option ClassDecl :=
  (p.classifiers.get? name).bind Classifier.class?

def enum? (p : Package) (name : String) : Option EnumDecl :=
  (p.classifiers.get? name).bind Classifier.enum?

def classes (p : Package) : List ClassDecl := p.classifiers.values.filterMap Classifier.class?

def enums (p : Package) : List EnumDecl := p.classifiers.values.filterMap Classifier.enum?

def ref (p : Package) (name : String) : ClassifierRef := ⟨p.uri, name⟩

end Package

/-- Packages, each of them stored under its URI. -/
structure Metamodel where
  packages : Table String Package
  keyed : Table.KeyedBy Package.uri packages

namespace Metamodel

def empty : Metamodel := ⟨.empty, Table.keyedBy_empty _⟩

instance : Inhabited Metamodel := ⟨empty⟩

/-- Adds a package, in place of any other with its URI. -/
def add (m : Metamodel) (p : Package) : Metamodel :=
  ⟨m.packages.insert p.uri p, m.keyed.insert p⟩

def package? (m : Metamodel) (uri : String) : Option Package := m.packages.get? uri

def packageNamed? (m : Metamodel) (name : String) : Option Package :=
  m.packages.values.find? (·.name = name)

def class? (m : Metamodel) (c : ClassifierRef) : Option ClassDecl :=
  (m.package? c.uri).bind (·.class? c.name)

def enum? (m : Metamodel) (c : ClassifierRef) : Option EnumDecl :=
  (m.package? c.uri).bind (·.enum? c.name)

def classNamed? (m : Metamodel) (package name : String) : Option ClassifierRef :=
  (m.packages.values.find? fun p => p.name = package ∧ (p.class? name).isSome).map (·.ref name)

end Metamodel

end TreeInterchange
