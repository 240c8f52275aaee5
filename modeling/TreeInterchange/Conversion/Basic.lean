import TreeInterchange.Metamodel.Error
import TreeInterchange.ModelError

/-!
# Converting between trees and objects

A node corresponds to an object of the class with the same name in the package with the
name of the type's package. Children become contained objects, and references are settled
after the whole tree has been converted, among the things that the same call has made.
-/

namespace TreeInterchange

structure ConversionOptions where
  /-- Whether positions are carried across. -/
  positions : Bool
  /-- Whether a reference that leaves the tree is an error; otherwise it is dropped. -/
  failOnDangling : Bool
deriving DecidableEq

def ConversionOptions.default : ConversionOptions := ⟨true, false⟩

instance : Inhabited ConversionOptions := ⟨.default⟩

inductive ConversionError where
  /-- No class corresponds to the type of a node. -/
  | unknownType (name : QualifiedName)
  | missingFeature (owner feature : String)
  | typeMismatch (owner feature found : String)
  /-- No node type corresponds to the class of an object. -/
  | unregisteredType (name : QualifiedName)
  | enumOutOfRange (enumeration : String) (ordinal : UInt32)
  | danglingReference (owner feature : String)
  | metamodel (e : MetamodelError)
  | model (e : ModelError)

def ConversionError.message : ConversionError → String
  | .unknownType n => "unknown type " ++ n.render ++ ": no matching class in the metamodel"
  | .missingFeature c f => "class " ++ c ++ " has no feature '" ++ f ++ "'"
  | .typeMismatch c f found => "feature '" ++ f ++ "' of " ++ c ++ " cannot hold " ++ found
  | .unregisteredType n => "unregistered type " ++ n.render ++ ": generate its node classes first"
  | .enumOutOfRange e o =>
    "enum literal out of range: " ++ e ++ " has no literal with ordinal " ++ toString o
  | .danglingReference c f => "dangling reference in feature '" ++ f ++ "' of " ++ c
  | .metamodel e => e.message
  | .model e => e.message

end TreeInterchange
