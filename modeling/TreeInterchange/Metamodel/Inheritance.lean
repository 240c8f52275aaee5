import TreeInterchange.Metamodel.Error
import TreeInterchange.Reachability

/-!
# Inherited features

The features of a class are those of its supertypes, visited in declaration order with the
first feature of a name kept, followed by its own, which displace inherited ones of the same
name. A class that is reached again below itself has no feature list. The way down from a
class never repeats a class, so it is no longer than the number of classes there are.
-/

namespace TreeInterchange

/-- A feature with the class that declares it. -/
structure OwnedFeature where
  owner : ClassifierRef
  feature : Feature
deriving DecidableEq, Inhabited

namespace OwnedFeature

def addNew (fs : List OwnedFeature) (f : OwnedFeature) : List OwnedFeature :=
  if fs.any (·.feature.name = f.feature.name) then fs else fs ++ [f]

def displace (fs : List OwnedFeature) (f : OwnedFeature) : List OwnedFeature :=
  fs.filter (·.feature.name ≠ f.feature.name) ++ [f]

/-- The features of a class from the feature lists of its supertypes and its own features. -/
def combine (c : ClassifierRef) (inherited : List (List OwnedFeature)) (own : List Feature) :
    List OwnedFeature :=
  (own.map fun f => ⟨c, f⟩).foldl displace (inherited.flatten.foldl addNew [])

end OwnedFeature

namespace Metamodel

/-- Where classifiers are stored: the URI of the package and the name within it. -/
def classifierKeys (m : Metamodel) : List ClassifierRef :=
  m.packages.entries.flatMap fun (uri, p) => p.classifiers.keys.map fun name => ⟨uri, name⟩

/-- The features of `c` when `path` leads down to it; `steps` bounds the way further up. -/
def featuresWithin (m : Metamodel) :
    Nat → List ClassifierRef → ClassifierRef → Except MetamodelError (List OwnedFeature)
  | 0, _, c => .error (.inheritanceCycle c)
  | steps + 1, path, c =>
    if c ∈ path then .error (.inheritanceCycle c)
    else do
      let d ← m.requireClass c
      let inherited ← d.supertypes.mapM (m.featuresWithin steps (c :: path))
      return OwnedFeature.combine c inherited d.features

def ownedFeatures (m : Metamodel) (c : ClassifierRef) : Except MetamodelError (List OwnedFeature) :=
  m.featuresWithin (m.classifierKeys.length + 1) [] c

def features (m : Metamodel) (c : ClassifierRef) : Except MetamodelError (List Feature) := do
  return (← m.ownedFeatures c).map (·.feature)

def feature? (m : Metamodel) (c : ClassifierRef) (name : String) :
    Except MetamodelError (Option Feature) := do
  return (← m.features c).find? (·.name = name)

def supertypes (m : Metamodel) (c : ClassifierRef) : List ClassifierRef :=
  ((m.class? c).map (·.supertypes)).getD []

/-- Whether `sup` is `sub` or one of its direct or indirect supertypes. -/
def isSubclass (m : Metamodel) (sub sup : ClassifierRef) : Bool :=
  Reachability.reaches m.supertypes m.classifierKeys sub sup

end Metamodel

end TreeInterchange
