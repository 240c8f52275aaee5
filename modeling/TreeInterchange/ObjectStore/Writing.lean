import TreeInterchange.Json.Printing
import TreeInterchange.ObjectStore.Fragment

/-!
# Writing object documents

An object is written with its class and its values in the order of the store; null is left
out. A reference is the fragment of its target relative to the root that is written, or
within the target's own tree if the root does not contain it.
-/

namespace TreeInterchange.ObjectDocument

/-- A reference to an object from a document with the given root. -/
def reference (s : ObjectStore) (root target : ObjectId) : Json :=
  .object [("$ref", .string ((s.fragmentFrom? root target).getD (s.fragment target)))]

mutual

/-- A value, given how owned objects and references are written. -/
def writeValue (object reference : ObjectId → Json) : FeatureValue → Json
  | .null => .null
  | .string s => .string s
  | .integer n => .integer n.toInt
  | .real x => if x.isFinite then .number (.real x) else .null
  | .boolean b => .bool b
  | .enumeration ordinal => .integer ordinal.toNat
  | .contained id => object id
  | .containedMany ids => .array (ids.map object)
  | .reference id => reference id
  | .references ids => .array (ids.map reference)
  | .list items => .array (writeItems object reference items)

def writeItems (object reference : ObjectId → Json) : List FeatureValue → List Json
  | [] => []
  | v :: vs => writeValue object reference v :: writeItems object reference vs

end

/-- An object and what it contains, `depth` levels deep. -/
def writeWithin (s : ObjectStore) (root : ObjectId) : Nat → ObjectId → Json
  | 0, _ => .null
  | depth + 1, id =>
    let o := s.get id
    let written := (o.values.entries.filter (!·.2.isNull)).map fun (feature, v) =>
      (feature, writeValue (writeWithin s root depth) (reference s root) v)
    .object (Table.ofList (("eClass", .string o.type.render) :: written)).entries

def write (s : ObjectStore) (root : ObjectId) : Json := writeWithin s root (s.size + 1) root

end TreeInterchange.ObjectDocument
