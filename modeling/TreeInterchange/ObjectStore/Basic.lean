import TreeInterchange.Arena
import TreeInterchange.Metamodel.Basic
import TreeInterchange.Number.Reading
import TreeInterchange.Position

/-!
# Object stores

An object store is an arena of objects, each of a class and with values for features in the
order in which they were first set. A containment value owns its objects: an object that is
stored in one leaves the container it had before, and an object that a value no longer
lists has no container.
-/

namespace TreeInterchange

/-- The place of an object in its store, in the order of creation. -/
abbrev ObjectId := Nat

inductive FeatureValue where
  | null
  | string (s : String)
  | integer (n : Int64)
  | real (x : Binary64)
  | boolean (b : Bool)
  | enumeration (ordinal : UInt32)
  | contained (id : ObjectId)
  | containedMany (ids : List ObjectId)
  | reference (id : ObjectId)
  | references (ids : List ObjectId)
  | list (items : List FeatureValue)
deriving Inhabited

namespace FeatureValue

def isNull : FeatureValue → Bool
  | .null => true
  | _ => false

def text? : FeatureValue → Option String
  | .string s => some s
  | _ => none

def integer? : FeatureValue → Option Int64
  | .integer n => some n
  | _ => none

def children : FeatureValue → List ObjectId
  | .contained id => [id]
  | .containedMany ids => ids
  | _ => []

def shape : FeatureValue → String
  | .null => "null"
  | .string _ => "a string"
  | .integer _ => "an integer"
  | .real _ => "a real"
  | .boolean _ => "a boolean"
  | .enumeration _ => "an enum literal"
  | .contained _ | .containedMany _ => "a contained object"
  | .reference _ | .references _ => "a reference"
  | .list _ => "a list"

def without (child : ObjectId) : FeatureValue → FeatureValue
  | .contained id => if id = child then .null else .contained id
  | .containedMany ids => .containedMany (ids.filter (· ≠ child))
  | v => v

end FeatureValue

structure Container where
  owner : ObjectId
  feature : String
deriving DecidableEq, Inhabited

structure Object where
  type : ClassifierRef
  values : Table String FeatureValue
  container : Option Container
deriving Inhabited

namespace Object

def ofType (c : ClassifierRef) : Object := ⟨c, .empty, none⟩

def contents (o : Object) : List ObjectId := o.values.values.flatMap FeatureValue.children

end Object

structure ObjectStore where
  objects : Array Object
deriving Inhabited

namespace ObjectStore

def empty : ObjectStore := ⟨#[]⟩

def size (s : ObjectStore) : Nat := s.objects.size

/-- The object at a place; a place outside the store reads as an object of a nameless class. -/
def get (s : ObjectStore) (id : ObjectId) : Object := s.objects.getD id default

def value? (s : ObjectStore) (id : ObjectId) (feature : String) : Option FeatureValue :=
  (s.get id).values.get? feature

def update (s : ObjectStore) (id : ObjectId) (g : Object → Object) : ObjectStore :=
  ⟨s.objects.modify id g⟩

/-- Appends an object without values and returns its place, which has to be within the room of an
arena. -/
def newObject (s : ObjectStore) (c : ClassifierRef) : ObjectId × ObjectStore :=
  (s.size, ⟨s.objects.push (.ofType c)⟩)

def setContainer (s : ObjectStore) (id : ObjectId) (c : Option Container) : ObjectStore :=
  s.update id fun o => { o with container := c }

def setValue (s : ObjectStore) (id : ObjectId) (feature : String) (v : FeatureValue) :
    ObjectStore :=
  s.update id fun o => { o with values := o.values.insert feature v }

/-- Takes an object out of the feature that holds it. -/
def release (s : ObjectStore) (child : ObjectId) : ObjectStore :=
  match (s.get child).container with
  | some c => (s.setContainer child none).update c.owner fun o =>
      { o with values := o.values.adjust c.feature (·.without child) }
  | none => s

/-- Moves an object into a feature, as far as the object itself records it. -/
def claim (owner : ObjectId) (feature : String) (s : ObjectStore) (child : ObjectId) :
    ObjectStore :=
  (s.release child).setContainer child (some ⟨owner, feature⟩)

/-- Stores a value. The objects it owns leave their former containers, and those that the former
value owned and the new one does not are left without one. -/
def set (s : ObjectStore) (id : ObjectId) (feature : String) (v : FeatureValue) : ObjectStore :=
  let claimed := v.children.foldl (claim id feature) s
  let former := ((claimed.value? id feature).map FeatureValue.children).getD []
  (former.filter (· ∉ v.children)).foldl (fun s old => s.setContainer old none)
    (claimed.setValue id feature v)

def container? (s : ObjectStore) (id : ObjectId) : Option ObjectId :=
  (s.get id).container.map (·.owner)

def containingFeature? (s : ObjectStore) (id : ObjectId) : Option String :=
  (s.get id).container.map (·.feature)

def contents (s : ObjectStore) (id : ObjectId) : List ObjectId := (s.get id).contents

def contentsIn (s : ObjectStore) (id : ObjectId) (feature : String) : List ObjectId :=
  ((s.value? id feature).map FeatureValue.children).getD []

def contained? (s : ObjectStore) (id : ObjectId) (feature : String) : Option ObjectId :=
  match s.value? id feature with
  | some (.contained c) => some c
  | _ => none

/-- Objects without a container, in the order of creation. -/
def roots (s : ObjectStore) : List ObjectId :=
  (List.range s.size).filter fun id => (s.get id).container.isNone

/-- An object, its container, the container of that and so on, past at most `steps` of them. -/
def containerChain (s : ObjectStore) : Nat → ObjectId → List ObjectId
  | 0, id => [id]
  | steps + 1, id =>
    match s.container? id with
    | some owner => id :: s.containerChain steps owner
    | none => [id]

/-- An object and everything that contains it. -/
def selfAndContainers (s : ObjectStore) (id : ObjectId) : List ObjectId :=
  s.containerChain s.size id

def rootOf (s : ObjectStore) (id : ObjectId) : ObjectId := (s.selfAndContainers id).getLastD id

/-- Whether `root` is `id` or contains it, directly or not. -/
def isWithin (s : ObjectStore) (root id : ObjectId) : Bool := root ∈ s.selfAndContainers id

/-- An object and then the trees of its contents, `depth` levels deep. -/
def preorder (s : ObjectStore) : Nat → ObjectId → List ObjectId
  | 0, _ => []
  | depth + 1, id => id :: (s.contents id).flatMap (s.preorder depth)

/-- The containment tree of an object, each object before its contents. -/
def tree (s : ObjectStore) (id : ObjectId) : List ObjectId := s.preorder s.size id

/-- A point, from the integers of a `Point` object. -/
def point? (s : ObjectStore) (id : ObjectId) : Option Point := do
  let line ← (← s.value? id "line").integer?
  let column ← (← s.value? id "column").integer?
  return ⟨← Number.toUInt32? line.toInt, ← Number.toUInt32? column.toInt⟩

def position? (s : ObjectStore) (id : ObjectId) : Option Position := do
  let p ← s.contained? id "position"
  return ⟨← s.point? (← s.contained? p "start"), ← s.point? (← s.contained? p "end")⟩

@[simp] theorem size_update (s : ObjectStore) (id : ObjectId) (g : Object → Object) :
    (s.update id g).size = s.size := by
  simp [size, update]

theorem get_update (s : ObjectStore) (id j : ObjectId) (g : Object → Object) :
    (s.update id g).get j = if id = j ∧ j < s.size then g (s.get j) else s.get j := by
  simp only [get, update, size, Array.getD_eq_getD_getElem?, Array.getElem?_modify]
  by_cases h : id = j
  · subst h
    by_cases hj : id < s.objects.size <;> simp [hj]
  · simp [h]

@[simp] theorem size_newObject (s : ObjectStore) (c : ClassifierRef) :
    (s.newObject c).2.size = s.size + 1 := by
  simp [size, newObject]

theorem get_newObject (s : ObjectStore) (c : ClassifierRef) (j : ObjectId) :
    (s.newObject c).2.get j = if j = s.size then .ofType c else s.get j := by
  simp only [get, newObject, size, Array.getD_eq_getD_getElem?, Array.getElem?_push]
  split <;> simp_all

end ObjectStore

end TreeInterchange
