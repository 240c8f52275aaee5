import TreeInterchange.Forest.Basic

/-!
# Walking through forests

A walk down a tree can go no deeper than the forest has nodes, and a walk up can pass no
more parents than that, so both are recursive listings cut off at the size of the forest.
In a forest that edits have built, where no node stands below itself, the cut is never met.
-/

namespace TreeInterchange.Forest

def children (f : Forest) (id : NodeId) : List NodeId := (f.get id).children

/-- The children in the slot `name`; a name without a slot has none. -/
def childrenIn (f : Forest) (id : NodeId) (name : String) : List NodeId :=
  ((f.slot? id name).map Value.children).getD []

/-- A node and then the trees of its children, `depth` levels deep. -/
def preorder (f : Forest) : Nat → NodeId → List NodeId
  | 0, _ => []
  | depth + 1, id => id :: (f.children id).flatMap (f.preorder depth)

/-- The trees of a node's children and then the node, `depth` levels deep. -/
def postorder (f : Forest) : Nat → NodeId → List NodeId
  | 0, _ => []
  | depth + 1, id => (f.children id).flatMap (f.postorder depth) ++ [id]

def parentChain (f : Forest) : Nat → NodeId → List NodeId
  | 0, _ => []
  | count + 1, id =>
    match (f.get id).parent? with
    | some p => p :: f.parentChain count p
    | none => []

/-- All nodes of the tree below `id`, each before its children. -/
def walk (f : Forest) (id : NodeId) : List NodeId := f.preorder f.size id

def walkLeavesFirst (f : Forest) (id : NodeId) : List NodeId := f.postorder f.size id

def descendants (f : Forest) (id : NodeId) : List NodeId := (f.walk id).drop 1

def ancestors (f : Forest) (id : NodeId) : List NodeId := f.parentChain f.size id

def ancestorOfType? (f : Forest) (id : NodeId) (type : QualifiedName) : Option NodeId :=
  (f.ancestors id).find? fun a => (f.get a).type.name = type

/-- Whether every node below `root` names the node that holds it as its parent. -/
def hasValidParents (f : Forest) (root : NodeId) : Bool :=
  (f.walk root).all fun n => (f.children n).all fun c => (f.get c).parent? == some n

/-- Whether a node has no position, an invalid one, or one that its parent's does not contain. -/
def isMisplaced (f : Forest) (id : NodeId) : Bool :=
  match f.position id with
  | none => true
  | some p =>
    !p.isValid ||
      match (f.get id).parent?.bind f.position with
      | some outer => !outer.contains p
      | none => false

def invalidPositions (f : Forest) (root : NodeId) : List NodeId :=
  (f.walk root).filter f.isMisplaced

end TreeInterchange.Forest
