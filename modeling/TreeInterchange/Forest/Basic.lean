import TreeInterchange.Arena
import TreeInterchange.Forest.Value
import TreeInterchange.Position
import TreeInterchange.Table

/-!
# Forests

A forest is an arena of nodes. Each node has a type and one slot for every property of it;
a node that stands in a child slot records the parent and the property, its role. Nodes are
never removed: a child that leaves its slot becomes a root.
-/

namespace TreeInterchange

/-- A record of the element of a parse tree from which a node was made. -/
structure ParseOrigin where
  kind : String
  position : Option Position
  text : Option String
deriving DecidableEq, Inhabited

inductive Origin where
  | position (p : Position)
  | parseTree (o : ParseOrigin)
  | node (id : NodeId)
deriving DecidableEq, Inhabited

def Origin.isParseTree : Origin → Bool
  | .parseTree _ => true
  | _ => false

structure Holder where
  parent : NodeId
  role : String
deriving DecidableEq, Inhabited

structure Node where
  type : NodeType
  slots : Table String Value
  /-- The position given to the node itself, if any. -/
  position : Option Position
  origin : Option Origin
  holder : Option Holder
deriving Inhabited

/-- The content of a slot that nothing was put into. -/
def Property.emptySlot (p : Property) : Value :=
  if p.multiple then
    match p.kind with
    | .child => .nodes []
    | .reference => .references []
    | .value => .list []
  else .null

namespace Node

/-- A node with all slots empty, no position, no origin and no parent. -/
def ofType (t : NodeType) : Node where
  type := t
  slots := .ofList (t.properties.map fun p => (p.name, p.emptySlot))
  position := none
  origin := none
  holder := none

def children (n : Node) : List NodeId := n.slots.values.flatMap Value.children

def parent? (n : Node) : Option NodeId := n.holder.map (·.parent)

def role? (n : Node) : Option String := n.holder.map (·.role)

end Node

structure Forest where
  nodes : Array Node
deriving Inhabited

namespace Forest

def empty : Forest := ⟨#[]⟩

def size (f : Forest) : Nat := f.nodes.size

/-- The node at a place; a place outside the forest reads as a node of a nameless type. -/
def get (f : Forest) (id : NodeId) : Node := f.nodes.getD id default

def update (f : Forest) (id : NodeId) (g : Node → Node) : Forest := ⟨f.nodes.modify id g⟩

/-- Appends a fresh node of a type and returns its place, which has to be within the room of an
arena. -/
def newNode (f : Forest) (t : NodeType) : NodeId × Forest := (f.size, ⟨f.nodes.push (.ofType t)⟩)

/-- Nodes without a parent, in the order of creation. The places are counted up to the number of
nodes, taken as a 32-bit number. -/
def roots (f : Forest) : List NodeId :=
  (List.range (UInt32.ofNat f.size).toNat).filter fun id => (f.get id).holder.isNone

def slot? (f : Forest) (id : NodeId) (name : String) : Option Value := (f.get id).slots.get? name

def setPosition (f : Forest) (id : NodeId) (p : Option Position) : Forest :=
  f.update id fun n => { n with position := p }

def setOrigin (f : Forest) (id : NodeId) (o : Option Origin) : Forest :=
  f.update id fun n => { n with origin := o }

/-- Follows node origins for at most `steps` steps. -/
def positionWithin (f : Forest) : Nat → NodeId → Option Position
  | 0, _ => none
  | steps + 1, id =>
    let n := f.get id
    match n.position, n.origin with
    | some p, _ => some p
    | none, some (.position p) => some p
    | none, some (.parseTree o) => o.position
    | none, some (.node next) => f.positionWithin steps next
    | none, none => none

/-- The position of a node: its own, or else the one that its origin leads to. A chain of
origins that visits more nodes than there are must loop, and leads to none. -/
def position (f : Forest) (id : NodeId) : Option Position := f.positionWithin (f.size + 1) id

@[simp] theorem size_update (f : Forest) (id : NodeId) (g : Node → Node) :
    (f.update id g).size = f.size := by
  simp [size, update]

theorem get_update (f : Forest) (id j : NodeId) (g : Node → Node) :
    (f.update id g).get j = if id = j ∧ j < f.size then g (f.get j) else f.get j := by
  simp only [get, update, size, Array.getD_eq_getD_getElem?, Array.getElem?_modify]
  by_cases h : id = j
  · subst h
    by_cases hj : id < f.nodes.size
    · simp [hj]
    · simp [hj]
  · simp [h]

@[simp] theorem size_newNode (f : Forest) (t : NodeType) : (f.newNode t).2.size = f.size + 1 := by
  simp [size, newNode]

theorem get_newNode (f : Forest) (t : NodeType) (j : NodeId) :
    (f.newNode t).2.get j = if j = f.size then .ofType t else f.get j := by
  simp only [get, newNode, size, Array.getD_eq_getD_getElem?, Array.getElem?_push]
  split <;> simp_all

end Forest

end TreeInterchange
