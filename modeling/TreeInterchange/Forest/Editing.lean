import TreeInterchange.Forest.Traversal
import TreeInterchange.ModelError

/-!
# Editing forests

An edit is refused when the property does not exist, has another kind, or when a child would
come to stand below itself. A child has one place: putting it into a slot takes it out of
the slot that held it, and a child that a slot loses becomes a root. What an edit has
changed before it is refused stays changed, so that all tests stand before all changes.
-/

namespace TreeInterchange

/-- A change of a forest that may be refused. -/
abbrev Edit := EStateM ModelError Forest

def Edit.check {α : Type} (test : Forest → Except ModelError α) : Edit α := fun f =>
  match test f with
  | .ok a => .ok a f
  | .error e => .error e f

/-- The value without one of its children. -/
def Value.without (child : NodeId) : Value → Value
  | .node id => if id = child then .null else .node id
  | .nodes ids => .nodes (ids.filter (· ≠ child))
  | v => v

namespace Forest

def property (f : Forest) (id : NodeId) (name : String) : Except ModelError Property :=
  match (f.get id).type.property? name with
  | some p => .ok p
  | none => .error (.unknownProperty (f.get id).type.name name)

/-- The property by that name, if it has the given kind and multiplicity. -/
def propertyOf (f : Forest) (id : NodeId) (name : String) (kind : PropertyKind) (multiple : Bool)
    (expected : Expectation) : Except ModelError Property := do
  let p ← f.property id name
  if p.kind = kind ∧ p.multiple = multiple then return p
  else throw (.wrongKind (f.get id).type.name p.name expected)

/-- Refuses a child that is the parent or stands above it. -/
def attachable (f : Forest) (parent child : NodeId) : Except ModelError Unit :=
  if child = parent ∨ child ∈ f.ancestors parent then .error (.cycle parent child) else .ok ()

def setSlot (f : Forest) (id : NodeId) (name : String) (v : Value) : Forest :=
  f.update id fun n => { n with slots := n.slots.insert name v }

def setHolder (f : Forest) (child : NodeId) (h : Option Holder) : Forest :=
  f.update child fun n => { n with holder := h }

/-- Takes a child out of the slot that holds it. -/
def detach (f : Forest) (child : NodeId) : Forest :=
  match (f.get child).holder with
  | some h => (f.setHolder child none).update h.parent fun n =>
      { n with slots := n.slots.adjust h.role (·.without child) }
  | none => f

/-- Takes a child out of its slot and records a new holder for it. -/
def adopt (f : Forest) (parent : NodeId) (role : String) (child : NodeId) : Forest :=
  (f.detach child).setHolder child (some ⟨parent, role⟩)

/-- Puts `v` into a slot; the children that were there lose their parent. -/
def evict (f : Forest) (id : NodeId) (name : String) (v : Value) : Forest :=
  (f.childrenIn id name).foldl (fun g old => g.setHolder old none) (f.setSlot id name v)

def pushChild (f : Forest) (id : NodeId) (name : String) (child : NodeId) : Forest :=
  match f.slot? id name with
  | some (.nodes ids) => f.setSlot id name (.nodes (ids ++ [child]))
  | _ => f.setSlot id name (.nodes [child])

def pushReference (f : Forest) (id : NodeId) (name : String) (target : NodeId) : Forest :=
  match f.slot? id name with
  | some (.references ids) => f.setSlot id name (.references (ids ++ [target]))
  | _ => f.setSlot id name (.references [target])

def setChild (id : NodeId) (name : String) (child : Option NodeId) : Edit Unit := do
  let p ← Edit.check (·.propertyOf id name .child false .singleChild)
  match child with
  | none => modify (·.evict id name .null)
  | some c =>
    Edit.check (·.attachable id c)
    modify fun f => ((f.evict id name .null).adopt id p.name c).setSlot id name (.node c)

/-- Appends to a collection of children; a child that is already there moves to the end. -/
def addChild (id : NodeId) (name : String) (child : NodeId) : Edit Unit := do
  let p ← Edit.check (·.propertyOf id name .child true .childCollection)
  Edit.check (·.attachable id child)
  modify fun f => (f.adopt id p.name child).pushChild id name child

def setChildren (id : NodeId) (name : String) (children : List NodeId) : Edit Unit := do
  let _ ← Edit.check (·.propertyOf id name .child true .childCollection)
  Edit.check fun f => children.forM (f.attachable id)
  modify (·.evict id name (.nodes []))
  children.forM (addChild id name)

def setValue (id : NodeId) (name : String) (v : Value) : Edit Unit := do
  Edit.check fun f => do
    let p ← f.property id name
    if p.kind ≠ .value ∨ v.holdsNodes then
      throw (.wrongKind (f.get id).type.name name .plainValue)
  modify (·.setSlot id name v)

/-- Points a single reference at a node, or at nothing. -/
def setReference (id : NodeId) (name : String) (target : Option NodeId) : Edit Unit := do
  let _ ← Edit.check (·.propertyOf id name .reference false .singleReference)
  modify (·.setSlot id name ((target.map .reference).getD .null))

def addReference (id : NodeId) (name : String) (target : NodeId) : Edit Unit := do
  let _ ← Edit.check (·.propertyOf id name .reference true .referenceCollection)
  modify (·.pushReference id name target)

def setReferences (id : NodeId) (name : String) (targets : List NodeId) : Edit Unit := do
  let _ ← Edit.check (·.propertyOf id name .reference true .referenceCollection)
  modify (·.setSlot id name (.references targets))

/-- Stores any value in the way that the kind of the property asks for. -/
def setProperty (id : NodeId) (name : String) (v : Value) : Edit Unit := do
  let p ← Edit.check (·.property id name)
  match p.kind, p.multiple, v with
  | .child, false, .node c => setChild id name (some c)
  | .child, false, .null => setChild id name none
  | .child, _, .nodes cs => setChildren id name cs
  | .child, true, .null => setChildren id name []
  | .reference, _, .reference t => setReference id name (some t)
  | .reference, false, .null => setReference id name none
  | .reference, _, .references ts => setReferences id name ts
  | .reference, true, .null => setReferences id name []
  | .value, _, v => setValue id name v
  | _, _, _ => Edit.check fun f => .error (.wrongKind (f.get id).type.name name .compatible)

end Forest

end TreeInterchange
