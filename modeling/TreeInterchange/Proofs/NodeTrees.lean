import TreeInterchange.Proofs.ForestWalks

/-!
# Trees read from forests

A node and all that is below it can be read from a forest as a value of its own, in which no
place of the forest is named any more except by references and origins. What is read depends
only on the nodes of the tree, and not on who holds them.

Where every child stands at a later place than its parent, which is so in all trees that are
built from the root down, the size of the forest is enough for reading.
-/

namespace TreeInterchange

/-- What a slot holds, with something else in the place of each child. -/
inductive TreeSlot (α : Type) where
  | plain (v : Value)
  | child (a : α)
  | children (as : List α)

/-- A node with all that is below it. -/
inductive NodeTree where
  | mk (type : NodeType) (position : Option Position) (origin : Option Origin)
      (slots : List (String × TreeSlot NodeTree))

def Value.toSlot {α : Type} (below : NodeId → α) : Value → TreeSlot α
  | .node c => .child (below c)
  | .nodes cs => .children (cs.map below)
  | v => .plain v

theorem Value.toSlot_congr {α : Type} {below below' : NodeId → α} {v : Value}
    (h : ∀ c ∈ v.children, below c = below' c) : v.toSlot below = v.toSlot below' := by
  cases v with
  | node c => simp [toSlot, h c (by simp [children])]
  | nodes cs =>
    simp only [toSlot, TreeSlot.children.injEq]
    exact List.map_congr_left fun c hc => h c hc
  | _ => rfl

namespace NodeTree

def type : NodeTree → NodeType
  | .mk t _ _ _ => t

def position : NodeTree → Option Position
  | .mk _ p _ _ => p

def origin : NodeTree → Option Origin
  | .mk _ _ o _ => o

def slots : NodeTree → List (String × TreeSlot NodeTree)
  | .mk _ _ _ s => s

def put (t : NodeTree) (name : String) (s : TreeSlot NodeTree) : NodeTree :=
  .mk t.type t.position t.origin (Table.put name s t.slots)

def withOrigin (t : NodeTree) (o : Option Origin) : NodeTree :=
  .mk t.type t.position o t.slots

/-- A node, with given trees for its children. -/
def ofNode (n : Node) (below : NodeId → NodeTree) : NodeTree :=
  .mk n.type n.position n.origin (n.slots.entries.map fun e => (e.1, e.2.toSlot below))

def leaf (n : Node) : NodeTree := ofNode n fun _ => .mk default none none []

theorem ofNode_congr {n : Node} {below below' : NodeId → NodeTree}
    (h : ∀ c ∈ n.children, below c = below' c) : ofNode n below = ofNode n below' := by
  simp only [ofNode, mk.injEq, true_and]
  apply List.map_congr_left
  intro e he
  rw [Value.toSlot_congr fun c hc => h c ?_]
  exact List.mem_flatMap.2 ⟨e.2, List.mem_map_of_mem he, hc⟩

theorem map_put {κ α β : Type} [DecidableEq κ] (g : α → β) (k : κ) (a : α) (es : List (κ × α)) :
    (Table.put k a es).map (fun e => (e.1, g e.2)) =
      Table.put k (g a) (es.map fun e => (e.1, g e.2)) := by
  induction es with
  | nil => rfl
  | cons e es ih =>
    by_cases he : e.1 = k
    · simp [Table.put, he]
    · simp [Table.put, he, ih]

theorem ofNode_insert (n : Node) (name : String) (v : Value) (below : NodeId → NodeTree) :
    ofNode { n with slots := n.slots.insert name v } below =
      (ofNode n below).put name (v.toSlot below) := by
  simp only [ofNode, put, mk.injEq, type, position, origin, slots, true_and]
  exact map_put (Value.toSlot below) name v n.slots.entries

end NodeTree

namespace Forest

variable {f g : Forest} {a : NodeId}

/-- The tree below a node, `k` levels deep. -/
def treeWithin (f : Forest) : Nat → NodeId → NodeTree
  | 0, _ => .mk default none none []
  | k + 1, id => .ofNode (f.get id) (f.treeWithin k)

def tree (f : Forest) (id : NodeId) : NodeTree := f.treeWithin f.size id

/-- A node is the same in two forests, except perhaps for its holder. -/
def SameContent (f g : Forest) (j : NodeId) : Prop := ∃ h, g.get j = { f.get j with holder := h }

theorem SameContent.of_get (h : g.get a = f.get a) : f.SameContent g a := ⟨(f.get a).holder, h⟩

theorem SameContent.children (h : f.SameContent g a) : g.children a = f.children a := by
  obtain ⟨p, hp⟩ := h
  rw [Forest.children, hp]
  rfl

theorem SameContent.ofNode (h : f.SameContent g a) (below : NodeId → NodeTree) :
    NodeTree.ofNode (g.get a) below = NodeTree.ofNode (f.get a) below := by
  obtain ⟨p, hp⟩ := h
  rw [hp]
  rfl

theorem treeWithin_congr {k : Nat} (h : ∀ j ∈ listing f.children k a, f.SameContent g j) :
    g.treeWithin k a = f.treeWithin k a := by
  induction k generalizing a with
  | zero => rfl
  | succ k ih =>
    rw [treeWithin, treeWithin, (h a (by simp [listing])).ofNode]
    exact NodeTree.ofNode_congr fun c hc =>
      ih fun j hj => h j (mem_listing_succ.2 (.inr ⟨c, hc, hj⟩))

theorem treeWithin_of_height {k l : Nat} (h : HeightAtMost f.children k a) (hkl : k ≤ l) :
    f.treeWithin l a = f.treeWithin k a := by
  induction k generalizing a l with
  | zero => exact h.elim
  | succ k ih =>
    obtain ⟨l, rfl⟩ : ∃ m, l = m + 1 := ⟨l - 1, by omega⟩
    rw [treeWithin, treeWithin]
    exact NodeTree.ofNode_congr fun c hc => ih (h c hc) (by omega)

/-- In the tree of `a` children stand at later places than their parents. -/
def Ascends (f : Forest) (a : NodeId) : Prop :=
  ∀ k, ∀ j ∈ listing f.children k a, j < f.size ∧ ∀ c ∈ f.children j, j < c

theorem ascends_iff : f.Ascends a ↔ a < f.size ∧ ∀ c ∈ f.children a, a < c ∧ f.Ascends c := by
  constructor
  · intro h
    obtain ⟨hlt, hup⟩ := h 1 a (by simp [listing])
    exact ⟨hlt, fun c hc => ⟨hup c hc, fun k j hj =>
      h (k + 1) j (mem_listing_succ.2 (.inr ⟨c, hc, hj⟩))⟩⟩
  · rintro ⟨hlt, hchildren⟩ k j hj
    cases k with
    | zero => simp [listing] at hj
    | succ k =>
      rcases mem_listing_succ.1 hj with rfl | ⟨c, hc, hj⟩
      · exact ⟨hlt, fun d hd => (hchildren d hd).1⟩
      · exact (hchildren c hc).2 k j hj

namespace Ascends

theorem le (h : f.Ascends a) {k : Nat} {j : NodeId} (hj : j ∈ listing f.children k a) : a ≤ j := by
  induction k generalizing a with
  | zero => simp [listing] at hj
  | succ k ih =>
    rcases mem_listing_succ.1 hj with rfl | ⟨c, hc, hj⟩
    · exact Nat.le_refl _
    · obtain ⟨hac, hc'⟩ := (ascends_iff.1 h).2 c hc
      exact Nat.le_trans (Nat.le_of_lt hac) (ih hc' hj)

/-- What happens at other places, or to holders, is not seen by a tree. -/
theorem congr (h : f.Ascends a) (hsize : f.size ≤ g.size)
    (hsame : ∀ j, a ≤ j → j < f.size → f.SameContent g j) :
    g.Ascends a ∧ ∀ k, g.treeWithin k a = f.treeWithin k a := by
  have hin : ∀ k, ∀ j ∈ listing f.children k a, f.SameContent g j := fun k j hj =>
    hsame j (h.le hj) (h k j hj).1
  refine ⟨fun k j hj => ?_, fun k => treeWithin_congr (hin k)⟩
  have hlist : listing g.children k a = listing f.children k a := by
    have hnext : ∀ b ∈ listing f.children k a, g.children (id b) = (f.children b).map id := by
      intro b hb
      rw [List.map_id]
      exact (hin k b hb).children
    have hmap := listing_map id hnext
    rwa [List.map_id] at hmap
  rw [hlist] at hj
  rw [(hin k j hj).children]
  exact ⟨Nat.lt_of_lt_of_le (h k j hj).1 hsize, (h k j hj).2⟩

theorem heightAtMost (h : f.Ascends a) : HeightAtMost f.children f.size a := by
  have hall : ∀ n b : Nat, f.Ascends b → f.size ≤ b + n → HeightAtMost f.children n b := by
    intro n
    induction n with
    | zero =>
      intro b hb hn
      exact absurd (ascends_iff.1 hb).1 (Nat.not_lt_of_le hn)
    | succ n ih =>
      intro b hb hn c hc
      obtain ⟨hbc, hc'⟩ := (ascends_iff.1 hb).2 c hc
      have hlt : b < c := hbc
      exact ih c hc' (by omega)
  exact hall f.size a h (Nat.le_add_left _ _)

theorem tree_eq (h : f.Ascends a) {k : Nat} {t : NodeTree} (ht : ∀ l ≥ k, f.treeWithin l a = t) :
    f.tree a = t := by
  rw [tree, ← ht (max k f.size) (Nat.le_max_left _ _),
    treeWithin_of_height h.heightAtMost (Nat.le_max_right _ _)]

end Ascends

end Forest

end TreeInterchange
