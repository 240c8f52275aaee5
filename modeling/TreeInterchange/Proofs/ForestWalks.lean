import TreeInterchange.Proofs.ForestStructure
import TreeInterchange.Proofs.TreeListings

/-!
# Walks through a forest

In a forest a walk down meets no node twice: a node has one parent, so two ways up from the
same node are parts of one another. A walk is therefore never cut off by the size of the
forest.
-/

namespace TreeInterchange.Forest

variable {f : Forest} {id a b z : NodeId}

theorem preorder_eq_listing (f : Forest) : f.preorder = listing f.children := by
  funext depth id
  induction depth generalizing id with
  | zero => rfl
  | succ depth ih =>
    simp only [preorder, listing, List.cons.injEq, true_and]
    exact List.flatMap_congr fun c _ => ih c

theorem walk_eq_listing (f : Forest) (id : NodeId) : f.walk id = listing f.children f.size id := by
  rw [walk, preorder_eq_listing]

theorem children_eq (f : Forest) (id : NodeId) :
    f.children id = (f.get id).slots.keys.flatMap (f.childrenIn id) := by
  simp only [children, Node.children, Table.values, Table.keys, List.flatMap_map]
  apply List.flatMap_congr
  intro e he
  rw [childrenIn_eq (Table.get?_eq_some_iff.2 he)]

namespace IsForest

variable (hf : f.IsForest)
include hf

theorem mem_children_iff_isParent : b ∈ f.children a ↔ f.IsParent a b := by
  rw [mem_children_iff, isParent_iff]
  exact exists_congr fun r => hf.held a r b

theorem isParent_of_mem (h : b ∈ f.children a) : f.IsParent a b :=
  hf.mem_children_iff_isParent.1 h

theorem lt_size_of_mem_children (h : b ∈ f.children a) : b < f.size := by
  obtain ⟨r, hr⟩ := isParent_iff.1 (hf.isParent_of_mem h)
  exact lt_size_of_holder hr

theorem lt_size_of_mem_listing {k : Nat} (ha : a < f.size) (h : z ∈ listing f.children k a) :
    z < f.size := by
  induction k generalizing a with
  | zero => simp [listing] at h
  | succ k ih =>
    rcases mem_listing_succ.1 h with rfl | ⟨c, hc, hz⟩
    · exact ha
    · exact ih (hf.lt_size_of_mem_children hc) hz

theorem nodup_children (id : NodeId) : (f.children id).Nodup := by
  rw [children_eq, List.nodup_flatMap]
  refine ⟨fun r _ => hf.once id r, (f.get id).slots.nodup.imp fun {r q} hrq => ?_⟩
  intro c hr hq
  have hsame := ((hf.held id r c).1 hr).symm.trans ((hf.held id q c).1 hq)
  simp only [Option.some.injEq, Holder.mk.injEq, true_and] at hsame
  exact hrq hsame

/-- No walk meets a node twice. -/
theorem nodup_listing (k : Nat) (id : NodeId) : (listing f.children k id).Nodup := by
  refine nodup_listing_of_unique (S := fun _ => True) (fun _ _ _ _ => trivial)
    (fun a _ => hf.nodup_children a) (fun a b c _ _ ha hb => ?_) (fun a hcycle => ?_) k trivial
  · exact Option.some.inj ((hf.isParent_of_mem ha).symm.trans (hf.isParent_of_mem hb))
  · have hparents : ∀ x y, DirectlyAbove f.children (fun _ => True) x y → f.IsParent x y :=
      fun _ _ h => hf.isParent_of_mem h.2
    exact hf.acyclic a (Relation.TransGen.mono hparents a a hcycle)

theorem heightAtMost (hid : id < f.size) : HeightAtMost f.children f.size id :=
  heightAtMost_of_bounded hid (fun _ _ h => hf.lt_size_of_mem_children h) (hf.nodup_listing _ id)

theorem self_mem_walk (hid : id < f.size) : id ∈ f.walk id := by
  rw [walk_eq_listing]
  exact self_mem_listing (hf.heightAtMost hid)

theorem listing_succ_eq_walk (hid : id < f.size) :
    listing f.children (f.size + 1) id = f.walk id := by
  rw [walk_eq_listing, listing_eq_of_height (hf.heightAtMost hid) (Nat.le_succ f.size)]

theorem nodup_walk (id : NodeId) : (f.walk id).Nodup := by
  rw [walk_eq_listing]
  exact hf.nodup_listing _ id

end IsForest

end TreeInterchange.Forest
