import TreeInterchange.Proofs.ContainmentWalks
import TreeInterchange.Proofs.ObjectDocumentRoundTrip

/-!
# Containment trees

Objects that hold later objects only, each in one place, form trees. Where all objects of a store
are of this form and containers agree with the features that list objects, the tree of an object
is closed: the contents of its members belong to it, the containers of its members up to the root
do, and so does whatever lies within the root or is found from it by a fragment.
-/

namespace TreeInterchange

namespace ObjectStore

variable {t : ObjectStore} {S : ObjectId → Prop} {x c : Nat}

/-- Each object of a set holds later objects of the set only, and none twice in a feature. -/
def Ascends (t : ObjectStore) (S : ObjectId → Prop) : Prop :=
  ∀ x : Nat, S x → ∀ g v, t.value? x g = some v →
    v.children.Nodup ∧ ∀ c : Nat, c ∈ v.children → S c ∧ x < c

theorem Ascends.below (h : t.Ascends S) (hx : S x) (hc : c ∈ t.contents x) : S c ∧ x < c := by
  obtain ⟨g, hg⟩ := mem_contents_iff.1 hc
  obtain ⟨v, hv, hcv⟩ := mem_contentsIn_iff.1 hg
  exact (h x hx g v hv).2 c hcv

theorem Ascends.nodup_contents (h : t.Ascends S) (ho : t.Owned) (hx : S x) :
    (t.contents x).Nodup := by
  refine ho.nodup_contents fun g => ?_
  cases hv : t.value? x g with
  | none =>
    rw [contentsIn_eq_nil hv]
    exact List.nodup_nil
  | some v =>
    rw [contentsIn_eq hv]
    exact (h x hx g v hv).1

theorem Ascends.nodup_preorder (h : t.Ascends S) (ho : t.Owned) (hx : S x) (depth : Nat) :
    (t.preorder depth x).Nodup := by
  rw [preorder_eq_listing]
  refine nodup_listing_of_unique (fun a ha b hb => (h.below ha hb).1)
    (fun a ha => h.nodup_contents ho ha) (fun _ _ _ _ _ ha hb => ho.owner_unique ha hb)
    (fun a hcycle => ?_) depth hx
  have hup : ∀ a b : Nat, Relation.TransGen (DirectlyAbove t.contents S) a b → a < b := by
    intro a b hab
    induction hab with
    | single hab => exact (h.below hab.1 hab.2).2
    | tail _ hbc ih => exact Nat.lt_trans ih (h.below hbc.1 hbc.2).2
  exact Nat.lt_irrefl a (hup a a hcycle)

theorem Ascends.of_mem_tree (h : t.Ascends S) (hx : S x) (hc : c ∈ t.tree x) : S c := by
  rw [tree_eq_listing] at hc
  exact of_mem_listing (fun a ha b hb => (h.below ha hb).1) hx hc

theorem Ascends.heightAtMost (h : t.Ascends S) (ho : t.Owned) (hx : S x) (hlt : x < t.size) :
    HeightAtMost t.contents t.size x := by
  apply heightAtMost_of_bounded hlt fun _ _ hb => lt_size_of_mem_contents ho hb
  rw [← preorder_eq_listing]
  exact h.nodup_preorder ho hx _

theorem Ascends.mem_tree (h : t.Ascends S) (ho : t.Owned) (hx : S x) (hlt : x < t.size)
    {depth : Nat} (hc : c ∈ listing t.contents depth x) : c ∈ t.tree x := by
  rw [tree_eq_listing]
  exact listing_subset_of_height (h.heightAtMost ho hx hlt) depth hc

/-- Every object is listed exactly where its container says, and holds later objects only. -/
structure Layered (s : ObjectStore) : Prop where
  owned : s.Owned
  listed : s.Listed
  ascends : s.Ascends (· < s.size)

namespace Layered

variable {s : ObjectStore} {root p : ObjectId} (h : s.Layered)
include h

theorem mem_contents_iff : c ∈ s.contents p ↔ s.container? c = some p :=
  mem_contents_iff_container? h.owned h.listed

theorem acyclic : s.Acyclic := by
  refine acyclic_of_lt fun c _ p hp => ?_
  have hc := h.mem_contents_iff.2 hp
  obtain ⟨f, hf⟩ := ObjectStore.mem_contents_iff.1 hc
  obtain ⟨v, hv, -⟩ := mem_contentsIn_iff.1 hf
  exact (h.ascends.below (lt_size_of_value? hv) hc).2

/-- A tree is closed upwards, as far as its root. -/
theorem exists_container_mem_tree (hx : x ∈ s.tree root) (hne : x ≠ root) :
    ∃ p ∈ s.tree root, s.container? x = some p := by
  rw [tree_eq_listing] at hx ⊢
  obtain ⟨p, hp, hxp⟩ := exists_next_of_mem hx hne
  exact ⟨p, hp, h.mem_contents_iff.1 hxp⟩

variable (hr : root < s.size)
include hr

theorem heightAtMost : HeightAtMost s.contents s.size root := h.ascends.heightAtMost h.owned hr hr

theorem root_mem_tree : root ∈ s.tree root := by
  rw [tree_eq_listing]
  exact self_mem_listing (h.heightAtMost hr)

theorem contents_subset_tree (hx : x ∈ s.tree root) : s.contents x ⊆ s.tree root := by
  rw [tree_eq_listing] at hx ⊢
  exact next_subset_listing (h.heightAtMost hr) hx

theorem root_notMem_contents (hx : x ∈ s.tree root) : root ∉ s.contents x := by
  rw [tree_eq_listing] at hx
  exact not_mem_next_of_height (h.heightAtMost hr) hx

theorem isWithin_iff_mem_tree : s.isWithin root x = true ↔ x ∈ s.tree root :=
  h.acyclic.isWithin_iff_mem_tree h.owned h.listed hr

theorem mem_tree_of_resolve? {path : String} (hx : s.resolve? root path = some x) :
    x ∈ s.tree root := by
  obtain ⟨gs, -, hgs⟩ := Option.bind_eq_some_iff.1 hx
  exact (h.isWithin_iff_mem_tree hr).1 (isWithin_of_way h.owned hgs)

end Layered

end ObjectStore

end TreeInterchange
