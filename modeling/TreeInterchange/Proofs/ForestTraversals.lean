import TreeInterchange.Proofs.ForestRuns
import TreeInterchange.Proofs.ForestWalks
import TreeInterchange.Proofs.TreeWalks

/-!
# Traversals of a forest

A traversal keeps the nodes that it still has to visit on a stack. Going down, it gives the top
node and pushes its children, the last one first. Giving leaves first, it leaves a node on the
stack, marked, below its children, and gives it when it comes up again. In a forest that edits
have built both come to an end, and what they give are the recursive listings.

Each listing has the nodes at or below its start, once each. Every node stands at or below just
one root, so the listings of all roots together have every node once.
-/

namespace TreeInterchange

namespace Forest

variable {f : Forest} {id r n : NodeId}

/-- A step of the walk down: the top node is given, and its children are pushed in its place. -/
def walkStep (f : Forest) : List NodeId → Option (Option NodeId × List NodeId)
  | [] => none
  | id :: stack => some (some id, pushAll stack (f.children id).reverse)

namespace IsForest

variable (hf : f.IsForest)
include hf

theorem mem_walk_iff_reflTransGen (hr : r < f.size) :
    n ∈ f.walk r ↔ Relation.ReflTransGen f.IsParent r n := by
  have hstep : (fun a b => b ∈ f.children a) = f.IsParent := by
    funext a b
    exact propext hf.mem_children_iff_isParent
  rw [walk_eq_listing, mem_listing_iff_reflTransGen (hf.heightAtMost hr), hstep]

theorem mem_walk_iff (hr : r < f.size) :
    n ∈ f.walk r ↔ n < f.size ∧ (n = r ∨ r ∈ f.ancestors n) := by
  have hlt : n ∈ f.walk r → n < f.size := fun hn =>
    hf.lt_size_of_mem_listing hr (walk_eq_listing f r ▸ hn)
  rw [← and_iff_right_of_imp hlt]
  refine and_congr_right fun hn => ?_
  rw [hf.mem_walk_iff_reflTransGen hr, hf.mem_ancestors_iff hn]
  exact Relation.reflTransGen_iff_eq_or_transGen

theorem walk_eq (hr : r < f.size) : f.walk r = r :: (f.children r).flatMap f.walk := by
  rw [funext (walk_eq_listing f)]
  exact listing_eq_cons (hf.heightAtMost hr)

end IsForest

/-- A box with a lid and a box in it that holds another one; a fifth box stands by itself. -/
def shelfRun : List Operation :=
  [.newNode boxType, .newNode boxType, .newNode boxType, .newNode boxType, .newNode boxType,
    .addChild 0 "items" 1, .addChild 1 "items" 2, .setChild 0 "lid" (some 3)]

def shelf : Forest := shelfRun.foldl (fun f op => op.edit.stateAfter f) Forest.empty

end Forest

end TreeInterchange
