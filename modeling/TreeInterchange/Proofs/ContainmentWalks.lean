import TreeInterchange.Proofs.FragmentAddresses
import TreeInterchange.Proofs.TreeWalks

/-!
# Walks up and down a containment tree

Whether an object lies within another can be found out in three ways: by climbing from container to
container, by going down through contents, and by asking for the fragment. In a store that calls
have made and where nothing contains itself they give the same answer. Objects name the feature
that lists them as their container, so each step down is undone by a step up; and since no way up
is longer than the store is large, no way down is.

Both walks end. The walk up keeps one object and goes on to its container. The walk down keeps a
stack, gives each object before its contents, and gives no object twice, unless a value that it
comes by names an object twice.
-/

namespace TreeInterchange.ObjectStore

variable {s : ObjectStore} {root x : ObjectId}

/-- A step of the walk up: the object is given, and the walk goes on to its container. -/
def climbStep (s : ObjectStore) : Option ObjectId → Option (Option ObjectId × Option ObjectId)
  | none => none
  | some id => some (some id, s.container? id)

/-- A step of the walk down: the top object is given, and its contents are pushed in its place. -/
def walkStep (s : ObjectStore) : List ObjectId → Option (Option ObjectId × List ObjectId) :=
  downStep s.contents

theorem EndsWithin.yields_containerChain {n : Nat} (h : s.EndsWithin n x) :
    Yields s.climbStep (some x) (s.containerChain n x) := by
  induction n generalizing x with
  | zero =>
    have hstep : s.climbStep (some x) = some (some x, none) := by
      rw [climbStep, h.container?_eq_none]
    exact .give hstep (.done rfl)
  | succ n ih =>
    unfold containerChain
    split
    · rename_i p hp
      exact .give (by rw [climbStep, hp]) (ih (h.container hp))
    · rename_i hp
      exact .give (by rw [climbStep, hp]) (.done rfl)

theorem isContainer_eq (ho : s.Owned) (hl : s.Listed) :
    (fun p c => c ∈ s.contents p) = s.IsContainer := by
  funext p c
  exact propext (mem_contents_iff_container? ho hl)

/-- A tree is no higher than its store is large, even if objects are listed more than once. -/
theorem Acyclic.heightAtMost (h : s.Acyclic) (ho : s.Owned) (hl : s.Listed) (hroot : root < s.size) :
    HeightAtMost s.contents s.size root := by
  refine heightAtMost_of_unique hroot (fun _ _ hc => lt_size_of_mem_contents ho hc)
    (fun _ _ _ hp hq => ho.owner_unique hp hq) ?_
  rw [isContainer_eq ho hl]
  exact h

/-- The tree of an object is whatever ways of containers lead up from to the object. -/
theorem Acyclic.mem_tree_iff (h : s.Acyclic) (ho : s.Owned) (hl : s.Listed) (hroot : root < s.size) :
    x ∈ s.tree root ↔ Relation.ReflTransGen s.IsContainer root x := by
  rw [tree_eq_listing, mem_listing_iff_reflTransGen (h.heightAtMost ho hl hroot),
    isContainer_eq ho hl]

theorem Acyclic.isWithin_iff_mem_tree (h : s.Acyclic) (ho : s.Owned) (hl : s.Listed)
    (hroot : root < s.size) : s.isWithin root x = true ↔ x ∈ s.tree root :=
  isWithin_iff_reflTransGen.trans (h.mem_tree_iff ho hl hroot).symm

theorem Acyclic.nodup_tree_iff (h : s.Acyclic) (ho : s.Owned) (hl : s.Listed)
    (hroot : root < s.size) :
    (s.tree root).Nodup ↔ ∀ p ∈ s.tree root, ∀ f, (s.contentsIn p f).Nodup := by
  rw [tree_eq_listing,
    nodup_listing_iff (fun _ _ _ hp hq => ho.owner_unique hp hq) (h.heightAtMost ho hl hroot)]
  exact forall₂_congr fun p _ => ho.nodup_contents_iff_contentsIn

/-- In a store that calls have made and where nothing contains itself, the walk up, the walk down
and the fragments agree on what lies within an object of the store. Both walks end; the walk down
gives each object before the trees of its contents, and it gives no object twice just when no value
in the tree names an object twice. -/
theorem walks_up_and_down_agree (hs : s.Reachable) (h : s.Acyclic) (hroot : root < s.size) :
    (∀ o, (s.isWithin root o = true ↔ o ∈ s.tree root) ∧
      (o ∈ s.tree root ↔ (s.fragmentFrom? root o).isSome = true) ∧
      (o ∈ s.tree root ↔ Relation.ReflTransGen s.IsContainer root o) ∧
      Yields s.climbStep (some o) (s.selfAndContainers o)) ∧
    Yields s.walkStep [root] (s.tree root) ∧
    s.tree root = root :: (s.contents root).flatMap s.tree ∧
    ((s.tree root).Nodup ↔ ∀ p ∈ s.tree root, ∀ f, (s.contentsIn p f).Nodup) := by
  have hheight := h.heightAtMost hs.owned hs.listed hroot
  have hwithin : ∀ o, s.isWithin root o = true ↔ o ∈ s.tree root := fun o =>
    h.isWithin_iff_mem_tree hs.owned hs.listed hroot
  refine ⟨fun o => ⟨hwithin o, ?_, h.mem_tree_iff hs.owned hs.listed hroot,
    (h.endsWithin o).yields_containerChain⟩, ?_, ?_, h.nodup_tree_iff hs.owned hs.listed hroot⟩
  · rw [fragmentFrom?, Option.isSome_map, h.isSome_segments? hs.listed, hwithin]
  · rw [tree_eq_listing]
    exact yields_listing hheight
  · rw [funext s.tree_eq_listing]
    exact listing_eq_cons hheight

/-- A chest with two boxes, one with a lid that has moved to it from the other, and a third box that
stands by itself. -/
def attic : ObjectStore :=
  let s := ((ObjectStore.empty.newObject default).2.newObject default).2
  let s := (((s.newObject default).2.newObject default).2.newObject default).2
  ((s.set 1 "lid" (.contained 3)).set 0 "boxes" (.containedMany [1, 2])).set 2 "lid" (.contained 3)

theorem reachable_attic : attic.Reachable := by
  have two := (Reachable.empty.newObject default (by decide)).newObject default (by decide)
  have four := (two.newObject default (by decide)).newObject default (by decide)
  have five := four.newObject default (by decide)
  have closed := five.set 1 "lid" (.contained 3) (by decide) (by decide)
  have filled := closed.set 0 "boxes" (.containedMany [1, 2]) (by decide) (by decide)
  exact filled.set 2 "lid" (.contained 3) (by decide) (by decide)

theorem walks_up_and_down_agree_attic : attic.Reachable ∧ attic.Acyclic ∧ 0 < attic.size ∧
    (attic.isWithin 0 3 = true ∧ (attic.fragmentFrom? 0 3).isSome = true) ∧
    attic.isWithin 0 4 = false ∧
    Yields attic.climbStep (some 3) [3, 2, 0] ∧ Yields attic.walkStep [0] [0, 1, 2, 3] ∧
    (attic.tree 0).Nodup := by
  have hacyclic : attic.Acyclic := acyclic_of_lt (by decide)
  have hroot : 0 < attic.size := by decide
  have htree : attic.tree 0 = [0, 1, 2, 3] := by decide
  obtain ⟨hall, hdown, -, honce⟩ := walks_up_and_down_agree reachable_attic hacyclic hroot
  obtain ⟨hwithin, hfragment, -, hup⟩ := hall 3
  have hin : 3 ∈ attic.tree 0 := by rw [htree]; decide
  have hout : attic.isWithin 0 4 = false := by
    rw [Bool.eq_false_iff, ne_eq, (hall 4).1, htree]
    decide
  have hvalues : ∀ p ∈ attic.tree 0, (attic.contents p).Nodup := by rw [htree]; decide
  exact ⟨reachable_attic, hacyclic, hroot, ⟨hwithin.2 hin, hfragment.1 hin⟩, hout, hup, htree ▸ hdown,
    honce.2 fun p hp => reachable_attic.owned.nodup_contents_iff_contentsIn.1 (hvalues p hp)⟩

end TreeInterchange.ObjectStore
