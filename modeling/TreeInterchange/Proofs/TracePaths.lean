import TreeInterchange.Proofs.FragmentAddresses
import TreeInterchange.Proofs.TraceNavigation

/-!
# Paths of trace nodes

The path of a node names features and places in lists one by one, from the root of its tree down to
it; the fragment of the object takes a feature and the place in it together. Both are found by
climbing, the path from parent to parent as far as the root of the tree, the fragment from
container to container as far as the same object, whether or not that one has a container itself.
So they consist of the same steps.

Going down by children leaves out positions and points. Where no feature on the way holds any of
these, the children in a feature are all that it holds, and the path leads back to the node.
-/

namespace TreeInterchange

/-- The step of a fragment as a feature and, if there is one, the place in it. -/
def Segment.steps (g : Segment) : List PathStep := .feature g.feature :: g.place.toList.map .place

/-- A path as the steps of a fragment: a place belongs to the feature before it. No path has a place
without one. -/
def PathStep.segments : List PathStep → List Segment
  | [] => []
  | .feature name :: .place i :: path => ⟨name, some i⟩ :: segments path
  | .feature name :: path => ⟨name, none⟩ :: segments path
  | .place i :: path => ⟨"", some i⟩ :: segments path

/-- The only child in a feature, or the child at a place in it. -/
def TraceNode.child? (n : TraceNode) (g : Segment) : Option TraceNode :=
  match g.place with
  | some i => (n.children (some g.feature))[i]?
  | none =>
    match n.children (some g.feature) with
    | [c] => some c
    | _ => none

/-- The node that a path leads down to. -/
def TraceNode.follow? (n : TraceNode) (path : List PathStep) : Option TraceNode :=
  (PathStep.segments path).foldlM child? n

theorem PathStep.segments_flatMap_steps (gs : List Segment) :
    segments (gs.flatMap Segment.steps) = gs := by
  induction gs with
  | nil => rfl
  | cons g gs ih =>
    obtain ⟨name, _ | i⟩ := g
    -- after a feature without a place comes the next feature, or nothing
    · cases gs with
      | nil => rfl
      | cons d gs => exact congrArg (_ :: ·) ih
    · exact congrArg (_ :: ·) ih

namespace Trace

open ObjectStore

variable {t : Trace} {n : TraceNode} {side : TraceSide} {x p : ObjectId} {feature : String}

theorem container?_of_parent? (h : t.parent? side x = some p) : t.store.container? x = some p := by
  unfold parent? at h
  split at h
  · cases h
  · exact h

theorem pathWithin_of_endsWithin {k l : Nat} (h : t.store.EndsWithin k x) (hkl : k ≤ l) :
    t.pathWithin side l x = t.pathWithin side k x := by
  induction k generalizing x l with
  | zero =>
    cases l with
    | zero => rfl
    | succ l =>
      cases hp : t.parent? side x with
      | none => simp only [pathWithin, hp]
      | some p => cases h.container?_eq_none.symm.trans (container?_of_parent? hp)
  | succ k ih =>
    obtain ⟨l, rfl⟩ : ∃ m, l = m + 1 := ⟨l - 1, by omega⟩
    cases hp : t.parent? side x with
    | none => simp only [pathWithin, hp]
    | some p =>
      have hrest := ih (h.container (container?_of_parent? hp)) (Nat.le_of_succ_le_succ hkl)
      simp only [pathWithin, hp, hrest]

theorem path_eq (h : t.store.Acyclic) (hn : n.trace = t) : n.path =
    match n.parent? with
    | none => []
    | some q => q.path ++ t.stepsInto q.object n.object := by
  subst hn
  rw [TraceNode.path, ← pathWithin_of_endsWithin (h.endsWithin n.object) (Nat.le_succ _)]
  cases hp : n.trace.parent? n.side n.object with
  | none => simp only [pathWithin, TraceNode.parent?, hp, Option.map_none]
  | some p => simp only [pathWithin, TraceNode.parent?, hp, Option.map_some, TraceNode.path]

/-- No node can be asked for its parent, that one for its own and so on for ever. -/
theorem acc_parent (h : t.store.Acyclic) (side : TraceSide) (x : ObjectId) :
    Acc (fun q c : TraceNode => c.parent? = some q) ⟨t, side, x⟩ := by
  induction x using h.wellFounded.induction with
  | h x ih =>
    constructor
    intro q hq
    obtain ⟨p, hp, rfl⟩ := Option.map_eq_some_iff.1 hq
    exact ih p (container?_of_parent? hp)

/-- The step from a container into a feature, as fragments and as paths take it, and what is found
there. -/
theorem exists_stepsInto (h : t.store.Owned) (hx : x ∈ t.store.contentsIn p feature) :
    ∃ g : Segment, g.feature = feature ∧ t.store.segment? ⟨p, feature⟩ x = some g ∧
      t.stepsInto p x = g.steps ∧
      match g.place with
      | some i => (t.store.contentsIn p feature)[i]? = some x
      | none => t.store.contentsIn p feature = [x] := by
  have hfeature : t.store.containingFeature? x = some feature := by
    rw [containingFeature?, h p feature x hx]
    rfl
  obtain ⟨v, hv, hxv⟩ := mem_contentsIn_iff.1 hx
  rw [contentsIn_eq hv]
  cases v with
  | contained c =>
    obtain rfl : x = c := by simpa [FeatureValue.children] using hxv
    exact ⟨⟨feature, none⟩, rfl, by simp [segment?, hv],
      by simp [stepsInto, hfeature, hv, Segment.steps], rfl⟩
  | containedMany ids =>
    replace hxv : x ∈ ids := hxv
    obtain ⟨i, hi⟩ : ∃ i, ids.findIdx? (· = x) = some i :=
      Option.isSome_iff_exists.1 (by simpa [List.findIdx?_isSome] using hxv)
    obtain ⟨hlt, hix, -⟩ := List.findIdx?_eq_some_iff_getElem.1 hi
    refine ⟨⟨feature, some i⟩, rfl, by simp [segment?, hv, hi],
      by simp [stepsInto, hfeature, hv, hi, Segment.steps], ?_⟩
    simpa [FeatureValue.children, List.getElem?_eq_getElem hlt] using hix
  | _ => simp [FeatureValue.children] at hxv

/-- No feature on the way from the root of the tree down to the object holds a position or a
point. -/
def HoldsNodesTo (t : Trace) (side : TraceSide) (x : ObjectId) : Prop :=
  ∀ y p feature, t.store.Above (t.root side) y → Relation.ReflTransGen t.store.IsContainer y x →
    y ∈ t.store.contentsIn p feature →
    ∀ c ∈ t.store.contentsIn p feature, t.isPositional c = false

theorem HoldsNodesTo.container (h : t.HoldsNodesTo side x) (hp : t.store.IsContainer p x) :
    t.HoldsNodesTo side p :=
  fun y q feature habove hbelow => h y q feature habove (hbelow.tail hp)

theorem child?_of_holdsNodes (hx : ∀ c ∈ t.store.contentsIn p feature, t.isPositional c = false)
    {g : Segment} (hg : g.feature = feature)
    (hplace : match g.place with
      | some i => (t.store.contentsIn p feature)[i]? = some x
      | none => t.store.contentsIn p feature = [x]) :
    TraceNode.child? ⟨t, side, p⟩ g = some ⟨t, side, x⟩ := by
  have hall : t.children p (some feature) = t.store.contentsIn p feature :=
    List.filter_eq_self.2 fun c hc => by rw [hx c hc]; rfl
  subst hg
  unfold TraceNode.child?
  split at hplace <;> simp [TraceNode.children, hall, hplace]

theorem Closed.exists_segments (h : t.Closed) (hx : x ∈ t.store.tree (t.root side)) :
    ∃ gs, t.store.segments? (t.root side) x = some gs ∧
      (TraceNode.mk t side x).path = gs.flatMap Segment.steps ∧
      (t.HoldsNodesTo side x →
        gs.foldlM TraceNode.child? (t.rootNode side) = some ⟨t, side, x⟩) := by
  have hacyclic := h.layered.acyclic
  induction x using hacyclic.wellFounded.induction with
  | h x ih =>
  rw [hacyclic.segments?_eq, path_eq hacyclic rfl]
  by_cases hroot : x = t.root side
  · subst hroot
    exact ⟨[], by rw [if_pos rfl], by simp [TraceNode.parent?, parent?], fun _ => rfl⟩
  obtain ⟨p, hp, hcontainer⟩ := h.layered.exists_container_mem_tree hx hroot
  obtain ⟨gs, hgs, hpath, hfollow⟩ := ih p hcontainer hp
  obtain ⟨feature, hmem⟩ := mem_contents_iff.1 (h.layered.mem_contents_iff.2 hcontainer)
  obtain ⟨g, hfeature, hg, hsteps, hplace⟩ := exists_stepsInto h.layered.owned hmem
  have hparent : (TraceNode.mk t side x).parent? = some ⟨t, side, p⟩ := by
    simp [TraceNode.parent?, parent?, hroot, hcontainer]
  refine ⟨gs ++ [g], ?_, ?_, fun hnodes => ?_⟩
  · rw [if_neg hroot, h.layered.owned p feature x hmem]
    simp only [Option.bind_eq_bind, Option.bind_some, hg, hgs]
    rfl
  · rw [hparent, List.flatMap_append, ← hpath]
    simp [hsteps]
  · have habove : t.store.Above (t.root side) x := Relation.TransGen.tail'
      (isWithin_iff_reflTransGen.1 ((h.layered.isWithin_iff_mem_tree (h.present side)).2 hp))
      hcontainer
    rw [List.foldlM_append, hfollow (hnodes.container hcontainer)]
    simpa using child?_of_holdsNodes (hnodes x p feature habove .refl hmem) hfeature hplace

/-- The path of a node agrees with the fragment of its object. Asking for parents comes to an end,
and the path of a node is that of its parent and the steps from there. Written as a fragment it is
the fragment of the object from the root of the tree, and it leads down from the root to the node
where no feature on the way holds positions or points. -/
theorem path_agrees_with_fragment {m : Metamodel} {bytes : ByteArray} (h : ofBytes m bytes = .ok t)
    (hn : t.Shows n) :
    Acc (fun q c : TraceNode => c.parent? = some q) n ∧
    (n.path = match n.parent? with
      | none => []
      | some q => q.path ++ t.stepsInto q.object n.object) ∧
    t.store.fragmentFrom? (t.root n.side) n.object =
      some (Segment.renderPath (PathStep.segments n.path)) ∧
    (t.HoldsNodesTo n.side n.object → (t.rootNode n.side).follow? n.path = some n) := by
  have hclosed := closed_ofBytes h
  have hacyclic := hclosed.layered.acyclic
  obtain ⟨_, side, x⟩ := n
  obtain ⟨rfl, hx⟩ := hn
  obtain ⟨gs, hgs, hpath, hfollow⟩ := hclosed.exists_segments hx
  refine ⟨acc_parent hacyclic side x, path_eq hacyclic rfl, ?_, ?_⟩
  · rw [hpath, PathStep.segments_flatMap_steps, fragmentFrom?, hgs, Option.map_some]
  · rw [TraceNode.follow?, hpath, PathStep.segments_flatMap_steps]
    exact hfollow

/-- An item with a position and two items in it, the second of which has one of its own. -/
def nestedTrace : String :=
  "\x7b\"sourceAST\":\x7b\"eClass\":\"urn:items#//Item\"," ++
      "\"position\":\x7b\"start\":\x7b\"line\":1\x7d\x7d," ++
      "\"items\":[\x7b\x7d,\x7b\"items\":[\x7b\x7d]\x7d]\x7d," ++
    "\"targetAST\":\x7b\"eClass\":\"urn:items#//Item\"\x7d\x7d"

/-- Past the position and into the item in the second item. -/
theorem path_agrees_nestedTrace :
    ∃ t, ofBytes itemModel nestedTrace.toUTF8 = .ok t ∧ t.Shows ⟨t, .source, 6⟩ ∧
      t.HoldsNodesTo .source 6 ∧ t.isPositional 2 = true ∧
      (TraceNode.mk t .source 6).path =
        [.feature "items", .place 1, .feature "items", .place 0] ∧
      t.store.fragmentFrom? (t.root .source) 6 = some "//@items.1/@items.0" ∧
      (t.rootNode .source).follow? [.feature "items", .place 1, .feature "items", .place 0] =
        some ⟨t, .source, 6⟩ := by
  have hloaded : ((ofBytes itemModel nestedTrace.toUTF8).toOption.map fun t =>
      (decide (6 ∈ t.store.tree t.sourceRoot), t.isPositional 2,
        (TraceNode.mk t .source 6).path,
        (t.store.selfAndContainers 6).all fun y => (t.store.get y).container.all fun c =>
          (t.store.contentsIn c.owner c.feature).all (!t.isPositional ·))) =
      some (true, true, [.feature "items", .place 1, .feature "items", .place 0], true) := by
    decide +kernel
  cases ht : ofBytes itemModel nestedTrace.toUTF8 with
  | error e =>
    rw [ht] at hloaded
    cases hloaded
  | ok t =>
    rw [ht] at hloaded
    simp only [Except.toOption, Option.map_some, Option.some.injEq, Prod.mk.injEq] at hloaded
    obtain ⟨hmem, hposition, hpath, hall⟩ := hloaded
    have hshows : t.Shows ⟨t, .source, 6⟩ := ⟨rfl, of_decide_eq_true hmem⟩
    have hnodes : t.HoldsNodesTo .source 6 := by
      intro y p feature _ hbelow hy c hc
      have hwithin := of_decide_eq_true (isWithin_iff_reflTransGen.2 hbelow)
      have hslot := List.all_eq_true.1 hall y hwithin
      rw [(closed_ofBytes ht).layered.owned p feature y hy] at hslot
      simpa using List.all_eq_true.1 hslot c hc
    obtain ⟨-, -, hfragment, hfollow⟩ := path_agrees_with_fragment ht hshows
    rw [hpath] at hfragment hfollow
    exact ⟨t, rfl, hshows, hnodes, hposition, hpath, hfragment, hfollow hnodes⟩

end Trace

end TreeInterchange
