import TreeInterchange.Proofs.ForestRuns

/-!
# Edits are made as a whole or not at all

Every test of an edit stands before its first change, so an edit that is refused leaves the
forest as it was. This is plain for all edits but one: replacing a collection empties it and
then adds the new children one by one, and each addition tests again. These later tests are
passed whenever the first ones were. What is added was not above the node at the beginning,
and moving such a child below the node gives the node itself no new ancestors.
-/

namespace TreeInterchange

/-- The edit is made, or it is refused and changes nothing. -/
def Edit.AllOrNothing (e : Edit Unit) (f : Forest) : Prop :=
  (∃ err, e f = .error err f) ∨ ∃ g, e f = .ok () g

theorem Edit.AllOrNothing.eq_of_error {e : Edit Unit} {f g : Forest} {err : ModelError}
    (h : e.AllOrNothing f) (he : e f = .error err g) : g = f := by
  obtain ⟨err', h⟩ | ⟨g', h⟩ := h
  · rw [he] at h
    cases h
    rfl
  · rw [he] at h
    cases h

theorem Edit.AllOrNothing.after_check {α : Type} {test : Forest → Except ModelError α} {a : α}
    {k : α → Edit Unit} {f : Forest} (ha : test f = .ok a) (h : (k a).AllOrNothing f) :
    Edit.AllOrNothing (Edit.check test >>= k) f := by
  unfold Edit.AllOrNothing
  rw [StatefulRuns.bind_ok (Edit.check_ok ha)]
  exact h

namespace Forest

variable {f g : Forest} {id c : NodeId} {name : String}

/-- The slot takes the children `cs` in any order: it is a collection, and none of them is the node
itself or above it. -/
structure Receives (f : Forest) (id : NodeId) (name : String) (cs : List NodeId) : Prop where
  collection : ∃ p, (f.get id).type.property? name = some p ∧ p.kind = .child ∧ p.multiple = true
  notAbove : ∀ c ∈ cs, ¬ Relation.ReflTransGen f.IsParent c id

theorem IsForest.receives (hf : f.IsForest) {p : Property} {cs : List NodeId}
    (hp : (f.get id).type.property? name = some p) (hk : p.kind = .child)
    (hm : p.multiple = true) (ha : ∀ c ∈ cs, f.attachable id c = .ok ()) :
    f.Receives id name cs :=
  ⟨⟨p, hp, hk, hm⟩, fun c hc => hf.not_above_of_attachable (lt_size_of_property? hp) (ha c hc)⟩

theorem attachable_of_not_above (h : ¬ Relation.ReflTransGen f.IsParent c id) :
    f.attachable id c = .ok () := by
  rw [attachable_eq_ok]
  refine ⟨?_, fun hc => h (above_of_mem_parentChain hc).to_reflTransGen⟩
  rintro rfl
  exact h .refl

namespace Receives

variable {cs : List NodeId} (h : f.Receives id name cs)
include h

/-- Links that are new lead down to one of the children only, and the way up from the node never
passes there. -/
theorem of_links (htype : ∀ j, (g.get j).type = (f.get j).type)
    (hlink : ∀ p d, g.IsParent p d → d ∈ cs ∨ f.IsParent p d) : g.Receives id name cs := by
  refine ⟨by simpa only [htype] using h.collection, fun c hc hway => h.notAbove c hc ?_⟩
  clear hc
  induction hway using Relation.ReflTransGen.head_induction_on with
  | refl => exact .refl
  | @head a b hab _ ih =>
    rcases hlink a b hab with hb | hab
    · exact absurd ih (h.notAbove b hb)
    · exact .head hab ih

theorem evict (v : Value) : (f.evict id name v).Receives id name cs := by
  apply h.of_links (type_evict v)
  intro p d hd
  refine .inr (isParent_of_holder_eq (fun j => ?_) p d hd)
  rw [holder_evict]
  split
  · exact .inl rfl
  · exact .inr rfl

/-- A child of the list can be added, and the list can still be added afterwards. -/
theorem addChild (hc : c ∈ cs) :
    ∃ g, Forest.addChild id name c f = .ok () g ∧ g.Receives id name cs := by
  obtain ⟨p, hp, hk, hm⟩ := h.collection
  have hattach := attachable_of_not_above (h.notAbove c hc)
  refine ⟨_, addChild_ok hp hk hm hattach, h.of_links (fun j => ?_) fun q d hd => ?_⟩
  · unfold pushChild
    split <;> simp [adopt]
  · by_cases hdc : d = c
    · exact .inl (hdc ▸ hc)
    · right
      have hholder : (((f.adopt id name c).pushChild id name c).get d).holder =
          (f.get d).holder := by
        unfold pushChild
        split <;> simp [adopt, holder_setHolder, holder_detach, hdc]
      rw [isParent_iff] at hd ⊢
      rwa [hholder] at hd

theorem addChildren {ds : List NodeId} (hds : ds ⊆ cs) :
    ∃ g, ds.forM (Forest.addChild id name) f = .ok () g ∧ g.Receives id name cs := by
  induction ds generalizing f with
  | nil => exact ⟨f, rfl, h⟩
  | cons d ds ih =>
    obtain ⟨g, hg, hnext⟩ := h.addChild (hds (List.mem_cons_self ..))
    obtain ⟨g', hrest, hlast⟩ := ih hnext (fun e he => hds (by simp [he]))
    exact ⟨g', (StatefulRuns.forM_cons_ok hg).trans hrest, hlast⟩

end Receives

theorem allOrNothing_setChild (id : NodeId) (name : String) (child : Option NodeId) :
    (setChild id name child).AllOrNothing f := by
  obtain h | ⟨p, hp, hk, hm, ha⟩ := setChild_cases f id name child
  · exact .inl h
  · cases child with
    | none => exact .inr ⟨_, setChild_none_ok hp hk hm⟩
    | some c => exact .inr ⟨_, setChild_some_ok hp hk hm (ha c rfl)⟩

theorem allOrNothing_addChild (id : NodeId) (name : String) (c : NodeId) :
    (addChild id name c).AllOrNothing f := by
  obtain h | ⟨p, hp, hk, hm, ha⟩ := addChild_cases f id name c
  · exact .inl h
  · exact .inr ⟨_, addChild_ok hp hk hm ha⟩

theorem IsForest.allOrNothing_setChildren (hf : f.IsForest) (id : NodeId) (name : String)
    (cs : List NodeId) : (Forest.setChildren id name cs).AllOrNothing f := by
  obtain h | ⟨p, hp, hk, hm, ha⟩ := setChildren_cases f id name cs
  · exact .inl h
  · obtain ⟨g, hg, -⟩ := ((hf.receives hp hk hm ha).evict (.nodes [])).addChildren
      (List.Subset.refl cs)
    exact .inr ⟨g, (setChildren_ok hp hk hm ha).trans hg⟩

theorem allOrNothing_setValue (id : NodeId) (name : String) (v : Value) :
    (setValue id name v).AllOrNothing f := by
  obtain h | ⟨p, hp, hk, hv⟩ := setValue_cases f id name v
  · exact .inl h
  · exact .inr ⟨_, setValue_ok hp hk hv⟩

theorem allOrNothing_test (id : NodeId) (name : String) (kind : PropertyKind) (multiple : Bool)
    (expected : Expectation) (change : Forest → Forest) : Edit.AllOrNothing (do
      let _ ← Edit.check (·.propertyOf id name kind multiple expected)
      modify change) f := by
  cases h : f.propertyOf id name kind multiple expected with
  | error e => exact .inl ⟨e, StatefulRuns.bind_error (Edit.check_error h)⟩
  | ok p => exact .inr ⟨change f, StatefulRuns.bind_ok (Edit.check_ok h)⟩

theorem IsForest.allOrNothing_setProperty (hf : f.IsForest) (id : NodeId) (name : String)
    (v : Value) : (Forest.setProperty id name v).AllOrNothing f := by
  cases hp : f.property id name with
  | error e => exact .inl ⟨e, StatefulRuns.bind_error (Edit.check_error hp)⟩
  | ok p =>
    apply Edit.AllOrNothing.after_check hp
    split
    · exact allOrNothing_setChild id name _
    · exact allOrNothing_setChild id name none
    · exact hf.allOrNothing_setChildren id name _
    · exact hf.allOrNothing_setChildren id name []
    · exact allOrNothing_test id name _ _ _ _
    · exact allOrNothing_test id name _ _ _ _
    · exact allOrNothing_test id name _ _ _ _
    · exact allOrNothing_test id name _ _ _ _
    · exact allOrNothing_setValue id name _
    · exact .inl ⟨_, rfl⟩

theorem IsForest.allOrNothing (hf : f.IsForest) (op : Operation) : op.edit.AllOrNothing f := by
  cases op with
  | newNode t => exact .inr ⟨_, rfl⟩
  | setChild id name child => exact allOrNothing_setChild id name child
  | addChild id name c => exact allOrNothing_addChild id name c
  | setChildren id name cs => exact hf.allOrNothing_setChildren id name cs
  | setValue id name v => exact allOrNothing_setValue id name v
  | setReference id name t => exact allOrNothing_test id name _ _ _ _
  | addReference id name t => exact allOrNothing_test id name _ _ _ _
  | setProperty id name v => exact hf.allOrNothing_setProperty id name v
  | detach id => exact .inr ⟨_, rfl⟩
  | setPosition id p => exact .inr ⟨_, rfl⟩
  | setOrigin id o => exact .inr ⟨_, rfl⟩

/-- An edit that is refused leaves the forest as it was. Replacing a collection is refused by its
first tests only: where these are passed, each of the additions that follow is made, whatever the
ones before it have moved. -/
theorem unchanged_of_refused (h : Reachable f) :
    (∀ (op : Operation) e g, op.edit f = .error e g → g = f) ∧
    ∀ id name cs p, f.propertyOf id name .child true .childCollection = .ok p →
      cs.forM (f.attachable id) = .ok () →
      (∃ g, setChildren id name cs f = .ok () g) ∧
      ∀ done c rest, cs = done ++ c :: rest → ∃ g g',
        done.forM (addChild id name) (f.evict id name (.nodes [])) = .ok () g ∧
        addChild id name c g = .ok () g' := by
  have hf := h.isForest
  refine ⟨fun op e g he => (hf.allOrNothing op).eq_of_error he, fun id name cs p hp ha => ?_⟩
  obtain ⟨hp, hk, hm⟩ := propertyOf_eq_ok.1 hp
  have ha := StatefulRuns.of_forM_tests_ok ha
  have hstart := (hf.receives hp hk hm ha).evict (.nodes [])
  constructor
  · obtain ⟨g, hg, -⟩ := hstart.addChildren (List.Subset.refl cs)
    exact ⟨g, (setChildren_ok hp hk hm ha).trans hg⟩
  · rintro done c rest rfl
    obtain ⟨g, hdone, hg⟩ := hstart.addChildren (List.subset_append_left done (c :: rest))
    obtain ⟨g', hc, -⟩ := hg.addChild (c := c) (by simp)
    exact ⟨g, g', hdone, hc⟩

/-- In the three boxes the second stands below the first: the first cannot be put below the second,
and the collection of the first takes its own children back in any order and number. -/
theorem unchanged_boxes : Reachable boxes ∧
    (∃ e, addChild 1 "items" 0 boxes = .error e boxes) ∧
    boxes.propertyOf 0 "items" .child true .childCollection =
      .ok ⟨"items", .child, .any, true, none⟩ ∧
    [2, 1, 2].forM (boxes.attachable 0) = .ok () ∧
    ∃ g g', [2, 1].forM (addChild 0 "items") (boxes.evict 0 "items" (.nodes [])) = .ok () g ∧
      addChild 0 "items" 2 g = .ok () g' := by
  have hp : boxes.propertyOf 0 "items" .child true .childCollection =
      .ok ⟨"items", .child, .any, true, none⟩ := by decide
  have ha : [2, 1, 2].forM (boxes.attachable 0) = .ok () := by decide
  obtain ⟨hsame, hall⟩ := unchanged_of_refused reachable_boxes
  refine ⟨reachable_boxes, ?_, hp, ha, (hall 0 "items" [2, 1, 2] _ hp ha).2 [2, 1] 2 [] rfl⟩
  cases hrun : addChild 1 "items" 0 boxes with
  | ok u g =>
    have hfails : (addChild 1 "items" 0 boxes matches .error ..) = true := by decide
    rw [hrun] at hfails
    cases hfails
  | error e g => exact ⟨e, by rw [hsame (.addChild 1 "items" 0) e g hrun]⟩

end Forest

end TreeInterchange
