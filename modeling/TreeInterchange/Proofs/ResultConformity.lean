import TreeInterchange.Proofs.ContainmentTrees
import TreeInterchange.Proofs.DerivedFeatures
import TreeInterchange.Proofs.ResultObjects

/-!
# The objects of a result conform

The objects of a result hold later objects only: those of the tree are numbered downwards, and the
objects of a position or an issue follow their owner. All of them have the values that their
classes ask for, so a document can hold the whole result.
-/

namespace TreeInterchange

open ToObjects

section Stored

variable {t : ObjectStore} {x : Nat} {g : String} {v : FeatureValue}

theorem ToObjects.PointAt.stored {p : Point} (h : PointAt t x p) (hv : t.value? x g = some v) :
    (g = "line" ∨ g = "column") ∧ ∃ n, v = .integer n := by
  rw [h.values] at hv
  grind

theorem ToObjects.PositionAt.stored {p : Position} (h : PositionAt t x p)
    (hv : t.value? x g = some v) :
    g = "start" ∧ v = .contained (x + 1) ∨ g = "end" ∧ v = .contained (x + 2) := by
  rw [h.values] at hv
  grind

theorem IssueAt.stored {i : Issue} (h : IssueAt t x i) (hv : t.value? x g = some v) :
    (g = "type" ∨ g = "severity") ∧ (∃ n, v = .enumeration n) ∨
      g = "message" ∧ (∃ m, v = .string m) ∨
      g = "position" ∧ v = .contained (x + 1) ∧ ∃ p, PositionAt t (x + 1) p := by
  have hposition := h.position
  rw [h.values] at hv
  cases hp : i.position <;> grind

theorem ResultAt.stored {r : TreeResult} {f : Forest} {m : Metamodel} {uri : String}
    {φ : NodeId → Nat} {ids : List Nat} (h : ResultAt r f m uri φ ids t x)
    (hv : t.value? x g = some v) :
    g = "root" ∧ (∃ n ∈ r.root, v = .contained (φ n)) ∨ g = "issues" ∧ v = .containedMany ids := by
  rw [h.values] at hv
  cases hroot : r.root <;> grind

theorem ToObjects.Shows.stored {m : Metamodel} {f : Forest} {uri : String} {φ : NodeId → Nat}
    {y : NodeId} (h : Shows m f uri φ (fullView φ) t y) (hv : t.value? (φ y) g = some v) :
    g = "position" ∧ v = .contained (φ y + 1) ∧ (∃ p, PositionAt t (φ y + 1) p) ∨
      g ≠ "position" ∧ ∃ w, f.slot? y g = some w ∧ w.isNull = false ∧ v = w.depict φ := by
  by_cases hg : g = "position"
  · left
    subst hg
    have hshown := h.position
    unfold ShowsPosition at hshown
    split at hshown
    · exact ⟨rfl, Option.some.inj (hv.symm.trans hshown.1), _, hshown.2⟩
    · rw [hshown] at hv
      cases hv
  · right
    rw [h.values g hg, Option.bind_eq_some_iff] at hv
    obtain ⟨w, hw, hwv⟩ := hv
    unfold fullView at hwv
    split at hwv
    · cases hwv
    · rename_i hnull
      exact ⟨hg, w, hw, by simpa using hnull, (Option.some.inj hwv).symm⟩

end Stored

section Builtin

variable {c : TypeCatalog} {package uri : String} {t : ObjectStore} {x : Nat}

theorem objectConforms_ast (name : String) {d : ClassDecl} (hu : uri ≠ astUri)
    (hd : Builtin.astPackage.class? name = some d) (hs : d.supertypes = [])
    (hn : (d.features.map (·.name)).Nodup) (hw : ∀ f ∈ d.features, f.Writable)
    (hclass : (ClassifierRef.ast name).Writable) (htype : (t.get x).type = .ast name)
    (hstored : ∀ g v, t.value? x g = some v →
      ∃ f ∈ d.features, f.name = g ∧ f.holds v = true ∧ v.isFinite = true) :
    ∃ fs, t.ObjectConforms (Derivation.model c package uri) x fs := by
  refine ⟨d.features, ?_, hstored, by rwa [htype], hw⟩
  rw [htype]
  exact Derivation.features_model_ast hu hd hs hn

theorem ToObjects.PointAt.objectConforms {p : Point} (h : PointAt t x p) (hu : uri ≠ astUri) :
    ∃ fs, t.ObjectConforms (Derivation.model c package uri) x fs := by
  refine objectConforms_ast "Point" hu rfl rfl (by decide) (by decide) (by decide) h.type
    fun g v hv => ?_
  obtain ⟨rfl | rfl, n, rfl⟩ := h.stored hv
  · exact ⟨_, .head _, rfl, rfl, rfl⟩
  · exact ⟨_, .tail _ (.head _), rfl, rfl, rfl⟩

theorem ToObjects.PositionAt.objectConforms {p : Position} (h : PositionAt t x p)
    (hu : uri ≠ astUri) : ∃ fs, t.ObjectConforms (Derivation.model c package uri) x fs := by
  refine objectConforms_ast "Position" hu rfl rfl (by decide) (by decide) (by decide) h.type
    fun g v hv => ?_
  obtain ⟨rfl, rfl⟩ | ⟨rfl, rfl⟩ := h.stored hv
  · exact ⟨_, .head _, rfl, rfl, rfl⟩
  · exact ⟨_, .tail _ (.head _), rfl, rfl, rfl⟩

theorem IssueAt.objectConforms {i : Issue} (h : IssueAt t x i) (hu : uri ≠ astUri) :
    ∃ fs, t.ObjectConforms (Derivation.model c package uri) x fs := by
  refine objectConforms_ast "Issue" hu rfl rfl (by decide) (by decide) (by decide) h.type
    fun g v hv => ?_
  obtain ⟨rfl | rfl, n, rfl⟩ | ⟨rfl, m, rfl⟩ | ⟨rfl, rfl, -⟩ := h.stored hv
  · exact ⟨_, .head _, rfl, rfl, rfl⟩
  · exact ⟨_, .tail _ (.tail _ (.head _)), rfl, rfl, rfl⟩
  · exact ⟨_, .tail _ (.head _), rfl, rfl, rfl⟩
  · exact ⟨_, .tail _ (.tail _ (.tail _ (.head _))), rfl, rfl, rfl⟩

theorem ResultAt.objectConforms {r : TreeResult} {f : Forest} {m : Metamodel} {φ : NodeId → Nat}
    {ids : List Nat} (h : ResultAt r f m uri φ ids t x) (hu : uri ≠ astUri) :
    ∃ fs, t.ObjectConforms (Derivation.model c package uri) x fs := by
  refine objectConforms_ast "Result" hu rfl rfl (by decide) (by decide) (by decide) h.type
    fun g v hv => ?_
  obtain ⟨rfl, n, -, rfl⟩ | ⟨rfl, rfl⟩ := h.stored hv
  · exact ⟨_, .head _, rfl, rfl, rfl⟩
  · exact ⟨_, .tail _ (.head _), rfl, rfl, rfl⟩

end Builtin

/-- A tree with values that a document can hold: no list where there is room for one value, and
no real that is not finite. -/
structure Documentable (f : Forest) (n : NodeId) : Prop where
  single : ∀ y ∈ f.walk n, ∀ p ∈ (f.get y).type.properties, p.kind = .value →
    p.multiple = false → ∀ v, f.slot? y p.name = some v → v.isList = false
  finite : ∀ y ∈ f.walk n, ∀ name v, f.slot? y name = some v → v.isFinite = true

section Nodes

variable {c : TypeCatalog} {package uri : String} {f : Forest} {φ : NodeId → Nat} {n y : NodeId}
  {t : ObjectStore}

theorem ToObjects.Shows.objectConforms
    (h : Shows (Derivation.model c package uri) f uri φ (fullView φ) t y) (hc : c.WellKept)
    (hu : Derivation.Fresh package uri) (hw : Derivation.Writable c package uri) (hf : f.IsForest)
    (hn : Convertible c package f n) (hd : Documentable f n) (hy : y ∈ f.walk n) :
    ∃ fs, t.ObjectConforms (Derivation.model c package uri) (φ y) fs := by
  have hready := ready_of_convertible hf hn hy
  obtain ⟨os, hos⟩ := h.features
  have hfs : (Derivation.model c package uri).features (classRef f uri y) =
      .ok (os.map (·.feature)) := Metamodel.features_eq_ok.2 ⟨os, hos, rfl⟩
  refine ⟨os.map (·.feature), by rw [h.type, hfs], fun g v hv => ?_, ?_, ?_⟩
  · rcases h.stored hv with ⟨rfl, rfl, -⟩ | ⟨-, w, hw, hnull, rfl⟩
    · have hposition := Derivation.position_featuresWithin hc hu.astUri hready.registered
        hready.inPackage (hn.noPosition y hy) hos
      obtain ⟨o, ho, hof⟩ := Option.map_eq_some_iff.1 hposition
      refine ⟨o.feature, List.mem_map_of_mem (List.mem_of_find?_eq_some ho), ?_⟩
      rw [hof]
      exact ⟨rfl, rfl, rfl⟩
    · obtain ⟨p, hp, rfl, -, hfits⟩ := hready.slots g w hw
      have hfind := (Derivation.find?_features_model hc hu hready.registered hready.inPackage
        hfs).1 p hp
      refine ⟨_, List.mem_of_find?_eq_some hfind, Derivation.name_featureOf p, ?_, ?_⟩
      · exact Derivation.holds_featureOf φ hfits.admits hfits.fits
          (fun hk hm => hd.single y hy p hp hk hm w hw) hnull
      · rw [Value.isFinite_depict]
        exact hd.finite y hy p.name w hw
  · rw [h.type]
    exact Derivation.writable_classRef hw hready.registered hready.inPackage
  · exact Derivation.writable_features_model hc.toNamed hu.astUri hw rfl hfs

end Nodes

theorem Value.targets_depict (φ : NodeId → ObjectId) (v : Value) :
    (v.depict φ).targets = v.targets.map φ := by
  cases v <;> rfl

/-- The objects that a result with the object `o` is made of. -/
inductive IsPart (r : TreeResult) (f : Forest) (φ : NodeId → Nat) (t : ObjectStore) (o : Nat) :
    Nat → Prop
  | result : IsPart r f φ t o o
  | node {n y : NodeId} (hn : n ∈ r.root) (hy : y ∈ f.walk n) : IsPart r f φ t o (φ y)
  | issue {x : Nat} {i : Issue} (h : IssueAt t x i) : IsPart r f φ t o x
  | position {x : Nat} {p : Position} (h : PositionAt t x p) : IsPart r f φ t o x
  | point {x : Nat} {p : Point} (h : PointAt t x p) : IsPart r f φ t o x

namespace ResultAt

variable {c : TypeCatalog} {package uri : String} {r : TreeResult} {f : Forest} {φ : NodeId → Nat}
  {ids : List Nat} {t : ObjectStore} {o : Nat}

theorem exists_issueAt {m : Metamodel} (h : ResultAt r f m uri φ ids t o) {x : Nat}
    (hx : x ∈ ids) : ∃ i, IssueAt t x i := by
  obtain ⟨i, -, hi⟩ := StatefulRuns.exists_of_mem_forall₂ h.issues hx
  exact ⟨i, hi⟩

theorem ascends {m : Metamodel} (h : ResultAt r f m uri φ ids t o) (hf : f.IsForest)
    (hr : ∀ n ∈ r.root, n < f.size) : t.Ascends (IsPart r f φ t o) := by
  intro x hx g v hv
  cases hx with
  | result =>
    obtain ⟨rfl, n, hn, rfl⟩ | ⟨rfl, rfl⟩ := h.stored hv
    · have hwalk := hf.self_mem_walk (hr n hn)
      have hb := (h.numbered n hn).bounds hwalk
      refine ⟨List.nodup_singleton _, fun d hd => ?_⟩
      rw [List.mem_singleton.1 hd]
      exact ⟨.node hn hwalk, hb.1⟩
    · refine ⟨h.nodup, fun d hd => ?_⟩
      obtain ⟨i, hi⟩ := h.exists_issueAt hd
      exact ⟨.issue hi, h.after d hd⟩
  | @node n y hn hy =>
    obtain ⟨rfl, rfl, p, hp⟩ | ⟨-, w, hw, -, rfl⟩ := (h.nodes n hn y hy).stored hv
    · refine ⟨List.nodup_singleton _, fun d hd => ?_⟩
      rw [List.mem_singleton.1 hd]
      exact ⟨.position hp, Nat.lt_succ_self _⟩
    -- a walk meets a child after its parent, so the object of the child has a later place
    · have hheight := hf.heightAtMost (hr n hn)
      have hnum := h.numbered n hn
      rw [Forest.walk_eq_listing] at hy hnum
      have hdown : ∀ d ∈ w.children, d ∈ f.children y := fun d hd =>
        Forest.mem_children_iff.2 ⟨g, Forest.mem_childrenIn_iff.2 ⟨w, hw, hd⟩⟩
      have hin : ∀ d ∈ w.children, d ∈ listing f.children f.size n := fun d hd =>
        next_subset_listing hheight hy (hdown d hd)
      rw [Value.children_depict]
      refine ⟨?_, fun e he => ?_⟩
      · have hnodup : w.children.Nodup := by
          rw [← Forest.childrenIn_eq hw]
          exact hf.once y g
        exact hnodup.map_on fun a ha b hb hab =>
          List.inj_on_of_nodup_map (hnum.nodup_map cost_pos) (hin a ha) (hin b hb) hab
      · obtain ⟨d, hd, rfl⟩ := List.mem_map.1 he
        have hle := hnum.le_of_mem_next hheight hy (hdown d hd)
        have hpos := cost_pos (f := f) y
        exact ⟨.node hn (Forest.walk_eq_listing f n ▸ hin d hd), by omega⟩
  | issue hi =>
    obtain ⟨-, k, rfl⟩ | ⟨-, k, rfl⟩ | ⟨-, rfl, p, hp⟩ := hi.stored hv
    · exact ⟨List.nodup_nil, by simp [FeatureValue.children]⟩
    · exact ⟨List.nodup_nil, by simp [FeatureValue.children]⟩
    · refine ⟨List.nodup_singleton _, fun d hd => ?_⟩
      rw [List.mem_singleton.1 hd]
      exact ⟨.position hp, Nat.lt_succ_self _⟩
  | position hp =>
    obtain ⟨-, rfl⟩ | ⟨-, rfl⟩ := hp.stored hv
    · refine ⟨List.nodup_singleton _, fun d hd => ?_⟩
      rw [List.mem_singleton.1 hd]
      exact ⟨.point hp.first, Nat.lt_succ_self _⟩
    · refine ⟨List.nodup_singleton _, fun d hd => ?_⟩
      rw [List.mem_singleton.1 hd]
      exact ⟨.point hp.last, by omega⟩
  | point hp =>
    obtain ⟨-, k, rfl⟩ := hp.stored hv
    exact ⟨List.nodup_nil, by simp [FeatureValue.children]⟩

theorem exists_target {m : Metamodel} (h : ResultAt r f m uri φ ids t o)
    (hr : ∀ n ∈ r.root, Convertible c package f n) {x z : Nat} (hx : IsPart r f φ t o x)
    {g : String} {v : FeatureValue} (hv : t.value? x g = some v) (hz : z ∈ v.targets) :
    ∃ n ∈ r.root, ∃ d ∈ f.walk n, z = φ d := by
  cases hx with
  | result => obtain ⟨-, n, -, rfl⟩ | ⟨-, rfl⟩ := h.stored hv <;> cases hz
  | @node n y hn hy =>
    obtain ⟨-, rfl, -⟩ | ⟨-, w, hw, -, rfl⟩ := (h.nodes n hn y hy).stored hv
    · cases hz
    · rw [Value.targets_depict] at hz
      obtain ⟨d, hd, rfl⟩ := List.mem_map.1 hz
      exact ⟨n, hn, d, (hr n hn).references y hy g w hw d hd, rfl⟩
  | issue hi => obtain ⟨-, k, rfl⟩ | ⟨-, k, rfl⟩ | ⟨-, rfl, -⟩ := hi.stored hv <;> cases hz
  | position hp => obtain ⟨-, rfl⟩ | ⟨-, rfl⟩ := hp.stored hv <;> cases hz
  | point hp =>
    obtain ⟨-, k, rfl⟩ := hp.stored hv
    cases hz

theorem mem_contents_of_mem_children {m : Metamodel} (h : ResultAt r f m uri φ ids t o)
    (hf : f.IsForest) (hr : ∀ n ∈ r.root, Convertible c package f n) {n y d : NodeId}
    (hn : n ∈ r.root) (hy : y ∈ f.walk n) (hd : d ∈ f.children y) : φ d ∈ t.contents (φ y) := by
  obtain ⟨name, hname⟩ := Forest.mem_children_iff.1 hd
  obtain ⟨w, hw, hdw⟩ := Forest.mem_childrenIn_iff.1 hname
  obtain ⟨p, -, -, hne, -⟩ := (ready_of_convertible hf (hr n hn) hy).slots name w hw
  have hnull : w.isNull = false := by
    cases w <;> simp_all [Value.children, Value.isNull]
  have hvalue : t.value? (φ y) name = some (w.depict φ) := by
    rw [(h.nodes n hn y hy).values name hne, hw]
    simp [fullView, hnull]
  refine ObjectStore.mem_contents_iff.2 ⟨name, ?_⟩
  rw [ObjectStore.contentsIn_eq hvalue, Value.children_depict]
  exact List.mem_map_of_mem hdw

theorem node_mem_tree {m : Metamodel} (h : ResultAt r f m uri φ ids t o) (ho : t.Owned)
    (hf : f.IsForest) (hr : ∀ n ∈ r.root, Convertible c package f n) {n y : NodeId}
    (hn : n ∈ r.root) (hy : y ∈ f.walk n) : φ y ∈ t.tree o := by
  have hroot : φ n ∈ t.contents o := by
    have hvalue : t.value? o "root" = some (.contained (φ n)) := by
      rw [h.values, if_pos rfl, Option.mem_def.1 hn]
      rfl
    refine ObjectStore.mem_contents_iff.2 ⟨"root", ?_⟩
    rw [ObjectStore.contentsIn_eq hvalue]
    exact List.mem_singleton.2 rfl
  have hwalk : φ y ∈ listing t.contents f.size (φ n) := by
    rw [Forest.walk_eq_listing] at hy
    refine mem_listing_map φ (fun z hz d hd => ?_) hy
    exact h.mem_contents_of_mem_children hf hr hn (Forest.walk_eq_listing f n ▸ hz) hd
  exact (h.ascends hf fun n hn => (hr n hn).present).mem_tree ho .result h.present
    (mem_listing_succ.2 (.inr ⟨φ n, hroot, hwalk⟩))

/-- A document can hold the objects of a result. -/
theorem conforms (h : ResultAt r f (Derivation.model c package uri) uri φ ids t o) (ho : t.Owned)
    (hc : c.WellKept) (hu : Derivation.Fresh package uri) (hw : Derivation.Writable c package uri)
    (hf : f.IsForest) (hr : ∀ n ∈ r.root, Convertible c package f n ∧ Documentable f n) :
    t.Conforms (Derivation.model c package uri) o := by
  have hconv : ∀ n ∈ r.root, Convertible c package f n := fun n hn => (hr n hn).1
  have hup := h.ascends hf fun n hn => (hconv n hn).present
  refine ⟨h.present, hup.nodup_preorder ho .result, fun x hx => ?_, fun x hx g v hv z hz => ?_⟩
  · cases hup.of_mem_tree .result hx with
    | result => exact h.objectConforms hu.astUri
    | @node n y hn hy =>
      exact (h.nodes n hn y hy).objectConforms hc hu hw hf (hr n hn).1 (hr n hn).2 hy
    | issue hi => exact hi.objectConforms hu.astUri
    | position hp => exact hp.objectConforms hu.astUri
    | point hp => exact hp.objectConforms hu.astUri
  · obtain ⟨n, hn, d, hd, rfl⟩ := h.exists_target hconv (hup.of_mem_tree .result hx) hv hz
    exact h.node_mem_tree ho hf hconv hn hd

end ResultAt

end TreeInterchange
