import TreeInterchange.Forest.Comparison
import TreeInterchange.Proofs.ConversionToNodes

/-!
# Trees come back from their objects

A tree that is converted to objects, and back into any forest, comes back as a copy: the two
walks meet corresponding nodes in the same order, with the same types, positions and plain
values, and children and references lead to corresponding nodes. In particular a comparison
finds no difference.
-/

namespace TreeInterchange

/-- Below `ψ n` one forest has a copy of what another has below `n`, with `ψ y` for `y`. -/
structure Forest.IsCopy (f : Forest) (n : NodeId) (g : Forest) (ψ : NodeId → NodeId) : Prop where
  injective : ∀ y ∈ f.walk n, ∀ z ∈ f.walk n, ψ y = ψ z → y = z
  walk : g.walk (ψ n) = (f.walk n).map ψ
  type : ∀ y ∈ f.walk n, (g.get (ψ y)).type = (f.get y).type
  position : ∀ y ∈ f.walk n, g.position (ψ y) = f.position y
  slots : ∀ y ∈ f.walk n, ∀ name, g.slot? (ψ y) name = (f.slot? y name).map (Value.rename ψ)

namespace Value

theorem same_self_of_fits {c : TypeCatalog} {t : PropertyType} {v : Value}
    (h : t.fits c v = true) : v.same v = true := by
  cases v with
  | real x =>
    have hnan : x.isNaN = false := by
      cases t with
      | data d => cases d <;> simp_all [PropertyType.fits]
      | _ => simp_all [PropertyType.fits]
    simp [same, Binary64.same, hnan]
  | string s => simp [same]
  | integer n => simp [same]
  | boolean b => simp [same]
  | enumeration e => simp [same]
  | _ =>
    cases t with
    | data d => cases d <;> cases h
    | _ => cases h

theorem sameList_self {items : List Value} (h : ∀ i ∈ items, i.same i = true) :
    sameList items items = true := by
  induction items with
  | nil => rfl
  | cons i items ih =>
    rw [sameList, h i (by simp), ih fun j hj => h j (by simp [hj])]
    rfl

theorem same_self {c : TypeCatalog} {p : Property} {v : Value} (h : p.fits c v = true) :
    v.same v = true := by
  cases v with
  | null => rfl
  | list items =>
    rw [same]
    exact sameList_self fun i hi => same_self_of_fits (List.all_eq_true.1 h i hi)
  | _ => exact same_self_of_fits ((Bool.and_eq_true _ _).mp h).2

end Value

namespace Forest.IsCopy

variable {f g : Forest} {n : NodeId} {ψ : NodeId → NodeId}

theorem childrenIn (h : f.IsCopy n g ψ) {y : NodeId} (hy : y ∈ f.walk n) (name : String) :
    g.childrenIn (ψ y) name = (f.childrenIn y name).map ψ := by
  rw [Forest.childrenIn, h.slots y hy]
  cases hv : f.slot? y name with
  | none => simp [Forest.childrenIn, hv]
  | some v => simp [Forest.childrenIn, hv, Value.children_rename]

theorem pairs_ok {compare : String → NodeView → NodeView → Except Mismatch Unit} {p : Property}
    {path : String} {ds : List NodeId} (h : ∀ d ∈ ds, ∀ path, compare path ⟨f, d⟩ ⟨g, ψ d⟩ = .ok ())
    (index : Nat) : Comparison.pairs compare path p index (ds.map fun id => ⟨f, id⟩)
      ((ds.map ψ).map fun id => ⟨g, id⟩) = .ok () := by
  induction ds generalizing index with
  | nil => rfl
  | cons d ds ih =>
    simp only [List.map_cons, Comparison.pairs, h d (by simp)]
    exact ih (fun e he => h e (by simp [he])) (index + 1)

theorem property_ok (h : f.IsCopy n g ψ) (hf : f.IsForest) {c : TypeCatalog} {package : String}
    (hn : Convertible c package f n) {y : NodeId} (hy : y ∈ f.walk n) {p : Property}
    (hp : p ∈ (f.get y).type.properties)
    {compare : String → NodeView → NodeView → Except Mismatch Unit}
    (hchild : ∀ d ∈ f.childrenIn y p.name, ∀ path, compare path ⟨f, d⟩ ⟨g, ψ d⟩ = .ok ())
    (path : String) : Comparison.property compare path ⟨f, y⟩ ⟨g, ψ y⟩ p = .ok () := by
  have hlt : y < f.size := by
    rw [walk_eq_listing] at hy
    exact hf.lt_size_of_mem_listing hn.present hy
  obtain ⟨v, hv⟩ : ∃ v, f.slot? y p.name = some v := by
    apply Table.mem_keys_iff.1
    rw [hf.names y hlt]
    exact List.mem_map_of_mem hp
  have hleft : (NodeView.mk f y).slot p.name = v := by
    show (f.slot? y p.name).getD .null = v
    rw [hv, Option.getD_some]
  have hright : (NodeView.mk g (ψ y)).slot p.name = v.rename ψ := by
    show (g.slot? (ψ y) p.name).getD .null = v.rename ψ
    rw [h.slots y hy, hv, Option.map_some, Option.getD_some]
  unfold Comparison.property
  cases hk : p.kind with
  | child =>
    simp only [NodeView.childrenIn, h.childrenIn hy, List.length_map, ne_eq, not_true_eq_false,
      if_false]
    exact pairs_ok hchild 0
  | reference =>
    have htypes :
        (NodeView.mk f y).targetTypes p.name = (NodeView.mk g (ψ y)).targetTypes p.name := by
      simp only [NodeView.targetTypes, hleft, hright, Value.targets_rename, List.map_map]
      apply List.map_congr_left
      intro d hd
      rw [Function.comp_apply, h.type d (hn.references y hy p.name v hv d hd)]
    simp [htypes]
  | value =>
    have hflat : v.holdsNodes = false := by
      simpa [Property.Admits, hk] using hf.shapes y hlt p hp v hv
    have hsame : v.rename ψ = v := by cases v <;> simp_all [Value.rename, Value.holdsNodes]
    simp [hleft, hright, hsame, Value.same_self (hn.values y hy p hp hk v hv)]

/-- Comparing a tree with its copy finds no difference, at any depth. -/
theorem trees_ok (h : f.IsCopy n g ψ) (hf : f.IsForest) {c : TypeCatalog} {package : String}
    (hn : Convertible c package f n) (k : Nat) {y : NodeId} (hy : y ∈ f.walk n) (path : String) :
    Comparison.trees true k path ⟨f, y⟩ ⟨g, ψ y⟩ = .ok () := by
  induction k generalizing y path with
  | zero => rfl
  | succ k ih =>
    have hbelow : ∀ d ∈ f.children y, d ∈ f.walk n := by
      rw [walk_eq_listing] at hy ⊢
      exact fun d hd => next_subset_listing (hf.heightAtMost hn.present) hy hd
    have htype : (NodeView.mk g (ψ y)).node.type = (NodeView.mk f y).node.type := h.type y hy
    have hposition : (NodeView.mk f y).position = (NodeView.mk g (ψ y)).position :=
      (h.position y hy).symm
    simp only [Comparison.trees, htype, hposition, ne_eq, not_true_eq_false, and_false, if_false]
    refine StatefulRuns.forM_tests_ok fun p hp =>
      h.property_ok hf hn hy hp (fun d hd path => ?_) path
    exact ih (hbelow d (mem_children_iff.2 ⟨p.name, hd⟩)) path

end Forest.IsCopy

theorem Forest.position_eq {g : Forest} {j : NodeId} (h : (g.get j).origin = none) :
    g.position j = (g.get j).position := by
  rw [Forest.position, Forest.positionWithin, h]
  cases (g.get j).position <;> rfl

namespace ToNodes.Mirrors

variable {f g : Forest} {ψ : NodeId → Nat} {y : NodeId}

theorem slot? (h : Mirrors f ψ (Value.rename ψ) g y) (name : String) :
    g.slot? (ψ y) name = (f.slot? y name).map (Value.rename ψ) := by
  cases hv : f.slot? y name with
  | some v => exact h.slots name v hv
  | none =>
    have hkey : name ∉ (g.get (ψ y)).slots.keys := by
      rw [h.names]
      exact Table.get?_eq_none_iff.1 hv
    exact Table.get?_eq_none_iff.2 hkey

theorem children (h : Mirrors f ψ (Value.rename ψ) g y) :
    g.children (ψ y) = (f.children y).map ψ := by
  rw [Forest.children_eq, Forest.children_eq, h.names, List.map_flatMap]
  apply List.flatMap_congr
  intro name _
  rw [Forest.childrenIn, h.slot?, Forest.childrenIn]
  cases f.slot? y name with
  | none => rfl
  | some v => exact Value.children_rename ψ v

end ToNodes.Mirrors

/-- Nodes that mirror a tree are a copy of it. -/
theorem Forest.isCopy_of_mirrors {f g : Forest} {n : NodeId} {ψ : NodeId → Nat} (hf : f.IsForest)
    (hn : n < f.size) (hψ : ∀ y ∈ f.walk n, ∀ z ∈ f.walk n, ψ y = ψ z → y = z)
    (hroom : (f.walk n).length ≤ g.size)
    (h : ∀ y ∈ f.walk n, ToNodes.Mirrors f ψ (Value.rename ψ) g y) : f.IsCopy n g ψ := by
  have hheight := hf.heightAtMost hn
  have hin : ∀ k, listing f.children k n ⊆ f.walk n := by
    rw [walk_eq_listing]
    exact listing_subset_of_height hheight
  have hlow : HeightAtMost f.children (f.walk n).length n :=
    heightAtMost_of_nodup (hf.nodup_listing _ n) (hin _)
  have hchildren : ∀ k, ∀ y ∈ listing f.children k n, g.children (ψ y) = (f.children y).map ψ :=
    fun k y hy => (h y (hin k hy)).children
  refine ⟨hψ, ?_, fun y hy => (h y hy).type, fun y hy => ?_, fun y hy => (h y hy).slot?⟩
  · rw [walk_eq_listing g, listing_eq_of_height (hlow.map ψ (hchildren _)) hroom,
      listing_map ψ (hchildren _), listing_unique hlow hheight, ← walk_eq_listing]
  · rw [position_eq (h y hy).origin, (h y hy).position]

namespace Conversion

variable {f : Forest} {c : TypeCatalog} {package uri : String} {n : NodeId} {s t : ObjectStore}
  {o : ObjectId}

/-- A tree that is converted to objects comes back from them as a copy, in any forest, whose own
nodes stay as they are; comparing the two, with positions, finds no difference. -/
theorem toNodes_toObjects_isCopy (hf : f.Reachable) (hc : c.Defined)
    (hu : Derivation.Fresh package uri) (hn : Convertible c package f n)
    (h : f.toObjects n (Derivation.model c package uri) .default s = (.ok o, t)) (g : Forest) :
    ∃ ψ g', t.toNodes o (Derivation.model c package uri) c .default g = (.ok (ψ n), g') ∧
      NodeView.compare ⟨f, n⟩ ⟨g', ψ n⟩ true = .ok () ∧ f.IsCopy n g' ψ ∧
      (∀ y ∈ f.walk n, g.size ≤ ψ y) ∧ ∀ j < g.size, g'.get j = g.get j := by
  obtain ⟨φ, rfl, hφ, hroom, hshows⟩ :=
    ToObjects.shows_toObjects hc.wellKept hu hf.isForest hn h
  obtain ⟨ψ, g', hrun, hψ, hsize, hnew, hkept, hmirrors⟩ :=
    ToNodes.mirrors_toNodes hf.isForest hn hφ hroom hshows g
  have hcopy : f.IsCopy n g' ψ :=
    Forest.isCopy_of_mirrors hf.isForest hn.present hψ (by omega) hmirrors
  have hroot : n ∈ f.walk n := by
    rw [Forest.walk_eq_listing]
    exact self_mem_listing (hf.isForest.heightAtMost hn.present)
  exact ⟨ψ, g', hrun, hcopy.trees_ok hf.isForest hn f.size hroot "<root>", hcopy, hnew, hkept⟩

def seasonType : EnumType := ⟨⟨"garden", "Season"⟩, ["dry", "wet"]⟩

def growthType : NodeType :=
  { NodeType.ofName ⟨"garden", "Growth"⟩ with
    properties := [⟨"label", .value, .data .string, false, none⟩,
      ⟨"seasons", .value, .enumeration seasonType.name, true, none⟩] }

/-- A supertype, an enumeration, and properties of every kind. -/
def plantType : NodeType :=
  { NodeType.ofName ⟨"garden", "Plant"⟩ with
    properties := [⟨"stem", .child, .any, false, none⟩, ⟨"leaves", .child, .any, true, none⟩,
      ⟨"near", .reference, .any, false, none⟩, ⟨"shades", .reference, .any, true, none⟩]
  }.extending growthType

def gardenCatalog : TypeCatalog :=
  ((TypeCatalog.initial.registerEnum seasonType).put growthType).put plantType

theorem defined_gardenCatalog : gardenCatalog.Defined := by
  obtain ⟨c, hc⟩ : ∃ c, c = TypeCatalog.initial.registerEnum seasonType := ⟨_, rfl⟩
  have hdefine : c.define growthType = .ok (growthType, c.put growthType) := by rw [hc]; rfl
  have hdefine' : (c.put growthType).define plantType = .ok (plantType, gardenCatalog) := by
    rw [hc]; rfl
  have h₁ : c.Defined := hc ▸ .registerEnum .initial seasonType
  have h₂ : (c.put growthType).Defined := .define h₁ (fun s hs => by cases hs) hdefine
  refine .define h₂ (fun s hs => ?_) hdefine'
  cases hs
  exact ⟨growthType, by rw [hc]; rfl, NodeType.inherits_extending _ _⟩

/-- A bed with two leaves, one of which has a stem; references go up, down and across. -/
def gardenRun : List Forest.Operation :=
  [.newNode plantType, .newNode growthType, .newNode plantType, .newNode growthType,
    .setValue 0 "label" (.string "bed"),
    .setValue 2 "seasons" (.list [.enumeration ⟨⟨"garden", "Season"⟩, "wet", 1⟩]),
    .setChildren 0 "leaves" [2, 1], .setChild 2 "stem" (some 3),
    .addReference 2 "shades" 3, .addReference 2 "shades" 0, .setReference 0 "near" (some 2),
    .setPosition 1 (some ⟨⟨1, 0⟩, ⟨1, 5⟩⟩)]

def garden : Forest := gardenRun.foldl (fun f op => op.edit.stateAfter f) Forest.empty

theorem typesIn_gardenCatalog : gardenCatalog.typesIn "garden" = [growthType, plantType] := by
  have hfilter : gardenCatalog.nodeTypes.values.filter (·.name.package = "garden") =
      [growthType, plantType] := by decide
  rw [TypeCatalog.typesIn, hfilter]
  exact List.mergeSort_of_pairwise (by decide)

theorem enumsIn_gardenCatalog : gardenCatalog.enumsIn "garden" = [seasonType] := by
  have hfilter : gardenCatalog.enumTypes.values.filter (·.name.package = "garden") =
      [seasonType] := by decide
  rw [TypeCatalog.enumsIn, hfilter, List.mergeSort_singleton]

theorem packageOf_gardenCatalog : Derivation.packageOf gardenCatalog "garden" "urn:garden" =
    (Package.ofName "garden" "urn:garden").addAll
      [.enumDecl ⟨"Season", ["dry", "wet"]⟩,
        .classDecl (Derivation.classOf gardenCatalog "garden" "urn:garden" growthType),
        .classDecl (Derivation.classOf gardenCatalog "garden" "urn:garden" plantType)] := by
  rw [Derivation.packageOf, typesIn_gardenCatalog, enumsIn_gardenCatalog]
  rfl

theorem toObjects_garden : ∃ t, garden.toObjects 0 (Derivation.model gardenCatalog "garden"
    "urn:garden") .default .empty = (.ok 0, t) := by
  have hroot : (garden.toObjects 0 (Derivation.model gardenCatalog "garden" "urn:garden") .default
      .empty).1.toOption = some 0 := by
    rw [Derivation.model, packageOf_gardenCatalog]
    decide +kernel
  exact ⟨_, Prod.ext (StatefulRuns.toOption_eq_some_iff.1 hroot) rfl⟩

theorem reachable_garden : garden.Reachable :=
  Forest.Reachable.empty.after gardenRun (by decide) (by decide)

theorem convertible_garden : Convertible gardenCatalog "garden" garden 0 := by
  have htypes : ∀ y ∈ garden.walk 0, (garden.get y).type ∈ [growthType, plantType] := by decide
  have hvalues : ∀ y ∈ garden.walk 0, ∀ p ∈ (garden.get y).type.properties, p.kind = .value →
      (garden.slot? y p.name).all (p.fits gardenCatalog) = true := by decide
  have hrefs : ∀ y ∈ garden.walk 0, ∀ e ∈ (garden.get y).slots.entries, ∀ t ∈ e.2.targets,
      t ∈ garden.walk 0 := by decide
  refine ⟨by decide, by decide, by decide, fun y hy p hp name hname => ?_,
    fun y hy p hp hk v hv => ?_,
    fun y hy name v hv => hrefs y hy _ (Table.get?_eq_some_iff.1 hv)⟩
  · have henum : ∀ t ∈ [growthType, plantType], ∀ p ∈ t.properties,
        p.type = .enumeration seasonType.name ∨ p.type = .any ∨ p.type = .data .string := by decide
    rcases henum _ (htypes y hy) p hp with h | h | h <;> rw [h] at hname <;> cases hname
    exact ⟨rfl, seasonType, rfl, by decide⟩
  · have hall := hvalues y hy p hp hk
    rwa [hv] at hall

theorem toNodes_toObjects_garden : garden.Reachable ∧ gardenCatalog.Defined ∧
    Derivation.Fresh "garden" "urn:garden" ∧ Convertible gardenCatalog "garden" garden 0 ∧
    ∃ t, garden.toObjects 0 (Derivation.model gardenCatalog "garden" "urn:garden") .default .empty =
        (.ok 0, t) ∧
      ∃ ψ g', t.toNodes 0 (Derivation.model gardenCatalog "garden" "urn:garden") gardenCatalog
          .default garden = (.ok (ψ 0), g') ∧
        NodeView.compare ⟨garden, 0⟩ ⟨g', ψ 0⟩ true = .ok () ∧ garden.IsCopy 0 g' ψ ∧
        (∀ y ∈ garden.walk 0, garden.size ≤ ψ y) ∧ ∀ j < garden.size, g'.get j = garden.get j := by
  have hfresh : Derivation.Fresh "garden" "urn:garden" := by constructor <;> decide
  obtain ⟨t, ht⟩ := toObjects_garden
  exact ⟨reachable_garden, defined_gardenCatalog, hfresh, convertible_garden, t, ht,
    toNodes_toObjects_isCopy reachable_garden defined_gardenCatalog hfresh convertible_garden ht
      garden⟩

end Conversion

end TreeInterchange
