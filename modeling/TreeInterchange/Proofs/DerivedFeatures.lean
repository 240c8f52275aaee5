import TreeInterchange.Proofs.ObjectConformity
import TreeInterchange.Proofs.TreeConvertibility
import TreeInterchange.Proofs.UnambiguousFeatures

/-!
# What the classes of a derived package can hold

The way up from a class of a derived package stays within the package until it ends at the class
of all nodes. So all features of such a class come from properties of types or are built in,
and a document can carry them if it can carry the names of the properties. A value that fits a
property has the form that the feature of the property asks for.
-/

namespace TreeInterchange

namespace Value

def isList : Value → Bool
  | .list _ => true
  | _ => false

def isFinite : Value → Bool
  | .real x => x.isFinite
  | .list items => items.all fun
    | .real x => x.isFinite
    | _ => true
  | _ => true

theorem isFinite_depict (φ : NodeId → ObjectId) (v : Value) :
    (v.depict φ).isFinite = v.isFinite := by
  cases v with
  | list items =>
    rw [depict, FeatureValue.isFinite, isFinite, List.all_map]
    congr 1
    funext i
    cases i <;> rfl
  | _ => rfl

end Value

namespace Derivation

variable {c : TypeCatalog} {package uri : String} {t : NodeType}

/-- Names that a document of objects can carry. -/
structure Writable (c : TypeCatalog) (package uri : String) : Prop where
  uri : '#' ∉ uri.toList
  types : ∀ {t}, c.get? t.name = some t → t.name.package = package →
    t.name.name ≠ "" ∧ '/' ∉ t.name.name.toList
  properties : ∀ {t}, c.get? t.name = some t → t.name.package = package → ∀ p ∈ t.properties,
    '/' ∉ p.name.toList ∧ '.' ∉ p.name.toList ∧ '#' ∉ p.name.toList ∧ p.name ≠ "eClass"

theorem class?_model_ast (hu : uri ≠ TreeInterchange.astUri) (name : String) :
    (model c package uri).class? (.ast name) = Builtin.astPackage.class? name := by
  rw [Metamodel.class?, ClassifierRef.ast, package?_model_ast hu]
  rfl

theorem features_model_ast (hu : uri ≠ TreeInterchange.astUri) {name : String} {d : ClassDecl}
    (hd : Builtin.astPackage.class? name = some d) (hs : d.supertypes = [])
    (hn : (d.features.map (·.name)).Nodup) :
    (model c package uri).features (.ast name) = .ok d.features := by
  apply Metamodel.features_of_root _ hs hn
  rw [class?_model_ast hu, hd]

theorem mem_supertypes_classOf {s : ClassifierRef} (h : s ∈ (classOf c package uri t).supertypes) :
    s.uri = uri ∨ s = .ast "ASTNode" := by
  rw [supertypes_classOf, List.mem_cons, List.mem_map] at h
  rcases h with rfl | ⟨tag, htag, rfl⟩
  · cases parent? c package t with
    | none => exact .inr rfl
    | some s => exact .inl rfl
  · left
    rw [classFor, if_pos (by simpa using (List.mem_filter.1 htag).2)]

/-- The way up from a class of the package leads to classes of the package and to the class of all
nodes. -/
theorem inherits_model (hc : c.Named) (hu : uri ≠ TreeInterchange.astUri) {x y : ClassifierRef}
    (hx : x.uri = uri) (h : (model c package uri).Inherits x y) :
    y.uri = uri ∨ y = .ast "ASTNode" := by
  induction h with
  | refl => exact .inl hx
  | @tail y z _ hz ih =>
    rw [Metamodel.supertypes] at hz
    cases hd : (model c package uri).class? y with
    | none =>
      rw [hd] at hz
      cases hz
    | some d =>
      rw [hd] at hz
      rcases ih with hy | rfl
      · obtain ⟨t, -, -, -, rfl⟩ := class?_model_eq_some hc hy hd
        exact mem_supertypes_classOf hz
      · rw [Metamodel.requireClass_eq_ok.1 (requireClass_model_ast hu), Option.some.injEq] at hd
        subst hd
        cases hz

theorem writable_featureOf (hw : Writable c package uri) (ht : c.get? t.name = some t)
    (hp : t.name.package = package) {p : Property} (hpt : p ∈ t.properties) :
    (featureOf package uri p).Writable := by
  rw [Feature.writable_iff, name_featureOf]
  exact hw.properties ht hp p hpt

theorem writable_features_model (hc : c.Named) (hu : uri ≠ TreeInterchange.astUri)
    (hw : Writable c package uri) {x : ClassifierRef} (hx : x.uri = uri) {fs : List Feature}
    (h : (model c package uri).features x = .ok fs) : ∀ f ∈ fs, f.Writable := by
  obtain ⟨os, hos, rfl⟩ := Metamodel.features_eq_ok.1 h
  intro f hf
  obtain ⟨o, ho, rfl⟩ := List.mem_map.1 hf
  obtain ⟨hin, d, hd, hmem⟩ := Metamodel.hasFeature_of_mem hos ho
  rcases inherits_model hc hu hx hin with howner | howner
  · obtain ⟨t, ht, hp, -, rfl⟩ := class?_model_eq_some hc howner hd
    rw [features_classOf] at hmem
    obtain ⟨p, hpt, hpf⟩ := List.mem_map.1 hmem
    rw [← hpf]
    exact writable_featureOf hw ht hp (List.mem_of_mem_filter hpt)
  · rw [howner, Metamodel.requireClass_eq_ok.1 (requireClass_model_ast hu), Option.some.injEq] at hd
    subst hd
    have hall : ∀ f ∈ Builtin.nodeClass.features, f.Writable := by decide
    exact hall _ hmem

theorem writable_classRef (hw : Writable c package uri) (ht : c.get? t.name = some t)
    (hp : t.name.package = package) : ClassifierRef.Writable ⟨uri, t.name.name⟩ :=
  ⟨hw.uri, (hw.types ht hp).1, (hw.types ht hp).2⟩

theorem name_of_mem_features {g : Feature} (h : g ∈ (classOf c package uri t).features) :
    ∃ p ∈ t.properties, p.name = g.name := by
  rw [features_classOf] at h
  obtain ⟨p, hp, rfl⟩ := List.mem_map.1 h
  exact ⟨p, List.mem_of_mem_filter hp, (name_featureOf p).symm⟩

theorem position_featuresWithin (hc : c.WellKept) (hu : uri ≠ TreeInterchange.astUri) {steps : Nat}
    {path : List ClassifierRef} {os : List OwnedFeature} (ht : c.get? t.name = some t)
    (hp : t.name.package = package) (hno : ∀ p ∈ t.properties, p.name ≠ "position")
    (h : (model c package uri).featuresWithin steps path ⟨uri, t.name.name⟩ = .ok os) :
    (OwnedFeature.named? os "position").map (·.feature) =
      some (Builtin.contained "position" "Position") := by
  induction steps generalizing path t os with
  | zero => cases h
  | succ steps ih =>
    obtain ⟨-, d, inherited, hd, hin, rfl⟩ := Metamodel.featuresWithin_succ h
    rw [requireClass_model hc.toNamed ht hp, Except.ok.injEq] at hd
    subst hd
    rw [supertypes_classOf] at hin
    obtain ⟨first, rest, hfirst, rfl⟩ := Metamodel.mapM_featuresWithin_cons hin
    have hown : (classOf c package uri t).features.reverse.find? (·.name = "position") = none := by
      rw [List.find?_eq_none]
      intro g hg hname
      obtain ⟨p, hpt, hpg⟩ := name_of_mem_features (List.mem_reverse.1 hg)
      exact hno p hpt (hpg.trans (by simpa using hname))
    have habove : (OwnedFeature.named? first "position").map (·.feature) =
        some (Builtin.contained "position" "Position") := by
      cases hs : parent? c package t with
      | none =>
        rw [hs] at hfirst
        exact position_featuresWithin_ast hu hfirst
      | some s =>
        obtain ⟨hsget, hspack, hinh⟩ := parent?_eq_some hc ht hs
        rw [hs] at hfirst
        refine ih hsget hspack (fun p hps => ?_) hfirst
        obtain ⟨source, hpt⟩ := hinh p hps
        exact hno { p with source? := source } hpt
    obtain ⟨o, ho, hof⟩ := Option.map_eq_some_iff.1 habove
    rw [OwnedFeature.named?_combine, hown, List.flatten_cons]
    simp only [OwnedFeature.named?, List.find?_append] at ho ⊢
    rw [ho]
    simpa using hof

theorem stores_depictScalar {type : PropertyType} {v : Value} (h : type.fits c v = true) :
    (attributeType uri type).stores v.depictScalar = true := by
  cases type with
  | enumeration name =>
    cases v with
    | enumeration e => rfl
    | _ => cases h
  | data d => cases d <;> cases v <;> first | rfl | cases h
  | any => cases v <;> first | rfl | cases h
  | node name => cases v <;> first | rfl | cases h

theorem holds_featureOf (φ : NodeId → ObjectId) {p : Property} {v : Value} (ha : p.Admits v)
    (hfits : p.kind = .value → p.fits c v = true)
    (hlist : p.kind = .value → p.multiple = false → v.isList = false) (hnull : v.isNull = false) :
    (featureOf package uri p).holds (v.depict φ) = true := by
  have hkind := @kind_featureOf package uri p
  have hmany := @isMany_featureOf package uri p
  rcases ha.of_not_null hnull with ⟨hk, hflat⟩ | ⟨hk, hshape⟩ | ⟨hk, hshape⟩
  · have htype := @type_featureOf package uri p hk
    have hfits := hfits hk
    have hlist := hlist hk
    rw [hk] at hkind
    have hscalar : p.type.fits c v = true →
        (featureOf package uri p).holds v.depictScalar = true := by
      intro hv
      apply ObjectDocument.holds_of_stores hkind
      rw [htype]
      exact stores_depictScalar hv
    cases v with
    | null => cases hnull
    | list items =>
      have hmultiple : p.multiple = true := by
        cases hm : p.multiple with
        | true => rfl
        | false => cases hlist hm
      simp only [Value.depict, Feature.holds, hkind, hmany, hmultiple, Bool.true_and,
        List.all_eq_true, Bool.or_eq_true]
      intro w hw
      obtain ⟨i, hi, rfl⟩ := List.mem_map.1 hw
      rw [htype]
      exact .inr (stores_depictScalar (List.all_eq_true.1 hfits i hi))
    | string s => exact hscalar ((Bool.and_eq_true _ _).mp hfits).2
    | integer n => exact hscalar ((Bool.and_eq_true _ _).mp hfits).2
    | real x => exact hscalar ((Bool.and_eq_true _ _).mp hfits).2
    | boolean b => exact hscalar ((Bool.and_eq_true _ _).mp hfits).2
    | enumeration e => exact hscalar ((Bool.and_eq_true _ _).mp hfits).2
    | _ => cases hflat
  · rw [hk] at hkind
    rcases hshape with ⟨hm, d, rfl⟩ | ⟨hm, ds, rfl⟩ <;>
      simp [Value.depict, Feature.holds, hkind, hmany, hm]
  · rw [hk] at hkind
    rcases hshape with ⟨hm, d, rfl⟩ | ⟨hm, ds, rfl⟩ <;>
      simp [Value.depict, Feature.holds, hkind, hmany, hm]

end Derivation

end TreeInterchange
