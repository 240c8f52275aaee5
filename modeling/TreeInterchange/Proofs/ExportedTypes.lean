import TreeInterchange.Proofs.DerivedPackages
import TreeInterchange.Proofs.SupertypeOrders

/-!
# Node types that come back from their package

A package that is derived from a catalog describes node types by classes, which declare only
what they do not inherit. Deriving node types from this package gives the same types again,
provided the types stay within the package: they extend types of the package, and their
properties name types and enumerations of the package only.

The argument follows the supertypes upwards. The features of a class that are not built in are
those of all properties of its type, in the order of the properties, because the inherited
ones come first and no own property has the name of an inherited one.
-/

namespace TreeInterchange

namespace OwnedFeature

theorem combine_single {c : ClassifierRef} {first : List OwnedFeature} {own : List Feature}
    (hfirst : (names first).Nodup) (hown : (own.map (·.name)).Nodup) :
    combine c [first] own =
      first.filter (fun o => o.feature.name ∉ own.map (·.name)) ++ own.map fun f => ⟨c, f⟩ := by
  rw [combine_eq, List.flatten_singleton, firstOfEachName_eq_self hfirst,
    lastOfEachName_eq_self hown]

/-- The features that are not built in. -/
def foreign (os : List OwnedFeature) : List Feature :=
  (os.filter (·.owner.uri ≠ astUri)).map (·.feature)

theorem foreign_combine {c : ClassifierRef} {first : List OwnedFeature} {own : List Feature}
    (hfirst : (names first).Nodup) (hown : (own.map (·.name)).Nodup) (hc : c.uri ≠ astUri)
    (hnew : ∀ f ∈ foreign first, f.name ∉ own.map (·.name)) :
    foreign (combine c [first] own) = foreign first ++ own := by
  have hkept : (first.filter fun o => o.feature.name ∉ own.map (·.name)).filter
      (·.owner.uri ≠ astUri) = first.filter (·.owner.uri ≠ astUri) := by
    rw [List.filter_filter]
    apply List.filter_congr
    intro o ho
    by_cases hast : o.owner.uri = astUri
    · simp [hast]
    · have hmem : o.feature ∈ foreign first :=
        List.mem_map_of_mem (List.mem_filter.2 ⟨ho, by simpa using hast⟩)
      simpa [hast] using hnew o.feature hmem
  have hall : (own.map fun f => (⟨c, f⟩ : OwnedFeature)).filter (·.owner.uri ≠ astUri) =
      own.map fun f => ⟨c, f⟩ := by
    rw [List.filter_eq_self]
    intro o ho
    obtain ⟨f, -, rfl⟩ := List.mem_map.1 ho
    simpa using hc
  rw [foreign, combine_single hfirst hown, List.filter_append, List.map_append, hkept, hall,
    List.map_map]
  exact congrArg _ (List.map_id own)

end OwnedFeature

theorem Metamodel.nodup_featuresWithin {m : Metamodel} {c : ClassifierRef} {steps : Nat}
    {path : List ClassifierRef} {os : List OwnedFeature}
    (h : m.featuresWithin steps path c = .ok os) : (OwnedFeature.names os).Nodup := by
  cases steps with
  | zero => cases h
  | succ steps =>
    obtain ⟨-, d, inherited, -, -, rfl⟩ := featuresWithin_succ h
    exact OwnedFeature.nodup_combine c inherited d.features

/-- The type of a property names nothing outside the package; values are plain and children and
references are nodes. -/
def Property.staysIn (package : String) (p : Property) : Bool :=
  match p.kind, p.type with
  | .value, .any => true
  | .value, .data _ => true
  | .value, .enumeration name => name.package = package
  | .value, .node _ => false
  | _, .any => true
  | _, .node name => name.package = package
  | _, _ => false

namespace TypeCatalog

/-- A type without a supertype, or one that extends a registered type of the package, which is
rooted as well. -/
inductive Rooted (c : TypeCatalog) (package : String) : NodeType → Prop
  | root {t : NodeType} (h : t.supertype = none) : Rooted c package t
  | extending {parent : NodeType} (base : NodeType) (hget : c.get? parent.name = some parent)
      (hp : parent.name.package = package) (h : Rooted c package parent) :
      Rooted c package (base.extending parent)

/-- What the types of a package must be like to be described by classes of one package. -/
structure SelfContained (c : TypeCatalog) (package : String) : Prop where
  tags : ∀ {t}, c.get? t.name = some t → t.name.package = package → t.tags = []
  sources : ∀ {t}, c.get? t.name = some t → t.name.package = package →
    ∀ p ∈ t.properties, p.source? = none
  supertype : ∀ {t}, c.get? t.name = some t → t.name.package = package → Rooted c package t
  types : ∀ {t}, c.get? t.name = some t → t.name.package = package →
    ∀ p ∈ t.properties, p.staysIn package = true
  free : ∀ {name}, name.package = package → (c.enum? name).isSome = true → c.get? name = none

theorem get?_initial {name : QualifiedName} (h : name.package ≠ builtinPackage) :
    TypeCatalog.initial.get? name = none := by
  have hall : ∀ k ∈ TypeCatalog.initial.nodeTypes.keys, k.package = builtinPackage := by decide
  exact Table.get?_eq_none_iff.2 fun hk => h (hall name hk)

theorem Rooted.cases_parent {c : TypeCatalog} {package : String} {t : NodeType}
    (h : Rooted c package t) :
    (t.supertype = none ∧ Derivation.parent? c package t = none) ∨
      ∃ parent own, t.supertype = some parent.name ∧
        Derivation.parent? c package t = some parent ∧ c.get? parent.name = some parent ∧
        parent.name.package = package ∧ Rooted c package parent ∧
        t.properties = parent.properties ++ own := by
  cases h with
  | root h => exact .inl ⟨h, by simp [Derivation.parent?, h]⟩
  | @extending parent base hget hp h =>
    refine .inr ⟨parent, base.properties, rfl, ?_, hget, hp, h, rfl⟩
    simp [Derivation.parent?, NodeType.extending, hget, hp, Option.filter]

end TypeCatalog

namespace Derivation

variable {c catalog : TypeCatalog} {package uri : String} {t : NodeType}

theorem typeName_model {name : QualifiedName} (hp : name.package = package) :
    typeName (model c package uri) ⟨uri, name.name⟩ = .ok name := by
  rw [typeName, qualifiedName_model hp]
  rfl

theorem targetType_model (hu : uri ≠ TreeInterchange.astUri) {name : QualifiedName}
    (hp : name.package = package) :
    targetType (model c package uri) (classFor package uri name) = .ok (.node name) := by
  have hast : ClassifierRef.isAstNode ⟨uri, name.name⟩ = false := by
    simp [ClassifierRef.isAstNode, ClassifierRef.ast, hu]
  rw [targetType, classFor, if_pos hp, hast, typeName_model hp]
  rfl

theorem propertyOf_link {m : Metamodel} {x : ClassifierRef} {name : String} {kind : FeatureKind}
    {k : PropertyKind} {type : PropertyType} (multiple : Bool)
    (hk : (kind, k) = (.containment, .child) ∨ (kind, k) = (.reference, .reference))
    (hx : targetType m x = .ok type) :
    propertyOf m (if multiple then (Feature.single name kind (.ofClass x)).many
      else Feature.single name kind (.ofClass x)) = .ok ⟨name, k, type, multiple, none⟩ := by
  rcases hk with hk | hk <;> obtain ⟨rfl, rfl⟩ := Prod.mk.inj hk <;> cases multiple <;>
    simp [propertyOf, Feature.single, Feature.many, Feature.isMany, FeatureType.classifier, hx,
      bind, Except.bind, pure, Except.pure]

theorem propertyOf_featureOf (hu : uri ≠ TreeInterchange.astUri) {p : Property}
    (hp : p.staysIn package = true) (hs : p.source? = none) :
    propertyOf (model c package uri) (featureOf package uri p) = .ok p := by
  obtain ⟨name, kind, type, multiple, source⟩ := p
  obtain rfl : source = none := hs
  cases kind with
  | value =>
    cases type with
    | any => cases multiple <;> rfl
    | data d => cases d <;> cases multiple <;> rfl
    | node target => cases hp
    | enumeration target =>
      have htarget : target.package = package := of_decide_eq_true hp
      cases multiple <;>
        simp [featureOf, attributeType, propertyOf, Feature.single, Feature.many, Feature.isMany,
          typeName_model htarget, bind, Except.bind, pure, Except.pure]
  | child =>
    cases type with
    | any => exact propertyOf_link multiple (.inl rfl) rfl
    | node target =>
      exact propertyOf_link multiple (.inl rfl) (targetType_model hu (of_decide_eq_true hp))
    | data d => cases hp
    | enumeration target => cases hp
  | reference =>
    cases type with
    | any => exact propertyOf_link multiple (.inr rfl) rfl
    | node target =>
      exact propertyOf_link multiple (.inr rfl) (targetType_model hu (of_decide_eq_true hp))
    | data d => cases hp
    | enumeration target => cases hp

theorem filter_append_new {ps own : List Property} (hn : ((ps ++ own).map (·.name)).Nodup) :
    (ps ++ own).filter (fun p => (ps.find? (·.name = p.name)).isNone) = own := by
  rw [List.map_append, List.nodup_append] at hn
  have hold : ps.filter (fun p => (ps.find? (·.name = p.name)).isNone) = [] := by
    rw [List.filter_eq_nil_iff]
    intro p hp hnone
    rw [Option.isNone_iff_eq_none, List.find?_eq_none] at hnone
    exact hnone p hp (by simp)
  have hnew : own.filter (fun p => (ps.find? (·.name = p.name)).isNone) = own := by
    rw [List.filter_eq_self]
    intro p hp
    rw [Option.isNone_iff_eq_none, List.find?_eq_none]
    intro q hq hqp
    exact hn.2.2 _ (List.mem_map_of_mem hq) _ (List.mem_map_of_mem hp) (by simpa using hqp)
  rw [List.filter_append, hold, hnew, List.nil_append]

/-- What a type adds to the properties of its parent is what its class declares. -/
theorem features_of_append {parent : NodeType} {own : List Property}
    (hn : (t.properties.map (·.name)).Nodup) (hparent : parent? c package t = some parent)
    (happ : t.properties = parent.properties ++ own) :
    (classOf c package uri t).features = own.map (featureOf package uri) := by
  rw [happ] at hn
  rw [features_classOf, hparent, happ]
  simp only [Option.any_some, NodeType.property?, Option.not_isSome]
  rw [filter_append_new hn]

theorem eq_completed (hn : (t.properties.map (·.name)).Nodup) (htags : t.tags = [])
    (h : c.Rooted package t) {base : NodeType}
    (hbase : base = { NodeType.ofName t.name with isAbstract := t.isAbstract })
    {u : NodeType} (hu : u = ((parent? c package t).map base.extending).getD base) :
    { u with properties := u.properties ++
        t.properties.filter (fun p => (u.property? p.name).isNone) } = t := by
  obtain ⟨name, isAbstract, supertype, tags, properties⟩ := t
  obtain rfl : tags = [] := htags
  rcases h.cases_parent with ⟨hsuper, hnone⟩ | ⟨parent, own, hsuper, hparent, -, -, -, happ⟩
  · obtain rfl : supertype = none := hsuper
    rw [hnone] at hu
    subst hu hbase
    simp [NodeType.ofName, NodeType.property?]
  · obtain rfl : supertype = some parent.name := hsuper
    obtain rfl : properties = parent.properties ++ own := happ
    rw [hparent] at hu
    subst hu hbase
    simp only [NodeType.ofName, NodeType.extending, NodeType.property?, Option.map_some,
      Option.getD_some, List.append_nil]
    rw [filter_append_new hn]

section SelfContained

variable (hc : c.Named) (hself : c.SelfContained package) (hu : uri ≠ TreeInterchange.astUri)
include hc hself hu

omit hc hu in
theorem supertypes_selfContained (ht : c.get? t.name = some t) (hp : t.name.package = package) :
    (classOf c package uri t).supertypes =
      [((parent? c package t).map fun s => ⟨uri, s.name.name⟩).getD (.ast "ASTNode")] := by
  rw [supertypes_classOf, hself.tags ht hp]
  rfl

theorem grounded_model (ht : c.get? t.name = some t) (hp : t.name.package = package)
    (h : c.Rooted package t) : (model c package uri).Grounded ⟨uri, t.name.name⟩ := by
  induction h with
  | @root t h =>
    refine .intro (class?_model hc ht hp) ?_
    rw [supertypes_selfContained hself ht hp]
    have hnone : parent? c package t = none := by simp [parent?, h]
    have hast : (model c package uri).Grounded (.ast "ASTNode") :=
      .intro (Metamodel.requireClass_eq_ok.1 (requireClass_model_ast hu)) (by simp [Builtin.nodeClass])
    simpa [hnone] using hast
  | @extending parent base hget hparent h ih =>
    refine .intro (class?_model hc ht hp) ?_
    rw [supertypes_selfContained hself ht hp]
    have hsome : parent? c package (base.extending parent) = some parent := by
      simp [parent?, NodeType.extending, hget, hparent, Option.filter]
    simpa [hsome] using ih hget hparent

omit hc hself in
theorem foreign_ast {steps : Nat} {path : List ClassifierRef} {os : List OwnedFeature}
    (h : (model c package uri).featuresWithin steps path (.ast "ASTNode") = .ok os) :
    OwnedFeature.foreign os = [] := by
  cases steps with
  | zero => cases h
  | succ steps =>
    obtain ⟨-, d, inherited, hd, hin, rfl⟩ := Metamodel.featuresWithin_succ h
    rw [requireClass_model_ast hu, Except.ok.injEq] at hd
    subst hd
    cases hin
    decide

/-- The features of a class that are not built in are those of the properties of its type. -/
theorem foreign_selfContained {steps : Nat} {path : List ClassifierRef} {os : List OwnedFeature}
    (ht : c.get? t.name = some t) (hp : t.name.package = package)
    (h : (model c package uri).featuresWithin steps path ⟨uri, t.name.name⟩ = .ok os) :
    OwnedFeature.foreign os = t.properties.map (featureOf package uri) := by
  induction steps generalizing path t os with
  | zero => cases h
  | succ steps ih =>
    obtain ⟨-, d, inherited, hd, hin, rfl⟩ := Metamodel.featuresWithin_succ h
    rw [requireClass_model hc ht hp, Except.ok.injEq] at hd
    subst hd
    rw [supertypes_selfContained hself ht hp] at hin
    obtain ⟨first, rest, hfirst, rfl⟩ := Metamodel.mapM_featuresWithin_cons hin
    obtain rfl : rest = [] := by
      simpa using (StatefulRuns.forall₂_of_mapM_ok hin).length_eq.symm
    have hnodup := Metamodel.nodup_featuresWithin hfirst
    have hnames := hc.names ht
    rcases (hself.supertype ht hp).cases_parent with
      ⟨-, hnone⟩ | ⟨parent, own, -, hparent, hget, hpack, -, happ⟩
    · have hfeatures : (classOf c package uri t).features =
          t.properties.map (featureOf package uri) := by
        rw [features_classOf, hnone]
        simp
      rw [hnone] at hfirst
      have hempty := foreign_ast hu hfirst
      rw [hfeatures, OwnedFeature.foreign_combine hnodup _ hu (by simp [hempty]), hempty,
        List.nil_append]
      simpa [Function.comp_def, name_featureOf] using hnames
    · rw [hparent] at hfirst
      have hin := ih hget hpack hfirst
      rw [happ, List.map_append, List.nodup_append] at hnames
      rw [features_of_append (hc.names ht) hparent happ,
        OwnedFeature.foreign_combine hnodup _ hu, hin, happ, List.map_append]
      · intro f hf hmem
        rw [hin] at hf
        obtain ⟨p, hp, rfl⟩ := List.mem_map.1 hf
        rw [name_featureOf, List.map_map] at hmem
        refine hnames.2.2 _ (List.mem_map_of_mem hp) _ ?_ rfl
        simpa [Function.comp_def, name_featureOf] using hmem
      · simpa [Function.comp_def, name_featureOf] using hnames.2.1

omit hc hself hu in
theorem addProperties_foreign {m : Metamodel} {os : List OwnedFeature} {g : Property → Feature}
    {ps : List Property} (hos : OwnedFeature.foreign os = ps.map g)
    (hps : (ps.map (·.name)).Nodup) (hname : ∀ p ∈ ps, (g p).name = p.name)
    (hg : ∀ p ∈ ps, propertyOf m (g p) = .ok p) (t : NodeType) :
    addProperties m t os = .ok { t with
      properties := t.properties ++ ps.filter (fun p => (t.property? p.name).isNone) } := by
  induction os generalizing ps t with
  | nil =>
    obtain rfl : ps = [] := by simpa [OwnedFeature.foreign] using hos.symm
    simp [addProperties]
  | cons o os ih =>
    unfold addProperties
    by_cases hast : o.owner.uri = TreeInterchange.astUri
    · rw [if_pos (.inl hast)]
      apply ih _ hps hname hg
      rw [← hos, OwnedFeature.foreign, OwnedFeature.foreign, List.filter_cons_of_neg (by simp [hast])]
    · have hcons : o.feature :: OwnedFeature.foreign os = ps.map g := by
        rw [← hos, OwnedFeature.foreign, OwnedFeature.foreign,
          List.filter_cons_of_pos (by simpa using hast), List.map_cons]
      cases ps with
      | nil => cases hcons
      | cons p ps =>
        obtain ⟨hfeature, hrest⟩ := List.cons.inj hcons
        obtain ⟨hp, hps⟩ := List.nodup_cons.1 hps
        rw [List.forall_mem_cons] at hname hg
        have ih := ih hrest hps hname.2 hg.2
        rw [hfeature, hname.1, hg.1]
        cases hpresent : t.property? p.name with
        | some q =>
          rw [if_pos (.inr rfl), ih, List.filter_cons_of_neg (by simp [hpresent])]
        | none =>
          rw [if_neg (by simp [hast])]
          show addProperties m (t.withProperty p) os = _
          have hsame : ps.filter (fun q => ((t.withProperty p).property? q.name).isNone) =
              ps.filter (fun q => (t.property? q.name).isNone) := by
            apply List.filter_congr
            intro q hq
            have hne : p.name ≠ q.name := fun he => hp (List.mem_map.2 ⟨q, hq, he.symm⟩)
            simp [NodeType.property?, NodeType.withProperty, List.find?_append, hne]
          rw [ih, hsame, List.filter_cons_of_pos (by simp [hpresent])]
          simp [NodeType.withProperty]

theorem addSupertypes_selfContained (ht : c.get? t.name = some t) (hp : t.name.package = package)
    (hready : ∀ s, parent? c package t = some s → catalog.get? s.name = some s) (base : NodeType) :
    addSupertypes (model c package uri) catalog t.name false base
        (classOf c package uri t).supertypes =
      .ok (((parent? c package t).map base.extending).getD base) := by
  rw [supertypes_selfContained hself ht hp]
  cases hparent : parent? c package t with
  | none =>
    simp only [Option.map_none, Option.getD_none, addSupertypes]
    exact if_pos rfl
  | some s =>
    obtain ⟨hget, hpack⟩ := parent?_registered hc hparent
    simp only [Option.map_some, Option.getD_some, addSupertypes]
    rw [if_neg hu, typeName_model hpack]
    simp only [bind, Except.bind, hready s hparent, class?_model hc hget hpack]
    rfl

theorem nodeTypeOf_selfContained (ht : c.get? t.name = some t) (hp : t.name.package = package)
    (hready : ∀ s, parent? c package t = some s → catalog.get? s.name = some s) :
    nodeTypeOf (model c package uri) catalog ⟨uri, t.name.name⟩ = .ok t := by
  obtain ⟨os, hos⟩ := (grounded_model hc hself hu ht hp (hself.supertype ht hp)).ownedFeatures_ok
  have hforeign := foreign_selfContained hc hself hu ht hp hos
  have hadd := addProperties_foreign hforeign (hc.names ht) (fun p _ => name_featureOf p)
    fun p hpt => propertyOf_featureOf (c := c) hu (hself.types ht hp p hpt) (hself.sources ht hp p hpt)
  have hclass : requireClass (model c package uri) ⟨uri, t.name.name⟩ =
      .ok (classOf c package uri t) := by
    rw [requireClass, requireClass_model hc ht hp]
    rfl
  rw [nodeTypeOf, typeName_model hp, hclass, hos]
  simp only [bind, Except.bind, Except.mapError,
    addSupertypes_selfContained hc hself hu ht hp hready, hadd]
  refine congrArg _ (eq_completed (hc.names ht) (hself.tags ht hp) (hself.supertype ht hp) ?_ rfl)
  simp [classOf]

omit hc hself hu in
theorem deriveClass_eq {m : Metamodel} {x : ClassifierRef} (h : nodeTypeOf m catalog x = .ok t)
    (hvalid : t.validate = .ok ()) : deriveClass m x catalog = .ok t (catalog.put t) := by
  have hregister : catalog.register t = .ok (catalog.put t) := by
    rw [TypeCatalog.register, hvalid]
    rfl
  have hget : (get : Derive TypeCatalog) catalog = .ok catalog catalog := rfl
  have htype : lift (nodeTypeOf m catalog x) catalog = .ok t catalog := by rw [h]; rfl
  have hput : lift ((catalog.register t).mapError .model) catalog = .ok (catalog.put t) catalog := by
    rw [hregister]
    rfl
  rw [deriveClass, StatefulRuns.bind_ok hget, StatefulRuns.bind_ok htype, StatefulRuns.bind_ok hput]
  rfl

/-- Deriving classes of the package, parents first, puts their types into the catalog and nothing
else. -/
theorem mapM_deriveClass_selfContained {batch done cs : List ClassifierRef}
    (hcs : ∀ x ∈ cs, ∃ t, c.get? t.name = some t ∧ t.name.package = package ∧
      x = ⟨uri, t.name.name⟩)
    (hbatch : ∀ t, c.get? t.name = some t → t.name.package = package → ⟨uri, t.name.name⟩ ∈ batch)
    (hf : Follows (batchSupertypes (model c package uri) batch) done cs)
    (hdone : ∀ t, c.get? t.name = some t → t.name.package = package →
      ⟨uri, t.name.name⟩ ∈ done → catalog.get? t.name = some t) :
    ∃ ts catalog', cs.mapM (deriveClass (model c package uri)) catalog = .ok ts catalog' ∧
      catalog'.enumTypes = catalog.enumTypes ∧
      ∀ name, catalog'.get? name =
        if name.package = package ∧ ⟨uri, name.name⟩ ∈ cs then c.get? name
        else catalog.get? name := by
  induction cs generalizing done catalog with
  | nil => exact ⟨[], catalog, rfl, rfl, by simp⟩
  | cons x cs ih =>
    obtain ⟨t, ht, hp, rfl⟩ := hcs x (by simp)
    have hready : ∀ s, parent? c package t = some s → catalog.get? s.name = some s := by
      intro s hs
      obtain ⟨hget, hpack⟩ := parent?_registered hc hs
      apply hdone s hget hpack
      apply hf.1
      rw [batchSupertypes, Metamodel.supertypes_eq (class?_model hc ht hp),
        supertypes_selfContained hself ht hp, hs]
      exact List.mem_filter.2 ⟨by simp, by simpa using hbatch s hget hpack⟩
    have hderive := deriveClass_eq (nodeTypeOf_selfContained hc hself hu ht hp hready)
      (hc.valid ht)
    have hsame : ∀ {name : QualifiedName}, name.package = package → name.name = t.name.name →
        t.name = name := by
      intro name hpack hname
      cases name
      cases hn : t.name
      simp_all
    have hdone' : ∀ u, c.get? u.name = some u → u.name.package = package →
        ⟨uri, u.name.name⟩ ∈ (⟨uri, t.name.name⟩ :: done : List ClassifierRef) →
        (catalog.put t).get? u.name = some u := by
      intro u hu hpu hmem
      rw [TypeCatalog.get?_put]
      split
      · rename_i hn
        rw [← hn, ht] at hu
        exact hu
      · rename_i hn
        rcases List.mem_cons.1 hmem with he | hmem
        · exact absurd (hsame hpu (ClassifierRef.mk.inj he).2) hn
        · exact hdone u hu hpu hmem
    obtain ⟨ts, catalog', hrun, henums, hget⟩ :=
      ih (fun y hy => hcs y (List.mem_cons_of_mem _ hy)) hf.2 hdone'
    refine ⟨t :: ts, catalog', StatefulRuns.mapM_cons_ok hderive hrun, henums, fun name => ?_⟩
    rw [hget, TypeCatalog.get?_put]
    by_cases hn : t.name = name
    · subst hn
      simp [hp, ht]
    · have hne : name.package = package → name.name ≠ t.name.name := fun hpack hname =>
        hn (hsame hpack hname)
      simp only [List.mem_cons, ClassifierRef.mk.injEq, true_and, hn, if_false]
      by_cases hpack : name.package = package
      · simp [hpack, hne hpack]
      · simp [hpack]

omit hself hu in
theorem enum?_packageOf_eq {name : String} (hfree : (c.enum? ⟨package, name⟩).isSome = true →
      c.get? ⟨package, name⟩ = none) :
    (packageOf c package uri).enum? name =
      (c.enum? ⟨package, name⟩).map fun e => ⟨name, e.literals⟩ := by
  rw [Package.enum?]
  cases hk : (packageOf c package uri).classifiers.get? name with
  | some k =>
    rcases get?_packageOf hc hk with ⟨e, he, rfl⟩ | ⟨t, ht, rfl⟩
    · rw [he]
      rfl
    · cases he : c.enum? ⟨package, name⟩ with
      | none => rfl
      | some e =>
        rw [hfree (by simp [he])] at ht
        cases ht
  | none =>
    cases he : c.enum? ⟨package, name⟩ with
    | none => rfl
    | some e =>
      have hen := hc.enumName he
      have hmem : e ∈ c.enumsIn package :=
        (TypeCatalog.mem_enumsIn hc).2 ⟨by rw [hen]; exact he, by rw [hen]⟩
      rw [packageOf, Package.get?_addAll, Option.or_eq_none_iff, List.find?_eq_none] at hk
      refine absurd ?_ (hk.1 (.enumDecl ⟨e.name.name, e.literals⟩) ?_)
      · simp [Classifier.name, hen]
      · rw [List.mem_reverse]
        exact List.mem_append_left _ (List.mem_map.2 ⟨e, hmem, rfl⟩)

omit hc hself hu in
theorem enum?_foldl_registerEnum (es : List EnumType) (name : QualifiedName) :
    (es.foldl TypeCatalog.registerEnum catalog).enum? name =
      (es.reverse.find? (·.name = name)).or (catalog.enum? name) := by
  induction es generalizing catalog with
  | nil => rfl
  | cons e es ih =>
    rw [List.foldl_cons, ih, List.reverse_cons, List.find?_append, Option.or_assoc]
    congr 1
    rw [TypeCatalog.enum?, TypeCatalog.registerEnum, Table.get?_insert]
    by_cases he : e.name = name <;> simp [he, TypeCatalog.enum?]

omit hc hself hu in
theorem mem_enums {p : Package} {d : EnumDecl} :
    d ∈ p.enums ↔ p.enum? d.name = some d := by
  rw [Package.enums, Package.enum?, List.mem_filterMap, Option.bind_eq_some_iff]
  constructor
  · rintro ⟨k, hk, hkd⟩
    obtain ⟨name, hname⟩ := Table.mem_values_iff.1 hk
    have hkey := Package.name_eq hname
    cases k <;> cases hkd
    exact ⟨_, hkey ▸ hname, rfl⟩
  · rintro ⟨k, hk, hkd⟩
    exact ⟨k, Table.mem_values_iff.2 ⟨_, hk⟩, hkd⟩

omit hc hself hu in
theorem enum?_collected {p : Package} {name : QualifiedName}
    (hname : name.package = p.name) :
    ((enumTypes p).foldl TypeCatalog.registerEnum catalog).enum? name =
      ((p.enum? name.name).map fun d => ⟨name, d.literals⟩).or (catalog.enum? name) := by
  rw [enum?_foldl_registerEnum]
  congr 1
  have hof : ∀ e ∈ (enumTypes p).reverse, e.name = name →
      ∃ d, p.enum? name.name = some d ∧ e = ⟨name, d.literals⟩ := by
    intro e he hen
    rw [List.mem_reverse] at he
    obtain ⟨d, hd, rfl⟩ := List.mem_map.1 he
    subst hen
    exact ⟨d, mem_enums.1 hd, rfl⟩
  cases hd : p.enum? name.name with
  | none =>
    rw [Option.map_none, List.find?_eq_none]
    intro e he hen
    obtain ⟨d, hd', -⟩ := hof e he (by simpa using hen)
    rw [hd] at hd'
    cases hd'
  | some d =>
    refine find?_eq_some_of_unique ?_ (by simp) fun e he hen => ?_
    · obtain ⟨k, hk, hkd⟩ := Option.bind_eq_some_iff.1 hd
      have hkey := Package.name_eq hk
      cases k <;> cases hkd
      obtain ⟨package, local'⟩ := name
      obtain rfl : d.name = local' := hkey
      obtain rfl : package = p.name := hname
      rw [List.mem_reverse]
      exact List.mem_map.2 ⟨d, mem_enums.2 hd, rfl⟩
    · obtain ⟨d', hd', rfl⟩ := hof e he (by simpa using hen)
      rw [hd, Option.some.injEq] at hd'
      rw [hd']

omit hc hself hu in
theorem collect_single {m : Metamodel} {p : Package} (hp : m.package? uri = some p) :
    collect m [uri] catalog =
      .ok (m.classRefs [uri]) ((enumTypes p).foldl TypeCatalog.registerEnum catalog) := by
  rw [collect_eq (by simp [hp]), collected, enumTypesIn, List.flatMap_singleton, hp]
  rfl

omit hu in
theorem enum?_collected_packageOf {name : QualifiedName} (hname : name.package = package) :
    ((enumTypes (packageOf c package uri)).foldl TypeCatalog.registerEnum
      TypeCatalog.initial).enum? name = c.enum? name := by
  have hkept : (packageOf c package uri).enum? name.name =
      (c.enum? name).map fun e => ⟨name.name, e.literals⟩ := by
    subst hname
    exact enum?_packageOf_eq hc (hself.free rfl)
  rw [enum?_collected (by simpa using hname), hkept]
  cases he : c.enum? name with
  | none => rfl
  | some e =>
    obtain rfl := hc.enumName he
    rfl

omit hself hu in
theorem mem_classRefs_model {x : ClassifierRef} :
    x ∈ (model c package uri).classRefs [uri] ↔
      ∃ t, c.get? t.name = some t ∧ t.name.package = package ∧ x = ⟨uri, t.name.name⟩ := by
  rw [Metamodel.mem_classRefs, List.mem_singleton]
  constructor
  · rintro ⟨hx, d, hd⟩
    obtain ⟨t, ht, hp, hxt, -⟩ := class?_model_eq_some hc hx hd
    exact ⟨t, ht, hp, hxt⟩
  · rintro ⟨t, ht, hp, rfl⟩
    exact ⟨rfl, _, class?_model hc ht hp⟩

theorem supertypesFirst_selfContained (catalog : TypeCatalog) :
    ∃ order, supertypesFirst (model c package uri) catalog
      ((model c package uri).classRefs [uri]) = .ok order := by
  apply supertypesFirst_of_grounded
  · intro x hx
    obtain ⟨t, ht, hp, rfl⟩ := (mem_classRefs_model hc).1 hx
    exact grounded_model hc hself hu ht hp (hself.supertype ht hp)
  · intro x hx s hs
    obtain ⟨t, ht, hp, rfl⟩ := (mem_classRefs_model hc).1 hx
    rw [Metamodel.supertypes_eq (class?_model hc ht hp), supertypes_selfContained hself ht hp,
      List.mem_singleton] at hs
    subst hs
    cases hparent : parent? c package t with
    | none => exact .inr (.inl rfl)
    | some s =>
      obtain ⟨hget, hpack⟩ := parent?_registered hc hparent
      exact .inl ((mem_classRefs_model hc).2 ⟨s, hget, hpack, rfl⟩)

end SelfContained

/-- The node types and enumerations of a package come back unchanged from the package that
describes them, whatever the inheritance among them and whatever their properties are called. -/
theorem derivePackages_packageOf (hc : c.Filled) (hself : c.SelfContained package)
    (hpackage : package ≠ TypeCatalog.builtinPackage) (hu : uri ≠ TreeInterchange.astUri) :
    ∃ ts result, derivePackages (Metamodel.initial.add (packageOf c package uri)) [uri]
        TypeCatalog.initial = .ok ts result ∧
      ∀ name : QualifiedName, name.package = package →
        result.get? name = c.get? name ∧ result.enum? name = c.enum? name := by
  have hn := hc.named
  have hcollect : collect (model c package uri) [uri] TypeCatalog.initial = _ :=
    collect_single package?_model
  generalize hmid : (enumTypes (packageOf c package uri)).foldl TypeCatalog.registerEnum
    TypeCatalog.initial = mid at hcollect
  obtain ⟨order, horder⟩ := supertypesFirst_selfContained hn hself hu mid
  obtain ⟨hfollows, hmem, -⟩ := supertypesFirst_ok horder
  have htypes : ∀ x ∈ order, _ := fun x hx => (mem_classRefs_model hn).1 ((hmem x).1 hx)
  have hall : ∀ t, c.get? t.name = some t → t.name.package = package →
      ⟨uri, t.name.name⟩ ∈ (model c package uri).classRefs [uri] := fun t ht hp =>
    (mem_classRefs_model hn).2 ⟨t, ht, hp, rfl⟩
  have hnone : ∀ t, c.get? t.name = some t → t.name.package = package →
      ⟨uri, t.name.name⟩ ∈ ([] : List ClassifierRef) → mid.get? t.name = some t :=
    fun t _ _ hin => absurd hin List.not_mem_nil
  obtain ⟨ts, result, hrun, henums, hget⟩ :=
    mapM_deriveClass_selfContained hn hself hu htypes hall hfollows hnone
  refine ⟨ts, result, ?_, fun name hname => ⟨?_, ?_⟩⟩
  · have hmodel : Metamodel.initial.add (packageOf c package uri) = model c package uri := rfl
    rw [hmodel, derivePackages_eq hcollect horder]
    exact hrun
  · rw [hget]
    split
    · rfl
    · rename_i hnot
      have hmidTypes : mid.nodeTypes = TypeCatalog.initial.nodeTypes := (collect_ok hcollect).2
      rw [TypeCatalog.get?, hmidTypes, ← TypeCatalog.get?,
        TypeCatalog.get?_initial (hname ▸ hpackage)]
      cases ht : c.get? name with
      | none => rfl
      | some t =>
        obtain rfl := hn.typeName ht
        exact absurd ⟨hname, (hmem _).2 (hall t ht hname)⟩ hnot
  · have hsame : result.enum? name = mid.enum? name := by
      rw [TypeCatalog.enum?, henums]
      rfl
    rw [hsame, ← hmid, enum?_collected_packageOf hn hself hname]

def surfaceType : EnumType := ⟨⟨"town", "Surface"⟩, ["paved", "gravel"]⟩

def zoneType : NodeType :=
  { NodeType.ofName ⟨"town", "Zone"⟩ with
    isAbstract := true
    properties := [⟨"origin", .value, .data .string, false, none⟩,
      ⟨"parts", .child, .node ⟨"town", "Zone"⟩, true, none⟩] }

def roadType : NodeType :=
  { NodeType.ofName ⟨"town", "Road"⟩ with
    properties := [⟨"position", .value, .any, false, none⟩,
      ⟨"surface", .value, .enumeration surfaceType.name, true, none⟩] }.extending zoneType

def alleyType : NodeType :=
  { NodeType.ofName ⟨"town", "Alley"⟩ with
    properties := [⟨"destination", .reference, .node roadType.name, false, none⟩] }.extending roadType

/-- Each type extends one whose name comes later, and takes names of built-in features. -/
def townCatalog : TypeCatalog :=
  (((TypeCatalog.initial.registerEnum surfaceType).put zoneType).put roadType).put alleyType

theorem filled_townCatalog : townCatalog.Filled := by
  have h₁ : (TypeCatalog.initial.registerEnum surfaceType).Filled := .registerEnum .initial _
  have h₂ := h₁.define (t := zoneType) rfl
  have h₃ := h₂.define (t := roadType) rfl
  exact h₃.define (t := alleyType) rfl

theorem selfContained_townCatalog : townCatalog.SelfContained "town" := by
  have htypes : ∀ {t : NodeType}, townCatalog.get? t.name = some t → t.name.package = "town" →
      t ∈ [zoneType, roadType, alleyType] := by
    have hall : ∀ e ∈ townCatalog.nodeTypes.entries, e.2.name.package = "town" →
        e.2 ∈ [zoneType, roadType, alleyType] := by decide +kernel
    intro t ht hp
    exact hall _ (Table.get?_eq_some_iff.1 ht) hp
  have hzone : townCatalog.Rooted "town" zoneType := .root rfl
  have hroad : townCatalog.Rooted "town" roadType := .extending _ (by decide +kernel) rfl hzone
  have halley : townCatalog.Rooted "town" alleyType := .extending _ (by decide +kernel) rfl hroad
  have hshape : ∀ t ∈ [zoneType, roadType, alleyType], t.tags = [] ∧
      ∀ p ∈ t.properties, p.source? = none ∧ p.staysIn "town" = true := by decide +kernel
  constructor
  · exact fun ht hp => (hshape _ (htypes ht hp)).1
  · exact fun ht hp p hpt => ((hshape _ (htypes ht hp)).2 p hpt).1
  · intro t ht hp
    have ht := htypes ht hp
    simp only [List.mem_cons, List.not_mem_nil, or_false] at ht
    rcases ht with rfl | rfl | rfl
    · exact hzone
    · exact hroad
    · exact halley
  · exact fun ht hp p hpt => ((hshape _ (htypes ht hp)).2 p hpt).2
  · intro name _ he
    have hall : ∀ k ∈ townCatalog.enumTypes.keys, townCatalog.get? k = none := by decide +kernel
    exact hall name (Table.mem_keys_iff.2 (Option.isSome_iff_exists.1 he))

theorem derivePackages_packageOf_town : townCatalog.Filled ∧ townCatalog.SelfContained "town" ∧
    ∃ ts result, derivePackages (Metamodel.initial.add (packageOf townCatalog "town" "urn:town"))
        ["urn:town"] TypeCatalog.initial = .ok ts result ∧
      ∀ name : QualifiedName, name.package = "town" →
        result.get? name = townCatalog.get? name ∧ result.enum? name = townCatalog.enum? name :=
  ⟨filled_townCatalog, selfContained_townCatalog,
    derivePackages_packageOf filled_townCatalog selfContained_townCatalog (by decide) (by decide)⟩

end Derivation

end TreeInterchange
