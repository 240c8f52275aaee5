import TreeInterchange.Derivation.Package
import TreeInterchange.Metamodel.Builtin
import TreeInterchange.Proofs.ForestRuns
import TreeInterchange.Proofs.InheritedFeatures
import TreeInterchange.Proofs.PackageTables

/-!
# Packages derived from a catalog

The class that is derived for a node type has a feature for every property of the type, and
it is the one that the property asks for: the class of the supertype comes first among the
superclasses and own features displace inherited ones, so no tag comes in between. The room
for a position comes from the class of all nodes.
-/

namespace TreeInterchange

/-- A node type has the properties of another, up to the fields that fill them. -/
def NodeType.Inherits (t parent : NodeType) : Prop :=
  ∀ p ∈ parent.properties, ∃ source, { p with source? := source } ∈ t.properties

theorem NodeType.inherits_extending (t parent : NodeType) : (t.extending parent).Inherits parent :=
  fun p hp => ⟨p.source?, List.mem_append.2 (.inl hp)⟩

namespace TypeCatalog

/-- Catalogs that are filled by defining types and registering enumerations; a supertype is
registered before, and its properties are taken over. -/
inductive Defined : TypeCatalog → Prop
  | initial : Defined TypeCatalog.initial
  | define {c c' : TypeCatalog} {t present : NodeType} (h : Defined c)
      (hsup : ∀ s, t.supertype = some s → ∃ parent, c.get? s = some parent ∧ t.Inherits parent)
      (hd : c.define t = .ok (present, c')) : Defined c'
  | registerEnum {c : TypeCatalog} (h : Defined c) (e : EnumType) : Defined (c.registerEnum e)

/-- Catalogs that are filled by defining types and registering enumerations. -/
inductive Filled : TypeCatalog → Prop
  | initial : Filled TypeCatalog.initial
  | define {c c' : TypeCatalog} {t present : NodeType} (h : Filled c)
      (hd : c.define t = .ok (present, c')) : Filled c'
  | registerEnum {c : TypeCatalog} (h : Filled c) (e : EnumType) : Filled (c.registerEnum e)

/-- Types and enumerations are kept under their names, and types are valid. -/
structure Named (c : TypeCatalog) : Prop where
  typeName : ∀ {name t}, c.get? name = some t → t.name = name
  valid : ∀ {name t}, c.get? name = some t → t.validate = .ok ()
  enumName : ∀ {name e}, c.enum? name = some e → e.name = name

/-- The properties of a supertype are taken over as well. -/
structure WellKept (c : TypeCatalog) : Prop extends Named c where
  inherits : ∀ {name t s}, c.get? name = some t → t.supertype = some s →
    ∃ parent, c.get? s = some parent ∧ t.Inherits parent

theorem Named.names {c : TypeCatalog} (hc : c.Named) {name : QualifiedName} {t : NodeType}
    (h : c.get? name = some t) : (t.properties.map (·.name)).Nodup :=
  NodeType.names_nodup_of_validate (hc.valid h)

theorem mem_initial {name : QualifiedName} {t : NodeType}
    (h : TypeCatalog.initial.get? name = some t) :
    (name, t) ∈ TypeCatalog.initial.nodeTypes.entries := Table.get?_eq_some_iff.1 h

theorem named_initial : TypeCatalog.initial.Named := by
  have hall : ∀ e ∈ TypeCatalog.initial.nodeTypes.entries,
      e.2.name = e.1 ∧ e.2.validate = .ok () := by decide
  refine ⟨fun h => (hall _ (mem_initial h)).1, fun h => (hall _ (mem_initial h)).2, fun h => ?_⟩
  cases h

theorem define_cases {c c' : TypeCatalog} {t present : NodeType}
    (h : c.define t = .ok (present, c')) :
    t.validate = .ok () ∧ (c' = c ∨ c.get? t.name = none ∧ c' = c.put t) := by
  unfold define at h
  cases hv : t.validate with
  | error e => rw [hv] at h; cases h
  | ok u =>
    rw [hv] at h
    refine ⟨rfl, ?_⟩
    cases hg : c.get? t.name with
    | some present' =>
      simp only [hg, bind, Except.bind, pure, Except.pure, Except.ok.injEq, Prod.mk.injEq] at h
      exact .inl h.2.symm
    | none =>
      simp only [hg, bind, Except.bind, pure, Except.pure, Except.ok.injEq, Prod.mk.injEq] at h
      exact .inr ⟨rfl, h.2.symm⟩

theorem get?_put (c : TypeCatalog) (t : NodeType) (name : QualifiedName) :
    (c.put t).get? name = if t.name = name then some t else c.get? name :=
  Table.get?_insert c.nodeTypes t.name name t

theorem get?_put_cases {c : TypeCatalog} {t u : NodeType} {name : QualifiedName}
    (h : (c.put t).get? name = some u) : name = t.name ∧ u = t ∨ c.get? name = some u := by
  rw [get?_put] at h
  split at h
  · rename_i hn
    exact .inl ⟨hn.symm, (Option.some.inj h).symm⟩
  · exact .inr h

theorem Named.put {c : TypeCatalog} (hc : c.Named) {t : NodeType} (hvalid : t.validate = .ok ()) :
    (c.put t).Named := by
  refine ⟨fun hu => ?_, fun hu => ?_, fun he => hc.enumName he⟩
  · rcases get?_put_cases hu with ⟨rfl, rfl⟩ | hu
    · rfl
    · exact hc.typeName hu
  · rcases get?_put_cases hu with ⟨rfl, rfl⟩ | hu
    · exact hvalid
    · exact hc.valid hu

theorem Named.registerEnum {c : TypeCatalog} (hc : c.Named) (e : EnumType) :
    (c.registerEnum e).Named := by
  refine ⟨hc.typeName, hc.valid, fun {name d} hd => ?_⟩
  rw [enum?, TypeCatalog.registerEnum, Table.get?_insert] at hd
  split at hd
  · rename_i hn
    rw [← Option.some.inj hd, hn]
  · exact hc.enumName hd

theorem Filled.named {c : TypeCatalog} (h : c.Filled) : c.Named := by
  induction h with
  | initial => exact named_initial
  | define _ hd ih =>
    obtain ⟨hvalid, rfl | ⟨-, rfl⟩⟩ := define_cases hd
    · exact ih
    · exact ih.put hvalid
  | registerEnum _ e ih => exact ih.registerEnum e

theorem Defined.filled {c : TypeCatalog} (h : c.Defined) : c.Filled := by
  induction h with
  | initial => exact .initial
  | define _ _ hd ih => exact .define ih hd
  | registerEnum _ e ih => exact .registerEnum ih e

theorem Defined.wellKept {c : TypeCatalog} (h : c.Defined) : c.WellKept := by
  refine ⟨h.filled.named, ?_⟩
  induction h with
  | initial =>
    have hall : ∀ e ∈ TypeCatalog.initial.nodeTypes.entries,
        ∀ s ∈ e.2.supertype, TypeCatalog.initial.get? s = some genericType := by decide
    intro name t s ht hs
    exact ⟨genericType, hall _ (mem_initial ht) s hs, fun p hp => by cases hp⟩
  | @define c c' t present _ hsup hd ih =>
    obtain ⟨-, rfl | ⟨hnew, rfl⟩⟩ := define_cases hd
    · exact ih
    intro name u s hu hs
    have hparent : ∃ parent, c.get? s = some parent ∧ u.Inherits parent := by
      rcases get?_put_cases hu with ⟨rfl, rfl⟩ | hu
      · exact hsup s hs
      · exact ih hu hs
    obtain ⟨parent, hp, hin⟩ := hparent
    refine ⟨parent, ?_, hin⟩
    -- an added type is new, so all that were there before stay
    rw [get?_put, if_neg, hp]
    rintro rfl
    rw [hnew] at hp
    cases hp
  | registerEnum _ e ih => exact ih

variable {c : TypeCatalog} {package : String}

theorem mem_typesIn {t : NodeType} (hc : c.Named) :
    t ∈ c.typesIn package ↔ c.get? t.name = some t ∧ t.name.package = package := by
  rw [typesIn, List.mem_mergeSort, List.mem_filter, Table.mem_values_iff]
  simp only [decide_eq_true_eq]
  refine and_congr_left fun _ => ⟨?_, fun h => ⟨_, h⟩⟩
  rintro ⟨name, hn⟩
  rw [hc.typeName hn]
  exact hn

theorem mem_enumsIn {e : EnumType} (hc : c.Named) :
    e ∈ c.enumsIn package ↔ c.enum? e.name = some e ∧ e.name.package = package := by
  rw [enumsIn, List.mem_mergeSort, List.mem_filter, Table.mem_values_iff]
  simp only [decide_eq_true_eq]
  refine and_congr_left fun _ => ⟨?_, fun h => ⟨_, h⟩⟩
  rintro ⟨name, hn⟩
  rw [hc.enumName hn]
  exact hn

end TypeCatalog

theorem find?_eq_some_of_unique {α : Type} {p : α → Bool} {a : α} {l : List α} (ha : a ∈ l)
    (hp : p a = true) (hu : ∀ b ∈ l, p b = true → b = a) : l.find? p = some a := by
  cases h : l.find? p with
  | none => exact absurd hp (List.find?_eq_none.1 h a ha)
  | some b => rw [hu b (List.mem_of_find?_eq_some h) (List.find?_some h)]

namespace Derivation

/-- Names that are free beside the built-in packages. -/
structure Fresh (package uri : String) : Prop where
  ast : package ≠ Builtin.astPackage.name
  trace : package ≠ Builtin.tracePackage.name
  astUri : uri ≠ TreeInterchange.astUri
  traceUri : uri ≠ TreeInterchange.traceUri

def model (c : TypeCatalog) (package uri : String) : Metamodel :=
  Metamodel.initial.add (packageOf c package uri)

variable {c : TypeCatalog} {package uri : String}

@[simp] theorem name_packageOf : (packageOf c package uri).name = package := by
  simp [packageOf, Package.ofName]

@[simp] theorem uri_packageOf : (packageOf c package uri).uri = uri := by
  simp [packageOf, Package.ofName]

theorem class?_packageOf (hc : c.Named) {t : NodeType} (ht : c.get? t.name = some t)
    (hp : t.name.package = package) :
    (packageOf c package uri).class? t.name.name = some (classOf c package uri t) := by
  have hmem : t ∈ c.typesIn package := (TypeCatalog.mem_typesIn hc).2 ⟨ht, hp⟩
  have hfind : ((c.typesIn package).map fun t => Classifier.classDecl (classOf c package uri t)
      ).reverse.find? (·.name = t.name.name) = some (.classDecl (classOf c package uri t)) := by
    refine find?_eq_some_of_unique ?_ (by simp [Classifier.name, classOf]) fun d hd hname => ?_
    · rw [List.mem_reverse]
      exact List.mem_map.2 ⟨t, hmem, rfl⟩
    · rw [List.mem_reverse] at hd
      obtain ⟨u, hu, rfl⟩ := List.mem_map.1 hd
      obtain ⟨hu, hup⟩ := (TypeCatalog.mem_typesIn hc).1 hu
      have hname : u.name.name = t.name.name := by simpa [Classifier.name, classOf] using hname
      have hsame : u.name = t.name := by
        cases hun : u.name
        cases htn : t.name
        simp_all
      rw [hsame, ht, Option.some.injEq] at hu
      rw [hu]
  rw [Package.class?, packageOf, Package.get?_addAll, List.reverse_append, List.find?_append, hfind]
  rfl

theorem get?_packageOf (hc : c.Named) {name : String} {k : Classifier}
    (h : (packageOf c package uri).classifiers.get? name = some k) :
    (∃ e, c.enum? ⟨package, name⟩ = some e ∧ k = .enumDecl ⟨name, e.literals⟩) ∨
      ∃ t, c.get? ⟨package, name⟩ = some t ∧ k = .classDecl (classOf c package uri t) := by
  rw [packageOf, Package.get?_addAll] at h
  rw [show (Package.ofName package uri).classifiers.get? name = none from rfl, Option.or_none] at h
  have hname : k.name = name := by simpa using List.find?_some h
  have hmem := List.mem_of_find?_eq_some h
  simp only [List.mem_reverse, List.mem_append, List.mem_map] at hmem
  rcases hmem with ⟨e, he, rfl⟩ | ⟨t, ht, rfl⟩
  · obtain ⟨hget, rfl⟩ := (TypeCatalog.mem_enumsIn hc).1 he
    obtain rfl : e.name.name = name := hname
    exact .inl ⟨e, hget, rfl⟩
  · obtain ⟨hget, rfl⟩ := (TypeCatalog.mem_typesIn hc).1 ht
    obtain rfl : t.name.name = name := hname
    exact .inr ⟨t, hget, rfl⟩

theorem enum?_packageOf (hc : c.Named) {name : String} {d : EnumDecl}
    (h : (packageOf c package uri).enum? name = some d) :
    ∃ e, c.enum? ⟨package, name⟩ = some e ∧ d.literals = e.literals := by
  obtain ⟨k, hk, hkd⟩ := Option.bind_eq_some_iff.1 h
  rcases get?_packageOf hc hk with ⟨e, he, rfl⟩ | ⟨t, -, rfl⟩
  · cases hkd
    exact ⟨e, he, rfl⟩
  · cases hkd

theorem package?_model : (model c package uri).package? uri = some (packageOf c package uri) := by
  simp [model, Metamodel.package?, Metamodel.add]

theorem package?_model_ast (hu : uri ≠ TreeInterchange.astUri) :
    (model c package uri).package? TreeInterchange.astUri = some Builtin.astPackage := by
  rw [model, Metamodel.package?, Metamodel.add, Table.get?_insert, uri_packageOf, if_neg hu]
  rfl

theorem requireClass_model (hc : c.Named) {t : NodeType} (ht : c.get? t.name = some t)
    (hp : t.name.package = package) :
    (model c package uri).requireClass ⟨uri, t.name.name⟩ = .ok (classOf c package uri t) := by
  simp [Metamodel.requireClass, Metamodel.requirePackage, package?_model, class?_packageOf hc ht hp,
    bind, Except.bind, pure, Except.pure]

theorem requireClass_model_ast (hu : uri ≠ TreeInterchange.astUri) :
    (model c package uri).requireClass (.ast "ASTNode") = .ok Builtin.nodeClass := by
  simp only [Metamodel.requireClass, Metamodel.requirePackage, ClassifierRef.ast,
    package?_model_ast hu]
  rfl

theorem class?_model (hc : c.Named) {t : NodeType} (ht : c.get? t.name = some t)
    (hp : t.name.package = package) :
    (model c package uri).class? ⟨uri, t.name.name⟩ = some (classOf c package uri t) := by
  rw [Metamodel.class?, package?_model, Option.bind_some, class?_packageOf hc ht hp]

theorem class?_model_eq_some (hc : c.Named) {x : ClassifierRef} {d : ClassDecl} (hx : x.uri = uri)
    (hd : (model c package uri).class? x = some d) : ∃ t, c.get? t.name = some t ∧
      t.name.package = package ∧ x = ⟨uri, t.name.name⟩ ∧ d = classOf c package uri t := by
  rw [Metamodel.class?, hx, package?_model, Option.bind_some] at hd
  obtain ⟨k, hk, hkd⟩ := Option.bind_eq_some_iff.1 hd
  rcases get?_packageOf hc hk with ⟨e, -, rfl⟩ | ⟨t, ht, rfl⟩
  · cases hkd
  · have htn := hc.typeName ht
    cases hkd
    exact ⟨t, htn ▸ ht, by rw [htn], by rw [htn, ← hx], rfl⟩

theorem qualifiedName_model {name : QualifiedName} (hp : name.package = package) :
    (model c package uri).qualifiedName ⟨uri, name.name⟩ = .ok name := by
  simp [Metamodel.qualifiedName, Metamodel.requirePackage, package?_model, bind, Except.bind, pure,
    Except.pure, ← hp]

theorem classNamed?_model (hc : c.Named) (hu : Fresh package uri) {t : NodeType}
    (ht : c.get? t.name = some t) (hp : t.name.package = package) :
    (model c package uri).classNamed? package t.name.name = some ⟨uri, t.name.name⟩ := by
  have hnew : (packageOf c package uri).uri ∉ Metamodel.initial.packages.keys := by
    rw [uri_packageOf, show Metamodel.initial.packages.keys =
      [TreeInterchange.astUri, TreeInterchange.traceUri] from rfl]
    simp [hu.astUri, hu.traceUri]
  have hvalues : (model c package uri).packages.values =
      [Builtin.astPackage, Builtin.tracePackage, packageOf c package uri] := by
    rw [model, Metamodel.add, Table.values, Table.entries_insert_of_not_mem hnew]
    rfl
  rw [Metamodel.classNamed?, hvalues]
  simp [hu.ast.symm, hu.trace.symm, class?_packageOf hc ht hp, Package.ref]

theorem enum?_model (hc : c.Named) {name : String} {d : EnumDecl}
    (h : (model c package uri).enum? ⟨uri, name⟩ = some d) :
    ∃ e, c.enum? ⟨package, name⟩ = some e ∧ d.literals = e.literals := by
  rw [Metamodel.enum?, package?_model] at h
  exact enum?_packageOf hc h

theorem name_featureOf (p : Property) : (featureOf package uri p).name = p.name := by
  unfold featureOf
  cases p.kind <;> cases p.multiple <;> rfl

theorem isMany_featureOf (p : Property) : (featureOf package uri p).isMany = p.multiple := by
  unfold featureOf
  cases p.kind <;> cases p.multiple <;> rfl

theorem position_featuresWithin_ast (hu : uri ≠ TreeInterchange.astUri) {steps : Nat}
    {path : List ClassifierRef} {os : List OwnedFeature}
    (h : (model c package uri).featuresWithin steps path (.ast "ASTNode") = .ok os) :
    (OwnedFeature.named? os "position").map (·.feature) =
      some (Builtin.contained "position" "Position") := by
  cases steps with
  | zero => cases h
  | succ steps =>
    obtain ⟨-, d, inherited, hd, -, rfl⟩ := Metamodel.featuresWithin_succ h
    rw [requireClass_model_ast hu, Except.ok.injEq] at hd
    subst hd
    rw [OwnedFeature.named?_combine]
    rfl

/-- The supertype that a class extends within the derived package. -/
def parent? (c : TypeCatalog) (package : String) (t : NodeType) : Option NodeType :=
  (t.supertype.bind c.get?).filter (·.name.package = package)

theorem supertypes_classOf (t : NodeType) : (classOf c package uri t).supertypes =
    ((parent? c package t).map fun s => ⟨uri, s.name.name⟩).getD (.ast "ASTNode") ::
      (t.tags.filter (·.package = package)).map (classFor package uri) := by
  unfold classOf parent?
  cases hs : t.supertype.bind c.get? with
  | none => rfl
  | some s => by_cases hp : s.name.package = package <;> simp [classFor, hp, Option.filter]

/-- A class declares the properties that its parent does not pass on. -/
theorem features_classOf (t : NodeType) : (classOf c package uri t).features =
    (t.properties.filter fun p => !(parent? c package t).any fun s =>
      (s.property? p.name).isSome).map (featureOf package uri) := rfl

theorem mem_own_iff {t : NodeType} {p : Property} :
    p ∈ t.properties.filter (fun p => !(parent? c package t).any fun s =>
      (s.property? p.name).isSome) ↔
    p ∈ t.properties ∧ ∀ s, parent? c package t = some s → s.property? p.name = none := by
  rw [List.mem_filter]
  cases parent? c package t <;> simp

theorem parent?_registered (hc : c.Named) {t s : NodeType} (h : parent? c package t = some s) :
    c.get? s.name = some s ∧ s.name.package = package := by
  rw [parent?, Option.filter_eq_some_iff, Option.bind_eq_some_iff] at h
  obtain ⟨⟨name, -, hget⟩, hpack⟩ := h
  have hsn := hc.typeName hget
  exact ⟨hsn ▸ hget, by simpa using hpack⟩

theorem parent?_eq_some (hc : c.WellKept) {t s : NodeType} (ht : c.get? t.name = some t)
    (h : parent? c package t = some s) :
    c.get? s.name = some s ∧ s.name.package = package ∧ t.Inherits s := by
  obtain ⟨hget, hpack⟩ := parent?_registered hc.toNamed h
  refine ⟨hget, hpack, ?_⟩
  rw [parent?, Option.filter_eq_some_iff, Option.bind_eq_some_iff] at h
  obtain ⟨⟨name, hname, hsget⟩, -⟩ := h
  obtain ⟨s', hs', hin⟩ := hc.inherits ht hname
  rw [hsget, Option.some.injEq] at hs'
  exact hs' ▸ hin

theorem eq_of_name_eq {t : NodeType} (hn : (t.properties.map (·.name)).Nodup) {p q : Property}
    (hp : p ∈ t.properties) (hq : q ∈ t.properties) (h : p.name = q.name) : p = q :=
  List.inj_on_of_nodup_map hn hp hq h

theorem property?_of_mem {t : NodeType} (hn : (t.properties.map (·.name)).Nodup) {p : Property}
    (hp : p ∈ t.properties) : t.property? p.name = some p :=
  find?_eq_some_of_unique hp (by simp) fun _ hq hqp =>
    eq_of_name_eq hn hq hp (by simpa using hqp)

theorem find?_own {t : NodeType} (hn : (t.properties.map (·.name)).Nodup) {p : Property}
    (hp : p ∈ t.properties)
    (hown : ∀ s, parent? c package t = some s → s.property? p.name = none) :
    (classOf c package uri t).features.reverse.find? (·.name = p.name) =
      some (featureOf package uri p) := by
  refine find?_eq_some_of_unique ?_ (by simp [name_featureOf]) fun g hg hgn => ?_
  · rw [List.mem_reverse]
    exact List.mem_map.2 ⟨p, mem_own_iff.2 ⟨hp, hown⟩, rfl⟩
  · rw [List.mem_reverse] at hg
    obtain ⟨q, hq, rfl⟩ := List.mem_map.1 hg
    simp only [name_featureOf, decide_eq_true_eq] at hgn
    rw [eq_of_name_eq hn (mem_own_iff.1 hq).1 hp hgn]

theorem find?_inherited {t s : NodeType} (hs : parent? c package t = some s) {q : Property}
    {name : String} (hq : s.property? name = some q) :
    (classOf c package uri t).features.reverse.find? (·.name = name) = none := by
  rw [List.find?_eq_none]
  intro g hg hgn
  rw [List.mem_reverse] at hg
  obtain ⟨r, hr, rfl⟩ := List.mem_map.1 hg
  simp only [name_featureOf, decide_eq_true_eq] at hgn
  have hrs := (mem_own_iff.1 hr).2 s hs
  rw [hgn, hq] at hrs
  cases hrs

theorem named?_featuresWithin (hc : c.WellKept) (hu : Fresh package uri) {steps : Nat}
    {path : List ClassifierRef} {t : NodeType} (ht : c.get? t.name = some t)
    (hp : t.name.package = package) {os : List OwnedFeature}
    (h : (model c package uri).featuresWithin steps path ⟨uri, t.name.name⟩ = .ok os) :
    (∀ p ∈ t.properties, ∃ o, OwnedFeature.named? os p.name = some o ∧
      o.feature = featureOf package uri p) ∧ (OwnedFeature.named? os "position").isSome := by
  induction steps generalizing path t os with
  | zero => cases h
  | succ steps ih =>
    obtain ⟨-, d, inherited, hd, hin, rfl⟩ := Metamodel.featuresWithin_succ h
    rw [requireClass_model hc.toNamed ht hp, Except.ok.injEq] at hd
    subst hd
    rw [supertypes_classOf] at hin
    obtain ⟨first, rest, hfirst, rfl⟩ := Metamodel.mapM_featuresWithin_cons hin
    have hnames := hc.names ht
    refine ⟨fun p hpt => ?_, ?_⟩
    · rw [OwnedFeature.named?_combine]
      by_cases hown : ∀ s, parent? c package t = some s → s.property? p.name = none
      · -- a property of its own displaces whatever is inherited under its name
        rw [find?_own hnames hpt hown]
        exact ⟨_, rfl, rfl⟩
      · simp only [not_forall] at hown
        obtain ⟨s, hs, hsp⟩ := hown
        obtain ⟨hsget, hspack, hinh⟩ := parent?_eq_some hc ht hs
        obtain ⟨q, hq⟩ := Option.ne_none_iff_exists'.1 hsp
        have hqs : q ∈ s.properties := List.mem_of_find?_eq_some hq
        have hqn : q.name = p.name := by simpa using List.find?_some hq
        obtain ⟨source, hqt⟩ := hinh q hqs
        have hpq : p = { q with source? := source } := eq_of_name_eq hnames hpt hqt hqn.symm
        rw [hs] at hfirst
        obtain ⟨o, ho, hof⟩ := (ih hsget hspack hfirst).1 q hqs
        refine ⟨o, ?_, by rw [hof, hpq]; rfl⟩
        rw [find?_inherited hs hq, ← hqn, List.flatten_cons]
        simp only [OwnedFeature.named?, List.find?_append] at ho ⊢
        rw [ho]
        rfl
    · have hroom : (OwnedFeature.named? first "position").isSome := by
        cases hs : parent? c package t with
        | none =>
          rw [hs] at hfirst
          rw [← Option.isSome_map, position_featuresWithin_ast hu.astUri hfirst]
          rfl
        | some s =>
          obtain ⟨hsget, hspack, -⟩ := parent?_eq_some hc ht hs
          rw [hs] at hfirst
          exact (ih hsget hspack hfirst).2
      rw [OwnedFeature.named?_combine, List.flatten_cons]
      simp only [OwnedFeature.named?, List.find?_append, Option.isSome_or] at hroom ⊢
      simp [hroom]

/-- The features of the class of a node type, as far as a conversion looks them up. -/
theorem find?_features_model (hc : c.WellKept) (hu : Fresh package uri) {t : NodeType}
    (ht : c.get? t.name = some t) (hp : t.name.package = package) {fs : List Feature}
    (h : (model c package uri).features ⟨uri, t.name.name⟩ = .ok fs) :
    (∀ p ∈ t.properties, fs.find? (·.name = p.name) = some (featureOf package uri p)) ∧
      fs.any (·.name = "position") = true := by
  obtain ⟨os, hos, hfs⟩ := Metamodel.features_eq_ok.1 h
  obtain ⟨hall, hposition⟩ := named?_featuresWithin hc hu ht hp hos
  refine ⟨fun p hpt => ?_, ?_⟩
  · obtain ⟨o, ho, hof⟩ := hall p hpt
    rw [Metamodel.find?_features hfs, ho, Option.map_some, hof]
  · have hsome : (fs.find? (·.name = "position")).isSome := by
      rw [Metamodel.find?_features hfs]
      simpa using hposition
    rwa [List.find?_isSome, ← List.any_eq_true] at hsome

end Derivation

end TreeInterchange
