import TreeInterchange.Proofs.ExportedTypes
import TreeInterchange.Proofs.UnambiguousFeatures

/-!
# All packages of a catalog in one metamodel

Every package of a catalog can be derived, each under a URI of its own, and all of them stand in
one metamodel. A derived package never looks into another one: supertypes and targets that lie
elsewhere give way to the class of all nodes. So each class is found by the name of its type and
has the features that it has when its package stands alone, and the way up from it ends.

The same holds of enumerations, and there it is a loss: the type of an attribute is looked up in
the package of the class, wherever the catalog has the enumeration.
-/

namespace TreeInterchange

namespace TypeCatalog

variable {c : TypeCatalog}

theorem Defined.induction (h : c.Defined) {P : NodeType → Prop}
    (step : ∀ t, c.get? t.name = some t →
      (∀ s u, t.supertype = some s → c.get? s = some u → P u) → P t) :
    ∀ t, c.get? t.name = some t → P t := by
  induction h with
  | initial =>
    have hgeneric : P genericType :=
      step genericType (by decide) (by simp [genericType, NodeType.ofName])
    have hall : ∀ e ∈ TypeCatalog.initial.nodeTypes.entries, ∀ s ∈ e.2.supertype,
        TypeCatalog.initial.get? s = some genericType := by decide
    intro t ht
    refine step t ht fun s u hs hu => ?_
    rw [hall _ (mem_initial ht) s hs] at hu
    cases hu
    exact hgeneric
  | @define c c' t present hc hsup hd ih =>
    obtain ⟨-, rfl | ⟨hnew, rfl⟩⟩ := define_cases hd
    · exact ih step
    have hkeep : ∀ {name u}, c.get? name = some u → (c.put t).get? name = some u := by
      intro name u hu
      rw [get?_put, if_neg, hu]
      rintro rfl
      rw [hnew] at hu
      cases hu
    have hold : ∀ u, c.get? u.name = some u → P u := by
      refine ih fun u hu hbelow => step u (hkeep hu) fun s w hs hw => ?_
      obtain ⟨parent, hparent, -⟩ := hc.wellKept.inherits hu hs
      rw [hkeep hparent] at hw
      cases hw
      exact hbelow s _ hs hparent
    intro u hu
    rcases get?_put_cases hu with ⟨-, rfl⟩ | hu
    · refine step u hu fun s w hs hw => ?_
      obtain ⟨parent, hparent, -⟩ := hsup s hs
      rw [hkeep hparent] at hw
      cases hw
      have hname := hc.wellKept.typeName hparent
      exact hold _ (hname ▸ hparent)
    · exact hold u hu
  | registerEnum _ e ih => exact ih step

end TypeCatalog

theorem Metamodel.featuresWithin_congr {m m' : Metamodel} {S : ClassifierRef → Prop}
    (hclass : ∀ x, S x → m.requireClass x = m'.requireClass x)
    (hclosed : ∀ x d, S x → m'.class? x = some d → ∀ s ∈ d.supertypes, S s) {steps : Nat}
    {path : List ClassifierRef} {x : ClassifierRef} (hx : S x) :
    m.featuresWithin steps path x = m'.featuresWithin steps path x := by
  induction steps generalizing path x with
  | zero => rfl
  | succ steps ih =>
    unfold featuresWithin
    split
    · rfl
    rw [hclass x hx]
    cases hd : m'.requireClass x with
    | error e => rfl
    | ok d =>
      have hsupertypes : d.supertypes.mapM (m.featuresWithin steps (x :: path)) =
          d.supertypes.mapM (m'.featuresWithin steps (x :: path)) :=
        StatefulRuns.mapM_congr fun s hs => ih (hclosed x d hx (requireClass_eq_ok.1 hd) s hs)
      simp only [bind, Except.bind, hsupertypes]

namespace Derivation

/-- A package of a catalog and the URI under which it is derived. -/
structure Place where
  package : String
  uri : String

/-- The built-in packages and those of the catalog that have a place. -/
def exported (c : TypeCatalog) (places : List Place) : Metamodel :=
  .ofPackages (places.map fun p => packageOf c p.package p.uri)

/-- A catalog without tags and without enumerations that have the name of a type, whose packages
all have places with names and URIs of their own. -/
structure Exports (c : TypeCatalog) (places : List Place) : Prop where
  defined : c.Defined
  tags : ∀ {name t}, c.get? name = some t → t.tags = []
  free : ∀ {name}, (c.enum? name).isSome = true → c.get? name = none
  fresh : ∀ p ∈ places, Fresh p.package p.uri
  packages : (places.map (·.package)).Nodup
  uris : (places.map (·.uri)).Nodup
  covers : ∀ {name t}, c.get? name = some t → name.package ∈ places.map (·.package)

namespace Exports

variable {c : TypeCatalog} {places : List Place} (h : Exports c places) {p : Place}
include h

theorem exists_place {t : NodeType} (ht : c.get? t.name = some t) :
    ∃ p ∈ places, p.package = t.name.package :=
  List.mem_map.1 (h.covers ht)

theorem entries_exported : (exported c places).packages.entries =
    (TreeInterchange.astUri, Builtin.astPackage) ::
      (TreeInterchange.traceUri, Builtin.tracePackage) ::
      places.map fun p => (p.uri, packageOf c p.package p.uri) := by
  have huris : (places.map fun p => packageOf c p.package p.uri).map (·.uri) =
      places.map (·.uri) := by
    simp [List.map_map, Function.comp_def]
  have hnodup : (TreeInterchange.astUri :: TreeInterchange.traceUri ::
      (places.map fun p => packageOf c p.package p.uri).map (·.uri)).Nodup := by
    rw [huris, List.nodup_cons, List.nodup_cons, List.mem_cons, not_or]
    refine ⟨⟨by decide, fun hmem => ?_⟩, fun hmem => ?_, h.uris⟩
    · obtain ⟨p, hp, he⟩ := List.mem_map.1 hmem
      exact (h.fresh p hp).astUri he
    · obtain ⟨p, hp, he⟩ := List.mem_map.1 hmem
      exact (h.fresh p hp).traceUri he
  rw [exported, Metamodel.entries_ofPackages hnodup, List.map_map]
  simp [Function.comp_def]

theorem package?_exported (hp : p ∈ places) :
    (exported c places).package? p.uri = some (packageOf c p.package p.uri) := by
  rw [Metamodel.package?, Table.get?_eq_some_iff, h.entries_exported]
  exact List.mem_cons_of_mem _ (List.mem_cons_of_mem _ (List.mem_map.2 ⟨p, hp, rfl⟩))

theorem package?_exported_ast :
    (exported c places).package? TreeInterchange.astUri = some Builtin.astPackage := by
  rw [Metamodel.package?, Table.get?_eq_some_iff, h.entries_exported]
  exact List.mem_cons_self

theorem classNamed?_exported (hp : p ∈ places) {t : NodeType} (ht : c.get? t.name = some t)
    (htp : t.name.package = p.package) :
    (exported c places).classNamed? t.name.package t.name.name = some ⟨p.uri, t.name.name⟩ := by
  have hvalues : (exported c places).packages.values = Builtin.astPackage ::
      Builtin.tracePackage :: places.map fun p => packageOf c p.package p.uri := by
    simp [Table.values, h.entries_exported, List.map_map, Function.comp_def]
  have hfresh := h.fresh p hp
  have hfind : (exported c places).packages.values.find? (fun q =>
      q.name = t.name.package ∧ (q.class? t.name.name).isSome) =
        some (packageOf c p.package p.uri) := by
    rw [hvalues]
    apply find?_eq_some_of_unique
    · exact List.mem_cons_of_mem _ (List.mem_cons_of_mem _ (List.mem_map.2 ⟨p, hp, rfl⟩))
    · simp [htp, class?_packageOf h.defined.filled.named ht htp]
    · intro q hq hname
      have hname : q.name = p.package := htp ▸ (of_decide_eq_true hname).1
      simp only [List.mem_cons, List.mem_map] at hq
      rcases hq with rfl | rfl | ⟨p', hp', rfl⟩
      · exact absurd hname.symm hfresh.ast
      · exact absurd hname.symm hfresh.trace
      · rw [List.inj_on_of_nodup_map h.packages hp' hp (by simpa using hname)]
  rw [Metamodel.classNamed?, hfind]
  simp [Package.ref]

/-- Whatever a class of one derived package extends lies in that package or is the class of all
nodes, so its features are those it has when the package stands alone. -/
theorem featuresWithin_exported (hp : p ∈ places) {steps : Nat} {path : List ClassifierRef}
    {x : ClassifierRef} (hx : x.uri = p.uri) :
    (exported c places).featuresWithin steps path x =
      (model c p.package p.uri).featuresWithin steps path x := by
  have hfresh := h.fresh p hp
  apply Metamodel.featuresWithin_congr (S := fun x => x.uri = p.uri ∨ x = .ast "ASTNode")
    ?_ ?_ (.inl hx)
  · rintro x (hx | rfl)
    · simp only [Metamodel.requireClass, Metamodel.requirePackage, hx, h.package?_exported hp,
        package?_model]
    · simp only [Metamodel.requireClass, Metamodel.requirePackage, ClassifierRef.ast,
        h.package?_exported_ast, package?_model_ast hfresh.astUri]
  · rintro x d (hx | rfl) hd s hs
    · obtain ⟨t, -, -, -, rfl⟩ := class?_model_eq_some h.defined.filled.named hx hd
      rw [supertypes_classOf, List.mem_cons, List.mem_map] at hs
      rcases hs with rfl | ⟨tag, -, rfl⟩
      · cases parent? c p.package t with
        | none => exact .inr rfl
        | some s => exact .inl rfl
      · unfold classFor
        split
        · exact .inl rfl
        · exact .inr rfl
    · rw [Metamodel.requireClass_eq_ok.1 (requireClass_model_ast hfresh.astUri)] at hd
      cases hd
      cases hs

theorem grounded_exported {t : NodeType} (ht : c.get? t.name = some t) :
    ∀ p ∈ places, t.name.package = p.package →
      (exported c places).Grounded ⟨p.uri, t.name.name⟩ := by
  refine h.defined.induction (P := fun t => ∀ p ∈ places, t.name.package = p.package →
    (exported c places).Grounded ⟨p.uri, t.name.name⟩) (fun t ht ih p hp htp => ?_) t ht
  have hnamed := h.defined.filled.named
  have hclass : (exported c places).class? ⟨p.uri, t.name.name⟩ =
      some (classOf c p.package p.uri t) := by
    rw [Metamodel.class?, h.package?_exported hp, Option.bind_some, class?_packageOf hnamed ht htp]
  refine .intro hclass ?_
  rw [supertypes_classOf, h.tags ht]
  cases hparent : parent? c p.package t with
  | none =>
    have hast : (exported c places).Grounded (.ast "ASTNode") := by
      refine .intro (d := Builtin.nodeClass) ?_ (by simp [Builtin.nodeClass])
      rw [Metamodel.class?, ClassifierRef.ast, h.package?_exported_ast]
      rfl
    simpa using hast
  | some s =>
    obtain ⟨hget, hpack⟩ := parent?_registered hnamed hparent
    have hsuper : t.supertype = some s.name := by
      rw [parent?, Option.filter_eq_some_iff, Option.bind_eq_some_iff] at hparent
      obtain ⟨⟨name, hname, hs⟩, -⟩ := hparent
      rw [hname, hnamed.typeName hs]
    simpa using ih s.name s hsuper hget p hp hpack

theorem features_exported (hp : p ∈ places) {t : NodeType} (ht : c.get? t.name = some t)
    (htp : t.name.package = p.package) :
    ∃ fs, (exported c places).features ⟨p.uri, t.name.name⟩ = .ok fs ∧
      ∀ q ∈ t.properties, fs.find? (·.name = q.name) = some (featureOf p.package p.uri q) := by
  obtain ⟨os, hos⟩ := (h.grounded_exported ht p hp htp).ownedFeatures_ok
  have hwithin := hos
  rw [Metamodel.ownedFeatures, h.featuresWithin_exported hp rfl] at hwithin
  obtain ⟨hall, -⟩ := named?_featuresWithin h.defined.wellKept (h.fresh p hp) ht htp hwithin
  refine ⟨_, Metamodel.features_eq_ok.2 ⟨os, hos, rfl⟩, fun q hq => ?_⟩
  obtain ⟨o, ho, hof⟩ := hall q hq
  rw [Metamodel.find?_features rfl, ho, Option.map_some, hof]

theorem enum?_exported (hp : p ∈ places) (name : String) :
    (exported c places).enum? ⟨p.uri, name⟩ =
      (c.enum? ⟨p.package, name⟩).map fun e => ⟨name, e.literals⟩ := by
  rw [Metamodel.enum?, h.package?_exported hp, Option.bind_some]
  exact enum?_packageOf_eq h.defined.filled.named h.free

end Exports

end Derivation

end TreeInterchange
