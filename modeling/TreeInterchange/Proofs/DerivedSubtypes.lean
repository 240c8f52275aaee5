import TreeInterchange.Proofs.DerivedPackages
import TreeInterchange.Proofs.SupertypeSearches

/-!
# Subtypes among derived types

The type of a class names the types of all supertypes of the class that are not built in: one of
them as the type that it extends, the others as tags. Built-in classes have no supertypes, so
no way from one derived class to another leads through them. The ways up among derived types
are therefore the ways up among their classes, and a type is a subtype of another just when
its class is a subclass of the other's.
-/

namespace TreeInterchange

namespace NodeType

variable {t : NodeType} {n : QualifiedName}

/-- The type that a type extends, and its tags. -/
def parents (t : NodeType) : List QualifiedName := t.supertype.toList ++ t.tags

theorem mem_parents_extending {parent : NodeType} (h : t.supertype = none) :
    n ∈ (t.extending parent).parents ↔ n ∈ t.parents ∨ n = parent.name := by
  simp [parents, extending, h, or_comm]

theorem mem_parents_withTag {tag : QualifiedName} :
    n ∈ (t.withTag tag).parents ↔ n ∈ t.parents ∨ n = tag := by
  simp [parents, withTag, or_assoc]

end NodeType

theorem TypeCatalog.parents_eq {c : TypeCatalog} {n : QualifiedName} {t : NodeType}
    (h : c.get? n = some t) : c.parents n = t.parents := by
  rw [TypeCatalog.parents, h]
  rfl

/-- A metamodel with the package of the built-in classes, in which no two packages share a name. -/
structure Metamodel.ExtendsBuiltin (m : Metamodel) : Prop where
  names : (m.packages.values.map (·.name)).Nodup
  builtin : m.package? astUri = some Builtin.astPackage

theorem UserPackages.extendsBuiltin {users : List Package} (hu : UserPackages users)
    (huris : ∀ p ∈ users, p.uri ≠ astUri) : (Metamodel.ofPackages users).ExtendsBuiltin := by
  have hkeep : ∀ (ps : List Package) (m : Metamodel), (∀ p ∈ ps, p.uri ≠ astUri) →
      (ps.foldl Metamodel.add m).package? astUri = m.package? astUri := by
    intro ps
    induction ps with
    | nil => exact fun _ _ => rfl
    | cons p ps ih =>
      intro m hne
      obtain ⟨hp, hps⟩ := List.forall_mem_cons.1 hne
      rw [List.foldl_cons, ih _ hps, Metamodel.package?, Metamodel.add, Table.get?_insert,
        if_neg hp, Metamodel.package?]
  refine ⟨hu.nodup_names, ?_⟩
  rw [Metamodel.ofPackages, hkeep users _ huris]
  rfl

theorem Metamodel.ExtendsBuiltin.supertypes_ast {m : Metamodel} (h : m.ExtendsBuiltin)
    {c : ClassifierRef} (hc : c.uri = astUri) : m.supertypes c = [] := by
  have hpackage : m.package? c.uri = some Builtin.astPackage := hc ▸ h.builtin
  have hroots : ∀ e ∈ Builtin.astPackage.classifiers.entries,
      ∀ d ∈ e.2.class?, d.supertypes = [] := by decide
  rw [supertypes, class?, hpackage, Option.bind_some]
  cases hd : Builtin.astPackage.class? c.name with
  | none => rfl
  | some d =>
    obtain ⟨k, hk, hkd⟩ := Option.bind_eq_some_iff.1 hd
    exact hroots _ (Table.get?_eq_some_iff.1 hk) d hkd

namespace Derivation

variable {m : Metamodel} {catalog catalog' : TypeCatalog} {c s : ClassifierRef} {t : NodeType}
  {n : QualifiedName}

theorem mem_parents_addSupertypes (hc : catalog.Named) {name : QualifiedName} {extended : Bool}
    {t t' : NodeType} {cs : List ClassifierRef} (hfree : extended = false → t.supertype = none)
    (h : addSupertypes m catalog name extended t cs = .ok t') :
    n ∈ t'.parents ↔ n ∈ t.parents ∨ ∃ s ∈ cs, s.uri ≠ astUri ∧ typeName m s = .ok n := by
  induction cs generalizing extended t with
  | nil => cases h; simp
  | cons c cs ih =>
    unfold addSupertypes at h
    rw [List.exists_mem_cons_iff]
    split at h
    · rename_i hast
      rw [ih hfree h]
      simp [hast]
    · rename_i hast
      obtain ⟨k, hk, h⟩ := StatefulRuns.of_except_bind_ok h
      have hthis : c.uri ≠ astUri ∧ typeName m c = .ok n ↔ n = k := by
        simp [hast, hk, eq_comm]
      rw [hthis, ← or_assoc]
      cases hparent : catalog.get? k with
      | none => simp [hparent, throw, throwThe, MonadExceptOf.throw] at h
      | some parent =>
        simp only [hparent] at h
        split at h
        · rename_i hextends
          rw [ih (by simp) h, NodeType.mem_parents_extending (hfree (by simp_all)),
            hc.typeName hparent]
        · rw [ih (t := t.withTag k) hfree h, NodeType.mem_parents_withTag]

theorem parents_addProperties {t t' : NodeType} {fs : List OwnedFeature}
    (h : addProperties m t fs = .ok t') : t'.parents = t.parents := by
  induction fs generalizing t with
  | nil => cases h; rfl
  | cons f fs ih =>
    unfold addProperties at h
    split at h
    · exact ih h
    · obtain ⟨p, -, h⟩ := StatefulRuns.of_except_bind_ok h
      rw [ih h]
      rfl

/-- A derived type names the types of the supertypes that are not built in, and no others. -/
theorem mem_parents_nodeTypeOf (hc : catalog.Named) (h : nodeTypeOf m catalog c = .ok t) :
    n ∈ t.parents ↔ ∃ s ∈ m.supertypes c, s.uri ≠ astUri ∧ typeName m s = .ok n := by
  obtain ⟨name, -, h⟩ := StatefulRuns.of_except_bind_ok h
  obtain ⟨d, hd, h⟩ := StatefulRuns.of_except_bind_ok h
  obtain ⟨t₁, ht₁, h⟩ := StatefulRuns.of_except_bind_ok h
  obtain ⟨fs, -, h⟩ := StatefulRuns.of_except_bind_ok h
  rw [parents_addProperties h, mem_parents_addSupertypes hc (fun _ => rfl) ht₁, supertypes_eq hd]
  simp [NodeType.parents, NodeType.ofName]

theorem named_of_mapM (hc : catalog.Named) {cs : List ClassifierRef} {ts : List NodeType}
    (h : cs.mapM (deriveClass m) catalog = .ok ts catalog') : catalog'.Named := by
  induction cs generalizing catalog ts with
  | nil => cases h; exact hc
  | cons c cs ih =>
    obtain ⟨t, _, _, hstep, hrest, -⟩ := StatefulRuns.of_mapM_cons_ok h
    obtain ⟨-, hvalid, rfl⟩ := deriveClass_ok hstep
    exact ih (hc.put hvalid) hrest

theorem named_of_derivePackages (hc : catalog.Named) {uris : List String} {ts : List NodeType}
    (h : derivePackages m uris catalog = .ok ts catalog') : catalog'.Named := by
  obtain ⟨-, order, -, hrun⟩ := derivePackages_ok h
  refine named_of_mapM ?_ hrun
  rw [collected]
  exact List.foldlRecOn (enumTypesIn m uris) _ hc fun _ hb e _ => hb.registerEnum e

/-- The types of a batch of classes: each class is settled, and its supertypes are in the batch
unless they are built in. -/
structure Batch (m : Metamodel) (catalog : TypeCatalog) (batch : List ClassifierRef) : Prop where
  named : catalog.Named
  settled : ∀ c ∈ batch, Settled m catalog c
  closed : ∀ c ∈ batch, ∀ s ∈ m.supertypes c, s.uri ≠ astUri → s ∈ batch
  foreign : ∀ c ∈ batch, c.uri ≠ astUri

namespace Batch

variable {batch : List ClassifierRef} (hb : Batch m catalog batch)
include hb

theorem exists_typeName (hc : c ∈ batch) : ∃ n, typeName m c = .ok n := by
  obtain ⟨t, ht, -⟩ := hb.settled c hc
  exact ⟨t.name, (nodeTypeOf_ok ht).1⟩

theorem mem_parents (hc : c ∈ batch) (hn : typeName m c = .ok n) {k : QualifiedName} :
    k ∈ catalog.parents n ↔ ∃ s ∈ batch, s ∈ m.supertypes c ∧ typeName m s = .ok k := by
  obtain ⟨t, ht, hget⟩ := hb.settled c hc
  cases hn.symm.trans (nodeTypeOf_ok ht).1
  rw [TypeCatalog.parents_eq hget, mem_parents_nodeTypeOf hb.named ht]
  constructor
  · rintro ⟨s, hs, hast, hk⟩
    exact ⟨s, hb.closed c hc s hs hast, hs, hk⟩
  · rintro ⟨s, hmem, hs, hk⟩
    exact ⟨s, hs, hb.foreign s hmem, hk⟩

theorem exists_of_descends {k : QualifiedName} (hc : c ∈ batch) (hn : typeName m c = .ok n)
    (h : catalog.Descends n k) : ∃ s ∈ batch, typeName m s = .ok k ∧ m.Inherits c s := by
  induction h with
  | refl => exact ⟨c, hc, hn, .refl⟩
  | tail _ hstep ih =>
    obtain ⟨s, hs, hk, hway⟩ := ih
    obtain ⟨s', hs', hsuper, hk'⟩ := (hb.mem_parents hs hk).1 hstep
    exact ⟨s', hs', hk', hway.tail hsuper⟩

theorem descends_of_inherits (hroots : ∀ c : ClassifierRef, c.uri = astUri → m.supertypes c = [])
    {k : QualifiedName} (hc : c ∈ batch) (hs : s ∈ batch) (hn : typeName m c = .ok n)
    (hk : typeName m s = .ok k) (h : m.Inherits c s) : catalog.Descends n k := by
  induction h using Relation.ReflTransGen.head_induction_on generalizing n with
  | refl =>
    cases hn.symm.trans hk
    exact .refl
  | @head c c' hstep hrest ih =>
    have hast : c'.uri ≠ astUri := by
      intro hast
      -- Nothing is above a built-in class, and the way ends at a class of the batch.
      rcases hrest.cases_head with rfl | ⟨_, hnext, -⟩
      · exact hb.foreign c' hs hast
      · rw [hroots c' hast] at hnext
        cases hnext
    have hc' := hb.closed c hc c' hstep hast
    obtain ⟨n', hn'⟩ := hb.exists_typeName hc'
    exact .head ((hb.mem_parents hc hn).2 ⟨c', hc', hstep, hn'⟩) (ih hc' hn')

end Batch

/-- Among the types derived from packages of other than built-in classes, subtypes are just the
types of subclasses. -/
theorem isSubtype_eq_isSubclass (hm : m.ExtendsBuiltin) {uris : List String} {ts : List NodeType}
    {sub sup : ClassifierRef} (huris : astUri ∉ uris)
    (hclosed : ∀ c ∈ m.classRefs uris, ∀ s ∈ m.supertypes c, s.uri ∈ uris ∨ s.uri = astUri)
    (h : derivePackages m uris .initial = .ok ts catalog) (hsub : sub ∈ m.classRefs uris)
    (hsup : sup ∈ m.classRefs uris) :
    ∃ n k, typeName m sub = .ok n ∧ typeName m sup = .ok k ∧
      catalog.isSubtype n k = m.isSubclass sub sup := by
  obtain ⟨order, -, -, hsettled⟩ := settled_of_derivePackages hm.names
    (fun c hc s hs _ _ => hclosed c hc s hs) h
  have hb : Batch m catalog (m.classRefs uris) := by
    refine ⟨named_of_derivePackages TypeCatalog.named_initial h, fun c hc => (hsettled c hc).1,
      fun c hc => (hsettled c hc).2, fun c hc hast => ?_⟩
    exact huris (hast ▸ (Metamodel.mem_classRefs.1 hc).1)
  obtain ⟨n, hn⟩ := hb.exists_typeName hsub
  obtain ⟨k, hk⟩ := hb.exists_typeName hsup
  refine ⟨n, k, hn, hk, ?_⟩
  rw [Bool.eq_iff_iff, TypeCatalog.isSubtype_iff, Metamodel.isSubclass_iff]
  constructor
  · intro hdescends
    obtain ⟨s, -, hs, hway⟩ := hb.exists_of_descends hsub hn hdescends
    rwa [Metamodel.qualifiedName_inj hm.names (of_mapError_ok hk) (of_mapError_ok hs)]
  · exact hb.descends_of_inherits (fun _ => hm.supertypes_ast) hsub hsup hn hk

def beingsPackage : Package :=
  (Package.ofName "beings" "urn:beings").addAll [
    .classDecl ⟨"Named", true, true, [], [.single "name" .plain (.ecore "EString")]⟩,
    .classDecl ⟨"Being", true, false, [.ast "ASTNode"], []⟩,
    .classDecl ⟨"Stone", false, false, [⟨"urn:beings", "Named"⟩], []⟩]

/-- A dog is a pet and a being, and a pet has a name before it is a being. -/
def petsPackage : Package :=
  (Package.ofName "pets" "urn:pets").addAll [
    .classDecl ⟨"Dog", false, false, [⟨"urn:pets", "Pet"⟩, ⟨"urn:beings", "Being"⟩,
      .ast "Statement"], []⟩,
    .classDecl ⟨"Pet", true, false, [⟨"urn:beings", "Named"⟩, ⟨"urn:beings", "Being"⟩], []⟩]

def pets : Metamodel := .ofPackages [beingsPackage, petsPackage]

theorem isSubtype_pets : ∃ ts catalog,
    derivePackages pets ["urn:pets", "urn:beings"] .initial = .ok ts catalog ∧
      catalog.isSubtype ⟨"pets", "Dog"⟩ ⟨"beings", "Named"⟩ = true ∧
      catalog.isSubtype ⟨"beings", "Stone"⟩ ⟨"beings", "Being"⟩ = false := by
  have hm : pets.ExtendsBuiltin :=
    UserPackages.extendsBuiltin ⟨by decide +kernel⟩ (by decide +kernel)
  have hclosed : ∀ c ∈ pets.classRefs ["urn:pets", "urn:beings"], ∀ s ∈ pets.supertypes c,
      s.uri ∈ ["urn:pets", "urn:beings"] ∨ s.uri = astUri := by decide +kernel
  have hclasses : ∀ c ∈ [⟨"urn:pets", "Dog"⟩, ⟨"urn:beings", "Named"⟩, ⟨"urn:beings", "Stone"⟩,
      (⟨"urn:beings", "Being"⟩ : ClassifierRef)],
      c ∈ pets.classRefs ["urn:pets", "urn:beings"] := by decide +kernel
  have hdog : pets.isSubclass ⟨"urn:pets", "Dog"⟩ ⟨"urn:beings", "Named"⟩ = true := by
    have hpet : ⟨"urn:pets", "Pet"⟩ ∈ pets.supertypes ⟨"urn:pets", "Dog"⟩ := by decide +kernel
    have hnamed : ⟨"urn:beings", "Named"⟩ ∈ pets.supertypes ⟨"urn:pets", "Pet"⟩ := by
      decide +kernel
    exact Metamodel.isSubclass_iff.2 (.head hpet (.single hnamed))
  have hstone : pets.isSubclass ⟨"urn:beings", "Stone"⟩ ⟨"urn:beings", "Being"⟩ = false := by
    rw [Bool.eq_false_iff]
    intro hsub
    -- The way up from a stone ends at what has a name.
    have hmem := (Metamodel.isSubclass_iff.1 hsub).mem
      (L := [⟨"urn:beings", "Stone"⟩, ⟨"urn:beings", "Named"⟩]) (by decide +kernel) (by simp)
    exact absurd hmem (by decide)
  have hruns : (match derivePackages pets ["urn:pets", "urn:beings"] .initial with
      | .ok _ _ => true | .error _ _ => false) = true := by decide +kernel
  split at hruns
  · rename_i ts catalog hrun
    refine ⟨ts, catalog, hrun, ?_, ?_⟩
    · obtain ⟨n, k, hn, hk, hsame⟩ := isSubtype_eq_isSubclass hm (by decide) hclosed hrun
        (hclasses ⟨"urn:pets", "Dog"⟩ (by simp)) (hclasses ⟨"urn:beings", "Named"⟩ (by simp))
      cases hn
      cases hk
      exact hsame.trans hdog
    · obtain ⟨n, k, hn, hk, hsame⟩ := isSubtype_eq_isSubclass hm (by decide) hclosed hrun
        (hclasses ⟨"urn:beings", "Stone"⟩ (by simp)) (hclasses ⟨"urn:beings", "Being"⟩ (by simp))
      cases hn
      cases hk
      exact hsame.trans hstone
  · cases hruns

end Derivation

end TreeInterchange
