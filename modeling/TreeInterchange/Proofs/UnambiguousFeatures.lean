import Mathlib.Logic.Relation
import TreeInterchange.Proofs.DerivedTypes

/-!
# Classes whose features are told apart by their names

A class has the features that it declares and those of all its supertypes. If no two of them
have the same name, none displaces another on the way down, and the type of the class has one
property for each of them.

This is said of metamodels that are made by adding packages to the built-in ones. Types go by
the name of the package, so the names of the packages must be different.
-/

namespace TreeInterchange

namespace OwnedFeature

variable {c : ClassifierRef} {o : OwnedFeature}

theorem named?_isSome {fs : List OwnedFeature} {name : String} :
    (named? fs name).isSome ↔ name ∈ names fs := by
  simp [named?, names, List.find?_isSome]

theorem mem_foldl {step : List OwnedFeature → OwnedFeature → List OwnedFeature}
    (hstep : ∀ fs f, ∀ o ∈ step fs f, o ∈ fs ∨ o = f) {gs fs : List OwnedFeature}
    (h : o ∈ gs.foldl step fs) : o ∈ fs ∨ o ∈ gs := by
  induction gs generalizing fs with
  | nil => exact .inl h
  | cons g gs ih =>
    rcases ih h with h | h
    · rcases hstep fs g o h with h | rfl
      · exact .inl h
      · exact .inr (List.mem_cons_self ..)
    · exact .inr (List.mem_cons_of_mem g h)

theorem mem_combine {inherited : List (List OwnedFeature)} {own : List Feature}
    (h : o ∈ combine c inherited own) :
    (∃ f ∈ own, o = ⟨c, f⟩) ∨ ∃ gs ∈ inherited, o ∈ gs := by
  have hdisplace : ∀ fs f, ∀ o ∈ displace fs f, o ∈ fs ∨ o = f := by
    intro fs f o ho
    rcases List.mem_append.1 ho with ho | ho
    · exact .inl (List.mem_of_mem_filter ho)
    · exact .inr (List.mem_singleton.1 ho)
  have haddNew : ∀ fs f, ∀ o ∈ addNew fs f, o ∈ fs ∨ o = f := by
    intro fs f o ho
    unfold addNew at ho
    split at ho
    · exact .inl ho
    · rcases List.mem_append.1 ho with ho | ho
      · exact .inl ho
      · exact .inr (List.mem_singleton.1 ho)
  rcases mem_foldl hdisplace h with h | h
  · rcases mem_foldl haddNew h with h | h
    · cases h
    · exact .inr (List.mem_flatten.1 h)
  · obtain ⟨f, hf, rfl⟩ := List.mem_map.1 h
    exact .inl ⟨f, hf, rfl⟩

theorem mem_names_combine {inherited : List (List OwnedFeature)} {own : List Feature}
    {name : String} (h : (∃ f ∈ own, f.name = name) ∨ ∃ gs ∈ inherited, name ∈ names gs) :
    name ∈ names (combine c inherited own) := by
  rw [← named?_isSome, named?_combine, Option.isSome_or, Bool.or_eq_true]
  rcases h with ⟨f, hf, rfl⟩ | ⟨gs, hgs, hname⟩
  · left
    rw [Option.isSome_map, List.find?_isSome]
    exact ⟨f, List.mem_reverse.2 hf, by simp⟩
  · right
    obtain ⟨o, ho, rfl⟩ := List.mem_map.1 hname
    exact named?_isSome.2 (List.mem_map_of_mem (List.mem_flatten.2 ⟨gs, hgs, ho⟩))

end OwnedFeature

namespace Metamodel

variable {m : Metamodel} {c s : ClassifierRef} {o : OwnedFeature}

/-- A class and all its supertypes, at any distance. -/
def Inherits (m : Metamodel) : ClassifierRef → ClassifierRef → Prop :=
  Relation.ReflTransGen fun c s => s ∈ m.supertypes c

/-- A class declares or inherits a feature, displaced or not. -/
def HasFeature (m : Metamodel) (c : ClassifierRef) (o : OwnedFeature) : Prop :=
  m.Inherits c o.owner ∧ ∃ d, m.class? o.owner = some d ∧ o.feature ∈ d.features

/-- No two features of a class, inherited ones included, have the same name. -/
def Unambiguous (m : Metamodel) (c : ClassifierRef) : Prop :=
  ∀ o o', m.HasFeature c o → m.HasFeature c o' → o.feature.name = o'.feature.name → o = o'

theorem HasFeature.of_supertype (hs : s ∈ m.supertypes c) (h : m.HasFeature s o) :
    m.HasFeature c o :=
  ⟨.head hs h.1, h.2⟩

theorem hasFeature_of_mem {steps : Nat} {path : List ClassifierRef} {fs : List OwnedFeature}
    (h : m.featuresWithin steps path c = .ok fs) (ho : o ∈ fs) : m.HasFeature c o := by
  induction steps generalizing path c fs with
  | zero => cases h
  | succ steps ih =>
    obtain ⟨-, d, inherited, hd, hi, rfl⟩ := featuresWithin_succ h
    have hclass := requireClass_eq_ok.1 hd
    rcases OwnedFeature.mem_combine ho with ⟨f, hf, rfl⟩ | ⟨gs, hgs, ho⟩
    · exact ⟨.refl, d, hclass, hf⟩
    · obtain ⟨s, hs, hrun⟩ := StatefulRuns.exists_of_mem_mapM_ok hi hgs
      exact (ih hrun ho).of_supertype (supertypes_eq hclass ▸ hs)

theorem mem_names_of_hasFeature {steps : Nat} {path : List ClassifierRef} {fs : List OwnedFeature}
    (h : m.featuresWithin steps path c = .ok fs) (ho : m.HasFeature c o) :
    o.feature.name ∈ OwnedFeature.names fs := by
  induction steps generalizing path c fs with
  | zero => cases h
  | succ steps ih =>
    obtain ⟨-, d, inherited, hd, hi, rfl⟩ := featuresWithin_succ h
    have hclass := requireClass_eq_ok.1 hd
    apply OwnedFeature.mem_names_combine
    obtain ⟨hway, e, he, hf⟩ := ho
    rcases hway.cases_head with rfl | ⟨s, hs, hway⟩
    · obtain rfl : d = e := Option.some.inj (hclass.symm.trans he)
      exact .inl ⟨o.feature, hf, rfl⟩
    · rw [supertypes_eq hclass] at hs
      obtain ⟨gs, hgs, hrun⟩ := StatefulRuns.exists_mem_of_mapM_ok hi hs
      exact .inr ⟨gs, hgs, ih hrun ⟨hway, e, he, hf⟩⟩

theorem mem_ownedFeatures_iff {fs : List OwnedFeature} (hu : m.Unambiguous c)
    (h : m.ownedFeatures c = .ok fs) : o ∈ fs ↔ m.HasFeature c o := by
  refine ⟨hasFeature_of_mem h, fun ho => ?_⟩
  obtain ⟨o', ho', hname⟩ := List.mem_map.1 (mem_names_of_hasFeature h ho)
  rwa [← hu o' o (hasFeature_of_mem h ho') ho hname]

theorem Inherits.mem {L : List ClassifierRef} (hL : ∀ s ∈ L, m.supertypes s ⊆ L)
    (h : m.Inherits c s) (hc : c ∈ L) : s ∈ L := by
  induction h with
  | refl => exact hc
  | tail _ hs ih => exact hL _ ih hs

def declaredBy (m : Metamodel) (L : List ClassifierRef) : List OwnedFeature :=
  L.flatMap fun s => ((m.class? s).map fun d => d.features.map fun f => ⟨s, f⟩).getD []

/-- Features are unambiguous where a class and all its supertypes declare no name twice. -/
theorem unambiguous_of_nodup {L : List ClassifierRef} (hL : ∀ s ∈ L, m.supertypes s ⊆ L)
    (hn : (OwnedFeature.names (m.declaredBy L)).Nodup) (hc : c ∈ L) : m.Unambiguous c := by
  have hmem : ∀ o, m.HasFeature c o → o ∈ m.declaredBy L := by
    rintro o ⟨hway, d, hd, hf⟩
    refine List.mem_flatMap.2 ⟨o.owner, hway.mem hL hc, ?_⟩
    rw [hd]
    exact List.mem_map_of_mem hf
  intro o o' ho ho' hname
  exact List.inj_on_of_nodup_map hn (hmem o ho) (hmem o' ho') hname

end Metamodel

namespace Derivation

variable {m : Metamodel} {catalog catalog' : TypeCatalog} {c : ClassifierRef}

/-- A class with unambiguous features keeps all that the class it extends passes on. -/
theorem keepsInherited_of_unambiguous (hc : Settled m catalog c) (hu : m.Unambiguous c)
    (hs : ∀ s, m.extended? (m.supertypes c) = some s → Faithful m catalog s) :
    KeepsInherited m c := by
  obtain ⟨t, ht, -⟩ := hc
  obtain ⟨-, fs, inherited, new, hfs, htakes, -, hcomp⟩ := nodeTypeOf_ok ht
  have hparent : ∀ s, m.extended? (m.supertypes c) = some s → ∀ q ∈ inherited,
      ∃ o ∈ fs, o.owner.uri ≠ astUri ∧ propertyOf m o.feature = .ok q := by
    intro s hext q hq
    obtain ⟨qs, hqs, hperm⟩ := htakes.perm hext (hs s hext)
    obtain ⟨gs, hgs, -, -, hasked⟩ := requiredProperties_ok hqs
    obtain ⟨o, ho, hast, hop⟩ := hasked q (hperm.subset hq)
    refine ⟨o, (Metamodel.mem_ownedFeatures_iff hu hfs).2 ?_, hast, hop⟩
    exact (Metamodel.hasFeature_of_mem hgs ho).of_supertype (extended?_eq_some hext).1
  have hproperty : ∀ o ∈ fs.filter (·.owner.uri ≠ astUri), ∃ p, propertyOf m o.feature = .ok p := by
    intro o ho
    obtain ⟨ho, hast⟩ := List.mem_filter.1 ho
    rcases hcomp.complete o ho (by simpa using hast) with ⟨q, hq, hname⟩ | ⟨p, -, hp⟩
    · cases hext : m.extended? (m.supertypes c) with
      | none =>
        rw [TakesOver, hext] at htakes
        simp [htakes] at hq
      | some s =>
        -- The inherited property of this name is that of the same feature.
        obtain ⟨o', ho', -, hop⟩ := hparent s hext q hq
        have hsame : o' = o := List.inj_on_of_nodup_map (Metamodel.nodup_ownedFeatures hfs) ho' ho
          ((name_propertyOf hop).symm.trans hname)
        exact ⟨q, hsame ▸ hop⟩
    · exact ⟨p, hp⟩
  obtain ⟨ps, hps⟩ := StatefulRuns.exists_mapM_ok hproperty
  have hrequired : requiredProperties m c = .ok ps := by
    simp only [requiredProperties, hfs, Except.mapError, bind, Except.bind]
    exact hps
  refine ⟨ps, hrequired, fun s hext => ?_⟩
  obtain ⟨qs, hqs, hperm⟩ := htakes.perm hext (hs s hext)
  refine ⟨qs, hqs, fun q hq => ?_⟩
  obtain ⟨o, ho, hast, hop⟩ := hparent s hext q (hperm.mem_iff.2 hq)
  obtain ⟨p, hp, hop'⟩ := StatefulRuns.exists_mem_of_mapM_ok hps
    (List.mem_filter.2 ⟨ho, by simpa using hast⟩)
  cases hop.symm.trans hop'
  exact hp

theorem get?_of_derivePackages {uris : List String} {ts : List NodeType} {n : QualifiedName}
    {t : NodeType} (h : derivePackages m uris catalog = .ok ts catalog')
    (hget : catalog'.get? n = some t) :
    (∃ t, catalog.get? n = some t) ∨ ∃ c ∈ m.classRefs uris, typeName m c = .ok n := by
  by_cases hn : ∃ c ∈ m.classRefs uris, typeName m c = .ok n
  · exact .inr hn
  · push Not at hn
    exact .inl ⟨t, by rw [← get?_derivePackages_of_ne h hn, hget]⟩

end Derivation

/-- Packages that can be added to the built-in ones: no two packages have the same name. -/
structure UserPackages (users : List Package) : Prop where
  names : ((Builtin.astPackage :: Builtin.tracePackage :: users).map (·.name)).Nodup

/-- The metamodel of the built-in packages and some others. -/
def Metamodel.ofPackages (users : List Package) : Metamodel :=
  users.foldl Metamodel.add Metamodel.initial

theorem Metamodel.entries_ofPackages {users : List Package}
    (h : (astUri :: traceUri :: users.map (·.uri)).Nodup) :
    (ofPackages users).packages.entries = (astUri, Builtin.astPackage) ::
      (traceUri, Builtin.tracePackage) :: users.map fun p => (p.uri, p) := by
  have hfold : ∀ (ps : List Package) (m : Metamodel), (ps.foldl add m).packages =
      (ps.map fun p => (p.uri, p)).foldl (fun t e => t.insert e.1 e.2) m.packages := by
    intro ps
    induction ps with
    | nil => exact fun m => rfl
    | cons p ps ih => exact fun m => ih (m.add p)
  have hlist : (ofPackages users).packages = Table.ofList ((astUri, Builtin.astPackage) ::
      (traceUri, Builtin.tracePackage) :: users.map fun p => (p.uri, p)) := hfold users _
  rw [hlist, Table.entries_ofList]
  simpa [Function.comp_def] using h

namespace UserPackages

variable {users : List Package} {m : Metamodel} {uri : String} {p : Package}

theorem package?_foldl (hp : (users.foldl Metamodel.add m).package? uri = some p) :
    p ∈ users ∨ uri ∉ users.map (·.uri) ∧ m.package? uri = some p := by
  induction users generalizing m with
  | nil => exact .inr ⟨by simp, hp⟩
  | cons q users ih =>
    rcases ih hp with h | ⟨hnot, h⟩
    · exact .inl (by simp [h])
    · rw [Metamodel.package?, Metamodel.add, Table.get?_insert] at h
      split at h
      · exact .inl (by simp [Option.some.inj h])
      · rename_i hne
        refine .inr ⟨?_, h⟩
        simp only [List.map_cons, List.mem_cons, not_or]
        exact ⟨fun he => hne he.symm, hnot⟩

theorem package?_ofPackages (hp : (Metamodel.ofPackages users).package? uri = some p) :
    p ∈ Builtin.astPackage :: Builtin.tracePackage :: users ∧
      (uri ∈ users.map (·.uri) ∨ p.name = Builtin.astPackage.name ∨
        p.name = Builtin.tracePackage.name) := by
  have huri := Metamodel.uri_eq hp
  rcases package?_foldl hp with h | ⟨-, h⟩
  · exact ⟨by simp [h], .inl (List.mem_map.2 ⟨p, h, huri⟩)⟩
  · have hbuiltin : p = Builtin.astPackage ∨ p = Builtin.tracePackage := by
      rw [Metamodel.initial, Metamodel.package?, Metamodel.add, Table.get?_insert] at h
      split at h
      · exact .inr (Option.some.inj h).symm
      · rw [Metamodel.add, Table.get?_insert] at h
        split at h
        · exact .inl (Option.some.inj h).symm
        · cases h
    rcases hbuiltin with rfl | rfl
    · exact ⟨by simp, .inr (.inl rfl)⟩
    · exact ⟨by simp, .inr (.inr rfl)⟩

theorem mem_uris_of_generic {c : ClassifierRef} {n : QualifiedName} {t : NodeType}
    (hn : (Metamodel.ofPackages users).qualifiedName c = .ok n)
    (ht : TypeCatalog.initial.get? n = some t) : c.uri ∈ users.map (·.uri) := by
  have hgeneric : ∀ e ∈ TypeCatalog.initial.nodeTypes.entries,
      e.1.package ≠ Builtin.astPackage.name ∧ e.1.package ≠ Builtin.tracePackage.name := by
    decide
  have hname := hgeneric _ (Table.get?_eq_some_iff.1 ht)
  obtain ⟨p, hp, rfl⟩ := Metamodel.qualifiedName_ok hn
  rcases (package?_ofPackages hp).2 with h | h | h
  · exact h
  · exact absurd h hname.1
  · exact absurd h hname.2

section

variable (hu : UserPackages users)
include hu

theorem nodup_names : ((Metamodel.ofPackages users).packages.values.map (·.name)).Nodup := by
  rw [Table.values, List.map_map]
  refine List.Nodup.map_on ?_ (Metamodel.ofPackages users).packages.nodup.of_map
  intro e he e' he' hname
  have hp := Table.get?_eq_some_iff.2 he
  have hp' := Table.get?_eq_some_iff.2 he'
  have hsame : e.2 = e'.2 := List.inj_on_of_nodup_map hu.names (package?_ofPackages hp).1
    (package?_ofPackages hp').1 hname
  have hkey : e.1 = e'.1 := by
    rw [← Metamodel.uri_eq hp, ← Metamodel.uri_eq hp', hsame]
  exact Prod.ext hkey hsame

variable {ts : List NodeType} {catalog : TypeCatalog}
  (hrun : Derivation.derivePackages (.ofPackages users) (users.map (·.uri)) .initial =
    .ok ts catalog)
include hrun

theorem mem_classRefs_of_get? {c : ClassifierRef} {d : ClassDecl} {n : QualifiedName} {t : NodeType}
    (hc : (Metamodel.ofPackages users).class? c = some d)
    (hn : (Metamodel.ofPackages users).qualifiedName c = .ok n) (ht : catalog.get? n = some t) :
    c ∈ (Metamodel.ofPackages users).classRefs (users.map (·.uri)) := by
  rcases Derivation.get?_of_derivePackages hrun ht with ⟨t', ht'⟩ | ⟨c', hc', hn'⟩
  · exact Metamodel.mem_classRefs.2 ⟨mem_uris_of_generic hn ht', d, hc⟩
  · rwa [Metamodel.qualifiedName_inj hu.nodup_names hn (Derivation.of_mapError_ok hn')]

theorem faithful (hfeatures : ∀ c ∈ (Metamodel.ofPackages users).classRefs (users.map (·.uri)),
      (Metamodel.ofPackages users).Unambiguous c) :
    ∀ c ∈ (Metamodel.ofPackages users).classRefs (users.map (·.uri)),
      Derivation.Faithful (.ofPackages users) catalog c := by
  obtain ⟨order, hf, hmem, hsettled⟩ := Derivation.settled_of_derivePackages hu.nodup_names
    (fun c _ s _ _ hknown => by
      rcases hknown with hs | hs | ⟨n, hn, hsome⟩
      · exact .inl (Metamodel.mem_classRefs.1 hs).1
      · exact .inr hs
      · obtain ⟨t, ht⟩ := Option.isSome_iff_exists.1 hsome
        exact .inl (mem_uris_of_generic (Derivation.of_mapError_ok hn) ht)) hrun
  exact Derivation.faithful_of_settled hf hmem hsettled fun c hc =>
    Derivation.keepsInherited_of_unambiguous (hsettled c hc).1 (hfeatures c hc)

end

end UserPackages

end TreeInterchange
