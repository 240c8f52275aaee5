import TreeInterchange.Proofs.FeatureInheritance

/-!
# The order in which classes are derived

Before any class is derived the classes of a batch are put into an order with supertypes first.
That fails if a supertype from outside has no type yet, or if the classes wait for each other in a
circle, and then no node type has been touched. Otherwise each class finds the types of all its
supertypes: those of the batch were derived before it, the others were there from the start, and
deriving a class takes no type away. So an error about supertypes comes from the ordering alone.
-/

namespace TreeInterchange

/-- An error that is not about supertypes: a reference leads nowhere, or a type is not valid. -/
def DerivationError.IsForeign : DerivationError → Prop
  | .missingSupertype _ _ => False
  | .cycle _ => False
  | .metamodel _ => True
  | .model _ => True

namespace Derivation

open StatefulRuns

variable {m : Metamodel} {catalog catalog' : TypeCatalog} {batch : List ClassifierRef}
  {c s : ClassifierRef}

/-- A class of the batch has a supertype that is neither in the batch nor built in, and that has
no type. -/
def Lacks (m : Metamodel) (catalog : TypeCatalog) (batch : List ClassifierRef)
    (c s : ClassifierRef) : Prop :=
  c ∈ batch ∧ s ∈ m.supertypes c ∧ s ∉ batch ∧ s.uri ≠ astUri ∧
    ∃ n, typeName m s = .ok n ∧ catalog.get? n = none

/-- A class of the batch is its own supertype, at some distance, through classes of the batch. -/
def Circular (m : Metamodel) (batch : List ClassifierRef) (c : ClassifierRef) : Prop :=
  c ∈ batch ∧ Relation.TransGen (fun s c => s ∈ batchSupertypes m batch c) c c

/-- What an error of the ordering says about the batch. -/
def Justified (m : Metamodel) (catalog : TypeCatalog) (batch : List ClassifierRef) :
    DerivationError → Prop
  | .missingSupertype t n =>
    ∃ c s, Lacks m catalog batch c s ∧ typeName m c = .ok t ∧ typeName m s = .ok n
  | .cycle names => ∃ c, Circular m batch c ∧ c.name ∈ names
  | .metamodel _ => True
  | .model _ => True

theorem gives_mapError {ε α : Type} {wrap : ε → DerivationError} {allowed : DerivationError → Prop}
    (hwrap : ∀ e, allowed (wrap e)) (x : Except ε α) :
    Gives allowed (x.mapError wrap = .ok ·) (x.mapError wrap) := by
  cases x with
  | ok a => rfl
  | error e => exact hwrap e

theorem dependencies_gives (hc : c ∈ batch) {ss : List ClassifierRef} (hss : ss ⊆ m.supertypes c) :
    Gives (Justified m catalog batch) (fun _ => True) (dependencies m catalog batch c ss) := by
  induction ss with
  | nil => trivial
  | cons s ss ih =>
    obtain ⟨hs, hss⟩ := List.cons_subset.1 hss
    unfold dependencies
    split
    · exact (ih hss).bind fun _ _ => trivial
    rename_i hbatch
    split
    · exact ih hss
    rename_i hast
    refine (gives_mapError (fun _ => trivial) _).bind fun n hn => ?_
    split
    · exact ih hss
    rename_i hget
    refine (gives_mapError (fun _ => trivial) _).bind fun t ht => ?_
    exact ⟨c, s, ⟨hc, hs, hbatch, hast, n, hn, by simpa using hget⟩, ht, hn⟩

/-- Ordering the classes fails only for a reason that the classes give. -/
theorem supertypesFirst_gives (m : Metamodel) (catalog : TypeCatalog)
    (batch : List ClassifierRef) :
    Gives (Justified m catalog batch) (fun _ => True) (supertypesFirst m catalog batch) := by
  unfold supertypesFirst
  cases hwaiting : batch.mapM fun c => do
      let d ← requireClass m c
      return (c, ← dependencies m catalog batch c d.supertypes) with
  | error e =>
    obtain ⟨c, hc, he⟩ := exists_of_mapM_error hwaiting
    have hgives : Gives (Justified m catalog batch) (fun _ => True) (do
        let d ← requireClass m c
        return (c, ← dependencies m catalog batch c d.supertypes)) := by
      refine (gives_mapError (fun _ => trivial) _).bind fun d hd => ?_
      have hsub : d.supertypes ⊆ m.supertypes c := by rw [supertypes_eq hd]; simp
      exact (dependencies_gives hc hsub).bind fun _ _ => trivial
    rw [he] at hgives
    exact hgives
  | ok waiting =>
    obtain ⟨hfst, hsnd, -⟩ := waiting_batch_ok hwaiting
    refine (rounds_batch_gives hfst hsnd).imp_both ?_ fun _ _ => trivial
    rintro _ ⟨c, hc, hcircle, names, rfl, hname⟩
    exact ⟨c, ⟨hc, hcircle⟩, hname⟩

theorem Sorted.mem_before {order before after : List ClassifierRef} (hperm : order.Perm batch)
    (h : Sorted (batchSupertypes m batch) order) (horder : order = before ++ c :: after)
    (hs : s ∈ batchSupertypes m batch c) : s ∈ before ∧ s ∉ c :: after := by
  subst horder
  obtain ⟨hpairs, hself⟩ := h
  have hlater : s ∉ after := fun hmem =>
    (List.pairwise_cons.1 (List.pairwise_append.1 hpairs).2.1).1 s hmem hs
  have hne : s ≠ c := fun he => hself c (by simp) (he ▸ hs)
  have hnot : s ∉ c :: after := List.not_mem_cons_of_ne_of_not_mem hne hlater
  have hbatch : s ∈ batch := by simpa using (List.mem_filter.1 hs).2
  exact ⟨(List.mem_append.1 (hperm.symm.subset hbatch)).resolve_right hnot, hnot⟩

/-- A supertype is built in, or it has a type. -/
def HasType (m : Metamodel) (catalog : TypeCatalog) (s : ClassifierRef) : Prop :=
  s.uri = astUri ∨ ∃ n, typeName m s = .ok n ∧ (catalog.get? n).isSome

theorem HasType.put (h : HasType m catalog s) (t : NodeType) : HasType m (catalog.put t) s := by
  refine h.imp_right ?_
  rintro ⟨n, hn, hget⟩
  refine ⟨n, hn, ?_⟩
  rw [TypeCatalog.get?, TypeCatalog.put, Table.get?_insert]
  split
  · rfl
  · exact hget

theorem targetType_gives (m : Metamodel) (c : ClassifierRef) :
    Gives DerivationError.IsForeign (fun _ => True) (targetType m c) := by
  unfold targetType
  split
  · trivial
  · exact (gives_mapError (fun _ => trivial) _).bind fun _ _ => trivial

theorem propertyOf_gives (m : Metamodel) (f : Feature) :
    Gives DerivationError.IsForeign (fun _ => True) (propertyOf m f) := by
  obtain ⟨name, kind, type, lower, upper⟩ := f
  cases kind with
  | containment => exact (targetType_gives m type.classifier).bind fun _ _ => trivial
  | reference => exact (targetType_gives m type.classifier).bind fun _ _ => trivial
  | plain =>
    cases type with
    | ofClass c => trivial
    | ofData c storage => trivial
    | ofEnum c => exact (gives_mapError (fun _ => trivial) _).bind fun _ _ => trivial

theorem addProperties_gives (m : Metamodel) (t : NodeType) (fs : List OwnedFeature) :
    Gives DerivationError.IsForeign (fun _ => True) (addProperties m t fs) := by
  induction fs generalizing t with
  | nil => trivial
  | cons f fs ih =>
    unfold addProperties
    split
    · exact ih t
    · exact (propertyOf_gives m f.feature).bind fun _ _ => ih _

theorem addSupertypes_gives {name : QualifiedName} {extended : Bool} {t : NodeType}
    {ss : List ClassifierRef} (h : ∀ s ∈ ss, HasType m catalog s) :
    Gives DerivationError.IsForeign (fun _ => True)
      (addSupertypes m catalog name extended t ss) := by
  induction ss generalizing extended t with
  | nil => trivial
  | cons s ss ih =>
    obtain ⟨hs, hss⟩ := List.forall_mem_cons.1 h
    unfold addSupertypes
    split
    · exact ih hss
    rename_i hast
    obtain ⟨n, hn, hget⟩ := hs.resolve_left hast
    obtain ⟨parent, hparent⟩ := Option.isSome_iff_exists.1 hget
    rw [hn]
    simp only [bind, Except.bind, hparent]
    split
    · exact ih hss
    · exact ih hss

/-- A class whose supertypes have types is not refused for a supertype. -/
theorem nodeTypeOf_gives (h : ∀ s ∈ m.supertypes c, HasType m catalog s) :
    Gives DerivationError.IsForeign (fun _ => True) (nodeTypeOf m catalog c) := by
  refine (gives_mapError (fun _ => trivial) _).bind fun name _ => ?_
  refine (gives_mapError (fun _ => trivial) _).bind fun d hd => ?_
  refine (addSupertypes_gives (supertypes_eq hd ▸ h)).bind fun t _ => ?_
  exact (gives_mapError (fun _ => trivial) _).bind fun fs _ => addProperties_gives m t fs

theorem ends_lift {α : Type} {allowed : DerivationError → Prop} {result : α → Prop}
    {x : Except DerivationError α} (h : Gives allowed result x) :
    Ends allowed (fun a after => result a ∧ after = catalog) (lift x) catalog := by
  cases x with
  | ok a => exact ends_ok rfl ⟨h, rfl⟩
  | error e => exact ends_error rfl h

theorem ends_deriveClass (h : ∀ s ∈ m.supertypes c, HasType m catalog s) :
    Ends DerivationError.IsForeign
      (fun _ after => HasType m after c ∧ ∀ s, HasType m catalog s → HasType m after s)
      (deriveClass m c) catalog := by
  cases hrun : deriveClass m c catalog with
  | ok t after =>
    obtain ⟨ht, -, rfl⟩ := deriveClass_ok hrun
    refine ends_ok hrun ⟨.inr ⟨t.name, (nodeTypeOf_ok ht).1, ?_⟩, fun s hs => hs.put t⟩
    simp [TypeCatalog.put, TypeCatalog.get?]
  | error e after =>
    have hends : Ends DerivationError.IsForeign (fun _ _ => True) (deriveClass m c) catalog := by
      refine ends_bind_ok (a := catalog) (t := catalog) rfl ?_
      refine (ends_lift (nodeTypeOf_gives h)).bind fun t after hafter => ?_
      refine (ends_lift (gives_mapError (fun _ => trivial) _)).bind fun new after hnew => ?_
      exact ends_ok rfl trivial
    rw [Ends, hrun] at hends
    exact ends_error hrun hends

theorem ends_mapM_deriveClass {done cs : List ClassifierRef}
    (hf : Follows (batchSupertypes m batch) done cs) (hdone : ∀ s ∈ done, HasType m catalog s)
    (hknown : ∀ c ∈ cs, ∀ s ∈ m.supertypes c, s ∈ batch ∨ HasType m catalog s) :
    Ends DerivationError.IsForeign (fun _ _ => True) (cs.mapM (deriveClass m)) catalog := by
  induction cs generalizing done catalog with
  | nil => exact ends_ok rfl trivial
  | cons c cs ih =>
    obtain ⟨hc, hcs⟩ := List.forall_mem_cons.1 hknown
    have hsupertypes : ∀ s ∈ m.supertypes c, HasType m catalog s := by
      intro s hs
      refine (hc s hs).elim (fun hbatch => hdone s (hf.1 ?_)) id
      exact List.mem_filter.2 ⟨hs, by simpa using hbatch⟩
    rw [List.mapM_cons]
    refine (ends_deriveClass hsupertypes).bind fun t after hafter => ?_
    refine (ih hf.2 ?_ ?_).bind fun ts last _ => ends_ok rfl trivial
    · exact List.forall_mem_cons.2 ⟨hafter.1, fun s hs => hafter.2 s (hdone s hs)⟩
    · exact fun d hd s hs => (hcs d hd s hs).imp_right (hafter.2 s)

/-- An error about supertypes comes from the ordering, before any node type is touched. -/
theorem derivePackages_error {uris : List String} {e : DerivationError}
    (hloaded : ∀ uri ∈ uris, ∃ p, m.package? uri = some p)
    (h : derivePackages m uris catalog = .error e catalog') (he : ¬ e.IsForeign) :
    supertypesFirst m (collected m uris catalog) (m.classRefs uris) = .error e ∧
      catalog'.nodeTypes = catalog.nodeTypes := by
  rw [derivePackages_of_collect (collect_eq hloaded)] at h
  cases hfirst : supertypesFirst m (collected m uris catalog) (m.classRefs uris) with
  | error e' =>
    rw [hfirst] at h
    cases h
    exact ⟨rfl, nodeTypes_foldl_registerEnum (enumTypesIn m uris) catalog⟩
  | ok order =>
    obtain ⟨hf, hmem, hknown⟩ := supertypesFirst_ok hfirst
    have hends := ends_mapM_deriveClass hf (by simp) fun c hc => hknown c ((hmem c).1 hc)
    have hrun : order.mapM (deriveClass m) (collected m uris catalog) = .error e catalog' := by
      rwa [hfirst] at h
    rw [Ends, hrun] at hends
    exact absurd hends he

theorem justified_collected {uris : List String} {e : DerivationError}
    (h : Justified m (collected m uris catalog) batch e) : Justified m catalog batch e := by
  cases e with
  | missingSupertype t n => simpa only [Justified, Lacks, get?_collected] using h
  | cycle names => exact h
  | metamodel e => trivial
  | model e => trivial

/-- All references of the classes resolve: each class is there, and the supertypes that it names
belong to packages that are. -/
def Resolves (m : Metamodel) (batch : List ClassifierRef) : Prop :=
  ∀ c ∈ batch, (∃ d, m.class? c = some d) ∧ ∀ s ∈ m.supertypes c, ∃ n, typeName m s = .ok n

theorem Resolves.known (h : Resolves m batch) (hlacks : ∀ c s, ¬ Lacks m catalog batch c s)
    (hc : c ∈ batch) (hs : s ∈ m.supertypes c) : Known m catalog batch s := by
  by_contra hnot
  simp only [Known, not_or] at hnot
  obtain ⟨hbatch, hast, htype⟩ := hnot
  obtain ⟨n, hn⟩ := (h c hc).2 s hs
  refine hlacks c s ⟨hc, hs, hbatch, hast, n, hn, ?_⟩
  by_contra hget
  exact htype ⟨n, hn, Option.isSome_iff_ne_none.2 hget⟩

/-- Runs over loaded packages. If such a run fails for a missing supertype, some class has a
supertype that is neither among the classes nor built in and has no type; if it fails for a cycle,
some class is its own supertype. In both cases the node types are as before. Where neither is so
and all references resolve, the classes are derived in an order that has each of them after all
its supertypes among them. -/
theorem derivePackages_supertypesFirst {uris : List String}
    (hloaded : ∀ uri ∈ uris, ∃ p, m.package? uri = some p) :
    (∀ t n catalog', derivePackages m uris catalog = .error (.missingSupertype t n) catalog' →
      catalog'.nodeTypes = catalog.nodeTypes ∧
        ∃ c s, Lacks m catalog (m.classRefs uris) c s ∧ typeName m c = .ok t ∧
          typeName m s = .ok n) ∧
    (∀ names catalog', derivePackages m uris catalog = .error (.cycle names) catalog' →
      catalog'.nodeTypes = catalog.nodeTypes ∧
        ∃ c, Circular m (m.classRefs uris) c ∧ c.name ∈ names) ∧
    ((∀ c s, ¬ Lacks m catalog (m.classRefs uris) c s) →
      (∀ c, ¬ Circular m (m.classRefs uris) c) → Resolves m (m.classRefs uris) →
      ∃ order, order.Perm (m.classRefs uris) ∧
        (∀ before c after, order = before ++ c :: after →
          ∀ s ∈ batchSupertypes m (m.classRefs uris) c, s ∈ before ∧ s ∉ c :: after) ∧
        derivePackages m uris catalog = order.mapM (deriveClass m) (collected m uris catalog)) := by
  have hjustified : ∀ e,
      supertypesFirst m (collected m uris catalog) (m.classRefs uris) = .error e →
        Justified m catalog (m.classRefs uris) e := by
    intro e he
    have hgives := supertypesFirst_gives m (collected m uris catalog) (m.classRefs uris)
    rw [he] at hgives
    exact justified_collected hgives
  refine ⟨fun t n after h => ?_, fun names after h => ?_, fun hlacks hcircular hresolves => ?_⟩
  · obtain ⟨he, hsame⟩ := derivePackages_error hloaded h id
    exact ⟨hsame, hjustified _ he⟩
  · obtain ⟨he, hsame⟩ := derivePackages_error hloaded h id
    exact ⟨hsame, hjustified _ he⟩
  · have hknown : ∀ c ∈ m.classRefs uris, ∀ s ∈ m.supertypes c,
        Known m (collected m uris catalog) (m.classRefs uris) s := by
      intro c hc s hs
      simpa only [Known, get?_collected] using hresolves.known hlacks hc hs
    obtain ⟨order, horder, hperm, hsorted⟩ := supertypesFirst_of_acyclic
      (fun c hc => (hresolves c hc).1) hknown fun c hc hcycle => hcircular c ⟨hc, hcycle⟩
    exact ⟨order, hperm, fun before c after h s hs => hsorted.mem_before hperm h hs,
      derivePackages_eq (collect_eq hloaded) horder⟩

/-- Plants and labels are derived before trees, which are declared first. -/
theorem derivePackages_supertypesFirst_plants :
    (∀ uri ∈ ["urn:plants"], ∃ p, plants.package? uri = some p) ∧
    ∃ order, order.Perm (plants.classRefs ["urn:plants"]) ∧
      (∀ before c after, order = before ++ c :: after →
        ∀ s ∈ batchSupertypes plants (plants.classRefs ["urn:plants"]) c,
          s ∈ before ∧ s ∉ c :: after) ∧
      derivePackages plants ["urn:plants"] .initial =
        order.mapM (deriveClass plants) (collected plants ["urn:plants"] .initial) := by
  have hloaded : ∀ uri ∈ ["urn:plants"], ∃ p, plants.package? uri = some p := by
    simp only [List.forall_mem_singleton]
    exact ⟨plantsPackage, rfl⟩
  refine ⟨hloaded, (derivePackages_supertypesFirst hloaded).2.2 ?_ ?_ ?_⟩
  · rintro c s ⟨hc, hs, hbatch, hast, -⟩
    have hinside : ∀ c ∈ plants.classRefs ["urn:plants"], ∀ s ∈ plants.supertypes c,
        s ∈ plants.classRefs ["urn:plants"] ∨ s.uri = astUri := by decide +kernel
    exact (hinside c hc s hs).elim hbatch hast
  · rintro c ⟨hc, hcycle⟩
    have hlists : ∀ c ∈ plants.classRefs ["urn:plants"], (plants.ownedFeatures c).isOk := by
      decide +kernel
    cases hos : plants.ownedFeatures c with
    | ok os =>
      exact (Metamodel.grounded_of_featuresWithin hos).not_above
        (Relation.TransGen.mono (fun _ _ hs => List.mem_of_mem_filter hs) c c hcycle)
    | error e => simpa [hos, Except.isOk, Except.toBool] using hlists c hc
  · intro c hc
    have hnames : ∀ c ∈ plants.classRefs ["urn:plants"], (plants.class? c).isSome ∧
        ∀ s ∈ plants.supertypes c, (typeName plants s).isOk := by decide +kernel
    refine ⟨Option.isSome_iff_exists.1 (hnames c hc).1, fun s hs => ?_⟩
    cases hn : typeName plants s with
    | ok n => exact ⟨n, rfl⟩
    | error e => simpa [hn, Except.isOk, Except.toBool] using (hnames c hc).2 s hs

end Derivation

end TreeInterchange
