import TreeInterchange.Proofs.SupertypeSearches

/-!
# Features along the hierarchy

The way up from a class is followed until it meets no more classes, and a class that is met
again on it stops the search. As no way without repetition is longer than the number of classes,
a greater bound never changes the answer. There is a feature list just when all classes on the
way up are there and none stands above itself.

The list of a class is made from the lists of its direct supertypes: what they have, the first
of each name, and then what the class declares, the last of each name. So a class has every
feature name that a class above it has.
-/

namespace TreeInterchange

namespace OwnedFeature

theorem findSome?_named?_of_mem_combine {c : ClassifierRef} {inherited : List (List OwnedFeature)}
    {own : List Feature} {o : OwnedFeature} (ho : o ∈ combine c inherited own)
    (hown : o.feature.name ∉ own.map (·.name)) :
    inherited.findSome? (named? · o.feature.name) = some o := by
  have hself : named? (combine c inherited own) o.feature.name = some o := by
    obtain ⟨g, hg⟩ := Option.isSome_iff_exists.1 (named?_isSome.2 (List.mem_map_of_mem ho))
    have hname : g.feature.name = o.feature.name := by simpa using List.find?_some hg
    rw [hg, List.inj_on_of_nodup_map (nodup_combine c inherited own) (List.mem_of_find?_eq_some hg)
      ho hname]
  have hnone : own.reverse.find? (·.name = o.feature.name) = none := by
    rw [List.find?_eq_none]
    intro f hf
    simpa using fun he : f.name = o.feature.name =>
      hown (List.mem_map.2 ⟨f, List.mem_reverse.1 hf, he⟩)
  rwa [named?_combine, hnone, Option.map_none, Option.none_or, named?,
    List.find?_flatten] at hself

end OwnedFeature

namespace Metamodel

variable {m : Metamodel} {c s : ClassifierRef} {steps steps' : Nat}
  {path path' : List ClassifierRef} {os : List OwnedFeature}

theorem featuresWithin_mono (h : m.featuresWithin steps path c = .ok os) (hsteps : steps ≤ steps')
    (hpath : path' ⊆ path) : m.featuresWithin steps' path' c = .ok os := by
  induction steps generalizing steps' path path' c os with
  | zero => cases h
  | succ steps ih =>
    obtain ⟨hnot, d, inherited, hd, hin, rfl⟩ := featuresWithin_succ h
    obtain ⟨k, rfl⟩ : ∃ k, steps' = k + 1 := ⟨steps' - 1, by omega⟩
    have hin' : d.supertypes.mapM (m.featuresWithin k (c :: path')) = .ok inherited := by
      apply StatefulRuns.mapM_ok_of_forall₂
      refine (StatefulRuns.forall₂_of_mapM_ok hin).imp fun s gs hs => ?_
      exact ih hs (by omega) (List.cons_subset_cons c hpath)
    rw [featuresWithin, if_neg fun hc => hnot (hpath hc), hd]
    simp only [bind, Except.bind, hin']
    rfl

/-- Two bounds that both leave a step for each class that is not on the path give one answer. -/
theorem featuresWithin_eq_of_lt (hnodup : path.Nodup) (hkeys : path ⊆ m.classifierKeys)
    (h : m.classifierKeys.length < steps + path.length)
    (h' : m.classifierKeys.length < steps' + path.length) :
    m.featuresWithin steps path c = m.featuresWithin steps' path c := by
  induction steps generalizing steps' path c with
  | zero =>
    have hlength := (List.subperm_of_subset hnodup hkeys).length_le
    omega
  | succ steps ih =>
    have hlength := (List.subperm_of_subset hnodup hkeys).length_le
    obtain ⟨k, rfl⟩ : ∃ k, steps' = k + 1 := ⟨steps' - 1, by omega⟩
    unfold featuresWithin
    split
    · rfl
    rename_i hnot
    cases hd : m.requireClass c with
    | error e => rfl
    | ok d =>
      have hkeys' : c :: path ⊆ m.classifierKeys :=
        List.cons_subset.2 ⟨mem_classifierKeys (requireClass_eq_ok.1 hd), hkeys⟩
      have hsupertypes : d.supertypes.mapM (m.featuresWithin steps (c :: path)) =
          d.supertypes.mapM (m.featuresWithin k (c :: path)) := by
        apply StatefulRuns.mapM_congr
        intro s _
        exact ih (List.nodup_cons.2 ⟨hnot, hnodup⟩) hkeys' (by rw [List.length_cons]; omega)
          (by rw [List.length_cons]; omega)
      simp only [bind, Except.bind, hsupertypes]

theorem featuresWithin_eq_ownedFeatures (h : m.classifierKeys.length < steps) :
    m.featuresWithin steps [] c = m.ownedFeatures c :=
  featuresWithin_eq_of_lt List.nodup_nil (List.nil_subset _) (by simpa using h) (by simp)

theorem grounded_of_featuresWithin (h : m.featuresWithin steps path c = .ok os) :
    m.Grounded c := by
  induction steps generalizing path c os with
  | zero => cases h
  | succ steps ih =>
    obtain ⟨-, d, inherited, hd, hin, -⟩ := featuresWithin_succ h
    refine .intro (requireClass_eq_ok.1 hd) fun s hs => ?_
    obtain ⟨gs, -, hgs⟩ := StatefulRuns.exists_mem_of_mapM_ok hin hs
    exact ih hgs

theorem exists_ownedFeatures_iff : (∃ os, m.ownedFeatures c = .ok os) ↔ m.Grounded c :=
  ⟨fun ⟨_, h⟩ => grounded_of_featuresWithin h, Grounded.ownedFeatures_ok⟩

theorem Grounded.inherits (h : m.Grounded c) (hs : m.Inherits c s) : m.Grounded s := by
  induction hs with
  | refl => exact h
  | tail _ hstep ih => exact ih.supertype hstep

/-- The way up ends just when it meets only classes and none of them again above itself. -/
theorem grounded_iff : m.Grounded c ↔
    ∀ s, m.Inherits c s → (∃ d, m.class? s = some d) ∧ ¬ Relation.TransGen m.IsSupertype s s := by
  constructor
  · intro h s hs
    have hground := h.inherits hs
    refine ⟨?_, hground.not_above⟩
    cases hground with
    | intro hd _ => exact ⟨_, hd⟩
  · intro h
    by_contra hc
    classical
    -- Of the classes above that are not grounded, take one that has none of them above itself.
    let stuck := m.classifierKeys.filter fun s => m.Inherits c s ∧ ¬ m.Grounded s
    have hstuck : ∀ s, m.Inherits c s → ¬ m.Grounded s → s ∈ stuck := by
      intro s hs hnot
      obtain ⟨d, hd⟩ := (h s hs).1
      exact List.mem_filter.2 ⟨mem_classifierKeys hd, by simp [hs, hnot]⟩
    have hmem : ∀ s ∈ stuck, m.Inherits c s ∧ ¬ m.Grounded s := by
      intro s hs
      simpa using (List.mem_filter.1 hs).2
    obtain ⟨s, hs, hfirst⟩ := exists_first_of_acyclic (R := m.IsSupertype)
      (List.ne_nil_of_mem (hstuck c .refl hc)) fun s hs => (h s (hmem s hs).1).2
    obtain ⟨hway, hnot⟩ := hmem s hs
    obtain ⟨d, hd⟩ := (h s hway).1
    apply hnot
    refine .intro hd fun t ht => ?_
    have hstep : t ∈ m.supertypes s := supertypes_eq hd ▸ ht
    by_contra ht'
    exact hfirst t (hstuck t (hway.tail hstep) ht') hstep

theorem ownedFeatures_eq_combine (h : m.ownedFeatures c = .ok os) :
    ∃ d lists, m.class? c = some d ∧ d.supertypes.mapM m.ownedFeatures = .ok lists ∧
      os = OwnedFeature.combine c lists d.features := by
  obtain ⟨-, d, lists, hd, hin, rfl⟩ := featuresWithin_succ h
  refine ⟨d, lists, requireClass_eq_ok.1 hd, ?_, rfl⟩
  apply StatefulRuns.mapM_ok_of_forall₂
  refine (StatefulRuns.forall₂_of_mapM_ok hin).imp fun s gs hs => ?_
  exact featuresWithin_mono hs (Nat.le_succ _) (List.nil_subset _)

theorem names_subset_of_inherits (h : m.ownedFeatures c = .ok os) (hs : m.Inherits c s) :
    ∃ ss, m.ownedFeatures s = .ok ss ∧ OwnedFeature.names ss ⊆ OwnedFeature.names os := by
  obtain ⟨ss, hss⟩ := ((grounded_of_featuresWithin h).inherits hs).ownedFeatures_ok
  refine ⟨ss, hss, fun name hname => ?_⟩
  obtain ⟨o, ho, rfl⟩ := List.mem_map.1 hname
  obtain ⟨hway, hdeclared⟩ := hasFeature_of_mem hss ho
  exact mem_names_of_hasFeature h ⟨hs.trans hway, hdeclared⟩

/-- The features of a class, inherited ones first: those that the supertypes have and the class
does not declare, each from the first supertype with its name, and then those that it declares. -/
structure IsFeatureList (m : Metamodel) (c : ClassifierRef) (os : List OwnedFeature) : Prop where
  distinct : (OwnedFeature.names os).Nodup
  listed : ∃ d lists, m.class? c = some d ∧ d.supertypes.mapM m.ownedFeatures = .ok lists ∧
    os = (OwnedFeature.firstOfEachName lists.flatten).filter
        (fun o => o.feature.name ∉ d.features.map (·.name)) ++
      (OwnedFeature.lastOfEachName d.features).map (fun f => ⟨c, f⟩) ∧
    ∀ o ∈ os, o.feature.name ∉ d.features.map (·.name) →
      lists.findSome? (OwnedFeature.named? · o.feature.name) = some o
  above : ∀ s, m.isSubclass c s = true →
    ∃ ss, m.ownedFeatures s = .ok ss ∧ OwnedFeature.names ss ⊆ OwnedFeature.names os

/-- No bound beyond the number of classes changes the features of a class. The class has a
feature list just when all that is above it are classes and none of them is above itself, and the
list is what its supertypes and its own declarations make of it. -/
theorem ownedFeatures_isFeatureList (m : Metamodel) (c : ClassifierRef) :
    (∀ steps, m.classifierKeys.length < steps →
      m.featuresWithin steps [] c = m.ownedFeatures c) ∧
    ((∃ os, m.ownedFeatures c = .ok os) ↔
      ∀ s, m.Inherits c s →
        (∃ d, m.class? s = some d) ∧ ¬ Relation.TransGen m.IsSupertype s s) ∧
    ∀ os, m.ownedFeatures c = .ok os → m.IsFeatureList c os := by
  refine ⟨fun _ => featuresWithin_eq_ownedFeatures, exists_ownedFeatures_iff.trans grounded_iff,
    fun os h => ?_⟩
  obtain ⟨d, lists, hd, hlists, rfl⟩ := ownedFeatures_eq_combine h
  refine ⟨OwnedFeature.nodup_combine c lists d.features, ⟨d, lists, hd, hlists, ?_, ?_⟩, ?_⟩
  · exact OwnedFeature.combine_eq c lists d.features
  · exact fun o => OwnedFeature.findSome?_named?_of_mem_combine
  · exact fun s hs => names_subset_of_inherits h (isSubclass_iff.1 hs)

end Metamodel

end TreeInterchange
