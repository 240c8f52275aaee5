import Mathlib.Data.List.Nodup
import TreeInterchange.Metamodel.Inheritance
import TreeInterchange.Proofs.StatefulRuns

/-!
# Feature lists of classes

A feature list names each feature once: inherited features are added only under a new name,
and own features displace what has their name.
-/

namespace TreeInterchange

namespace OwnedFeature

def names (fs : List OwnedFeature) : List String := fs.map (·.feature.name)

theorem names_addNew (fs : List OwnedFeature) (f : OwnedFeature) :
    names (addNew fs f) =
      if f.feature.name ∈ names fs then names fs else names fs ++ [f.feature.name] := by
  unfold addNew names
  by_cases h : fs.any (·.feature.name = f.feature.name)
  · rw [if_pos h, if_pos]
    obtain ⟨g, hg, he⟩ := List.any_eq_true.1 h
    exact List.mem_map.2 ⟨g, hg, by simpa using he⟩
  · rw [if_neg h, if_neg, List.map_append]
    · rfl
    · intro hm
      obtain ⟨g, hg, he⟩ := List.mem_map.1 hm
      exact h (List.any_eq_true.2 ⟨g, hg, by simpa using he⟩)

theorem nodup_addNew {fs : List OwnedFeature} (h : (names fs).Nodup) (f : OwnedFeature) :
    (names (addNew fs f)).Nodup := by
  rw [names_addNew]
  split
  · exact h
  · rename_i hn
    refine List.nodup_append.2 ⟨h, by simp, ?_⟩
    rintro a ha b hb rfl
    exact hn (List.mem_singleton.1 hb ▸ ha)

theorem nodup_displace {fs : List OwnedFeature} (h : (names fs).Nodup) (f : OwnedFeature) :
    (names (displace fs f)).Nodup := by
  unfold displace
  rw [names, List.map_append]
  refine List.nodup_append.2 ⟨(List.Sublist.map _ List.filter_sublist).nodup h, by simp, ?_⟩
  rintro a ha b hb rfl
  obtain ⟨g, hg, rfl⟩ := List.mem_map.1 ha
  simp only [List.map_cons, List.map_nil, List.mem_singleton] at hb
  have hne := (List.mem_filter.1 hg).2
  simp [hb] at hne

theorem nodup_foldl {step : List OwnedFeature → OwnedFeature → List OwnedFeature}
    (hstep : ∀ fs f, (names fs).Nodup → (names (step fs f)).Nodup) (gs fs : List OwnedFeature)
    (h : (names fs).Nodup) : (names (gs.foldl step fs)).Nodup := by
  induction gs generalizing fs with
  | nil => exact h
  | cons g gs ih => exact ih (step fs g) (hstep fs g h)

theorem nodup_combine (c : ClassifierRef) (inherited : List (List OwnedFeature))
    (own : List Feature) : (names (combine c inherited own)).Nodup :=
  nodup_foldl (fun _ f h => nodup_displace h f) _ _
    (nodup_foldl (fun _ f h => nodup_addNew h f) _ _ (by simp [names]))

/-- The last feature of each name, in the order in which they stand. -/
def lastOfEachName : List Feature → List Feature
  | [] => []
  | f :: fs => if f.name ∈ fs.map (·.name) then lastOfEachName fs else f :: lastOfEachName fs

theorem lastOfEachName_eq_self {fs : List Feature} (h : (fs.map (·.name)).Nodup) :
    lastOfEachName fs = fs := by
  induction fs with
  | nil => rfl
  | cons f fs ih =>
    obtain ⟨hf, hfs⟩ := List.nodup_cons.1 h
    rw [lastOfEachName, if_neg hf, ih hfs]

theorem foldl_displace_eq (c : ClassifierRef) (own : List Feature) (fs : List OwnedFeature) :
    (own.map fun f => ⟨c, f⟩).foldl displace fs =
      fs.filter (fun o => o.feature.name ∉ own.map (·.name)) ++
        (lastOfEachName own).map fun f => ⟨c, f⟩ := by
  induction own generalizing fs with
  | nil => simp [lastOfEachName]
  | cons g own ih =>
    have hfilter : (fs.filter (·.feature.name ≠ g.name)).filter
          (fun o => o.feature.name ∉ own.map (·.name)) =
        fs.filter fun o => o.feature.name ∉ (g :: own).map (·.name) := by
      rw [List.filter_filter]
      apply List.filter_congr
      intro o _
      by_cases ho : o.feature.name = g.name <;> simp [ho]
    rw [List.map_cons, List.foldl_cons, ih, displace, List.filter_append, hfilter, lastOfEachName]
    by_cases hg : g.name ∈ own.map (·.name)
    · rw [if_pos hg, List.filter_cons_of_neg (by simpa using hg), List.filter_nil,
        List.append_nil]
    · rw [if_neg hg, List.filter_cons_of_pos (by simpa using hg), List.filter_nil,
        List.append_assoc]
      rfl

/-- The first feature of each name, in the order in which they stand. -/
def firstOfEachName : List OwnedFeature → List OwnedFeature
  | [] => []
  | o :: os => o :: (firstOfEachName os).filter (·.feature.name ≠ o.feature.name)

theorem firstOfEachName_eq_self {os : List OwnedFeature} (h : (names os).Nodup) :
    firstOfEachName os = os := by
  induction os with
  | nil => rfl
  | cons o os ih =>
    obtain ⟨ho, hos⟩ := List.nodup_cons.1 h
    rw [firstOfEachName, ih hos, List.filter_eq_self.2]
    intro g hg
    have hne : g.feature.name ≠ o.feature.name := fun he => ho (List.mem_map.2 ⟨g, hg, he⟩)
    simpa using hne

theorem foldl_addNew_eq (gs fs : List OwnedFeature) :
    gs.foldl addNew fs = fs ++ (firstOfEachName gs).filter (·.feature.name ∉ names fs) := by
  induction gs generalizing fs with
  | nil => simp [firstOfEachName]
  | cons g gs ih =>
    have hany : fs.any (·.feature.name = g.feature.name) = true ↔ g.feature.name ∈ names fs := by
      simp [names]
    rw [List.foldl_cons, ih, addNew, firstOfEachName]
    by_cases hg : g.feature.name ∈ names fs
    · rw [if_pos (hany.2 hg), List.filter_cons_of_neg (by simpa using hg), List.filter_filter]
      congr 1
      apply List.filter_congr
      intro o _
      by_cases ho : o.feature.name = g.feature.name <;> simp [ho, hg]
    · rw [if_neg (mt hany.1 hg), List.filter_cons_of_pos (by simpa using hg), List.filter_filter,
        List.append_assoc, List.singleton_append]
      congr 2
      apply List.filter_congr
      intro o _
      by_cases ho : o.feature.name = g.feature.name <;> simp [names, ho]

/-- A feature list is what its class inherits, under the first of each name, and then its own. -/
theorem combine_eq (c : ClassifierRef) (inherited : List (List OwnedFeature))
    (own : List Feature) :
    combine c inherited own =
      (firstOfEachName inherited.flatten).filter (fun o => o.feature.name ∉ own.map (·.name)) ++
        (lastOfEachName own).map fun f => ⟨c, f⟩ := by
  rw [combine, foldl_displace_eq, foldl_addNew_eq]
  simp [names]

theorem combine_nil {c : ClassifierRef} {own : List Feature} (h : (own.map (·.name)).Nodup) :
    combine c [] own = own.map fun f => ⟨c, f⟩ := by
  rw [combine_eq, lastOfEachName_eq_self h]
  rfl

def named? (fs : List OwnedFeature) (name : String) : Option OwnedFeature :=
  fs.find? (·.feature.name = name)

theorem named?_addNew (fs : List OwnedFeature) (f : OwnedFeature) (name : String) :
    named? (addNew fs f) name = named? (fs ++ [f]) name := by
  unfold addNew named?
  split
  · rename_i h
    rw [List.find?_append]
    cases hn : fs.find? (·.feature.name = name) with
    | some g => rfl
    | none =>
      obtain ⟨g, hg, he⟩ := List.any_eq_true.1 h
      have hne := List.find?_eq_none.1 hn g hg
      simp only [decide_eq_true_eq] at he hne
      simp [← he, hne]
  · rfl

theorem named?_inherited (gs fs : List OwnedFeature) (name : String) :
    named? (gs.foldl addNew fs) name = named? (fs ++ gs) name := by
  induction gs generalizing fs with
  | nil => simp
  | cons g gs ih =>
    rw [List.foldl_cons, ih, ← List.singleton_append, ← List.append_assoc]
    have hone := named?_addNew fs g name
    simp only [named?, List.find?_append] at hone ⊢
    rw [hone]

theorem named?_displace (fs : List OwnedFeature) (f : OwnedFeature) (name : String) :
    named? (displace fs f) name = if f.feature.name = name then some f else named? fs name := by
  unfold displace named?
  rw [List.find?_append]
  by_cases hf : f.feature.name = name
  · have hnone : (fs.filter (·.feature.name ≠ f.feature.name)).find? (·.feature.name = name) =
        none := by
      rw [List.find?_eq_none]
      intro g hg
      simpa [hf] using (List.mem_filter.1 hg).2
    rw [hnone]
    simp [hf]
  · have hkept : (fs.filter (·.feature.name ≠ f.feature.name)).find? (·.feature.name = name) =
        fs.find? (·.feature.name = name) := by
      rw [List.find?_filter]
      congr 1
      funext g
      by_cases hg : g.feature.name = name
      · simp [hg, Ne.symm hf]
      · simp [hg]
    rw [hkept]
    simp [hf]

theorem named?_combine (c : ClassifierRef) (inherited : List (List OwnedFeature))
    (own : List Feature) (name : String) :
    named? (combine c inherited own) name =
      ((own.reverse.find? (·.name = name)).map fun f => ⟨c, f⟩).or
        (named? inherited.flatten name) := by
  have hfold : ∀ (own : List Feature) (fs : List OwnedFeature),
      named? ((own.map fun f => ⟨c, f⟩).foldl displace fs) name =
        ((own.reverse.find? (·.name = name)).map fun f => ⟨c, f⟩).or (named? fs name) := by
    intro own
    induction own with
    | nil => simp
    | cons g own ih =>
      intro fs
      rw [List.map_cons, List.foldl_cons, ih, named?_displace, List.reverse_cons,
        List.find?_append]
      cases own.reverse.find? (·.name = name) with
      | some h => rfl
      | none => by_cases hg : g.name = name <;> simp [hg]
  rw [combine, hfold, named?_inherited, List.nil_append]

end OwnedFeature

namespace Metamodel

variable {m : Metamodel} {c : ClassifierRef}

theorem requireClass_eq_ok {d : ClassDecl} : m.requireClass c = .ok d ↔ m.class? c = some d := by
  unfold requireClass requirePackage class?
  cases m.package? c.uri with
  | none => simp [bind, Except.bind]
  | some p =>
    cases h : p.class? c.name with
    | none => simp [bind, Except.bind, h, throw, throwThe, MonadExceptOf.throw]
    | some d' => simp [bind, Except.bind, h, pure, Except.pure]

theorem supertypes_eq {d : ClassDecl} (h : m.class? c = some d) :
    m.supertypes c = d.supertypes := by
  rw [supertypes, h]
  rfl

theorem featuresWithin_succ {steps : Nat} {path : List ClassifierRef} {fs : List OwnedFeature}
    (h : m.featuresWithin (steps + 1) path c = .ok fs) :
    c ∉ path ∧ ∃ d inherited, m.requireClass c = .ok d ∧
      d.supertypes.mapM (m.featuresWithin steps (c :: path)) = .ok inherited ∧
      fs = OwnedFeature.combine c inherited d.features := by
  unfold featuresWithin at h
  split at h
  · cases h
  · rename_i hc
    refine ⟨hc, ?_⟩
    cases hd : m.requireClass c with
    | error e => rw [hd] at h; cases h
    | ok d =>
      rw [hd] at h
      cases hi : d.supertypes.mapM (m.featuresWithin steps (c :: path)) with
      | error e => simp [bind, Except.bind, hi] at h
      | ok inherited =>
        simp only [bind, Except.bind, hi, pure, Except.pure, Except.ok.injEq] at h
        exact ⟨d, inherited, rfl, hi, h.symm⟩

theorem class?_of_featuresWithin {steps : Nat} {path : List ClassifierRef} {fs : List OwnedFeature}
    (h : m.featuresWithin steps path c = .ok fs) : ∃ d, m.class? c = some d := by
  cases steps with
  | zero => cases h
  | succ steps =>
    obtain ⟨-, d, -, hd, -⟩ := featuresWithin_succ h
    exact ⟨d, requireClass_eq_ok.1 hd⟩

theorem class?_of_supertype {fs : List OwnedFeature} (h : m.ownedFeatures c = .ok fs)
    {s : ClassifierRef} (hs : s ∈ m.supertypes c) : ∃ d, m.class? s = some d := by
  obtain ⟨-, d, inherited, hd, hi, -⟩ := featuresWithin_succ h
  rw [supertypes_eq (requireClass_eq_ok.1 hd)] at hs
  obtain ⟨gs, -, hgs⟩ := StatefulRuns.exists_mem_of_mapM_ok hi hs
  exact class?_of_featuresWithin hgs

theorem mapM_featuresWithin_cons {steps : Nat} {path : List ClassifierRef} {first : ClassifierRef}
    {others : List ClassifierRef} {inherited : List (List OwnedFeature)}
    (h : (first :: others).mapM (m.featuresWithin steps path) = .ok inherited) :
    ∃ os rest, m.featuresWithin steps path first = .ok os ∧ inherited = os :: rest := by
  rw [List.mapM_cons] at h
  cases hos : m.featuresWithin steps path first with
  | error e => rw [hos] at h; cases h
  | ok os =>
    rw [hos] at h
    cases hrest : others.mapM (m.featuresWithin steps path) with
    | error e => simp [bind, Except.bind, hrest] at h
    | ok rest =>
      simp only [bind, Except.bind, hrest, pure, Except.pure, Except.ok.injEq] at h
      exact ⟨os, rest, rfl, h.symm⟩

theorem nodup_ownedFeatures {fs : List OwnedFeature} (h : m.ownedFeatures c = .ok fs) :
    (OwnedFeature.names fs).Nodup := by
  obtain ⟨-, d, inherited, -, -, rfl⟩ := featuresWithin_succ h
  exact OwnedFeature.nodup_combine c inherited d.features

theorem features_eq_ok {fs : List Feature} :
    m.features c = .ok fs ↔ ∃ os, m.ownedFeatures c = .ok os ∧ fs = os.map (·.feature) := by
  unfold features
  cases m.ownedFeatures c with
  | error e => simp [bind, Except.bind]
  | ok os => simp [bind, Except.bind, pure, Except.pure, eq_comm]

theorem features_of_root {d : ClassDecl} (hd : m.class? c = some d) (hs : d.supertypes = [])
    (hn : (d.features.map (·.name)).Nodup) : m.features c = .ok d.features := by
  refine features_eq_ok.2 ⟨d.features.map fun f => ⟨c, f⟩, ?_, ?_⟩
  · rw [ownedFeatures, featuresWithin, if_neg List.not_mem_nil, requireClass_eq_ok.2 hd]
    simp only [bind, Except.bind, hs, List.mapM_nil, pure, Except.pure,
      OwnedFeature.combine_nil hn]
  · rw [List.map_map]
    exact (List.map_id _).symm

theorem find?_features {fs : List Feature} {os : List OwnedFeature}
    (h : fs = os.map (·.feature)) (name : String) :
    fs.find? (·.name = name) = (OwnedFeature.named? os name).map (·.feature) := by
  rw [h, List.find?_map]
  rfl

theorem nodup_features {fs : List Feature} (h : m.features c = .ok fs) :
    (fs.map (·.name)).Nodup := by
  obtain ⟨os, hos, rfl⟩ := features_eq_ok.1 h
  simpa [OwnedFeature.names, List.map_map, Function.comp_def] using nodup_ownedFeatures hos

end Metamodel

end TreeInterchange
