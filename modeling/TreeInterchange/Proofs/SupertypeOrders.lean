import Mathlib.Data.Fintype.Card
import Mathlib.Data.Set.Finite.List
import Mathlib.Logic.Relation
import TreeInterchange.Proofs.DerivedTypes

/-!
# Hierarchies in which the way up ends

A class is grounded when all its supertypes are classes that are grounded. Then no class above
it stands above itself, its features can be collected within the bound that the number of
classes sets, and grounded classes can be put into an order with supertypes first.
-/

namespace TreeInterchange

theorem exists_first_of_acyclic {α : Type} {R : α → α → Prop} {xs : List α} (hne : xs ≠ [])
    (h : ∀ x ∈ xs, ¬ Relation.TransGen R x x) : ∃ x ∈ xs, ∀ y ∈ xs, ¬ R y x := by
  let below : {x // x ∈ xs} → {x // x ∈ xs} → Prop := fun y x => Relation.TransGen R y x
  have hirrefl : Std.Irrefl below := ⟨fun x => h x x.2⟩
  have htrans : IsTrans _ below := ⟨fun _ _ _ => Relation.TransGen.trans⟩
  have hfinite : Finite {x // x ∈ xs} := xs.finite_toSet
  obtain ⟨x, hx⟩ := List.exists_mem_of_ne_nil xs hne
  obtain ⟨x, -, hfirst⟩ := (Finite.wellFounded_of_trans_of_irrefl below).has_min Set.univ
    ⟨⟨x, hx⟩, trivial⟩
  exact ⟨x, x.2, fun y hy hyx => hfirst ⟨y, hy⟩ trivial (.single hyx)⟩

namespace Metamodel

variable {m : Metamodel} {c s : ClassifierRef} {d : ClassDecl}

/-- A class whose supertypes are classes, and theirs, and so on until there are no more. -/
inductive Grounded (m : Metamodel) : ClassifierRef → Prop
  | intro {c : ClassifierRef} {d : ClassDecl} (hd : m.class? c = some d)
      (hs : ∀ s ∈ d.supertypes, Grounded m s) : Grounded m c

/-- One step of the way up from a class. -/
def IsSupertype (m : Metamodel) (s c : ClassifierRef) : Prop := s ∈ m.supertypes c

theorem Grounded.supertype (h : m.Grounded c) (hs : m.IsSupertype s c) : m.Grounded s := by
  cases h with
  | intro hd hall =>
    apply hall
    rwa [IsSupertype, supertypes_eq hd] at hs

theorem Grounded.not_above (h : m.Grounded c) : ¬ Relation.TransGen m.IsSupertype c c := by
  induction h with
  | @intro c d hd _ ih =>
    intro hc
    obtain ⟨s, hcs, hs⟩ := Relation.TransGen.tail'_iff.1 hc
    have hmem : s ∈ d.supertypes := by rwa [IsSupertype, supertypes_eq hd] at hs
    exact ih s hmem (Relation.TransGen.head' hs hcs)

theorem mem_classifierKeys (h : m.class? c = some d) : c ∈ m.classifierKeys := by
  obtain ⟨p, hp, hd⟩ := Option.bind_eq_some_iff.1 h
  obtain ⟨k, hk, -⟩ := Option.bind_eq_some_iff.1 hd
  refine List.mem_flatMap.2 ⟨(c.uri, p), Table.get?_eq_some_iff.1 hp, ?_⟩
  exact List.mem_map.2 ⟨c.name, Table.mem_keys_iff.2 ⟨k, hk⟩, rfl⟩

theorem Grounded.featuresWithin_ok (h : m.Grounded c) {path : List ClassifierRef} {steps : Nat}
    (hnodup : path.Nodup) (hkeys : path ⊆ m.classifierKeys)
    (habove : ∀ x ∈ path, Relation.TransGen m.IsSupertype c x)
    (hsteps : m.classifierKeys.length < steps + path.length) :
    ∃ os, m.featuresWithin steps path c = .ok os := by
  have hself := h.not_above
  induction h generalizing path steps with
  | @intro c d hd hs ih =>
    have hnot : c ∉ path := fun hc => hself (habove c hc)
    have hnodup' : (c :: path).Nodup := List.nodup_cons.2 ⟨hnot, hnodup⟩
    have hkeys' : c :: path ⊆ m.classifierKeys := List.cons_subset.2 ⟨mem_classifierKeys hd, hkeys⟩
    have hlength : path.length + 1 ≤ m.classifierKeys.length := by
      simpa using (List.subperm_of_subset hnodup' hkeys').length_le
    obtain ⟨k, rfl⟩ : ∃ k, steps = k + 1 := ⟨steps - 1, by omega⟩
    have hall : ∀ s ∈ d.supertypes, ∃ os, m.featuresWithin k (c :: path) s = .ok os := by
      intro s hsd
      have hstep : m.IsSupertype s c := by rwa [IsSupertype, supertypes_eq hd]
      apply ih s hsd hnodup' hkeys'
      · intro x hx
        rcases List.mem_cons.1 hx with rfl | hx
        · exact .single hstep
        · exact .head hstep (habove x hx)
      · rw [List.length_cons]
        omega
      · exact (hs s hsd).not_above
    obtain ⟨inherited, hin⟩ := StatefulRuns.exists_mapM_ok hall
    refine ⟨OwnedFeature.combine c inherited d.features, ?_⟩
    rw [featuresWithin, if_neg hnot, requireClass_eq_ok.2 hd]
    simp only [bind, Except.bind, hin]
    rfl

theorem Grounded.ownedFeatures_ok (h : m.Grounded c) : ∃ os, m.ownedFeatures c = .ok os := by
  apply h.featuresWithin_ok List.nodup_nil (List.nil_subset _) (by simp)
  simp

end Metamodel

namespace Derivation

variable {m : Metamodel} {catalog : TypeCatalog} {batch : List ClassifierRef} {c : ClassifierRef}

/-- Every entry comes after all that it needs: neither it nor a later one is needed by it. -/
def Sorted (needs : ClassifierRef → List ClassifierRef) (order : List ClassifierRef) : Prop :=
  order.Pairwise (fun c later => later ∉ needs c) ∧ ∀ c ∈ order, c ∉ needs c

/-- Some of the classes are kept from being ordered by a class that needs itself, and the error
names it. -/
def InCircle (needs : ClassifierRef → List ClassifierRef) (cs : List ClassifierRef)
    (e : DerivationError) : Prop :=
  ∃ c ∈ cs, Relation.TransGen (fun s c => s ∈ needs c) c c ∧
    ∃ names, e = .cycle names ∧ c.name ∈ names

/-- Among classes that wait for each other in no circle there is one that waits for nothing. -/
theorem exists_ready {needs : ClassifierRef → List ClassifierRef} {done : List ClassifierRef}
    {waiting : List Waiting} (hw : ∀ w ∈ waiting, w.2 = needs w.1)
    (hin : ∀ w ∈ waiting, ∀ s ∈ needs w.1, s ∈ done ∨ s ∈ waiting.map Prod.fst)
    (hne : waiting ≠ [])
    (hacyclic : ∀ c ∈ waiting.map Prod.fst, ¬ Relation.TransGen (fun s c => s ∈ needs c) c c) :
    waiting.any (isReady done) = true := by
  obtain ⟨c, hc, hfirst⟩ := exists_first_of_acyclic (by simpa using hne) hacyclic
  obtain ⟨w, hwm, rfl⟩ := List.mem_map.1 hc
  refine List.any_eq_true.2 ⟨w, hwm, List.all_eq_true.2 fun s hs => decide_eq_true ?_⟩
  rw [hw w hwm] at hs
  exact (hin w hwm s hs).resolve_right fun hwait => hfirst s hwait hs

/-- The classes of a round. -/
def readyClasses (done : List ClassifierRef) (waiting : List Waiting) : List ClassifierRef :=
  (waiting.filter (isReady done)).map Prod.fst

theorem readyClasses_append_blocked (done : List ClassifierRef) (waiting : List Waiting) :
    (readyClasses done waiting ++ (blocked done waiting).map Prod.fst).Perm
      (waiting.map Prod.fst) := by
  rw [readyClasses, ← List.map_append]
  exact (List.filter_append_perm (isReady done) waiting).map Prod.fst

/-- The rounds put all classes into an order with what they need first, or some of those that are
left over wait for each other. -/
theorem rounds_gives {needs : ClassifierRef → List ClassifierRef} {done : List ClassifierRef}
    {waiting : List Waiting} (hw : ∀ w ∈ waiting, w.2 = needs w.1)
    (hin : ∀ w ∈ waiting, ∀ s ∈ needs w.1, s ∈ done ∨ s ∈ waiting.map Prod.fst)
    (hnew : ∀ c ∈ waiting.map Prod.fst, c ∉ done) :
    StatefulRuns.Gives (InCircle needs (waiting.map Prod.fst))
      (fun order => ∃ cs, order = done ++ cs ∧ cs.Perm (waiting.map Prod.fst) ∧ Sorted needs cs)
      (rounds done waiting) := by
  induction hn : waiting.length using Nat.strongRecOn generalizing done waiting with
  | ind n ih =>
  rw [rounds]
  split
  · rename_i hnil
    exact ⟨[], by simp, by simp [hnil], .nil, by simp⟩
  rename_i hne
  split
  · rename_i hany
    have hperm := readyClasses_append_blocked done waiting
    have hready : ∀ c ∈ readyClasses done waiting, needs c ⊆ done := by
      intro c hc s hs
      obtain ⟨w, hb, rfl⟩ := List.mem_map.1 hc
      obtain ⟨hb, hr⟩ := List.mem_filter.1 hb
      exact of_decide_eq_true (List.all_eq_true.1 hr s (hw w hb ▸ hs))
    have hfree : ∀ c ∈ readyClasses done waiting, ∀ x ∈ waiting.map Prod.fst, x ∉ needs c :=
      fun c hc x hx hneed => hnew x hx (hready c hc hneed)
    have hblocked : ∀ w ∈ blocked done waiting, w ∈ waiting := fun w => List.mem_of_mem_filter
    have hin' : ∀ w ∈ blocked done waiting, ∀ s ∈ needs w.1,
        s ∈ done ++ readyClasses done waiting ∨ s ∈ (blocked done waiting).map Prod.fst := by
      intro w hb s hs
      rcases hin w (hblocked w hb) s hs with hdone | hwait
      · exact .inl (List.mem_append_left _ hdone)
      · exact (List.mem_append.1 (hperm.symm.subset hwait)).imp (List.mem_append_right _) id
    -- A class that is listed twice waits for the same, so it is ready at once or not at all.
    have hnew' : ∀ c ∈ (blocked done waiting).map Prod.fst,
        c ∉ done ++ readyClasses done waiting := by
      intro c hc hmem
      obtain ⟨w, hb, rfl⟩ := List.mem_map.1 hc
      obtain ⟨hb, hwaits⟩ := List.mem_filter.1 hb
      rcases List.mem_append.1 hmem with hdone | hr
      · exact hnew w.1 (List.mem_map_of_mem hb) hdone
      · have hall : w.2.all (· ∈ done) = true :=
          List.all_eq_true.2 fun s hs => decide_eq_true (hready w.1 hr (hw w hb ▸ hs))
        simp [isReady, hall] at hwaits
    refine (ih _ (hn ▸ length_blocked_lt hany) (fun w hb => hw w (hblocked w hb)) hin' hnew'
      rfl).imp_both ?_ ?_
    · rintro _ ⟨c, hc, hcircle⟩
      exact ⟨c, hperm.subset (List.mem_append_right _ hc), hcircle⟩
    · rintro _ ⟨cs, rfl, hcs, hpairs, hself⟩
      refine ⟨readyClasses done waiting ++ cs, by simp [readyClasses],
        (hcs.append_left _).trans hperm, List.pairwise_append.2 ⟨?_, hpairs, ?_⟩,
        List.forall_mem_append.2 ⟨?_, hself⟩⟩
      · refine List.pairwise_of_forall_mem_list fun c hc x hx => ?_
        exact hfree c hc x (hperm.subset (List.mem_append_left _ hx))
      · intro c hc x hx
        exact hfree c hc x (hperm.subset (List.mem_append_right _ (hcs.subset hx)))
      · exact fun c hc => hfree c hc c (hperm.subset (List.mem_append_left _ hc))
  · rename_i hstuck
    by_contra hacyclic
    refine hstuck (exists_ready hw hin hne fun c hc hcycle => hacyclic ?_)
    obtain ⟨w, hwm, rfl⟩ := List.mem_map.1 hc
    exact ⟨w.1, hc, hcycle, _, rfl, List.mem_map.2 ⟨w, hwm, rfl⟩⟩

theorem rounds_batch_gives {waiting : List Waiting} (hfst : waiting.map Prod.fst = batch)
    (hsnd : ∀ w ∈ waiting, w.2 = batchSupertypes m batch w.1) :
    StatefulRuns.Gives (InCircle (batchSupertypes m batch) batch)
      (fun order => order.Perm batch ∧ Sorted (batchSupertypes m batch) order)
      (rounds [] waiting) := by
  have hin : ∀ w ∈ waiting, ∀ s ∈ batchSupertypes m batch w.1,
      s ∈ ([] : List ClassifierRef) ∨ s ∈ waiting.map Prod.fst := by
    intro w _ s hs
    rw [hfst]
    exact .inr (by simpa using (List.mem_filter.1 hs).2)
  have hgives := rounds_gives hsnd hin (by simp)
  rw [hfst] at hgives
  refine hgives.imp ?_
  rintro _ ⟨order, rfl, hperm, hsorted⟩
  exact ⟨hperm, hsorted⟩

theorem dependencies_of_known {ss : List ClassifierRef} (h : ∀ s ∈ ss, Known m catalog batch s) :
    dependencies m catalog batch c ss = .ok (ss.filter (· ∈ batch)) := by
  induction ss with
  | nil => rfl
  | cons s ss ih =>
    have ih := ih fun x hx => h x (List.mem_cons_of_mem s hx)
    unfold dependencies
    by_cases hs : s ∈ batch
    · rw [if_pos hs, ih, List.filter_cons_of_pos (by simpa using hs)]
      rfl
    · rw [if_neg hs, List.filter_cons_of_neg (by simpa using hs)]
      split
      · exact ih
      · rename_i hast
        rcases h s (by simp) with hb | hb | ⟨n, hn, hsome⟩
        · exact absurd hb hs
        · exact absurd hb hast
        · simp only [hn, bind, Except.bind, hsome, if_true]
          exact ih

theorem supertypesFirst_of_known (hclass : ∀ c ∈ batch, ∃ d, m.class? c = some d)
    (hknown : ∀ c ∈ batch, ∀ s ∈ m.supertypes c, Known m catalog batch s) :
    supertypesFirst m catalog batch =
      rounds [] (batch.map fun c => (c, batchSupertypes m batch c)) := by
  have hwaiting : (batch.mapM fun c => do
      let d ← requireClass m c
      return (c, ← dependencies m catalog batch c d.supertypes)) =
      Except.ok (batch.map fun c => (c, batchSupertypes m batch c)) := by
    apply StatefulRuns.mapM_ok
    intro c hc
    obtain ⟨d, hd⟩ := hclass c hc
    have hsuper := Metamodel.supertypes_eq hd
    rw [requireClass, Metamodel.requireClass_eq_ok.2 hd, batchSupertypes, hsuper]
    simp only [Except.mapError, bind, Except.bind, pure, Except.pure,
      dependencies_of_known (hsuper ▸ hknown c hc)]
  unfold supertypesFirst
  rw [hwaiting]
  rfl

theorem supertypesFirst_of_acyclic (hclass : ∀ c ∈ batch, ∃ d, m.class? c = some d)
    (hknown : ∀ c ∈ batch, ∀ s ∈ m.supertypes c, Known m catalog batch s)
    (hacyclic : ∀ c ∈ batch, ¬ Relation.TransGen (fun s c => s ∈ batchSupertypes m batch c) c c) :
    ∃ order, supertypesFirst m catalog batch = .ok order ∧ order.Perm batch ∧
      Sorted (batchSupertypes m batch) order := by
  have hfst : (batch.map fun c => (c, batchSupertypes m batch c)).map Prod.fst = batch := by
    simp [Function.comp_def]
  have hgives := rounds_batch_gives (m := m) hfst (by simp)
  rw [supertypesFirst_of_known hclass hknown]
  cases hrun : rounds [] (batch.map fun c => (c, batchSupertypes m batch c)) with
  | ok order =>
    rw [hrun] at hgives
    exact ⟨order, rfl, hgives⟩
  | error e =>
    rw [hrun] at hgives
    obtain ⟨c, hc, hcycle, -⟩ := hgives
    exact absurd hcycle (hacyclic c hc)

theorem supertypesFirst_of_grounded (hground : ∀ c ∈ batch, m.Grounded c)
    (hknown : ∀ c ∈ batch, ∀ s ∈ m.supertypes c, Known m catalog batch s) :
    ∃ order, supertypesFirst m catalog batch = .ok order := by
  have hclass : ∀ c ∈ batch, ∃ d, m.class? c = some d := by
    intro c hc
    cases hground c hc with
    | intro hd _ => exact ⟨_, hd⟩
  obtain ⟨order, horder, -⟩ := supertypesFirst_of_acyclic hclass hknown fun c hc hcycle =>
    (hground c hc).not_above
      (Relation.TransGen.mono (fun _ _ hs => List.mem_of_mem_filter hs) c c hcycle)
  exact ⟨order, horder⟩

end Derivation

end TreeInterchange
