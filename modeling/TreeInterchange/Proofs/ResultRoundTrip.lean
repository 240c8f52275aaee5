import TreeInterchange.Proofs.ConversionRoundTrip
import TreeInterchange.Proofs.ResultConformity

/-!
# Results come back from their documents

A result is converted to objects, these are written to a document, the document is read into any
store, and what was read is converted back into any forest. The store that was read has copies of
all objects, so each of them can be read as what the original was made for. The issues are
the same, in the same order, and a comparison of the trees finds no difference.
-/

namespace TreeInterchange

open ToObjects

theorem FeatureValue.rename_depict (ξ φ : Nat → Nat) (v : Value) :
    (v.depict φ).rename ξ = v.depict (ξ ∘ φ) := by
  cases v <;> simp [Value.depict, Value.depictScalar, FeatureValue.rename]

namespace ObjectStore

/-- A store has copies of objects of another, with the same classes and renamed values. The
objects are all that some of them contain. -/
structure CopiesOn (t : ObjectStore) (T : ObjectId → Prop) (ξ : Nat → Nat) (u : ObjectStore) :
    Prop where
  type : ∀ x : Nat, T x → (u.get (ξ x)).type = (t.get x).type
  value : ∀ x : Nat, T x → ∀ g, u.value? (ξ x) g = (t.value? x g).map (FeatureValue.rename ξ)
  closed : ∀ x : Nat, T x → ∀ c ∈ t.contents x, T c

namespace CopiesOn

variable {t u : ObjectStore} {T : ObjectId → Prop} {ξ : Nat → Nat} {x : Nat}
  (h : t.CopiesOn T ξ u)
include h

theorem contained? {g : String} {c : Nat} (hx : T x) (hv : t.value? x g = some (.contained c)) :
    T c ∧ u.contained? (ξ x) g = some (ξ c) := by
  refine ⟨h.closed x hx c (mem_contents_iff.2 ⟨g, ?_⟩), ?_⟩
  · rw [contentsIn_eq hv]
    exact List.mem_singleton.2 rfl
  · simp [ObjectStore.contained?, h.value x hx, hv, FeatureValue.rename]

theorem pointAt {p : Point} (hx : T x) (hp : PointAt t x p) : PointAt u (ξ x) p := by
  refine ⟨(h.type x hx).trans hp.type, fun g => ?_⟩
  rw [h.value x hx, hp.values]
  split
  · rfl
  · split <;> rfl

theorem position? {o : Nat} {p : Position} (hx : T x)
    (hv : t.value? x "position" = some (.contained o)) (hp : PositionAt t o p) :
    u.position? (ξ x) = some p := by
  obtain ⟨ho, hcopy⟩ := h.contained? hx hv
  obtain ⟨hfirst, hstart⟩ := h.contained? (c := o + 1) ho (hp.values "start")
  obtain ⟨hlast, hend⟩ := h.contained? (c := o + 2) ho (hp.values "end")
  simp [ObjectStore.position?, hcopy, hstart, hend, (h.pointAt hfirst hp.first).point?,
    (h.pointAt hlast hp.last).point?]

theorem position?_eq_none (hx : T x) (hv : t.value? x "position" = none) :
    u.position? (ξ x) = none := by
  simp [ObjectStore.position?, ObjectStore.contained?, h.value x hx, hv]

theorem toIssue {i : Issue} (hx : T x) (hi : IssueAt t x i) : u.toIssue (ξ x) = .ok i := by
  have hvalue := h.value x hx
  have htype : u.ordinal? (ξ x) "type" = some i.type.ordinal := by
    simp [ordinal?, hvalue, hi.values, FeatureValue.rename]
  have hseverity : u.ordinal? (ξ x) "severity" = some i.severity.ordinal := by
    simp [ordinal?, hvalue, hi.values, FeatureValue.rename]
  have hmessage : u.value? (ξ x) "message" = some (.string i.message) := by
    simp [hvalue, hi.values, FeatureValue.rename]
  have hposition : u.position? (ξ x) = i.position := by
    cases hp : i.position with
    | none => exact h.position?_eq_none hx (by simp [hi.values, hp])
    | some p => exact h.position? hx (by simp [hi.values, hp]) (hi.position p hp)
  simp [ObjectStore.toIssue, htype, hseverity, hmessage, hposition, constant, FeatureValue.text?,
    IssueType.ofOrdinal?_ordinal, Severity.ofOrdinal?_ordinal, bind, Except.bind, pure, Except.pure]

theorem pictures {m : Metamodel} {f : Forest} {uri : String} {φ : NodeId → Nat} {y : NodeId}
    (hy : T (φ y)) (hshows : Shows m f uri φ (fullView φ) t y) :
    Pictures m f uri (ξ ∘ φ) u y := by
  have hshown := hshows.position
  unfold ShowsPosition at hshown
  refine ⟨(h.type _ hy).trans hshows.type, hshows.features, fun p hp => ?_, fun hp => ?_,
    fun name hname => ?_⟩
  · rw [hp] at hshown
    refine ⟨⟨ξ (φ y + 1), ?_⟩, h.position? hy hshown.1 hshown.2⟩
    rw [Function.comp_apply, h.value _ hy, hshown.1]
    rfl
  · rw [hp] at hshown
    rw [Function.comp_apply, h.value _ hy, hshown]
    rfl
  · rw [Function.comp_apply, h.value _ hy, hshows.values name hname]
    cases f.slot? y name with
    | none => rfl
    | some v =>
      by_cases hnull : v.isNull = true
      · simp [fullView, hnull]
      · simp [fullView, hnull, FeatureValue.rename_depict]

end CopiesOn

end ObjectStore

namespace ResultAt

variable {c : TypeCatalog} {package uri : String} {r : TreeResult} {f : Forest} {m : Metamodel}
  {φ : NodeId → Nat} {ids : List Nat} {t u : ObjectStore} {o : Nat} {ξ : Nat → Nat}

theorem isNull_eq_false (h : ResultAt r f m uri φ ids t o) {x : Nat} (hx : IsPart r f φ t o x)
    {g : String} {v : FeatureValue} (hv : t.value? x g = some v) : v.isNull = false := by
  cases hx with
  | result => obtain ⟨-, n, -, rfl⟩ | ⟨-, rfl⟩ := h.stored hv <;> rfl
  | @node n y hn hy =>
    obtain ⟨-, rfl, -⟩ | ⟨-, w, -, hnull, rfl⟩ := (h.nodes n hn y hy).stored hv
    · rfl
    · exact Value.isNull_depict φ hnull
  | issue hi => obtain ⟨-, k, rfl⟩ | ⟨-, k, rfl⟩ | ⟨-, rfl, -⟩ := hi.stored hv <;> rfl
  | position hp => obtain ⟨-, rfl⟩ | ⟨-, rfl⟩ := hp.stored hv <;> rfl
  | point hp =>
    obtain ⟨-, k, rfl⟩ := hp.stored hv
    rfl

/-- Reading the document of a result makes copies of all its objects. -/
theorem copiesOn (h : ResultAt r f m uri φ ids t o) (hup : t.Ascends (IsPart r f φ t o))
    (ho : t.Owned) (hc : t.Conforms m o) {s' : ObjectStore}
    (hdone : ObjectDocument.Settling m t o ξ (ObjectDocument.walk m t o) s' [] u) :
    t.CopiesOn (· ∈ t.tree o) ξ u := by
  have hwalk : ∀ {x : Nat}, x ∈ t.tree o → x ∈ ObjectDocument.walk m t o := fun hx =>
    (ObjectDocument.walk_perm ho hc).symm.subset hx
  refine ⟨fun x hx => hdone.type x (hwalk hx), fun x hx g => ?_, fun x hx d hd => ?_⟩
  · obtain ⟨fs, hfs⟩ := hc.objects x hx
    rw [hdone.value? (hwalk hx) hfs.features]
    have hpresent : t.present? x g = t.value? x g := by
      cases hv : t.value? x g with
      | none => simp [ObjectStore.present?, hv]
      | some v =>
        have hnull := h.isNull_eq_false (hup.of_mem_tree .result hx) hv
        exact ObjectStore.present?_eq_some.2 ⟨hv, hnull⟩
    rw [hpresent]
  · rw [ObjectStore.tree_eq_listing] at hx ⊢
    exact next_subset_listing (hc.height ho) hx hd

theorem issuesIn (h : ResultAt r f m uri φ ids t o) (hcopies : t.CopiesOn (· ∈ t.tree o) ξ u)
    (ho : o ∈ t.tree o) : u.issuesIn (ξ o) = .ok r.issues := by
  have hissues : t.value? o "issues" = some (.containedMany ids) := by
    rw [h.values]
    rfl
  have hcopy : u.value? (ξ o) "issues" = some (.containedMany (ids.map ξ)) := by
    rw [hcopies.value o ho, hissues]
    rfl
  have hin : ∀ x ∈ ids, x ∈ t.tree o := fun x hx =>
    hcopies.closed o ho x (ObjectStore.mem_contents_iff.2
      ⟨"issues", by rw [ObjectStore.contentsIn_eq hissues]; exact hx⟩)
  rw [ObjectStore.issuesIn, ObjectStore.contentsIn_eq hcopy]
  refine StatefulRuns.mapM_ok_of_forall₂ (List.forall₂_map_left_iff.2 ?_)
  exact ((List.forall₂_and_left ids r.issues).2 ⟨hin, h.issues⟩).imp
    fun x i hxi => hcopies.toIssue hxi.1 hxi.2

theorem toNodes (h : ResultAt r f (Derivation.model c package uri) uri φ ids t o) (ho : t.Owned)
    (hf : f.IsForest) (hr : ∀ n ∈ r.root, Convertible c package f n) {n : NodeId} (hn : n ∈ r.root)
    (hcopies : t.CopiesOn (· ∈ t.tree o) ξ u)
    (hinj : ∀ x ∈ t.tree o, ∀ y ∈ t.tree o, ξ x = ξ y → x = y) (hroom : (t.tree o).length ≤ u.size)
    (g : Forest) : ∃ n' g',
      u.toNodes (ξ (φ n)) (Derivation.model c package uri) c .default g = (.ok n', g') ∧
      NodeView.compare ⟨f, n⟩ ⟨g', n'⟩ true = .ok () := by
  have hconv := hr n hn
  have hin : ∀ y ∈ f.walk n, φ y ∈ t.tree o := fun y hy => h.node_mem_tree ho hf hr hn hy
  have hnodup := (h.numbered n hn).nodup_map cost_pos
  have hφ : ∀ y ∈ f.walk n, ∀ z ∈ f.walk n, (ξ ∘ φ) y = (ξ ∘ φ) z → y = z := by
    intro y hy z hz hyz
    exact List.inj_on_of_nodup_map hnodup hy hz (hinj _ (hin y hy) _ (hin z hz) hyz)
  have hlength : (f.walk n).length ≤ u.size := by
    have hsub : (f.walk n).map φ ⊆ t.tree o := by
      intro x hx
      obtain ⟨y, hy, rfl⟩ := List.mem_map.1 hx
      exact hin y hy
    have hle := List.Nodup.length_le_of_subset hnodup hsub
    rw [List.length_map] at hle
    exact Nat.le_trans hle hroom
  obtain ⟨ψ, g', hrun, hψ, hsize, -, -, hmirrors⟩ := ToNodes.mirrors_toNodes hf hconv hφ hlength
    (fun y hy => hcopies.pictures (hin y hy) (h.nodes n hn y hy)) g
  have hcopy : f.IsCopy n g' ψ :=
    Forest.isCopy_of_mirrors hf hconv.present hψ (by omega) hmirrors
  have hroot := hf.self_mem_walk hconv.present
  exact ⟨ψ n, g', hrun, hcopy.trees_ok hf hconv f.size hroot "<root>"⟩

end ResultAt

namespace Conversion

variable {f : Forest} {c : TypeCatalog} {package uri : String} {r : TreeResult}
  {s t : ObjectStore} {o : ObjectId}

/-- A result that is converted to an object, in a store with room for all objects, comes back from
the document of the object, read into any store and converted into any forest: with the same
issues in the same order, and with a root exactly if it had one, in which a comparison with
positions finds no difference. -/
theorem toResult_read_write_toObject (hf : f.Reachable) (hc : c.Defined)
    (hu : Derivation.Fresh package uri) (hw : Derivation.Writable c package uri)
    (hr : ∀ n ∈ r.root, Convertible c package f n ∧ Documentable f n) (hs : s.Reachable)
    (h : r.toObject f (Derivation.model c package uri) .default s = (.ok o, t))
    (ht : t.size ≤ arenaRoom) (s' : ObjectStore) (g : Forest) :
    ∃ o' u, ObjectDocument.read (Derivation.model c package uri) none
        (ObjectDocument.write t o) s' = (.ok o', u) ∧
      ∃ r' g', u.toResult o' (Derivation.model c package uri) c .default g = (.ok r', g') ∧
        r'.issues = r.issues ∧
        Option.Rel (fun n n' => NodeView.compare ⟨f, n⟩ ⟨g', n'⟩ true = .ok ()) r.root r'.root := by
  have hconv : ∀ n ∈ r.root, Convertible c package f n := fun n hn => (hr n hn).1
  obtain ⟨φ, ids, hat⟩ := TreeResult.resultAt_toObject hc.wellKept hu hf.isForest hconv h
  have hreach : t.Reachable := (TreeResult.runsTo_toObject h).reachable hs ht
  have hconf := hat.conforms hreach.owned hc.wellKept hu hw hf.isForest hr
  have hup := hat.ascends hf.isForest fun n hn => (hconv n hn).present
  obtain ⟨ξ, u, hread, hinj, hdone⟩ := ObjectDocument.read_write_settles hreach hconf s'
  have hperm := ObjectDocument.walk_perm hreach.owned hconf
  have hcopies := hat.copiesOn hup hreach.owned hconf hdone
  have ho : o ∈ t.tree o := by
    rw [ObjectStore.tree_eq_listing]
    exact self_mem_listing (hconf.height hreach.owned)
  have hissues := hat.issuesIn hcopies ho
  have hroot : u.value? (ξ o) "root" = r.root.map fun n => .contained (ξ (φ n)) := by
    rw [hcopies.value o ho, hat.values, if_pos rfl, Option.map_map]
    rfl
  refine ⟨ξ o, u, hread, ?_⟩
  cases hn : r.root with
  | none =>
    have hnone : u.contained? (ξ o) "root" = none := by simp [ObjectStore.contained?, hroot, hn]
    refine ⟨⟨none, r.issues⟩, g, ?_, rfl, .none⟩
    simp [ObjectStore.toResult, hnone, hissues, Except.map]
  | some n =>
    have hsome : u.contained? (ξ o) "root" = some (ξ (φ n)) := by
      simp [ObjectStore.contained?, hroot, hn]
    obtain ⟨n', g', hrun, hcompare⟩ := hat.toNodes hreach.owned hf.isForest hconv hn hcopies
      (fun x hx y hy => hinj x (hperm.symm.subset hx) y (hperm.symm.subset hy))
      (by rw [← hperm.length_eq, hdone.size]; exact Nat.le_add_left _ _) g
    refine ⟨⟨some n', r.issues⟩, g', ?_, rfl, .some hcompare⟩
    simp [ObjectStore.toResult, hsome, hrun, hissues, Except.map]

theorem writable_gardenCatalog : Derivation.Writable gardenCatalog "garden" "urn:garden" := by
  have hmem : ∀ {t : NodeType}, gardenCatalog.get? t.name = some t → t.name.package = "garden" →
      t ∈ [growthType, plantType] := by
    intro t ht hp
    rw [← typesIn_gardenCatalog, TypeCatalog.mem_typesIn defined_gardenCatalog.wellKept.toNamed]
    exact ⟨ht, hp⟩
  have htypes : ∀ t ∈ [growthType, plantType], t.name.name ≠ "" ∧ '/' ∉ t.name.name.toList := by
    decide
  have hproperties : ∀ t ∈ [growthType, plantType], ∀ p ∈ t.properties, '/' ∉ p.name.toList ∧
      '.' ∉ p.name.toList ∧ '#' ∉ p.name.toList ∧ p.name ≠ "eClass" := by decide
  exact ⟨by decide, fun ht hp => htypes _ (hmem ht hp), fun ht hp => hproperties _ (hmem ht hp)⟩

theorem documentable_garden : Documentable garden 0 := by
  have hsingle : ∀ y ∈ garden.walk 0, ∀ p ∈ (garden.get y).type.properties, p.kind = .value →
      p.multiple = false → (garden.slot? y p.name).all (!·.isList) = true := by decide
  have hfinite : ∀ y ∈ garden.walk 0, ∀ e ∈ (garden.get y).slots.entries, e.2.isFinite = true := by
    decide
  refine ⟨fun y hy p hp hk hm v hv => ?_, fun y hy name v hv => ?_⟩
  · have hall := hsingle y hy p hp hk hm
    rw [hv] at hall
    simpa using hall
  · exact hfinite y hy _ (Table.get?_eq_some_iff.1 hv)

/-- The garden with two issues, one of which has a position. -/
def gardenResult : TreeResult :=
  ⟨some 0, [⟨.syntactic, .warning, "a stray seed", some ⟨⟨2, 1⟩, ⟨2, 4⟩⟩⟩,
    ⟨.semantic, .error, "no water", none⟩]⟩

theorem toObject_gardenResult : ∃ t, gardenResult.toObject garden
    (Derivation.model gardenCatalog "garden" "urn:garden") .default .empty = (.ok 0, t) ∧
      t.size ≤ arenaRoom := by
  have hmade : (gardenResult.toObject garden (Derivation.model gardenCatalog "garden" "urn:garden")
      .default .empty).1.toOption = some 0 ∧
      (gardenResult.toObject garden (Derivation.model gardenCatalog "garden" "urn:garden")
        .default .empty).2.size ≤ arenaRoom := by
    rw [Derivation.model, packageOf_gardenCatalog]
    decide +kernel
  exact ⟨_, Prod.ext (StatefulRuns.toOption_eq_some_iff.1 hmade.1) rfl, hmade.2⟩

theorem toResult_read_write_garden : garden.Reachable ∧ gardenCatalog.Defined ∧
    Derivation.Fresh "garden" "urn:garden" ∧
    Derivation.Writable gardenCatalog "garden" "urn:garden" ∧
    (∀ n ∈ gardenResult.root, Convertible gardenCatalog "garden" garden n ∧
      Documentable garden n) ∧ ObjectStore.empty.Reachable ∧
    ∃ t, gardenResult.toObject garden (Derivation.model gardenCatalog "garden" "urn:garden")
        .default .empty = (.ok 0, t) ∧ t.size ≤ arenaRoom ∧
      ∃ o' u, ObjectDocument.read (Derivation.model gardenCatalog "garden" "urn:garden") none
          (ObjectDocument.write t 0) t = (.ok o', u) ∧
        ∃ r' g', u.toResult o' (Derivation.model gardenCatalog "garden" "urn:garden") gardenCatalog
            .default garden = (.ok r', g') ∧
          r'.issues = gardenResult.issues ∧
          Option.Rel (fun n n' => NodeView.compare ⟨garden, n⟩ ⟨g', n'⟩ true = .ok ())
            gardenResult.root r'.root := by
  have hfresh : Derivation.Fresh "garden" "urn:garden" := by constructor <;> decide
  have htree : ∀ n ∈ gardenResult.root, Convertible gardenCatalog "garden" garden n ∧
      Documentable garden n := by
    intro n hn
    cases hn
    exact ⟨convertible_garden, documentable_garden⟩
  obtain ⟨t, ht, hsize⟩ := toObject_gardenResult
  exact ⟨reachable_garden, defined_gardenCatalog, hfresh, writable_gardenCatalog, htree, .empty,
    t, ht, hsize, toResult_read_write_toObject reachable_garden defined_gardenCatalog hfresh
      writable_gardenCatalog htree .empty ht hsize t garden⟩

end Conversion

end TreeInterchange
