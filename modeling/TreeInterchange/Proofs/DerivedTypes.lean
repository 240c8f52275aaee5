import Mathlib.Data.List.Perm.Basic
import TreeInterchange.Derivation.NodeTypes
import TreeInterchange.Metamodel.Builtin
import TreeInterchange.Proofs.InheritedFeatures
import TreeInterchange.Proofs.PackageTables
import TreeInterchange.Proofs.StatefulRuns

/-!
# Node types and the features they are derived from

Classes are derived in an order that puts each after its supertypes. So at the end the catalog
holds for each class the type that the class would be given by the catalog itself, and
everything about derived types can be read off this equation.

A type has the properties of the type it extends and, under names that are still free, those
of the features of its class. These are the properties that the features ask for just when
every class asks for all that the class it extends asks for. A class that declares an
inherited feature anew, with another type, does not.
-/

namespace TreeInterchange

namespace Metamodel

/-- The classes of the packages with the given URIs. -/
def classRefs (m : Metamodel) (uris : List String) : List ClassifierRef :=
  uris.flatMap fun uri =>
    ((m.package? uri).map fun p => p.classes.map fun c => p.ref c.name).getD []

/-- The class that the type of a class extends: its first supertype that has a type and is no
interface. -/
def extended? (m : Metamodel) (supertypes : List ClassifierRef) : Option ClassifierRef :=
  supertypes.find? fun s => s.uri ≠ astUri ∧ ((m.class? s).map (·.isInterface)).getD false = false

variable {m : Metamodel} {c : ClassifierRef} {d : ClassDecl} {uris : List String}

theorem mem_classRefs :
    c ∈ m.classRefs uris ↔ c.uri ∈ uris ∧ ∃ d, m.class? c = some d := by
  have hpackage : ∀ {uri : String} {p : Package}, m.package? uri = some p →
      (c ∈ p.classes.map (fun c => p.ref c.name) ↔ c.uri = uri ∧ ∃ d, p.class? c.name = some d) := by
    intro uri p hp
    have huri := uri_eq hp
    constructor
    · intro hc
      obtain ⟨d, hd, rfl⟩ := List.mem_map.1 hc
      obtain ⟨e, he, hed⟩ := List.mem_filterMap.1 hd
      obtain ⟨k, hk⟩ := Table.mem_values_iff.1 he
      have hname : d.name = k := by
        rw [← Package.name_eq hk]
        cases e <;> cases hed
        rfl
      exact ⟨huri, d, by simpa [Package.class?, Package.ref, hname, hk] using hed⟩
    · rintro ⟨hc, d, hd⟩
      obtain ⟨e, he, hed⟩ := Option.bind_eq_some_iff.1 hd
      have hname : d.name = c.name := by
        rw [← Package.name_eq he]
        cases e <;> cases hed
        rfl
      refine List.mem_map.2 ⟨d, List.mem_filterMap.2 ⟨e, Table.mem_values_iff.2 ⟨_, he⟩, hed⟩, ?_⟩
      rw [Package.ref, huri, hname, ← hc]
  unfold classRefs class?
  rw [List.mem_flatMap]
  constructor
  · rintro ⟨uri, huri, hc⟩
    cases hp : m.package? uri with
    | none => simp [hp] at hc
    | some p =>
      rw [hp] at hc
      obtain ⟨rfl, d, hd⟩ := (hpackage hp).1 hc
      exact ⟨huri, d, by simpa [hp] using hd⟩
  · rintro ⟨huri, d, hd⟩
    obtain ⟨p, hp, hd⟩ := Option.bind_eq_some_iff.1 hd
    refine ⟨c.uri, huri, ?_⟩
    rw [hp]
    exact (hpackage hp).2 ⟨rfl, d, hd⟩

theorem requirePackage_eq_ok {uri : String} {p : Package} :
    m.requirePackage uri = .ok p ↔ m.package? uri = some p := by
  unfold requirePackage
  cases m.package? uri <;> simp

theorem qualifiedName_ok {name : QualifiedName} (h : m.qualifiedName c = .ok name) :
    ∃ p, m.package? c.uri = some p ∧ name = ⟨p.name, c.name⟩ := by
  obtain ⟨p, hp, h⟩ := StatefulRuns.of_except_bind_ok h
  exact ⟨p, requirePackage_eq_ok.1 hp, (Except.ok.inj h).symm⟩

theorem qualifiedName_inj (hn : (m.packages.values.map (·.name)).Nodup) {c' : ClassifierRef}
    {name : QualifiedName} (h : m.qualifiedName c = .ok name) (h' : m.qualifiedName c' = .ok name) :
    c = c' := by
  obtain ⟨p, hp, rfl⟩ := qualifiedName_ok h
  obtain ⟨p', hp', hname⟩ := qualifiedName_ok h'
  obtain ⟨hpn, hcn⟩ := QualifiedName.mk.inj hname
  have huri := uri_eq_of_name_eq hn hp hp' hpn
  cases c
  cases c'
  simp_all

end Metamodel

namespace Derivation

variable {m : Metamodel} {catalog catalog' : TypeCatalog} {c : ClassifierRef} {t : NodeType}

/-- Each entry comes after what it needs, or needs what was there before. -/
def Follows (needs : ClassifierRef → List ClassifierRef) :
    List ClassifierRef → List ClassifierRef → Prop
  | _, [] => True
  | done, c :: cs => needs c ⊆ done ∧ Follows needs (c :: done) cs

theorem Follows.mono {needs : ClassifierRef → List ClassifierRef} {done done' cs : List ClassifierRef}
    (hd : done ⊆ done') (h : Follows needs done cs) : Follows needs done' cs := by
  induction cs generalizing done done' with
  | nil => trivial
  | cons c cs ih => exact ⟨List.Subset.trans h.1 hd, ih (List.cons_subset_cons c hd) h.2⟩

theorem follows_append {needs : ClassifierRef → List ClassifierRef}
    {done ready cs : List ClassifierRef} (hr : ∀ c ∈ ready, needs c ⊆ done)
    (h : Follows needs (done ++ ready) cs) : Follows needs done (ready ++ cs) := by
  induction ready generalizing done with
  | nil => simpa using h
  | cons c ready ih =>
    refine ⟨hr c (by simp), ih ?_ (h.mono ?_)⟩
    · exact fun d hd => List.Subset.trans (hr d (by simp [hd])) (List.subset_cons_self c done)
    · intro x hx
      simp only [List.mem_append, List.mem_cons] at hx ⊢
      tauto

/-- What holds of a class once it holds of all that the class needs, holds of all classes. -/
theorem Follows.induction {needs : ClassifierRef → List ClassifierRef} {P : ClassifierRef → Prop}
    (hstep : ∀ c, (∀ s ∈ needs c, P s) → P c) {done cs : List ClassifierRef}
    (h : Follows needs done cs) (hd : ∀ c ∈ done, P c) : ∀ c ∈ cs, P c := by
  induction cs generalizing done with
  | nil => simp
  | cons c cs ih =>
    have hc : P c := hstep c fun s hs => hd s (h.1 hs)
    have hrest := ih h.2 (List.forall_mem_cons.2 ⟨hc, hd⟩)
    exact List.forall_mem_cons.2 ⟨hc, hrest⟩

theorem rounds_ok {needs : ClassifierRef → List ClassifierRef} {done : List ClassifierRef}
    {waiting : List Waiting} {order : List ClassifierRef} (h : rounds done waiting = .ok order)
    (hw : ∀ w ∈ waiting, w.2 = needs w.1) :
    ∃ cs, order = done ++ cs ∧ Follows needs done cs ∧ ∀ c, c ∈ cs ↔ c ∈ waiting.map Prod.fst := by
  induction hn : waiting.length using Nat.strongRecOn generalizing done waiting with
  | ind n ih =>
  rw [rounds] at h
  split at h
  · rename_i hnil
    cases h
    exact ⟨[], by simp, trivial, by simp [hnil]⟩
  split at h
  · rename_i hany
    obtain ⟨cs, rfl, hf, hmem⟩ := ih _ (hn ▸ length_blocked_lt hany) h
      (fun w hb => hw w (List.mem_of_mem_filter hb)) rfl
    refine ⟨(waiting.filter (isReady done)).map Prod.fst ++ cs, by simp, follows_append ?_ hf, ?_⟩
    · intro c hc s hs
      obtain ⟨w, hb, rfl⟩ := List.mem_map.1 hc
      obtain ⟨hb, hready⟩ := List.mem_filter.1 hb
      exact of_decide_eq_true (List.all_eq_true.1 hready s (hw w hb ▸ hs))
    · intro c
      rw [List.mem_append, hmem]
      -- Who is not ready is blocked, and no one else is.
      simp only [List.mem_map, List.mem_filter, blocked, Bool.not_eq_true']
      constructor
      · rintro (⟨w, ⟨hb, -⟩, hc⟩ | ⟨w, ⟨hb, -⟩, hc⟩) <;> exact ⟨w, hb, hc⟩
      · rintro ⟨w, hb, hc⟩
        cases hready : isReady done w
        · exact .inr ⟨w, ⟨hb, hready⟩, hc⟩
        · exact .inl ⟨w, ⟨hb, hready⟩, hc⟩
  · cases h

/-- The supertypes of a class that are derived together with it. -/
def batchSupertypes (m : Metamodel) (batch : List ClassifierRef) (c : ClassifierRef) :
    List ClassifierRef :=
  (m.supertypes c).filter (· ∈ batch)

/-- A supertype of a class is derived together with it, is built in, or has a type already. -/
def Known (m : Metamodel) (catalog : TypeCatalog) (batch : List ClassifierRef)
    (s : ClassifierRef) : Prop :=
  s ∈ batch ∨ s.uri = astUri ∨ ∃ n, typeName m s = .ok n ∧ (catalog.get? n).isSome

theorem dependencies_ok {batch ss ds : List ClassifierRef}
    (h : dependencies m catalog batch c ss = .ok ds) :
    ds = ss.filter (· ∈ batch) ∧ ∀ s ∈ ss, Known m catalog batch s := by
  induction ss generalizing ds with
  | nil => cases h; simp
  | cons s ss ih =>
    unfold dependencies at h
    split at h
    · rename_i hs
      obtain ⟨rest, hrest, h⟩ := StatefulRuns.of_except_bind_ok h
      cases h
      obtain ⟨hfilter, hknown⟩ := ih hrest
      refine ⟨?_, List.forall_mem_cons.2 ⟨.inl hs, hknown⟩⟩
      rw [List.filter_cons_of_pos (by simpa using hs), hfilter]
    · rename_i hs
      rw [List.filter_cons_of_neg (by simpa using hs)]
      split at h
      · rename_i hast
        obtain ⟨hfilter, hknown⟩ := ih h
        exact ⟨hfilter, List.forall_mem_cons.2 ⟨.inr (.inl hast), hknown⟩⟩
      · obtain ⟨n, hn, h⟩ := StatefulRuns.of_except_bind_ok h
        split at h
        · rename_i hget
          obtain ⟨hfilter, hknown⟩ := ih h
          exact ⟨hfilter, List.forall_mem_cons.2 ⟨.inr (.inr ⟨n, hn, hget⟩), hknown⟩⟩
        · obtain ⟨_, -, h⟩ := StatefulRuns.of_except_bind_ok h
          cases h

theorem of_mapError_ok {ε ε' α : Type} {x : Except ε α} {g : ε → ε'} {a : α}
    (h : x.mapError g = .ok a) : x = .ok a := by
  cases x with
  | ok b => cases h; rfl
  | error e => cases h

theorem requireClass_ok {d : ClassDecl} (h : requireClass m c = .ok d) : m.class? c = some d :=
  Metamodel.requireClass_eq_ok.1 (of_mapError_ok h)

theorem supertypes_eq {d : ClassDecl} (h : requireClass m c = .ok d) :
    m.supertypes c = d.supertypes := Metamodel.supertypes_eq (requireClass_ok h)

theorem waiting_ok {needs : ClassifierRef → List ClassifierRef} {P : ClassifierRef → Prop}
    {step : ClassifierRef → Except DerivationError Waiting}
    (hstep : ∀ c w, step c = .ok w → w.1 = c ∧ w.2 = needs c ∧ P c) {batch : List ClassifierRef}
    {waiting : List Waiting} (h : batch.mapM step = .ok waiting) :
    waiting.map Prod.fst = batch ∧ (∀ w ∈ waiting, w.2 = needs w.1) ∧ ∀ c ∈ batch, P c := by
  have hall := StatefulRuns.forall₂_of_mapM_ok h
  clear h
  induction hall with
  | nil => simp
  | @cons c w batch waiting hw _ ih =>
    obtain ⟨hfst, hsnd, hc⟩ := hstep c w hw
    refine ⟨by rw [List.map_cons, hfst, ih.1], List.forall_mem_cons.2 ⟨?_, ih.2.1⟩,
      List.forall_mem_cons.2 ⟨hc, ih.2.2⟩⟩
    rw [hsnd, hfst]

theorem waiting_batch_ok {batch : List ClassifierRef} {waiting : List Waiting}
    (h : (batch.mapM fun c => do
      let d ← requireClass m c
      return (c, ← dependencies m catalog batch c d.supertypes)) = .ok waiting) :
    waiting.map Prod.fst = batch ∧ (∀ w ∈ waiting, w.2 = batchSupertypes m batch w.1) ∧
      ∀ c ∈ batch, ∀ s ∈ m.supertypes c, Known m catalog batch s := by
  refine waiting_ok (fun c w hw => ?_) h
  obtain ⟨d, hd, hw⟩ := StatefulRuns.of_except_bind_ok hw
  obtain ⟨ds, hds, hw⟩ := StatefulRuns.of_except_bind_ok hw
  cases hw
  rw [batchSupertypes, supertypes_eq hd]
  exact ⟨rfl, dependencies_ok hds⟩

/-- The classes of a batch are ordered so that each comes after its supertypes. -/
theorem supertypesFirst_ok {batch order : List ClassifierRef}
    (h : supertypesFirst m catalog batch = .ok order) :
    Follows (batchSupertypes m batch) [] order ∧ (∀ c, c ∈ order ↔ c ∈ batch) ∧
      ∀ c ∈ batch, ∀ s ∈ m.supertypes c, Known m catalog batch s := by
  obtain ⟨waiting, hwaiting, hrounds⟩ := StatefulRuns.of_except_bind_ok h
  obtain ⟨hfst, hsnd, hknown⟩ := waiting_batch_ok hwaiting
  obtain ⟨cs, hcs, hf, hmem⟩ := rounds_ok hrounds hsnd
  rw [List.nil_append] at hcs
  exact ⟨hcs ▸ hf, fun c => by rw [hcs, hmem, hfst], hknown⟩

theorem name_propertyOf {f : Feature} {p : Property} (h : propertyOf m f = .ok p) :
    p.name = f.name := by
  obtain ⟨name, kind, type, lower, upper⟩ := f
  cases kind with
  | containment =>
    obtain ⟨target, -, hp⟩ := StatefulRuns.of_except_bind_ok h
    cases hp
    rfl
  | reference =>
    obtain ⟨target, -, hp⟩ := StatefulRuns.of_except_bind_ok h
    cases hp
    rfl
  | plain =>
    cases type with
    | ofClass c => cases h; rfl
    | ofData c storage => cases h; rfl
    | ofEnum c =>
      obtain ⟨n, -, hp⟩ := StatefulRuns.of_except_bind_ok h
      cases hp
      rfl

theorem addSupertypes_ok {name : QualifiedName} {extended : Bool} {t t' : NodeType}
    {cs : List ClassifierRef} (h : addSupertypes m catalog name extended t cs = .ok t') :
    t'.name = t.name ∧
      match (if extended then none else m.extended? cs) with
      | none => t'.properties = t.properties
      | some s => ∃ n parent, typeName m s = .ok n ∧ catalog.get? n = some parent ∧
          t'.properties = parent.properties ++ t.properties := by
  induction cs generalizing extended t with
  | nil => cases h; cases extended <;> exact ⟨rfl, rfl⟩
  | cons c cs ih =>
    unfold addSupertypes at h
    split at h
    · rename_i hast
      have hskip : m.extended? (c :: cs) = m.extended? cs := by simp [Metamodel.extended?, hast]
      rw [hskip]
      exact ih h
    · rename_i hast
      obtain ⟨n, hn, h⟩ := StatefulRuns.of_except_bind_ok h
      cases hparent : catalog.get? n with
      | none => simp [hparent, throw, throwThe, MonadExceptOf.throw] at h
      | some parent =>
        simp only [hparent] at h
        cases extended with
        | true =>
          obtain ⟨hname, hprops⟩ := ih h
          exact ⟨hname, hprops⟩
        | false =>
          cases hi : ((m.class? c).map (·.isInterface)).getD false with
          | true =>
            simp only [hi, Bool.not_true, Bool.and_false, Bool.false_eq_true, if_false] at h
            have hskip : m.extended? (c :: cs) = m.extended? cs := by
              simp [Metamodel.extended?, hi]
            obtain ⟨hname, hprops⟩ := ih h
            rw [hskip]
            exact ⟨hname, hprops⟩
          | false =>
            simp only [hi, Bool.not_false, Bool.and_self, if_true] at h
            have hfound : m.extended? (c :: cs) = some c := by
              simp [Metamodel.extended?, hast, hi]
            obtain ⟨hname, hprops⟩ := ih h
            refine ⟨hname, ?_⟩
            rw [hfound]
            exact ⟨n, parent, hn, hparent, hprops⟩

/-- What the features of a class add to the properties that its type already has. -/
structure Completes (m : Metamodel) (fs : List OwnedFeature) (old new : List Property) : Prop where
  sound : ∀ p ∈ new, ∃ o ∈ fs, o.owner.uri ≠ astUri ∧ propertyOf m o.feature = .ok p
  complete : ∀ o ∈ fs, o.owner.uri ≠ astUri →
    (∃ q ∈ old, q.name = o.feature.name) ∨ ∃ p ∈ new, propertyOf m o.feature = .ok p
  fresh : (old.map (·.name)).Nodup → ((old ++ new).map (·.name)).Nodup

theorem Completes.skip {f : OwnedFeature} {fs : List OwnedFeature} {old new : List Property}
    (hf : f.owner.uri = astUri ∨ ∃ q ∈ old, q.name = f.feature.name)
    (h : Completes m fs old new) : Completes m (f :: fs) old new where
  sound p hp := by
    obtain ⟨o, ho, hop⟩ := h.sound p hp
    exact ⟨o, List.mem_cons_of_mem f ho, hop⟩
  complete o ho hast := by
    rcases List.mem_cons.1 ho with rfl | ho
    · exact .inl (hf.resolve_left hast)
    · exact h.complete o ho hast
  fresh := h.fresh

theorem Completes.add {f : OwnedFeature} {fs : List OwnedFeature} {old new : List Property}
    {p : Property} (hast : f.owner.uri ≠ astUri) (hnew : ∀ q ∈ old, q.name ≠ f.feature.name)
    (hp : propertyOf m f.feature = .ok p) (hfs : f.feature.name ∉ OwnedFeature.names fs)
    (h : Completes m fs (old ++ [p]) new) : Completes m (f :: fs) old (p :: new) where
  sound q hq := by
    rcases List.mem_cons.1 hq with rfl | hq
    · exact ⟨f, by simp, hast, hp⟩
    · obtain ⟨o, ho, hoq⟩ := h.sound q hq
      exact ⟨o, List.mem_cons_of_mem f ho, hoq⟩
  complete o ho hoast := by
    rcases List.mem_cons.1 ho with rfl | ho
    · exact .inr ⟨p, by simp, hp⟩
    rcases h.complete o ho hoast with ⟨q, hq, hqo⟩ | ⟨q, hq, hqo⟩
    · rcases List.mem_append.1 hq with hq | hq
      · exact .inl ⟨q, hq, hqo⟩
      · -- No other feature has the name of the property just added.
        rw [List.mem_singleton.1 hq, name_propertyOf hp] at hqo
        exact absurd (hqo ▸ List.mem_map_of_mem ho) hfs
    · exact .inr ⟨q, List.mem_cons_of_mem p hq, hqo⟩
  fresh hold := by
    rw [List.append_cons]
    refine h.fresh ?_
    rw [List.map_append]
    refine List.nodup_append.2 ⟨hold, by simp, ?_⟩
    rintro a ha b hb rfl
    obtain ⟨q, hq, rfl⟩ := List.mem_map.1 ha
    have hqp : q.name = p.name := by simpa using hb
    exact hnew q hq (hqp.trans (name_propertyOf hp))

theorem addProperties_ok {t t' : NodeType} {fs : List OwnedFeature}
    (hn : (OwnedFeature.names fs).Nodup) (h : addProperties m t fs = .ok t') :
    t'.name = t.name ∧ ∃ new, t'.properties = t.properties ++ new ∧
      Completes m fs t.properties new := by
  induction fs generalizing t with
  | nil =>
    cases h
    exact ⟨rfl, [], by simp, by simp, by simp, by simp⟩
  | cons f fs ih =>
    obtain ⟨hf, hfs⟩ := List.nodup_cons.1 hn
    have hpresent : (t.property? f.feature.name).isSome ↔
        ∃ q ∈ t.properties, q.name = f.feature.name := by
      simp [NodeType.property?, List.find?_isSome]
    unfold addProperties at h
    split at h
    · rename_i hskip
      rw [hpresent] at hskip
      obtain ⟨hname, new, hprops, hc⟩ := ih hfs h
      exact ⟨hname, new, hprops, hc.skip hskip⟩
    · rename_i hadd
      rw [hpresent] at hadd
      push Not at hadd
      obtain ⟨p, hp, h⟩ := StatefulRuns.of_except_bind_ok h
      obtain ⟨hname, new, hprops, hc⟩ := ih hfs h
      refine ⟨hname, p :: new, ?_, hc.add hadd.1 hadd.2 hp hf⟩
      simpa [NodeType.withProperty] using hprops

/-- The properties that the type of a class takes over from the type it extends. -/
def TakesOver (m : Metamodel) (catalog : TypeCatalog) (c : ClassifierRef) (ps : List Property) :
    Prop :=
  match m.extended? (m.supertypes c) with
  | none => ps = []
  | some s => ∃ n parent, typeName m s = .ok n ∧ catalog.get? n = some parent ∧
      ps = parent.properties

theorem nodeTypeOf_ok (h : nodeTypeOf m catalog c = .ok t) :
    typeName m c = .ok t.name ∧ ∃ fs inherited new, m.ownedFeatures c = .ok fs ∧
      TakesOver m catalog c inherited ∧ t.properties = inherited ++ new ∧
      Completes m fs inherited new := by
  obtain ⟨name, hname, h⟩ := StatefulRuns.of_except_bind_ok h
  obtain ⟨d, hd, h⟩ := StatefulRuns.of_except_bind_ok h
  obtain ⟨t₁, ht₁, h⟩ := StatefulRuns.of_except_bind_ok h
  obtain ⟨fs, hfs, h⟩ := StatefulRuns.of_except_bind_ok h
  have hfs := of_mapError_ok hfs
  obtain ⟨hn, new, hprops, hc⟩ := addProperties_ok (Metamodel.nodup_ownedFeatures hfs) h
  obtain ⟨hn₁, hs⟩ := addSupertypes_ok ht₁
  refine ⟨by rw [hn, hn₁]; exact hname, fs, t₁.properties, new, hfs, ?_, hprops, hc⟩
  rw [TakesOver, supertypes_eq hd]
  simpa [NodeType.ofName] using hs

theorem addSupertypes_congr {name : QualifiedName} {cs : List ClassifierRef}
    (h : ∀ s ∈ cs, s.uri ≠ astUri → ∀ n, typeName m s = .ok n → catalog'.get? n = catalog.get? n)
    (extended : Bool) (t : NodeType) :
    addSupertypes m catalog' name extended t cs = addSupertypes m catalog name extended t cs := by
  induction cs generalizing extended t with
  | nil => rfl
  | cons c cs ih =>
    have ih' := ih fun s hs => h s (by simp [hs])
    unfold addSupertypes
    split
    · exact ih' extended t
    · rename_i hast
      cases hn : typeName m c with
      | error e => rfl
      | ok n =>
        simp only [bind, Except.bind, h c (by simp) hast n hn, ih']

theorem nodeTypeOf_congr
    (h : ∀ s ∈ m.supertypes c, s.uri ≠ astUri → ∀ n, typeName m s = .ok n →
      catalog'.get? n = catalog.get? n) :
    nodeTypeOf m catalog' c = nodeTypeOf m catalog c := by
  unfold nodeTypeOf
  cases hd : requireClass m c with
  | error e => rfl
  | ok d =>
    simp only [bind, Except.bind, addSupertypes_congr (supertypes_eq hd ▸ h)]

/-- The catalog holds the type that the class would be given by this very catalog. -/
def Settled (m : Metamodel) (catalog : TypeCatalog) (c : ClassifierRef) : Prop :=
  ∃ t, nodeTypeOf m catalog c = .ok t ∧ catalog.get? t.name = some t

theorem of_lift_ok {α : Type} {x : Except DerivationError α} {a : α}
    (h : lift x catalog = .ok a catalog') : x = .ok a ∧ catalog' = catalog := by
  cases x with
  | ok b => cases h; exact ⟨rfl, rfl⟩
  | error e => cases h

theorem deriveClass_ok (h : deriveClass m c catalog = .ok t catalog') :
    nodeTypeOf m catalog c = .ok t ∧ t.validate = .ok () ∧ catalog' = catalog.put t := by
  obtain ⟨_, _, hget, hrun⟩ := StatefulRuns.of_bind_ok h
  cases hget
  obtain ⟨u, _, hlift, hrun⟩ := StatefulRuns.of_bind_ok hrun
  obtain ⟨hu, hsame⟩ := of_lift_ok hlift
  rw [hsame] at hrun
  obtain ⟨new, _, hlift, hrun⟩ := StatefulRuns.of_bind_ok hrun
  obtain ⟨hnew, hsame⟩ := of_lift_ok hlift
  rw [hsame] at hrun
  obtain ⟨_, hvalid, hput⟩ := StatefulRuns.of_except_bind_ok (of_mapError_ok hnew)
  cases hrun
  exact ⟨hu, hvalid, (Except.ok.inj hput).symm⟩

section Batch

variable (hnames : (m.packages.values.map (·.name)).Nodup) {batch : List ClassifierRef}

include hnames

theorem get?_put_of_ne {d : ClassifierRef} {n : QualifiedName} (ht : typeName m c = .ok t.name)
    (hd : typeName m d = .ok n) (hne : d ≠ c) : (catalog.put t).get? n = catalog.get? n := by
  have hname : t.name ≠ n := fun he =>
    hne (Metamodel.qualifiedName_inj hnames (of_mapError_ok hd) (he ▸ of_mapError_ok ht))
  simp [TypeCatalog.put, TypeCatalog.get?, Table.get?_insert, hname]

theorem Settled.put {d : ClassifierRef} (h : Settled m catalog d) (ht : typeName m c = .ok t.name)
    (hdc : d ≠ c) (hs : ∀ s ∈ m.supertypes d, s.uri ≠ astUri → s ≠ c) :
    Settled m (catalog.put t) d := by
  obtain ⟨u, hu, hget⟩ := h
  refine ⟨u, ?_, ?_⟩
  · rw [nodeTypeOf_congr fun s hmem hast n hn => get?_put_of_ne hnames ht hn (hs s hmem hast), hu]
  · rw [get?_put_of_ne hnames ht (nodeTypeOf_ok hu).1 hdc, hget]

theorem settled_of_mapM {done cs : List ClassifierRef} {ts : List NodeType} (hcs : cs ⊆ batch)
    (hf : Follows (batchSupertypes m batch) done cs)
    (hclosed : ∀ d ∈ done, batchSupertypes m batch d ⊆ done)
    (hsettled : ∀ d ∈ done, Settled m catalog d)
    (h : cs.mapM (deriveClass m) catalog = .ok ts catalog') :
    ∀ d ∈ done ++ cs, Settled m catalog' d := by
  induction cs generalizing done catalog ts with
  | nil =>
    cases h
    simpa using hsettled
  | cons c cs ih =>
    obtain ⟨t, mid, _, hc, hrest, -⟩ := StatefulRuns.of_mapM_cons_ok h
    obtain ⟨ht, -, rfl⟩ := deriveClass_ok hc
    have hname := (nodeTypeOf_ok ht).1
    -- A supertype that is derived in this very step was needed before it.
    have hother : c ∉ done → ∀ d, batchSupertypes m batch d ⊆ done → ∀ s ∈ m.supertypes d, s ≠ c := by
      rintro hmem d hd s hs rfl
      exact hmem (hd (List.mem_filter.2 ⟨hs, by simpa using hcs List.mem_cons_self⟩))
    have hstep : ∀ d ∈ c :: done, Settled m (catalog.put t) d := by
      by_cases hmem : c ∈ done
      · -- The class comes a second time, and the catalog already has its type.
        obtain ⟨u, hu, hget⟩ := hsettled c hmem
        have hut : u = t := Except.ok.inj (hu.symm.trans ht)
        have hsame : catalog.put t = catalog := by
          rw [TypeCatalog.put, Table.insert_self (hut ▸ hget)]
        rw [hsame]
        exact List.forall_mem_cons.2 ⟨hsettled c hmem, hsettled⟩
      · refine List.forall_mem_cons.2 ⟨⟨t, ?_, by simp [TypeCatalog.put, TypeCatalog.get?]⟩, ?_⟩
        · rw [nodeTypeOf_congr fun s hs _ n hn =>
            get?_put_of_ne hnames hname hn (hother hmem c hf.1 s hs), ht]
        · intro d hd
          refine (hsettled d hd).put hnames hname (fun he => hmem (he ▸ hd)) ?_
          exact fun s hs _ => hother hmem d (hclosed d hd) s hs
    have hrec := ih ?_ hf.2 ?_ hstep hrest
    · intro d hd
      refine hrec d ?_
      simp only [List.mem_append, List.mem_cons] at hd ⊢
      tauto
    · exact fun d hd => hcs (by simp [hd])
    · refine List.forall_mem_cons.2 ⟨List.Subset.trans hf.1 (List.subset_cons_self c done), ?_⟩
      exact fun d hd => List.Subset.trans (hclosed d hd) (List.subset_cons_self c done)

end Batch

def enumTypesIn (m : Metamodel) (uris : List String) : List EnumType :=
  uris.flatMap fun uri => ((m.package? uri).map enumTypes).getD []

/-- The catalog to which the enumerations of the packages were added. -/
def collected (m : Metamodel) (uris : List String) (catalog : TypeCatalog) : TypeCatalog :=
  (enumTypesIn m uris).foldl TypeCatalog.registerEnum catalog

theorem nodeTypes_foldl_registerEnum (es : List EnumType) (catalog : TypeCatalog) :
    (es.foldl TypeCatalog.registerEnum catalog).nodeTypes = catalog.nodeTypes := by
  induction es generalizing catalog with
  | nil => rfl
  | cons e es ih => exact ih (catalog.registerEnum e)

@[simp] theorem get?_collected (m : Metamodel) (uris : List String) (catalog : TypeCatalog)
    (n : QualifiedName) : (collected m uris catalog).get? n = catalog.get? n := by
  rw [TypeCatalog.get?, collected, nodeTypes_foldl_registerEnum, TypeCatalog.get?]

theorem collect_cons {uri : String} {uris : List String} {p : Package}
    (hp : m.package? uri = some p) :
    collect m (uri :: uris) catalog =
      (collect m uris >>= fun rest => pure ((p.classes.map fun c => p.ref c.name) ++ rest))
        ((enumTypes p).foldl TypeCatalog.registerEnum catalog) := by
  have hrequire : lift ((m.requirePackage uri).mapError .metamodel) catalog = .ok p catalog := by
    rw [Metamodel.requirePackage_eq_ok.2 hp]
    rfl
  rw [collect, StatefulRuns.bind_ok hrequire]
  rfl

theorem collect_eq {uris : List String} (h : ∀ uri ∈ uris, ∃ p, m.package? uri = some p) :
    collect m uris catalog = .ok (m.classRefs uris) (collected m uris catalog) := by
  induction uris generalizing catalog with
  | nil => rfl
  | cons uri uris ih =>
    obtain ⟨p, hp⟩ := h uri List.mem_cons_self
    have hclasses : m.classRefs (uri :: uris) =
        (p.classes.map fun c => p.ref c.name) ++ m.classRefs uris := by
      rw [Metamodel.classRefs, List.flatMap_cons, hp]
      rfl
    have henums : collected m (uri :: uris) catalog =
        collected m uris ((enumTypes p).foldl TypeCatalog.registerEnum catalog) := by
      rw [collected, enumTypesIn, List.flatMap_cons, hp, List.foldl_append]
      rfl
    rw [collect_cons hp, StatefulRuns.bind_ok (ih fun u hu => h u (List.mem_cons_of_mem uri hu)),
      hclasses, henums]
    rfl

theorem packages_of_collect_ok {uris : List String} {batch : List ClassifierRef}
    (h : collect m uris catalog = .ok batch catalog') :
    ∀ uri ∈ uris, ∃ p, m.package? uri = some p := by
  induction uris generalizing batch catalog catalog' with
  | nil => simp
  | cons uri uris ih =>
    obtain ⟨p, _, hlift, -⟩ := StatefulRuns.of_bind_ok h
    have hp : m.package? uri = some p :=
      Metamodel.requirePackage_eq_ok.1 (of_mapError_ok (of_lift_ok hlift).1)
    rw [collect_cons hp] at h
    obtain ⟨rest, _, hrest, -⟩ := StatefulRuns.of_bind_ok h
    exact List.forall_mem_cons.2 ⟨⟨p, hp⟩, ih hrest⟩

theorem collect_ok {uris : List String} {batch : List ClassifierRef}
    (h : collect m uris catalog = .ok batch catalog') :
    batch = m.classRefs uris ∧ catalog'.nodeTypes = catalog.nodeTypes := by
  cases h.symm.trans (collect_eq (packages_of_collect_ok h))
  exact ⟨rfl, nodeTypes_foldl_registerEnum (enumTypesIn m uris) catalog⟩

theorem derivePackages_of_collect {uris : List String} {batch : List ClassifierRef}
    (h : collect m uris catalog = .ok batch catalog') :
    derivePackages m uris catalog =
      (lift (supertypesFirst m catalog' batch) >>= fun order => order.mapM (deriveClass m))
        catalog' := by
  have hstate : (get : Derive TypeCatalog) catalog' = .ok catalog' catalog' := rfl
  rw [derivePackages, StatefulRuns.bind_ok h, StatefulRuns.bind_ok hstate]

theorem derivePackages_eq {uris : List String} {batch order : List ClassifierRef}
    (hcollect : collect m uris catalog = .ok batch catalog')
    (horder : supertypesFirst m catalog' batch = .ok order) :
    derivePackages m uris catalog = order.mapM (deriveClass m) catalog' := by
  have hlift : lift (supertypesFirst m catalog' batch) catalog' = .ok order catalog' := by
    rw [horder]
    rfl
  rw [derivePackages_of_collect hcollect, StatefulRuns.bind_ok hlift]

theorem derivePackages_ok {uris : List String} {ts : List NodeType}
    (h : derivePackages m uris catalog = .ok ts catalog') :
    (∀ uri ∈ uris, ∃ p, m.package? uri = some p) ∧
    ∃ order, supertypesFirst m (collected m uris catalog) (m.classRefs uris) = .ok order ∧
      order.mapM (deriveClass m) (collected m uris catalog) = .ok ts catalog' := by
  obtain ⟨batch, mid, hcollect, -⟩ := StatefulRuns.of_bind_ok h
  have hloaded := packages_of_collect_ok hcollect
  rw [derivePackages_of_collect (collect_eq hloaded)] at h
  obtain ⟨order, _, hlift, hrun⟩ := StatefulRuns.of_bind_ok h
  obtain ⟨horder, hsame⟩ := of_lift_ok hlift
  rw [hsame] at hrun
  exact ⟨hloaded, order, horder, hrun⟩

theorem unchanged_of_mapM {cs : List ClassifierRef} {ts : List NodeType}
    (h : cs.mapM (deriveClass m) catalog = .ok ts catalog') :
    catalog'.enumTypes = catalog.enumTypes ∧
      ∀ n, (∀ c ∈ cs, typeName m c ≠ .ok n) → catalog'.get? n = catalog.get? n := by
  induction cs generalizing catalog ts with
  | nil => cases h; exact ⟨rfl, fun _ _ => rfl⟩
  | cons c cs ih =>
    obtain ⟨t, _, _, hc, hrest, -⟩ := StatefulRuns.of_mapM_cons_ok h
    obtain ⟨ht, -, rfl⟩ := deriveClass_ok hc
    obtain ⟨henums, hget⟩ := ih hrest
    refine ⟨henums, fun n hn => ?_⟩
    obtain ⟨hthis, hothers⟩ := List.forall_mem_cons.1 hn
    have hname : t.name ≠ n := fun he => hthis (he ▸ (nodeTypeOf_ok ht).1)
    rw [hget n hothers, TypeCatalog.get?, TypeCatalog.put, Table.get?_insert, if_neg hname,
      TypeCatalog.get?]

theorem get?_derivePackages_of_ne {uris : List String} {ts : List NodeType} {n : QualifiedName}
    (h : derivePackages m uris catalog = .ok ts catalog')
    (hn : ∀ c ∈ m.classRefs uris, typeName m c ≠ .ok n) : catalog'.get? n = catalog.get? n := by
  obtain ⟨-, order, horder, hrun⟩ := derivePackages_ok h
  have hmem := (supertypesFirst_ok horder).2.1
  rw [(unchanged_of_mapM hrun).2 n fun c hc => hn c ((hmem c).1 hc), get?_collected]

theorem Settled.class?_of_supertype {s : ClassifierRef} (h : Settled m catalog c)
    (hs : s ∈ m.supertypes c) : ∃ d, m.class? s = some d := by
  obtain ⟨t, ht, -⟩ := h
  obtain ⟨-, fs, -, -, hfs, -⟩ := nodeTypeOf_ok ht
  exact Metamodel.class?_of_supertype hfs hs

/-- A run over packages settles all their classes, if types are told apart by their names. -/
theorem exists_order_of_derivePackages {uris : List String} {ts : List NodeType}
    (hnames : (m.packages.values.map (·.name)).Nodup)
    (h : derivePackages m uris catalog = .ok ts catalog') :
    ∃ order, Follows (batchSupertypes m (m.classRefs uris)) [] order ∧
      (∀ c, c ∈ order ↔ c ∈ m.classRefs uris) ∧
      ∀ c ∈ m.classRefs uris, Settled m catalog' c ∧
        ∀ s ∈ m.supertypes c, Known m catalog (m.classRefs uris) s := by
  obtain ⟨-, order, horder, hrun⟩ := derivePackages_ok h
  obtain ⟨hf, hmem, hknown⟩ := supertypesFirst_ok horder
  have hall := settled_of_mapM hnames (fun c hc => (hmem c).1 hc) hf (by simp) (by simp) hrun
  refine ⟨order, hf, hmem, fun c hc => ⟨hall c (by simpa using (hmem c).2 hc), fun s hs => ?_⟩⟩
  refine (hknown c hc s hs).imp_right (.imp_right ?_)
  rintro ⟨n, hn, hsome⟩
  exact ⟨n, hn, by simpa using hsome⟩

/-- If all supertypes that have types are derived together with the classes, the classes of the
batch are closed under supertypes, those of the built-in package apart. -/
theorem settled_of_derivePackages {uris : List String} {ts : List NodeType}
    (hnames : (m.packages.values.map (·.name)).Nodup)
    (hclosed : ∀ c ∈ m.classRefs uris, ∀ s ∈ m.supertypes c, (∃ d, m.class? s = some d) →
      Known m catalog (m.classRefs uris) s → s.uri ∈ uris ∨ s.uri = astUri)
    (h : derivePackages m uris catalog = .ok ts catalog') :
    ∃ order, Follows (batchSupertypes m (m.classRefs uris)) [] order ∧
      (∀ c, c ∈ order ↔ c ∈ m.classRefs uris) ∧
      ∀ c ∈ m.classRefs uris, Settled m catalog' c ∧
        ∀ s ∈ m.supertypes c, s.uri ≠ astUri → s ∈ m.classRefs uris := by
  obtain ⟨order, hf, hmem, hall⟩ := exists_order_of_derivePackages hnames h
  refine ⟨order, hf, hmem, fun c hc => ⟨(hall c hc).1, fun s hs hast => ?_⟩⟩
  obtain ⟨d, hd⟩ := (hall c hc).1.class?_of_supertype hs
  have huri := (hclosed c hc s hs ⟨d, hd⟩ ((hall c hc).2 s hs)).resolve_right hast
  exact Metamodel.mem_classRefs.2 ⟨huri, d, hd⟩

/-- The properties that the features of a class ask for. -/
def requiredProperties (m : Metamodel) (c : ClassifierRef) :
    Except DerivationError (List Property) := do
  let fs ← (m.ownedFeatures c).mapError .metamodel
  (fs.filter (·.owner.uri ≠ astUri)).mapM fun o => propertyOf m o.feature

/-- The catalog has a type for the class, with one property for each feature that the class has
from outside the built-in package and with no others. -/
def Faithful (m : Metamodel) (catalog : TypeCatalog) (c : ClassifierRef) : Prop :=
  ∃ name t ps, typeName m c = .ok name ∧ catalog.get? name = some t ∧
    requiredProperties m c = .ok ps ∧ t.properties.Perm ps

/-- The features of a class ask for all the properties that those of the class it extends ask
for. -/
def KeepsInherited (m : Metamodel) (c : ClassifierRef) : Prop :=
  ∃ ps, requiredProperties m c = .ok ps ∧ ∀ s, m.extended? (m.supertypes c) = some s →
    ∃ qs, requiredProperties m s = .ok qs ∧ qs ⊆ ps

def keepsInherited (m : Metamodel) (c : ClassifierRef) : Bool :=
  match requiredProperties m c with
  | .error _ => false
  | .ok ps => (m.extended? (m.supertypes c)).all fun s =>
    match requiredProperties m s with
    | .error _ => false
    | .ok qs => qs.all (· ∈ ps)

theorem keepsInherited_iff : keepsInherited m c = true ↔ KeepsInherited m c := by
  unfold keepsInherited KeepsInherited
  cases requiredProperties m c with
  | error e => simp
  | ok ps =>
    simp only [Option.all_eq_true, Except.ok.injEq, exists_eq_left']
    refine forall_congr' fun s => forall_congr' fun _ => ?_
    cases requiredProperties m s <;> simp [List.subset_def]

instance (m : Metamodel) (c : ClassifierRef) : Decidable (KeepsInherited m c) :=
  decidable_of_iff _ keepsInherited_iff

theorem names_of_mapM {os : List OwnedFeature} {ps : List Property}
    (h : os.mapM (fun o => propertyOf m o.feature) = .ok ps) :
    ps.map (·.name) = OwnedFeature.names os := by
  have hall := StatefulRuns.forall₂_of_mapM_ok h
  clear h
  induction hall with
  | nil => rfl
  | cons hp _ ih => rw [List.map_cons, ih, name_propertyOf hp]; rfl

theorem requiredProperties_ok {ps : List Property} (h : requiredProperties m c = .ok ps) :
    ∃ fs, m.ownedFeatures c = .ok fs ∧ (ps.map (·.name)).Nodup ∧
      (∀ o ∈ fs, o.owner.uri ≠ astUri → ∃ p ∈ ps, propertyOf m o.feature = .ok p) ∧
      ∀ p ∈ ps, ∃ o ∈ fs, o.owner.uri ≠ astUri ∧ propertyOf m o.feature = .ok p := by
  obtain ⟨fs, hfs, h⟩ := StatefulRuns.of_except_bind_ok h
  have hfs := of_mapError_ok hfs
  refine ⟨fs, hfs, ?_, ?_, ?_⟩
  · rw [names_of_mapM h]
    exact (List.Sublist.map _ List.filter_sublist).nodup (Metamodel.nodup_ownedFeatures hfs)
  · intro o ho hast
    have ho' : o ∈ fs.filter (·.owner.uri ≠ astUri) := List.mem_filter.2 ⟨ho, by simpa using hast⟩
    obtain ⟨p, hp, hop⟩ := StatefulRuns.exists_mem_of_mapM_ok h ho'
    exact ⟨p, hp, hop⟩
  · intro p hp
    obtain ⟨o, ho, hop⟩ := StatefulRuns.exists_of_mem_mapM_ok h hp
    obtain ⟨ho, hast⟩ := List.mem_filter.1 ho
    exact ⟨o, ho, by simpa using hast, hop⟩

theorem extended?_eq_some {ss : List ClassifierRef} {s : ClassifierRef}
    (h : m.extended? ss = some s) : s ∈ ss ∧ s.uri ≠ astUri := by
  have hs := List.find?_some h
  simp only [decide_eq_true_eq] at hs
  exact ⟨List.mem_of_find?_eq_some h, hs.1⟩

/-- What a settled type takes over from a faithful one. -/
theorem TakesOver.perm {s : ClassifierRef} {inherited : List Property}
    (h : TakesOver m catalog c inherited) (hs : m.extended? (m.supertypes c) = some s)
    (hf : Faithful m catalog s) : ∃ qs, requiredProperties m s = .ok qs ∧ inherited.Perm qs := by
  rw [TakesOver, hs] at h
  obtain ⟨n, parent, hn, hget, rfl⟩ := h
  obtain ⟨n', parent', qs, hn', hget', hqs, hperm⟩ := hf
  cases hn.symm.trans hn'
  cases hget.symm.trans hget'
  exact ⟨qs, hqs, hperm⟩

theorem faithful_of_keepsInherited (hc : Settled m catalog c) (hk : KeepsInherited m c)
    (hs : ∀ s, m.extended? (m.supertypes c) = some s → Faithful m catalog s) :
    Faithful m catalog c := by
  obtain ⟨t, ht, hget⟩ := hc
  obtain ⟨hname, fs, inherited, new, hfs, htakes, hprops, hcomp⟩ := nodeTypeOf_ok ht
  obtain ⟨ps, hps, hkeeps⟩ := hk
  obtain ⟨fs', hfs', hnodup, hgives, hasked⟩ := requiredProperties_ok hps
  cases hfs.symm.trans hfs'
  have hinherited : inherited ⊆ ps ∧ (inherited.map (·.name)).Nodup := by
    cases hext : m.extended? (m.supertypes c) with
    | none =>
      rw [TakesOver, hext] at htakes
      simp [htakes]
    | some s =>
      obtain ⟨qs, hqs, hperm⟩ := htakes.perm hext (hs s hext)
      obtain ⟨qs', hqs', hsub⟩ := hkeeps s hext
      cases hqs.symm.trans hqs'
      obtain ⟨-, -, hqnodup, -⟩ := requiredProperties_ok hqs
      exact ⟨List.Subset.trans hperm.subset hsub, (hperm.map _).nodup_iff.2 hqnodup⟩
  refine ⟨t.name, t, ps, hname, hget, hps, ?_⟩
  have htnodup : (t.properties.map (·.name)).Nodup := hprops ▸ hcomp.fresh hinherited.2
  refine (List.perm_ext_iff_of_nodup htnodup.of_map hnodup.of_map).2 fun p => ?_
  rw [hprops, List.mem_append]
  constructor
  · rintro (hp | hp)
    · exact hinherited.1 hp
    · obtain ⟨o, ho, hast, hop⟩ := hcomp.sound p hp
      obtain ⟨p', hp', hop'⟩ := hgives o ho hast
      cases hop.symm.trans hop'
      exact hp'
  · intro hp
    obtain ⟨o, ho, hast, hop⟩ := hasked p hp
    rcases hcomp.complete o ho hast with ⟨q, hq, hqo⟩ | ⟨p', hp', hop'⟩
    · -- An inherited property of the same name is the same property.
      have hqp : q = p := List.inj_on_of_nodup_map hnodup (hinherited.1 hq) hp
        (hqo.trans (name_propertyOf hop).symm)
      exact .inl (hqp ▸ hq)
    · cases hop.symm.trans hop'
      exact .inr hp'

theorem keepsInherited_of_faithful (hc : Settled m catalog c) (hf : Faithful m catalog c)
    (hs : ∀ s, m.extended? (m.supertypes c) = some s → Faithful m catalog s) :
    KeepsInherited m c := by
  obtain ⟨t, ht, hget⟩ := hc
  obtain ⟨hname, fs, inherited, new, -, htakes, hprops, -⟩ := nodeTypeOf_ok ht
  obtain ⟨n, t', ps, hn, hget', hps, hperm⟩ := hf
  cases hname.symm.trans hn
  cases hget.symm.trans hget'
  refine ⟨ps, hps, fun s hext => ?_⟩
  obtain ⟨qs, hqs, hqperm⟩ := htakes.perm hext (hs s hext)
  refine ⟨qs, hqs, fun q hq => hperm.subset ?_⟩
  rw [hprops]
  exact List.mem_append_left new (hqperm.mem_iff.2 hq)

/-- Classes are derived faithfully once each follows the class that it extends in this. -/
theorem faithful_of_settled {batch order : List ClassifierRef}
    (hf : Follows (batchSupertypes m batch) [] order) (hmem : ∀ c, c ∈ order ↔ c ∈ batch)
    (hsettled : ∀ c ∈ batch, Settled m catalog c ∧
      ∀ s ∈ m.supertypes c, s.uri ≠ astUri → s ∈ batch)
    (hkeeps : ∀ c ∈ batch, (∀ s, m.extended? (m.supertypes c) = some s → Faithful m catalog s) →
      KeepsInherited m c) : ∀ c ∈ batch, Faithful m catalog c := by
  intro c hc
  refine hf.induction (P := fun c => c ∈ batch → Faithful m catalog c) ?_ (by simp) c
    ((hmem c).2 hc) hc
  intro c ih hc
  have hparent : ∀ s, m.extended? (m.supertypes c) = some s → Faithful m catalog s := by
    intro s hext
    obtain ⟨hs, hast⟩ := extended?_eq_some hext
    have hbatch := (hsettled c hc).2 s hs hast
    exact ih s (List.mem_filter.2 ⟨hs, by simpa using hbatch⟩) hbatch
  exact faithful_of_keepsInherited (hsettled c hc).1 (hkeeps c hc hparent) hparent

/-- All classes of the packages are derived faithfully just when each keeps what it inherits from
the class that it extends. -/
theorem faithful_iff_keepsInherited {uris : List String} {ts : List NodeType}
    (hnames : (m.packages.values.map (·.name)).Nodup)
    (hclosed : ∀ c ∈ m.classRefs uris, ∀ s ∈ m.supertypes c, s.uri ∈ uris ∨ s.uri = astUri)
    (h : derivePackages m uris .initial = .ok ts catalog) :
    (∀ c ∈ m.classRefs uris, Faithful m catalog c) ↔
      ∀ c ∈ m.classRefs uris, KeepsInherited m c := by
  obtain ⟨order, hf, hmem, hsettled⟩ := settled_of_derivePackages hnames
    (fun c hc s hs _ _ => hclosed c hc s hs) h
  constructor
  · intro hall c hc
    refine keepsInherited_of_faithful (hsettled c hc).1 (hall c hc) fun s hext => ?_
    obtain ⟨hs, hast⟩ := extended?_eq_some hext
    exact hall s ((hsettled c hc).2 s hs hast)
  · intro hkeeps
    exact faithful_of_settled hf hmem hsettled fun c hc _ => hkeeps c hc

def plantsPackage : Package :=
  let plant : ClassifierRef := ⟨"urn:plants", "Plant"⟩
  let labelled : ClassifierRef := ⟨"urn:plants", "Labelled"⟩
  (Package.ofName "plants" "urn:plants").addAll [
    .classDecl ⟨"Tree", false, false, [labelled, plant],
      [(Feature.single "branches" .containment (.ofClass ⟨"urn:plants", "Tree"⟩)).many,
        .single "season" .plain (.ofEnum ⟨"urn:plants", "Season"⟩)]⟩,
    .classDecl ⟨"Labelled", true, true, [], [.single "label" .plain (.ecore "EString")]⟩,
    .classDecl ⟨"Plant", true, false, [.ast "ASTNode"],
      [.single "next" .reference (.ofClass plant), .single "height" .plain (.ecore "EInt")]⟩,
    .enumDecl ⟨"Season", ["dry", "wet"]⟩]

def plants : Metamodel := Metamodel.initial.add plantsPackage

theorem faithful_plants : ∃ ts catalog,
    derivePackages plants ["urn:plants"] .initial = .ok ts catalog ∧
      ∀ c ∈ plants.classRefs ["urn:plants"], Faithful plants catalog c := by
  have hruns : (match derivePackages plants ["urn:plants"] .initial with
      | .ok _ _ => true | .error _ _ => false) = true := by decide +kernel
  have hkeeps : ∀ c ∈ plants.classRefs ["urn:plants"], KeepsInherited plants c := by
    decide +kernel
  split at hruns
  · rename_i ts catalog hrun
    refine ⟨ts, catalog, hrun, (faithful_iff_keepsInherited ?_ ?_ hrun).2 hkeeps⟩
    · decide +kernel
    · decide +kernel
  · cases hruns

/-- A shape with a size, and a square that declares its size anew. -/
def redeclaring : Metamodel :=
  Metamodel.initial.add ((Package.ofName "shapes" "urn:shapes").addAll [
    .classDecl ⟨"Shape", false, false, [], [.single "size" .plain (.ecore "EString")]⟩,
    .classDecl ⟨"Square", false, false, [⟨"urn:shapes", "Shape"⟩],
      [.single "size" .plain (.ecore "EInt")]⟩])

/-- The type of a class that declares an inherited feature anew keeps the inherited property. -/
theorem redeclared_not_faithful :
    (redeclaring.packages.values.map (·.name)).Nodup ∧
    (∀ c ∈ redeclaring.classRefs ["urn:shapes"], ∀ s ∈ redeclaring.supertypes c,
      s.uri ∈ ["urn:shapes"] ∨ s.uri = astUri) ∧
    ∃ ts catalog, derivePackages redeclaring ["urn:shapes"] .initial = .ok ts catalog ∧
      ¬ Faithful redeclaring catalog ⟨"urn:shapes", "Square"⟩ := by
  refine ⟨by decide +kernel, by decide +kernel, ?_⟩
  have hruns : (match derivePackages redeclaring ["urn:shapes"] .initial with
      | .ok _ catalog => (catalog.get? ⟨"shapes", "Square"⟩).map (·.properties)
      | .error _ _ => none) = some [⟨"size", .value, .data .string, false, none⟩] := by
    decide +kernel
  have hname : typeName redeclaring ⟨"urn:shapes", "Square"⟩ = .ok ⟨"shapes", "Square"⟩ := rfl
  have hasked : requiredProperties redeclaring ⟨"urn:shapes", "Square"⟩ =
      .ok [⟨"size", .value, .data .integer, false, none⟩] := rfl
  split at hruns
  · rename_i ts catalog hrun
    refine ⟨ts, catalog, hrun, ?_⟩
    rintro ⟨name, t, ps, hn, hget, hps, hperm⟩
    cases hname.symm.trans hn
    cases hasked.symm.trans hps
    obtain ⟨t', hget', hprops⟩ := Option.map_eq_some_iff.1 hruns
    cases hget.symm.trans hget'
    rw [hprops] at hperm
    exact absurd hperm (by decide)
  · cases hruns

end Derivation

end TreeInterchange
