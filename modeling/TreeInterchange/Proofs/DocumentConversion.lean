import TreeInterchange.Proofs.ConversionToNodes
import TreeInterchange.Proofs.DocumentObjects
import TreeInterchange.Proofs.UnambiguousFeatures

/-!
# Converting what was read from a document

The reader stores only what the features of a class ask for, the types of the classes have the
properties that the features ask for, and the conversion asks no more than that. So a
document that can be read can be converted, unless it names a class without a type or an
ordinal that the enumeration does not have.

The conversion is followed step by step. New nodes keep their types, and they have no parent
until they are put into a slot of the node they were made for.
-/

namespace TreeInterchange

open StatefulRuns

theorem ObjectDocument.ValueRead.holds {m : Metamodel} {u : ObjectStore} {r depth y e : Nat}
    {f : Feature} {j : Json} {v : FeatureValue}
    (h : ValueRead m (LinksIn u r) u depth f j y e v) : f.holds v = true := by
  cases hk : f.kind with
  | plain => exact holds_of_plainValue hk (h.plain hk)
  | reference =>
    rw [h.reference hk, resolvedValue]
    generalize (targets j).filterMap _ = ids
    cases hmany : f.isMany with
    | true => simp [referenceValue, Feature.holds, hk, hmany]
    | false => cases ids <;> simp [referenceValue, Feature.holds, hk, hmany]
  | containment =>
    obtain ⟨a, b, -, -, howns⟩ := h.owned hk
    rcases (howns.children fun _ _ _ => ReadsObject.lt).2.2 with
      rfl | ⟨hmany, ids, rfl⟩ | ⟨hmany, c, rfl⟩
    · simp [Feature.holds]
    · simp [Feature.holds, hk, hmany]
    · simp [Feature.holds, hk, hmany]

namespace ToNodes

/-- The catalog does not know what the document names: the class of an object has no type, or an
enumeration has no literal with an ordinal. -/
def Unknown (m : Metamodel) (catalog : TypeCatalog) (u : ObjectStore) : ConversionError → Prop
  | .unregisteredType n =>
    catalog.get? n = none ∧ ∃ x < u.size, m.qualifiedName (u.get x).type = .ok n
  | .enumOutOfRange text ordinal =>
    ∃ n, text = QualifiedName.render n ∧ (catalog.enum? n).bind (·.literal? ordinal) = none
  | _ => False

/-- A type has a property for each feature outside the built-in package, and for no other. -/
def Suits (m : Metamodel) (t : NodeType) (os : List OwnedFeature) : Prop :=
  ∀ o ∈ os, (o.owner.uri = astUri → t.property? o.feature.name = none) ∧
    (o.owner.uri ≠ astUri → ∃ p, t.property? o.feature.name = some p ∧
      Derivation.propertyOf m o.feature = .ok p)

theorem suits_of_faithful {m : Metamodel} {catalog : TypeCatalog} {c : ClassifierRef}
    {n : QualifiedName} {t : NodeType} {os : List OwnedFeature}
    (h : Derivation.Faithful m catalog c) (hn : m.qualifiedName c = .ok n)
    (ht : catalog.get? n = some t) (hos : m.ownedFeatures c = .ok os) : Suits m t os := by
  obtain ⟨n', t', ps, hn', ht', hps, hperm⟩ := h
  cases hn.symm.trans (Derivation.of_mapError_ok hn')
  cases ht.symm.trans ht'
  obtain ⟨os', hos', hnodup, hgives, hasked⟩ := Derivation.requiredProperties_ok hps
  cases hos.symm.trans hos'
  have htnodup : (t.properties.map (·.name)).Nodup := (hperm.map _).nodup_iff.2 hnodup
  intro o ho
  refine ⟨fun hast => ?_, fun hast => ?_⟩
  · rw [NodeType.property?, List.find?_eq_none]
    intro p hp hname
    obtain ⟨o', ho', hast', hop⟩ := hasked p (hperm.subset hp)
    have hname' : p.name = o.feature.name := by simpa using hname
    have hsame : o' = o := List.inj_on_of_nodup_map (Metamodel.nodup_ownedFeatures hos) ho' ho
      ((Derivation.name_propertyOf hop).symm.trans hname')
    exact hast' (hsame ▸ hast)
  · obtain ⟨p, hp, hop⟩ := hgives o ho hast
    refine ⟨p, ?_, hop⟩
    rw [← Derivation.name_propertyOf hop]
    exact Derivation.property?_of_mem htnodup (hperm.mem_iff.2 hp)

/-- A forest has grown: its nodes keep their types, and none of them has got a parent. -/
structure Keeps (f g : Forest) : Prop where
  size : f.size ≤ g.size
  type : ∀ j < f.size, (g.get j).type = (f.get j).type
  root : ∀ j < f.size, (f.get j).holder = none → (g.get j).holder = none

/-- References wait at a node whose type has a property for them. -/
def Pending.Ready (f : Forest) (p : Pending) : Prop :=
  ∃ q, (f.get p.node).type.property? p.name = some q ∧ p.type.property? p.name = some q ∧
    q.kind = .reference

/-- A conversion has come further. -/
structure Advances (st st' : State) : Prop where
  keeps : Keeps st.forest st'.forest
  ready : (∀ p ∈ st.pending, p.Ready st.forest) → ∀ p ∈ st'.pending, p.Ready st'.forest

variable {m : Metamodel} {catalog : TypeCatalog} {u : ObjectStore} {st st₀ st' : State}
  {f g : Forest}

theorem Pending.Ready.of_type {p : Pending} (h : p.Ready f)
    (htype : (g.get p.node).type = (f.get p.node).type) : p.Ready g := by
  obtain ⟨q, hq, hrest⟩ := h
  exact ⟨q, by rw [htype, hq], hrest⟩

theorem Pending.Ready.keeps {p : Pending} (h : p.Ready f) (hk : Keeps f g) : p.Ready g := by
  obtain ⟨q, hq, -⟩ := id h
  exact h.of_type (hk.type _ (Forest.lt_size_of_property? hq))

theorem Keeps.trans {h : Forest} (hfg : Keeps f g) (hgh : Keeps g h) : Keeps f h where
  size := Nat.le_trans hfg.size hgh.size
  type j hj := by rw [hgh.type j (Nat.lt_of_lt_of_le hj hfg.size), hfg.type j hj]
  root j hj hr := hgh.root j (Nat.lt_of_lt_of_le hj hfg.size) (hfg.root j hj hr)

theorem Advances.refl (st : State) : Advances st st :=
  ⟨⟨Nat.le_refl _, fun _ _ => rfl, fun _ _ h => h⟩, fun h => h⟩

theorem Advances.trans (h : Advances st₀ st) (h' : Advances st st') : Advances st₀ st' :=
  ⟨h.keeps.trans h'.keeps, fun hready => h'.ready (h.ready hready)⟩

/-- A change of the forest that keeps all types, and gives no parent to the nodes there were. -/
theorem Advances.edit (h : Advances st₀ st) (hsize : g.size = st.forest.size)
    (htype : ∀ j, (g.get j).type = (st.forest.get j).type)
    (hroot : ∀ j < st₀.forest.size, (st.forest.get j).holder = none → (g.get j).holder = none) :
    Advances st₀ { st with forest := g } where
  keeps :=
    { size := by rw [hsize]; exact h.keeps.size
      type := fun j hj => by rw [htype, h.keeps.type j hj]
      root := fun j hj hr => hroot j hj (h.keeps.root j hj hr) }
  ready hready p hp := (h.ready hready p hp).of_type (htype _)

theorem propertyOf_ok {a : Feature} {p : Property} (h : Derivation.propertyOf m a = .ok p) :
    p.multiple = a.isMany ∧ p.kind = (match a.kind with
      | .plain => .value
      | .containment => .child
      | .reference => .reference) ∧
    (a.kind = .plain → ∀ c, a.type = .ofEnum c → ∃ n, p.type = .enumeration n) := by
  obtain ⟨name, kind, type, lower, upper⟩ := a
  cases kind with
  | containment =>
    obtain ⟨target, -, hp⟩ := of_except_bind_ok h
    cases hp
    exact ⟨rfl, rfl, by simp⟩
  | reference =>
    obtain ⟨target, -, hp⟩ := of_except_bind_ok h
    cases hp
    exact ⟨rfl, rfl, by simp⟩
  | plain =>
    cases type with
    | ofClass c =>
      cases h
      exact ⟨rfl, rfl, by simp⟩
    | ofData c storage =>
      cases h
      exact ⟨rfl, rfl, by simp⟩
    | ofEnum c =>
      obtain ⟨n, -, hp⟩ := of_except_bind_ok h
      cases hp
      exact ⟨rfl, rfl, fun _ _ _ => ⟨n, rfl⟩⟩

theorem plainValue_gives {a : Feature} {t : NodeType} {p : Property} {v : FeatureValue}
    (hp : Derivation.propertyOf m a = .ok p) (hk : a.kind = .plain)
    (hv : v.isNull = true ∨ a.type.stores v = true) :
    Gives (Unknown m catalog u) (·.holdsNodes = false) (plainValue catalog t p v) := by
  rcases hv with hv | hv
  · rw [FeatureValue.isNull_iff.1 hv]
    rfl
  cases v with
  | enumeration ordinal =>
    have hc : ∃ c, a.type = .ofEnum c := by
      cases htype : a.type <;> simp_all [FeatureType.stores]
    obtain ⟨c, hc⟩ := hc
    obtain ⟨n, hn⟩ := (propertyOf_ok hp).2.2 hk c hc
    simp only [plainValue, hn]
    cases hl : (catalog.enum? n).bind (·.literal? ordinal) with
    | none => exact ⟨n, rfl, hl⟩
    | some literal => rfl
  | integer n =>
    simp only [plainValue, Gives]
    split <;> rfl
  | null => rfl
  | string s => rfl
  | real x => rfl
  | boolean b => rfl
  | _ => simp [FeatureType.stores] at hv

structure Made (st : State) (node : NodeId) (st' : State) : Prop where
  advances : Advances st st'
  new : st.forest.size ≤ node
  present : node < st'.forest.size
  root : (st'.forest.get node).holder = none

structure MadeAll (st : State) (nodes : List NodeId) (st' : State) : Prop where
  advances : Advances st st'
  nodup : nodes.Nodup
  made : ∀ n ∈ nodes, Made st n st'

theorem Made.trans (h : Made st₀ n st) (h' : Advances st st') : Made st₀ n st' where
  advances := h.advances.trans h'
  new := h.new
  present := Nat.lt_of_lt_of_le h.present h'.keeps.size
  root := h'.keeps.root n h.present h.root

theorem MadeAll.add {nodes : List NodeId} {n : NodeId} (h : MadeAll st₀ nodes st)
    (h' : Made st n st') : MadeAll st₀ (nodes ++ [n]) st' where
  advances := h.advances.trans h'.advances
  nodup := by
    refine List.nodup_append.2 ⟨h.nodup, by simp, ?_⟩
    rintro a ha b hb rfl
    obtain rfl := List.mem_singleton.1 hb
    exact absurd (h.made a ha).present (Nat.not_lt.2 h'.new)
  made k hk := by
    rcases List.mem_append.1 hk with hk | hk
    · exact (h.made k hk).trans h'.advances
    · obtain rfl := List.mem_singleton.1 hk
      exact ⟨h.advances.trans h'.advances, Nat.le_trans h.advances.keeps.size h'.new, h'.present,
        h'.root⟩

section Property

variable {allowed : ConversionError → Prop} {a : NodeId} {p : Property}

theorem setChildren_ends {ns : List NodeId} (hns : MadeAll st₀ ns st) (ha : a < st₀.forest.size)
    (hp : (st₀.forest.get a).type.property? p.name = some p) (hk : p.kind = .child)
    (hroot : (st₀.forest.get a).holder = none) :
    Ends allowed (fun _ => Advances st₀) (setChildren a p ns) st := by
  have hp' : (st.forest.get a).type.property? p.name = some p := by
    rw [hns.advances.keeps.type a ha, hp]
  have hroot' : (st.forest.get a).holder = none := hns.advances.keeps.root a ha hroot
  have hfresh : ∀ n ∈ ns, n ≠ a ∧ n < st.forest.size ∧ (st.forest.get n).holder = none :=
    fun n hn => ⟨Nat.ne_of_gt (Nat.lt_of_lt_of_le ha (hns.made n hn).new), (hns.made n hn).present,
      (hns.made n hn).root⟩
  have hevict : ∀ (w : Value) j, (st.forest.get j).holder = none →
      ((st.forest.evict a p.name w).get j).holder = none := by
    intro w j hj
    rw [Forest.holder_evict, hj, ite_self]
  have hfilled : ∀ {g : Forest} {v w : Value}, v.children ⊆ ns →
      (st.forest.evict a p.name w).Filled g a p.name v → Advances st₀ { st with forest := g } := by
    intro g v w hv hg
    refine hns.advances.edit ?_ (fun j => ?_) fun j hj hjr => ?_
    · rw [hg.size, Forest.size_evict]
    · rw [hg.type, Forest.type_evict]
    · have hnot : j ∉ v.children := fun hmem =>
        absurd hj (Nat.not_lt.2 (hns.made j (hv hmem)).new)
      rw [hg.holder, if_neg hnot]
      exact hevict w j hjr
  unfold setChildren
  cases hm : p.multiple with
  | true =>
    simp only [if_true]
    obtain ⟨g, hrun, hg⟩ := Forest.setChildren_filled hp' hk hm ns hroot' hns.nodup hfresh
    refine ends_ok (edit_ok hrun) (hfilled ?_ hg)
    exact List.Subset.refl ns
  | false =>
    simp only [Bool.false_eq_true, if_false]
    cases ns with
    | nil =>
      refine ends_ok (edit_ok (Forest.setChild_none_ok hp' hk hm)) ?_
      exact hns.advances.edit (by simp) (by simp) fun j _ => hevict .null j
    | cons n ns =>
      obtain ⟨hne, hlt, hfree⟩ := hfresh n (by simp)
      obtain ⟨g, hrun, hg⟩ := Forest.setChild_filled hp' hk hm hroot' hne hlt hfree
      exact ends_ok (edit_ok hrun) (hfilled (by simp [Value.children]) hg)

theorem setValue_ends {w : Value} (hp : (st.forest.get a).type.property? p.name = some p)
    (hk : p.kind = .value) (hw : w.holdsNodes = false) :
    Ends allowed (fun _ => Advances st) (edit (Forest.setValue a p.name w)) st := by
  refine ends_ok (edit_ok (Forest.setValue_ok hp hk hw)) ?_
  exact (Advances.refl st).edit (by simp) (by simp) fun j _ hj => by simpa using hj

theorem wait_ends {t : NodeType} {ids : List ObjectId} (ht : (st.forest.get a).type = t)
    (hp : t.property? p.name = some p) (hk : p.kind = .reference) :
    Ends allowed (fun _ => Advances st) (wait a t p.name ids) st := by
  refine ends_ok rfl ⟨(Advances.refl st).keeps, fun hready q hq => ?_⟩
  rcases List.mem_append.1 hq with hq | hq
  · exact hready q hq
  · obtain rfl := List.mem_singleton.1 hq
    exact ⟨p, by rw [ht, hp], hp, hk⟩

theorem convertProperty_of_stores {t : NodeType} {type : FeatureType}
    {child : ObjectId → Convert NodeId} {v : FeatureValue} (hv : type.stores v = true)
    (hk : p.kind = .value) : convertProperty catalog t a p child v =
      lift (plainValue catalog t p v) >>= fun w => edit (Forest.setValue a p.name w) := by
  cases v with
  | string s => simp only [convertProperty, hk]
  | integer n => simp only [convertProperty, hk]
  | real x => simp only [convertProperty, hk]
  | boolean b => simp only [convertProperty, hk]
  | enumeration ordinal => simp only [convertProperty, hk]
  | _ => simp [FeatureType.stores] at hv

/-- A value that a feature asks for can be converted for its property. -/
theorem convertProperty_ends {t : NodeType} {b : Feature} {child : ObjectId → Convert NodeId}
    {v : FeatureValue} (ht : (st.forest.get a).type = t) (hroot : (st.forest.get a).holder = none)
    (hp : t.property? p.name = some p) (hb : Derivation.propertyOf m b = .ok p)
    (hv : b.holds v = true) (hnull : v.isNull = false)
    (hchild : ∀ c ∈ v.children, ∀ st, Ends (Unknown m catalog u) (Made st) (child c) st) :
    Ends (Unknown m catalog u) (fun _ => Advances st) (convertProperty catalog t a p child v)
      st := by
  have hp' : (st.forest.get a).type.property? p.name = some p := by rw [ht, hp]
  have ha : a < st.forest.size := Forest.lt_size_of_property? hp'
  obtain ⟨-, hkind, -⟩ := propertyOf_ok hb
  have hnone : MadeAll st [] st := ⟨Advances.refl st, by simp, by simp⟩
  cases hk : b.kind with
  | containment =>
    rw [hk] at hkind
    cases v with
    | contained c =>
      simp only [convertProperty, hkind]
      refine (hchild c (by simp [FeatureValue.children]) st).bind fun n st' hn => ?_
      exact setChildren_ends (hnone.add hn) ha hp' hkind hroot
    | containedMany ids =>
      simp only [convertProperty, hkind]
      refine (Ends.mapM (I := MadeAll st) hnone fun c hc done st' hdone => ?_).bind
        fun ns st' hns => setChildren_ends hns ha hp' hkind hroot
      exact (hchild c hc st').imp fun n st'' hn => hdone.add hn
    | null => cases hnull
    | _ => simp [Feature.holds, hk] at hv
  | reference =>
    rw [hk] at hkind
    cases v with
    | reference id =>
      simp only [convertProperty, hkind]
      exact wait_ends ht hp hkind
    | references ids =>
      simp only [convertProperty, hkind]
      exact wait_ends ht hp hkind
    | null => cases hnull
    | _ => simp [Feature.holds, hk] at hv
  | plain =>
    rw [hk] at hkind
    by_cases hl : ∀ items, v ≠ .list items
    · have hs := ObjectDocument.stores_of_holds hk hv hnull hl
      rw [convertProperty_of_stores hs hkind]
      refine (ends_lift (plainValue_gives hb hk (.inr hs)) st).bind ?_
      rintro w _ ⟨hw, rfl⟩
      exact setValue_ends hp' hkind hw
    · simp only [not_forall, not_not] at hl
      obtain ⟨items, rfl⟩ := hl
      simp only [Feature.holds, hk, Bool.and_eq_true, List.all_eq_true, Bool.or_eq_true] at hv
      simp only [convertProperty, hkind]
      refine (ends_lift (Gives.mapM fun i hi => plainValue_gives hb hk (hv.2 i hi)) st).bind ?_
      rintro ws _ ⟨-, rfl⟩
      exact setValue_ends hp' hkind rfl

end Property

theorem convertValue_ends {a : NodeId} {x : ObjectId} {t : NodeType} {os : List OwnedFeature}
    {o : OwnedFeature} {child : ObjectId → Convert NodeId} {v : FeatureValue}
    (ht : (st.forest.get a).type = t) (hroot : (st.forest.get a).holder = none)
    (hsuits : Suits m t os) (ho : o ∈ os) (hv : o.feature.holds v = true)
    (hchild : ∀ c ∈ v.children, ∀ st, Ends (Unknown m catalog u) (Made st) (child c) st) :
    Ends (Unknown m catalog u) (fun _ => Advances st)
      (convertValue u catalog .default x os t a child o.feature.name v) st := by
  unfold convertValue
  cases hnull : v.isNull with
  | true => exact ends_ok rfl (Advances.refl st)
  | false =>
    simp only [Bool.false_eq_true, if_false]
    by_cases hname : o.feature.name = "position"
    · simp only [hname, if_true, ConversionOptions.default]
      refine ends_ok rfl ((Advances.refl st).edit ?_ (fun j => ?_) fun j _ hj => ?_)
      · simp [Forest.setPosition]
      · rw [Forest.setPosition, Forest.get_update]
        split <;> rfl
      · rw [Forest.setPosition, Forest.get_update]
        split <;> exact hj
    · simp only [hname, if_false]
      by_cases hast : o.owner.uri = astUri
      · have hbuiltin : isBuiltin os o.feature.name = true :=
          List.any_eq_true.2 ⟨o, ho, by simp [hast]⟩
        simp only [(hsuits o ho).1 hast, hbuiltin, if_true]
        exact ends_ok rfl (Advances.refl st)
      · obtain ⟨p, hp, hop⟩ := (hsuits o ho).2 hast
        simp only [hp]
        rw [← Derivation.name_propertyOf hop] at hp
        exact convertProperty_ends ht hroot hp hop hv hnull hchild

theorem typeOf_gives {x : ObjectId} {os : List OwnedFeature}
    (hos : m.ownedFeatures (u.get x).type = .ok os) (hx : x < u.size) :
    Gives (Unknown m catalog u)
      (fun t => ∃ n, m.qualifiedName (u.get x).type = .ok n ∧ catalog.get? n = some t)
      (typeOf m catalog (u.get x).type) := by
  obtain ⟨d, hd⟩ := Metamodel.class?_of_featuresWithin hos
  obtain ⟨p, hp, -⟩ := Option.bind_eq_some_iff.1 hd
  have hn : m.qualifiedName (u.get x).type = .ok ⟨p.name, (u.get x).type.name⟩ := by
    simp [Metamodel.qualifiedName, Metamodel.requirePackage, hp, bind, Except.bind, pure,
      Except.pure]
  unfold typeOf
  rw [hn]
  cases ht : catalog.get? ⟨p.name, (u.get x).type.name⟩ with
  | none =>
    simp only [Except.mapError, bind, Except.bind, ht]
    exact ⟨ht, x, hx, hn⟩
  | some t =>
    simp only [Except.mapError, bind, Except.bind, ht]
    exact ⟨_, rfl, ht⟩

/-- The type of every class that has one suits its features. -/
def SuitsAll (m : Metamodel) (catalog : TypeCatalog) : Prop :=
  ∀ c n t os, m.qualifiedName c = .ok n → catalog.get? n = some t → m.ownedFeatures c = .ok os →
    Suits m t os

theorem newNode_ends {allowed : ConversionError → Prop} (t : NodeType) (st : State) :
    Ends allowed (fun a st' => Made st a st' ∧ (st'.forest.get a).type = t) (newNode t) st := by
  have hget : ∀ j, (st.forest.newNode t).2.get j =
      if j = st.forest.size then .ofType t else st.forest.get j := Forest.get_newNode st.forest t
  have hself : (st.forest.newNode t).2.get st.forest.size = .ofType t := by rw [hget, if_pos rfl]
  have hkeeps : Keeps st.forest (st.forest.newNode t).2 := by
    refine ⟨by simp, fun j hj => ?_, fun j hj hr => ?_⟩
    · rw [hget, if_neg (Nat.ne_of_lt hj)]
    · rw [hget, if_neg (Nat.ne_of_lt hj), hr]
  refine ends_ok rfl ⟨⟨⟨hkeeps, fun hready p hp => (hready p hp).keeps hkeeps⟩, ?_, ?_, ?_⟩, ?_⟩
  · exact Nat.le_refl _
  · exact Nat.lt_of_lt_of_eq (Nat.lt_succ_self _) (Forest.size_newNode st.forest t).symm
  · exact congrArg Node.holder hself
  · exact congrArg Node.type hself

theorem record_ends {allowed : ConversionError → Prop} {a : NodeId} {t : NodeType}
    (h : Made st₀ a st ∧ (st.forest.get a).type = t) (x : ObjectId) :
    Ends allowed (fun _ st' => Made st₀ a st' ∧ (st'.forest.get a).type = t)
      (modify fun st => { st with created := st.created.insert x a } : Convert Unit) st := by
  obtain ⟨⟨⟨hkeeps, hready⟩, hnew, hpresent, hroot⟩, ht⟩ := h
  exact ends_ok rfl ⟨⟨⟨hkeeps, hready⟩, hnew, hpresent, hroot⟩, ht⟩

theorem convertValues_ends {a : NodeId} {t : NodeType} {os : List OwnedFeature} {r d x e : Nat}
    {ms : JsonMembers} {child : ObjectId → Convert NodeId}
    (hreads : ObjectDocument.Reads m (ObjectDocument.LinksIn u r) u (d + 1) ms x e)
    (hos : m.ownedFeatures (u.get x).type = .ok os) (hsuits : Suits m t os)
    (hchild : ∀ j c b, ObjectDocument.ReadsObject m (ObjectDocument.LinksIn u r) u d j c b →
      x < c → b ≤ e → ∀ st, Ends (Unknown m catalog u) (Made st) (child c) st)
    (ha : a < st.forest.size) (ht : (st.forest.get a).type = t)
    (hroot : (st.forest.get a).holder = none) :
    Ends (Unknown m catalog u) (fun _ => Advances st)
      ((u.get x).values.entries.forM fun (name, v) =>
        convertValue u catalog .default x os t a child name v) st := by
  refine Ends.forM (Advances.refl st) fun entry hentry st' hst' => ?_
  obtain ⟨name, v⟩ := entry
  obtain ⟨fs, f, j, hfs, hf, rfl, -, hvalue⟩ := hreads.value (Table.get?_eq_some_iff.2 hentry)
  obtain ⟨os', hos', rfl⟩ := Metamodel.features_eq_ok.1 hfs
  cases hos.symm.trans hos'
  obtain ⟨o, ho, rfl⟩ := List.mem_map.1 hf
  refine (convertValue_ends ?_ ?_ hsuits ho hvalue.holds fun c hc => ?_).imp fun _ _ => hst'.trans
  · rw [hst'.keeps.type a ha, ht]
  · exact hst'.keeps.root a ha hroot
  · obtain ⟨i, hi⟩ := List.mem_iff_getElem?.1 hc
    obtain ⟨j', b, -, hxc, hb, hread⟩ := hvalue.owns hi
    exact hchild j' c b hread hxc hb

/-- An object that was read is converted with all below it. -/
theorem convert_ends (hsuits : SuitsAll m catalog) {r depth d x e : Nat} {j : Json}
    (hread : ObjectDocument.ReadsObject m (ObjectDocument.LinksIn u r) u d j x e) (he : e ≤ u.size)
    (hdepth : u.size ≤ x + depth) (st : State) :
    Ends (Unknown m catalog u) (Made st) (convert u m catalog .default depth x) st := by
  induction depth generalizing d x e j st with
  | zero => exact absurd hread.lt (by omega)
  | succ depth ih =>
    obtain ⟨ms, -, hreads⟩ := hread
    cases d with
    | zero => exact hreads.elim
    | succ d =>
      obtain ⟨fs, hfs, -⟩ := id hreads
      obtain ⟨os, hos, -⟩ := Metamodel.features_eq_ok.1 hfs
      have hx : x < u.size := Nat.lt_of_lt_of_le hreads.lt he
      have hfeatures : Gives (Unknown m catalog u) (· = os)
          ((m.ownedFeatures (u.get x).type).mapError ConversionError.metamodel) := by
        rw [hos]
        rfl
      unfold convert
      refine (ends_lift (typeOf_gives hos hx) st).bind ?_
      rintro t _ ⟨⟨n, hn, ht⟩, rfl⟩
      refine (ends_lift hfeatures _).bind ?_
      rintro _ st ⟨rfl, rfl⟩
      refine (newNode_ends t st).bind fun a st₁ h₁ => ?_
      refine (record_ends h₁ x).bind fun _ st₂ h₂ => ?_
      refine (convertValues_ends hreads hos (hsuits _ n t _ hn ht hos) ?_ h₂.1.present h₂.2
        h₂.1.root).bind fun _ st₃ h₃ => ends_ok rfl (h₂.1.trans h₃)
      intro j' c b hread hxc hb
      exact ih hread (Nat.le_trans hb he) (by omega)

theorem type_pushReference (f : Forest) (a : NodeId) (name : String) (n j : NodeId) :
    ((f.pushReference a name n).get j).type = (f.get j).type := by
  unfold Forest.pushReference
  split <;> simp

theorem settle_ends {allowed : ConversionError → Prop} {p : Pending} (hp : p.Ready st.forest) :
    Ends allowed (fun _ st' => ∀ j, (st'.forest.get j).type = (st.forest.get j).type)
      (settle .default p) st := by
  obtain ⟨q, hq, hq', hk⟩ := hp
  have hfound : found .default st.created p = .ok (p.targets.filterMap st.created.get?) := by
    simp [found, ConversionOptions.default]
  have hmany : (p.type.property? p.name).any (·.multiple) = q.multiple := by
    rw [hq', Option.any_some]
  have hget : (get : Convert State) st = .ok st st := rfl
  unfold settle
  refine ends_bind_ok hget (ends_bind_ok (by rw [hfound]; rfl) ?_)
  rw [hmany]
  cases hm : q.multiple with
  | true =>
    simp only [if_true]
    refine Ends.forM (fun _ => rfl) fun n _ st' htypes => ?_
    have hq₁ : (st'.forest.get p.node).type.property? p.name = some q := by rw [htypes, hq]
    refine ends_ok (edit_ok (Forest.addReference_ok hq₁ hk hm)) fun j => ?_
    rw [type_pushReference, htypes]
  | false =>
    simp only [Bool.false_eq_true, if_false]
    exact ends_ok (edit_ok (Forest.setReference_ok hq hk hm)) (by simp)

theorem convertTree_ends (hsuits : SuitsAll m catalog) {r x d : Nat} {j : Json}
    (hread : ObjectDocument.ReadsObject m (ObjectDocument.LinksIn u r) u d j x u.size)
    (f : Forest) :
    Ends (Unknown m catalog u) (fun _ _ => True) (convertTree u m catalog .default x)
      ⟨f, .empty, []⟩ := by
  unfold convertTree
  refine (convert_ends hsuits hread (Nat.le_refl _) (by omega) _).bind fun node st hmade => ?_
  have hready : ∀ p ∈ st.pending, p.Ready st.forest := hmade.advances.ready (by simp)
  have hget : (get : Convert State) st = .ok st st := rfl
  have hsettle : Ends (Unknown m catalog u)
      (fun _ st' => ∀ j, (st'.forest.get j).type = (st.forest.get j).type)
      (st.pending.forM (settle .default)) st := by
    refine Ends.forM (fun _ => rfl) fun p hp st' htypes => ?_
    refine (settle_ends ((hready p hp).of_type (htypes _))).imp fun _ st'' h j => ?_
    rw [h, htypes]
  exact ends_bind_ok hget (hsettle.bind fun _ _ _ => ends_ok rfl trivial)

end ToNodes

open ToNodes

/-- Reader, types and conversion agree. What is read from a document by the classes of some packages
is converted by their types, unless an object has a class without a type or a value has an
ordinal that its enumeration does not have. -/
theorem toNodes_of_read {users : List Package} (hu : UserPackages users)
    (hfeatures : ∀ c ∈ (Metamodel.ofPackages users).classRefs (users.map (·.uri)),
      (Metamodel.ofPackages users).Unambiguous c) {ts : List NodeType} {catalog : TypeCatalog}
    (hderive : Derivation.derivePackages (.ofPackages users) (users.map (·.uri)) .initial =
      .ok ts catalog) {document : Json} {s u : ObjectStore} {r : ObjectId}
    (hread : ObjectDocument.read (.ofPackages users) none document s = (.ok r, u)) (f : Forest) :
    (∃ node, (u.toNodes r (.ofPackages users) catalog .default f).1 = .ok node) ∨
    (∃ n, (u.toNodes r (.ofPackages users) catalog .default f).1 = .error (.unregisteredType n) ∧
      catalog.get? n = none ∧
      ∃ x < u.size, (Metamodel.ofPackages users).qualifiedName (u.get x).type = .ok n) ∨
    ∃ n ordinal, (u.toNodes r (.ofPackages users) catalog .default f).1 =
        .error (.enumOutOfRange (QualifiedName.render n) ordinal) ∧
      (catalog.enum? n).bind (·.literal? ordinal) = none := by
  have hsuits : SuitsAll (.ofPackages users) catalog := by
    intro c n t os hn ht hos
    obtain ⟨d, hd⟩ := Metamodel.class?_of_featuresWithin hos
    have hc := hu.mem_classRefs_of_get? hderive hd hn ht
    exact suits_of_faithful (hu.faithful hderive hfeatures c hc) hn ht hos
  obtain ⟨-, -, -, hreads⟩ := ObjectDocument.read_reads hread
  have hends := convertTree_ends hsuits hreads f
  unfold Ends at hends
  unfold ObjectStore.toNodes
  split at hends
  · rename_i node st hrun
    rw [hrun]
    exact .inl ⟨node, rfl⟩
  · rename_i e st hrun
    rw [hrun]
    cases e with
    | unregisteredType n => exact .inr (.inl ⟨n, rfl, hends⟩)
    | enumOutOfRange text ordinal =>
      obtain ⟨n, rfl, hn⟩ := hends
      exact .inr (.inr ⟨n, ordinal, rfl, hn⟩)
    | _ => exact hends.elim

def treeDocument : Json :=
  .object [("eClass", .string "urn:plants#//Tree"), ("label", .string "oak"),
    ("season", .string "wet"), ("next", .object [("$ref", .string "//@branches.0")]),
    ("branches", .array [.object [("height", .number (.int 3))]])]

theorem toNodes_of_read_tree : ∃ ts catalog r u,
    Derivation.derivePackages (.ofPackages [Derivation.plantsPackage]) ["urn:plants"] .initial =
      .ok ts catalog ∧
    ObjectDocument.read (.ofPackages [Derivation.plantsPackage]) none treeDocument .empty =
      (.ok r, u) ∧
    (u.toNodes r (.ofPackages [Derivation.plantsPackage]) catalog .default ⟨#[]⟩).1 = .ok 0 := by
  have husers : UserPackages [Derivation.plantsPackage] := ⟨by decide +kernel⟩
  have hfeatures : ∀ c ∈ (Metamodel.ofPackages [Derivation.plantsPackage]).classRefs ["urn:plants"],
      (Metamodel.ofPackages [Derivation.plantsPackage]).Unambiguous c := by
    intro c hc
    refine Metamodel.unambiguous_of_nodup (L := ClassifierRef.ast "ASTNode" ::
      (Metamodel.ofPackages [Derivation.plantsPackage]).classRefs ["urn:plants"]) ?_ ?_ ?_
    · decide +kernel
    · decide +kernel
    · exact List.mem_cons_of_mem _ hc
  have hconverts : (match Derivation.derivePackages (.ofPackages [Derivation.plantsPackage])
        ["urn:plants"] .initial, ObjectDocument.read (.ofPackages [Derivation.plantsPackage]) none
        treeDocument .empty with
      | .ok _ catalog, (.ok r, u) =>
        (u.toNodes r (.ofPackages [Derivation.plantsPackage]) catalog .default ⟨#[]⟩).1.toOption
      | _, _ => none) = some 0 := by decide +kernel
  split at hconverts
  · rename_i ts catalog r u hderive hread
    refine ⟨ts, catalog, r, u, hderive, hread, ?_⟩
    rcases toNodes_of_read husers hfeatures hderive hread ⟨#[]⟩ with
      ⟨node, hnode⟩ | ⟨n, hn, -⟩ | ⟨n, ordinal, hn, -⟩
    · rw [hnode] at hconverts ⊢
      exact congrArg Except.ok (Option.some.inj hconverts)
    · rw [hn] at hconverts
      cases hconverts
    · rw [hn] at hconverts
      cases hconverts
  · cases hconverts

end TreeInterchange
