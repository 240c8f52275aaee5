import TreeInterchange.Proofs.ConversionLogs
import TreeInterchange.Proofs.ConversionToNodes
import TreeInterchange.Proofs.RepeatedContents

/-!
# Which node is the image of which object

A conversion to nodes goes down from an object along the features for which the node type has a
property, the position apart. It records the node of each object that it comes to, puts the
nodes of contained objects into the property as far as there is room, and puts exactly the
references of these features on the list of those that wait. None of its errors is about a
reference that leaves the tree.

Objects may contain each other in a circle. Such a conversion fails; where it succeeds, the
objects that it comes to form a tree, in which no object is listed twice.
-/

namespace TreeInterchange

def FeatureValue.isReference : FeatureValue → Bool
  | .reference _ | .references _ => true
  | _ => false

theorem FeatureValue.children_of_isReference {v : FeatureValue} (h : v.isReference = true) :
    v.children = [] := by
  cases v <;> simp_all [isReference, children]

/-- Whether a feature of the objects of a class is carried over to their nodes. -/
def ToNodes.carries (m : Metamodel) (catalog : TypeCatalog) (c : ClassifierRef) (name : String) :
    Bool :=
  name != "position" && match typeOf m catalog c with
    | .ok t => (t.property? name).isSome
    | .error _ => false

theorem ToNodes.carries_iff {m : Metamodel} {catalog : TypeCatalog} {c : ClassifierRef}
    {t : NodeType} {name : String} (ht : typeOf m catalog c = .ok t) :
    carries m catalog c name = true ↔ name ≠ "position" ∧ ∃ p, t.property? name = some p := by
  simp [carries, ht, Option.isSome_iff_exists]

namespace ObjectStore

variable (s : ObjectStore) (m : Metamodel) (catalog : TypeCatalog)

/-- The objects in those features of an object that are carried over. -/
def carriedContents (id : ObjectId) : List ObjectId :=
  ((s.get id).values.entries.filter fun e =>
    ToNodes.carries m catalog (s.get id).type e.1).flatMap (·.2.children)

/-- The objects that are converted together with an object, each before its contents. -/
def carriedTree (id : ObjectId) : List ObjectId := listing (s.carriedContents m catalog) s.size id

variable {s m catalog} {x : ObjectId}

theorem carriedContents_sublist (x : ObjectId) :
    (s.carriedContents m catalog x).Sublist (s.contents x) := by
  rw [contents, Object.contents, Table.values, List.flatMap_map]
  exact List.filter_sublist.flatMap _

theorem container?_of_carried (hs : s.Owned) {c : ObjectId}
    (hc : c ∈ s.carriedContents m catalog x) : s.container? c = some x := by
  obtain ⟨name, hname⟩ := mem_contents_iff.1 ((carriedContents_sublist x).subset hc)
  rw [container?, hs x name c hname]
  rfl

/-- Where the carried tree of an object has bounded height, it lists no object twice, and has no
more levels than the store has objects. -/
theorem carried_of_height (hs : s.Owned) (honce : s.ListsOnce) (hx : x < s.size) {k : Nat}
    (h : HeightAtMost (s.carriedContents m catalog) k x) :
    HeightAtMost (s.carriedContents m catalog) s.size x ∧
      ∀ l, (listing (s.carriedContents m catalog) l x).Nodup := by
  have hnodup := nodup_listing_of_height (fun p q c hp hq => Option.some.inj
      ((container?_of_carried hs hp).symm.trans (container?_of_carried hs hq))) h
    fun p _ => (carriedContents_sublist p).nodup (honce p)
  refine ⟨heightAtMost_of_bounded hx (fun p c hc => ?_) (hnodup _), hnodup⟩
  obtain ⟨e, he, -⟩ := Option.map_eq_some_iff.1 (container?_of_carried hs hc)
  exact lt_size_of_container he

end ObjectStore

/-- The nodes that the slot `name` refers to. -/
def Forest.targetsIn (f : Forest) (id : NodeId) (name : String) : List NodeId :=
  ((f.slot? id name).map Value.targets).getD []

namespace ToNodes

open StatefulRuns ConversionLog

variable {m : Metamodel} {catalog : TypeCatalog} {s : ObjectStore} {L K : List ObjectId}
  {st₀ st st' st₁ st₂ : State} {x z : ObjectId} {a b : NodeId} {done : List String} {name : String}
  {v : FeatureValue}

def State.log (st : State) : ConversionLog Pending := ⟨st.created, st.pending, st.forest.size⟩

def Entry (m : Metamodel) (catalog : TypeCatalog) (s : ObjectStore) (z : ObjectId) (q : Pending) :
    Prop :=
  ∃ v p, s.value? z q.name = some v ∧ v.isReference = true ∧ q.name ≠ "position" ∧
    typeOf m catalog (s.get z).type = .ok q.type ∧ q.type.property? q.name = some p ∧
    p.kind = .reference ∧ q.targets = v.targets

/-- The node `a` is of the type for the object `z`, with properties for the references of the
features that are done; where such a feature contains objects, the node has their images as
children, as many as there is room for, and these are recorded for objects of `L`. The node itself
refers to nothing. -/
structure Picture (m : Metamodel) (catalog : TypeCatalog) (s : ObjectStore) (L : List ObjectId)
    (done : String → Prop) (st : State) (z : ObjectId) (a : NodeId) : Prop where
  type : typeOf m catalog (s.get z).type = .ok (st.forest.get a).type
  features : ∀ name v p, done name → name ≠ "position" → s.value? z name = some v →
    v.isReference = true → (st.forest.get a).type.property? name = some p → p.kind = .reference
  contents : ∀ name p, done name → name ≠ "position" → s.contentsIn z name ≠ [] →
    (st.forest.get a).type.property? name = some p →
    List.Forall₂ (fun c b => c ∈ L ∧ st.created.get? c = some b)
      (admitted p.multiple (s.contentsIn z name)) (st.forest.childrenIn a name)
  unset : ∀ name, st.forest.targetsIn a name = []

theorem Picture.mono {seen : String → Prop} (h : Picture m catalog s L seen st z a) (hL : L ⊆ K)
    (hcreated : ∀ c ∈ L, st'.created.get? c = st.created.get? c)
    (htype : (st'.forest.get a).type = (st.forest.get a).type)
    (hcontents : ∀ name, seen name → st'.forest.childrenIn a name = st.forest.childrenIn a name)
    (hunset : ∀ name, st'.forest.targetsIn a name = []) :
    Picture m catalog s K seen st' z a := by
  refine ⟨by rw [htype, h.type], by rw [htype]; exact h.features,
    fun name p hname hpos hne hp => ?_, hunset⟩
  rw [hcontents name hname]
  rw [htype] at hp
  refine (h.contents name p hname hpos hne hp).imp fun c b hcb => ⟨hL hcb.1, ?_⟩
  rw [hcreated c hcb.1, hcb.2]

theorem Picture.imp {seen seen' : String → Prop} (h : Picture m catalog s L seen st z a)
    (hseen : ∀ name v, s.value? z name = some v → seen' name → seen name) :
    Picture m catalog s L seen' st z a := by
  refine ⟨h.type, fun name v p hname hpos hv => h.features name v p (hseen name v hv hname) hpos hv,
    fun name p hname hpos hne => ?_, h.unset⟩
  obtain ⟨c, hc⟩ := List.exists_mem_of_ne_nil _ hne
  obtain ⟨v, hv, -⟩ := ObjectStore.mem_contentsIn_iff.1 hc
  exact h.contents name p (hseen name v hv hname) hpos hne

/-- From one state to another exactly the objects `L` were converted. -/
structure Recorded (m : Metamodel) (catalog : TypeCatalog) (s : ObjectStore) (L : List ObjectId)
    (st st' : State) : Prop where
  grown : st.forest.Extends st'.forest
  gains : Gains Pending.node (Entry m catalog s) L st.log st'.log
  pictured : ∀ z ∈ L, ∀ a, st'.created.get? z = some a →
    Picture m catalog s L (fun _ => True) st' z a

theorem Recorded.refl (st : State) : Recorded m catalog s [] st st := ⟨.refl _, .refl _, by simp⟩

theorem Recorded.later (h : Recorded m catalog s K st st') (hd : L.Disjoint K)
    {seen : String → Prop} (hpic : Picture m catalog s L seen st z a) (ha : a < st.forest.size) :
    Picture m catalog s (L ++ K) seen st' z a := by
  have hget := h.grown.kept a ha
  have hslot : ∀ r, st'.forest.slot? a r = st.forest.slot? a r := fun r => by
    rw [Forest.slot?, hget, Forest.slot?]
  refine hpic.mono (List.subset_append_left L K) (fun _ hc => h.gains.old _ (hd hc)) (by rw [hget])
    (fun r _ => by rw [Forest.childrenIn, hslot, Forest.childrenIn]) fun r => ?_
  rw [Forest.targetsIn, hslot]
  exact hpic.unset r

theorem Recorded.trans (h : Recorded m catalog s L st st₁) (h' : Recorded m catalog s K st₁ st₂)
    (hd : L.Disjoint K) : Recorded m catalog s (L ++ K) st st₂ := by
  refine ⟨h.grown.trans h'.grown, h.gains.trans h'.gains hd, fun z hz a ha => ?_⟩
  rcases List.mem_append.1 hz with hz | hz
  · have ha₁ : st₁.created.get? z = some a := (h'.gains.old z (hd hz)).symm.trans ha
    exact h'.later hd (h.pictured z hz a ha₁) (h.gains.bounds hz ha₁).2
  · have hpic := h'.pictured z hz a ha
    exact hpic.mono (List.subset_append_right L K) (fun _ _ => rfl) rfl (fun _ _ => rfl) hpic.unset

/-- The features `done` of the object `x` have been converted into the node `a`, and `L` are the
objects that have been converted, `x` among them. -/
structure Opened (m : Metamodel) (catalog : TypeCatalog) (s : ObjectStore) (x : ObjectId)
    (a : NodeId) (L : List ObjectId) (done : List String) (st₀ st : State) : Prop where
  grown : st₀.forest.Extends st.forest
  gains : Gains Pending.node (UpTo Pending.name x done (Entry m catalog s)) L st₀.log st.log
  mem : x ∈ L
  image : st.created.get? x = some a
  free : (st.forest.get a).holder = none
  bare : ∀ name ∉ done, st.forest.childrenIn a name = []
  pictured : ∀ z ∈ L, ∀ b, st.created.get? z = some b →
    Picture m catalog s L (fun name => z = x → name ∈ done) st z b

namespace Opened

theorem lt (h : Opened m catalog s x a L done st₀ st) : a < st.forest.size :=
  (h.gains.bounds h.mem h.image).2

theorem new (h : Opened m catalog s x a L done st₀ st) : st₀.forest.size ≤ a :=
  (h.gains.bounds h.mem h.image).1

theorem type (h : Opened m catalog s x a L done st₀ st) :
    typeOf m catalog (s.get x).type = .ok (st.forest.get a).type :=
  (h.pictured x h.mem a h.image).type

theorem extend (h : Opened m catalog s x a L done st₀ st) (h' : Recorded m catalog s K st st')
    (hd : L.Disjoint K) : Opened m catalog s x a (L ++ K) done st₀ st' := by
  have hkept : ∀ z ∈ L, st'.created.get? z = st.created.get? z := fun z hz =>
    h'.gains.old z (hd hz)
  have hget := h'.grown.kept a h.lt
  refine ⟨h.grown.trans h'.grown, h.gains.trans_upTo h'.gains hd h.mem,
    List.mem_append_left K h.mem, by rw [hkept x h.mem, h.image], by rw [hget, h.free],
    fun r hr => ?_, fun z hz b hb => ?_⟩
  · rw [Forest.childrenIn, Forest.slot?, hget]
    exact h.bare r hr
  · rcases List.mem_append.1 hz with hz | hz
    · rw [hkept z hz] at hb
      exact h'.later hd (h.pictured z hz b hb) (h.gains.bounds hz hb).2
    · have hpic : Picture m catalog s K (fun name => z = x → name ∈ done) st' z b :=
        (h'.pictured z hz b hb).imp fun _ _ _ _ => trivial
      exact hpic.mono (List.subset_append_right L K) (fun _ _ => rfl) rfl (fun _ _ => rfl)
        hpic.unset

/-- The feature `name` is done when the node has the images of its objects as children, and no
references wait for it. Beyond this, only the slot and the holders of new nodes may change. -/
theorem step (h : Opened m catalog s x a L done st₀ st) (hv : s.value? x name = some v)
    {g : Forest} (hsize : g.size = st.forest.size)
    (hkept : ∀ j < st₀.forest.size, g.get j = st.forest.get j)
    (htype : ∀ j, (g.get j).type = (st.forest.get j).type)
    (hslot : ∀ j r, ¬ (j = a ∧ r = name) → g.slot? j r = st.forest.slot? j r)
    (hfree : (g.get a).holder = none) (hunset : g.targetsIn a name = [])
    (hcontents : ∀ p, name ≠ "position" → (st.forest.get a).type.property? name = some p →
      v.isReference = false ∧ (v.children ≠ [] →
        List.Forall₂ (fun c b => c ∈ L ∧ st.created.get? c = some b)
          (admitted p.multiple v.children) (g.childrenIn a name))) :
    Opened m catalog s x a L (done ++ [name]) st₀ { st with forest := g } := by
  have hlog : State.log { st with forest := g } = st.log := by simp only [State.log, hsize]
  have hchildren : ∀ j r, ¬ (j = a ∧ r = name) → g.childrenIn j r = st.forest.childrenIn j r :=
    fun j r hjr => by rw [Forest.childrenIn, hslot j r hjr, Forest.childrenIn]
  refine ⟨⟨by rw [hsize]; exact h.grown.size, fun j hj => ?_⟩, ?_, h.mem, h.image, hfree,
    fun r hr => ?_, fun z hz b hb => ?_⟩
  · rw [hkept j hj, h.grown.kept j hj]
  · rw [hlog]
    refine h.gains.pass ?_
    rintro q ⟨w, p, hw, hr, hpos, ht, hp, -⟩ rfl
    rw [h.type, Except.ok.injEq] at ht
    rw [hv, Option.some.injEq] at hw
    rw [← hw, (hcontents p hpos (ht ▸ hp)).1] at hr
    cases hr
  · rw [List.mem_append, List.mem_singleton, not_or] at hr
    rw [hchildren a r fun e => hr.2 e.2]
    exact h.bare r hr.1
  · have hpic := h.pictured z hz b hb
    have hunset' : ∀ r, g.targetsIn b r = [] := fun r => by
      by_cases hbr : b = a ∧ r = name
      · rw [hbr.1, hbr.2, hunset]
      · rw [Forest.targetsIn, hslot b r hbr]
        exact hpic.unset r
    by_cases hzx : z = x
    · subst hzx
      obtain rfl : b = a := Option.some.inj (hb.symm.trans h.image)
      refine ⟨by rw [htype, hpic.type], fun r w p hr hpos hw href hp => ?_,
        fun r p hr hpos hne hp => ?_, hunset'⟩
      · rw [htype] at hp
        by_cases hname : r = name
        · subst hname
          rw [hv, Option.some.injEq] at hw
          rw [← hw, (hcontents p hpos hp).1] at href
          cases href
        · have hdone := (List.mem_append.1 (hr rfl)).resolve_right (by simp [hname])
          exact hpic.features r w p (fun _ => hdone) hpos hw href hp
      · rw [htype] at hp
        by_cases hname : r = name
        · subst hname
          rw [ObjectStore.contentsIn_eq hv] at hne ⊢
          exact (hcontents p hpos hp).2 hne
        · have hdone := (List.mem_append.1 (hr rfl)).resolve_right (by simp [hname])
          rw [hchildren b r fun e => hname e.2]
          exact hpic.contents r p (fun _ => hdone) hpos hne hp
    · have hba : b ≠ a := fun e =>
        hzx (h.gains.apart z hz x h.mem (hb.trans ((congrArg some e).trans h.image.symm)))
      exact (hpic.imp fun _ _ _ _ e => absurd e hzx).mono (List.Subset.refl L) (fun _ _ => rfl)
        (htype b) (fun r _ => hchildren b r fun e => hba e.1) hunset'

theorem pass (h : Opened m catalog s x a L done st₀ st) (hv : s.value? x name = some v)
    (hnone : name ≠ "position" → ∀ p, (st.forest.get a).type.property? name = some p →
      v.isReference = false ∧ v.children = []) :
    Opened m catalog s x a L (done ++ [name]) st₀ st :=
  h.step hv rfl (fun _ _ => rfl) (fun _ => rfl) (fun _ _ _ => rfl) h.free
    ((h.pictured x h.mem a h.image).unset name) fun p hpos hp =>
      ⟨(hnone hpos p hp).1, fun hne => absurd (hnone hpos p hp).2 hne⟩

theorem place (h : Opened m catalog s x a L done st₀ st) (hv : s.value? x name = some v)
    (hpos : name = "position") (q : Option Position) :
    Opened m catalog s x a L (done ++ [name]) st₀
      { st with forest := st.forest.setPosition a q } := by
  have hget : ∀ j, (st.forest.setPosition a q).get j = if a = j ∧ j < st.forest.size then
      { st.forest.get j with position := q } else st.forest.get j := fun j =>
    Forest.get_update st.forest a j _
  have hslot : ∀ j r, (st.forest.setPosition a q).slot? j r = st.forest.slot? j r := fun j r => by
    rw [Forest.slot?, hget, Forest.slot?]
    split <;> rfl
  refine h.step hv (Forest.size_update ..) (fun j hj => ?_) (fun j => ?_) (fun j r _ => hslot j r)
    ?_ ?_ fun _ hne => absurd hpos hne
  · have hne : ¬ (a = j ∧ j < st.forest.size) := fun e =>
      Nat.not_lt_of_le h.new (e.1 ▸ hj)
    rw [hget, if_neg hne]
  · rw [hget]
    split <;> rfl
  · rw [hget]
    split <;> exact h.free
  · rw [Forest.targetsIn, hslot]
    exact (h.pictured x h.mem a h.image).unset name

theorem fill (h : Opened m catalog s x a L done st₀ st) (hv : s.value? x name = some v)
    {w : Value} {g : Forest} (hfilled : st.forest.Filled g a name w) (htargets : w.targets = [])
    (hnew : ∀ c ∈ w.children, a < c) (href : v.isReference = false)
    (hchildren : ∀ p, (st.forest.get a).type.property? name = some p → v.children ≠ [] →
      List.Forall₂ (fun c b => c ∈ L ∧ st.created.get? c = some b) (admitted p.multiple v.children)
        w.children) :
    Opened m catalog s x a L (done ++ [name]) st₀ { st with forest := g } := by
  have hself : g.slot? a name = some w := by rw [hfilled.slot?, if_pos ⟨rfl, rfl⟩]
  have hnot : a ∉ w.children := fun hm => Nat.lt_irrefl a (hnew a hm)
  refine h.step hv hfilled.size (fun j hj => ?_) hfilled.type (fun j r hjr => ?_) ?_ ?_
    fun p _ hp => ⟨href, fun hne => ?_⟩
  · have hja : j < a := Nat.lt_of_lt_of_le hj h.new
    exact hfilled.get_of_ne (Nat.ne_of_lt hja) fun hm => Nat.lt_asymm hja (hnew j hm)
  · rw [hfilled.slot?, if_neg hjr]
  · rw [hfilled.holder, if_neg hnot, h.free]
  · rw [Forest.targetsIn, hself]
    exact htargets
  · rw [Forest.childrenIn_eq hself]
    exact hchildren p hp hne

theorem wait (h : Opened m catalog s x a L done st₀ st) (hnew : name ∉ done)
    (hv : s.value? x name = some v) (href : v.isReference = true) (hpos : name ≠ "position")
    {p : Property} (hp : (st.forest.get a).type.property? name = some p)
    (hk : p.kind = .reference) : Opened m catalog s x a L (done ++ [name]) st₀
      { st with pending := st.pending ++ [⟨a, (st.forest.get a).type, name, v.targets⟩] } := by
  refine ⟨h.grown, h.gains.wait h.mem h.image hnew fun q => ⟨?_, ?_⟩, h.mem, h.image, h.free,
    fun r hr => h.bare r fun hin => hr (List.mem_append_left _ hin), fun z hz b hb => ?_⟩
  · rintro rfl
    exact ⟨rfl, rfl, v, p, hv, href, hpos, h.type, hp, hk, rfl⟩
  · obtain ⟨node, t, r, targets⟩ := q
    rintro ⟨rfl, rfl, w, -, hw, -, -, ht, -, -, rfl⟩
    rw [hv, Option.some.injEq] at hw
    rw [h.type, Except.ok.injEq] at ht
    rw [hw, ht]
  · have hpic := h.pictured z hz b hb
    by_cases hzx : z = x
    · subst hzx
      obtain rfl : b = a := Option.some.inj (hb.symm.trans h.image)
      refine ⟨hpic.type, fun r w q hr hrpos hw hwr hq => ?_, fun r q hr hrpos hne hq => ?_,
        hpic.unset⟩
      · rcases List.mem_append.1 (hr rfl) with hr | hr
        · exact hpic.features r w q (fun _ => hr) hrpos hw hwr hq
        · rw [List.mem_singleton.1 hr] at hq
          obtain rfl : p = q := Option.some.inj (hp.symm.trans hq)
          exact hk
      · refine hpic.contents r q (fun _ => (List.mem_append.1 (hr rfl)).resolve_right fun hr' => ?_)
          hrpos hne hq
        rw [List.mem_singleton.1 hr', ObjectStore.contentsIn_eq hv,
          FeatureValue.children_of_isReference href] at hne
        exact hne rfl
    · exact (hpic.imp fun _ _ _ _ e => absurd e hzx).mono (List.Subset.refl L) (fun _ _ => rfl) rfl
        (fun _ _ => rfl) hpic.unset

end Opened

section Clean

variable {options : ConversionOptions} {child : ObjectId → Convert NodeId} {t : NodeType}
  {p : Property}

theorem clean_edit {α : Type} (e : Edit α) {P : Prop} (hP : P) (st : State) :
    EndsClean (fun _ _ => P) (edit e) st := by
  cases he : e st.forest with
  | ok r g => exact ends_ok (edit_ok he) hP
  | error err g =>
    exact ends_error (edit_error he) id

theorem clean_setChildren (p : Property) (bs : List NodeId) {P : Prop} (hP : P) (st : State) :
    EndsClean (fun _ _ => P) (setChildren a p bs) st := by
  unfold setChildren
  split <;> exact clean_edit _ hP st

theorem clean_plainValue (v : FeatureValue) :
    Gives (fun e => ¬ e.IsDangling) (fun w => v.children = [] ∧ v.isReference = false ∧
      w.holdsNodes = false) (plainValue catalog t p v) := by
  have hmismatch : ¬ (ConversionError.typeMismatch t.name.render p.name v.shape).IsDangling := id
  unfold plainValue
  split
  · exact ⟨rfl, rfl, rfl⟩
  · exact ⟨rfl, rfl, rfl⟩
  · refine ⟨rfl, rfl, ?_⟩
    split <;> rfl
  · exact ⟨rfl, rfl, rfl⟩
  · exact ⟨rfl, rfl, rfl⟩
  · split
    · split
      · exact ⟨rfl, rfl, rfl⟩
      · exact id
    · exact hmismatch
  · exact hmismatch

theorem clean_typeOf (c : ClassifierRef) :
    Gives (fun e => ¬ e.IsDangling) (fun t => typeOf m catalog c = .ok t) (typeOf m catalog c) := by
  cases hn : m.qualifiedName c with
  | error e =>
    have ht : typeOf m catalog c = .error (.metamodel e) := by rw [typeOf, hn]; rfl
    rw [ht]
    exact id
  | ok n =>
    cases hc : catalog.get? n with
    | none =>
      have ht : typeOf m catalog c = .error (.unregisteredType n) := by
        simp only [typeOf, hn, Except.mapError, bind, Except.bind, hc]
        rfl
      rw [ht]
      exact id
    | some t =>
      have ht : typeOf m catalog c = .ok t := by
        simp only [typeOf, hn, Except.mapError, bind, Except.bind, hc]
        rfl
      rw [ht]
      rfl

theorem clean_property {P : ObjectId → Prop}
    (hchild : ∀ d st, EndsClean (fun _ _ => P d) (child d) st) (v : FeatureValue) (st : State) :
    EndsClean (fun _ _ => ∀ d ∈ v.children, P d) (convertProperty catalog t a p child v) st := by
  unfold convertProperty
  split
  · refine (hchild _ st).bind fun _ st' hd => clean_setChildren p _ ?_ st'
    simpa [FeatureValue.children] using hd
  · exact (Ends.mapM_each (fun d _ st => hchild d st) st).bind fun _ st' hds =>
      clean_setChildren p _ hds st'
  · exact ends_ok rfl (by simp [FeatureValue.children])
  · exact ends_ok rfl (by simp [FeatureValue.children])
  · have hitems : ∀ i : FeatureValue, Gives (fun e => ¬ e.IsDangling)
        (fun w : Value => w.holdsNodes = false) (plainValue catalog t p i) := fun i =>
      (clean_plainValue i).imp fun _ h => h.2.2
    refine (ends_lift (Gives.mapM fun i _ => hitems i) st).bind fun _ st' _ => ?_
    exact clean_edit _ (by simp [FeatureValue.children]) st'
  · refine (ends_lift (clean_plainValue _) st).bind fun _ st' h => ?_
    exact clean_edit _ (by simp [h.1.1]) st'
  · exact ends_error rfl id

theorem clean_value {P : ObjectId → Prop}
    (hchild : ∀ d st, EndsClean (fun _ _ => P d) (child d) st)
    (ht : typeOf m catalog (s.get x).type = .ok t) (fs : List OwnedFeature) (name : String)
    (v : FeatureValue) (st : State) :
    EndsClean (fun _ _ => carries m catalog (s.get x).type name = true → ∀ d ∈ v.children, P d)
      (convertValue s catalog options x fs t a child name v) st := by
  unfold convertValue
  split
  · rename_i hnull
    rw [FeatureValue.isNull_iff.1 hnull]
    exact ends_ok rfl (by simp [FeatureValue.children])
  split
  · rename_i hpos
    have hnot : carries m catalog (s.get x).type name = true → ∀ d ∈ v.children, P d := fun hc =>
      absurd hpos ((carries_iff ht).1 hc).1
    split <;> exact ends_ok rfl hnot
  split
  · exact (clean_property hchild v st).imp fun _ _ h _ => h
  · rename_i hnone
    split
    · refine ends_ok rfl fun hc => ?_
      obtain ⟨p, hp⟩ := ((carries_iff ht).1 hc).2
      rw [hnone] at hp
      cases hp
    · exact ends_error rfl id

/-- A conversion does not fail for a reference that leaves the tree, and succeeds only where the
carried tree is not too high. -/
theorem clean_convert (options : ConversionOptions) (k : Nat) (x : ObjectId) (st : State) :
    EndsClean (fun _ _ => HeightAtMost (s.carriedContents m catalog) k x)
      (convert s m catalog options k x) st := by
  induction k generalizing x st with
  | zero =>
    exact ends_error rfl id
  | succ k ih =>
    unfold convert
    refine (ends_lift (clean_typeOf (s.get x).type) st).bind fun t st₁ h => ?_
    obtain ⟨ht, rfl⟩ := h
    have hfeatures : Gives (fun e : ConversionError => ¬ e.IsDangling) (fun _ => True)
        ((m.ownedFeatures (s.get x).type).mapError .metamodel) := by
      cases m.ownedFeatures (s.get x).type with
      | ok fs => trivial
      | error e => exact id
    refine (ends_lift hfeatures st₁).bind fun fs st₂ _ => ?_
    refine ends_bind_ok rfl (ends_bind_ok rfl ?_)
    refine (Ends.forM_each (fun e _ st => clean_value ih ht fs e.1 e.2 st) _).bind
      fun _ st₃ hall => ?_
    refine ends_ok rfl fun d hd => ?_
    obtain ⟨e, he, hde⟩ := List.mem_flatMap.1 hd
    rw [List.mem_filter] at he
    exact hall e he.1 he.2 d hde

end Clean

abbrev Leaves {α : Type} (post : α → State → Prop) (x : Convert α) (st : State) : Prop :=
  Ends (fun _ => True) post x st

/-- What converting an object leaves. -/
structure Registered (m : Metamodel) (catalog : TypeCatalog) (s : ObjectStore) (L : List ObjectId)
    (d : ObjectId) (st : State) (b : NodeId) (st' : State) : Prop where
  recorded : Recorded m catalog s L st st'
  mem : d ∈ L
  image : st'.created.get? d = some b
  free : (st'.forest.get b).holder = none

structure RegisteredAll (m : Metamodel) (catalog : TypeCatalog) (s : ObjectStore)
    (L ds : List ObjectId) (st : State) (bs : List NodeId) (st' : State) : Prop where
  recorded : Recorded m catalog s L st st'
  images : List.Forall₂ (fun d b => d ∈ L ∧ st'.created.get? d = some b) ds bs
  distinct : bs.Nodup
  free : ∀ b ∈ bs, st.forest.size ≤ b ∧ b < st'.forest.size ∧ (st'.forest.get b).holder = none

theorem registeredAll_nil (st : State) : RegisteredAll m catalog s [] [] st [] st :=
  ⟨.refl st, .nil, List.nodup_nil, by simp⟩

theorem Registered.cons {d : ObjectId} {ds : List ObjectId} {bs : List NodeId}
    (h : Registered m catalog s L d st b st₁) (hs : RegisteredAll m catalog s K ds st₁ bs st₂)
    (hd : L.Disjoint K) : RegisteredAll m catalog s (L ++ K) (d :: ds) st (b :: bs) st₂ := by
  obtain ⟨hle, hlt⟩ := h.recorded.gains.bounds h.mem h.image
  have hgrown := hs.recorded.grown
  refine ⟨h.recorded.trans hs.recorded hd, .cons ⟨List.mem_append_left K h.mem, ?_⟩
    (hs.images.imp fun _ _ hcb => ⟨List.mem_append_right L hcb.1, hcb.2⟩),
    List.nodup_cons.2 ⟨fun hb => Nat.not_lt_of_le (hs.free b hb).1 hlt, hs.distinct⟩,
    List.forall_mem_cons.2 ⟨⟨hle, Nat.lt_of_lt_of_le hlt hgrown.size, ?_⟩, fun c hc => ?_⟩⟩
  · exact (hs.recorded.gains.old d (hd h.mem)).trans h.image
  · rw [hgrown.kept b hlt, h.free]
  · exact ⟨Nat.le_trans h.recorded.grown.size (hs.free c hc).1, (hs.free c hc).2⟩

section Steps

variable {options : ConversionOptions} {k : Nat} {child : ObjectId → Convert NodeId} {t : NodeType}
  {p : Property}

theorem setChildren_admitted {bs : List NodeId}
    (hp : (st.forest.get a).type.property? name = some p) (hk : p.kind = .child)
    (ha : (st.forest.get a).holder = none) (hempty : st.forest.childrenIn a name = [])
    (hn : bs.Nodup)
    (hb : ∀ b ∈ bs, b ≠ a ∧ b < st.forest.size ∧ (st.forest.get b).holder = none) :
    ∃ w g, setChildren a p bs st = .ok () { st with forest := g } ∧
      st.forest.Filled g a name w ∧ w.children = admitted p.multiple bs ∧ w.targets = [] := by
  obtain rfl : p.name = name := Forest.property?_name hp
  unfold setChildren
  cases hm : p.multiple with
  | true =>
    obtain ⟨g, hrun, hfilled⟩ := Forest.setChildren_fresh hp hk hm bs ha hempty hn hb
    exact ⟨.nodes bs, g, edit_ok hrun, hfilled, rfl, rfl⟩
  | false =>
    cases bs with
    | nil =>
      refine ⟨.null, _, edit_ok (Forest.setChild_none_ok hp hk hm), ?_, rfl, rfl⟩
      rw [Forest.evict_of_childrenIn_nil hempty]
      exact Forest.filled_setSlot (Forest.lt_size_of_property? hp) rfl
    | cons b bs =>
      obtain ⟨hba, hlt, hfree⟩ := hb b (by simp)
      obtain ⟨g, hrun, hfilled⟩ := Forest.setChild_fresh hp hk hm ha hempty hba hlt hfree
      exact ⟨.node b, g, edit_ok hrun, hfilled, rfl, rfl⟩

/-- Conversions of objects record the objects of their carried trees. -/
def RecordsTrees (m : Metamodel) (catalog : TypeCatalog) (s : ObjectStore) (k : Nat)
    (child : ObjectId → Convert NodeId) : Prop :=
  ∀ d st, (listing (s.carriedContents m catalog) k d).Nodup →
    Leaves (fun b st' =>
      Registered m catalog s (listing (s.carriedContents m catalog) k d) d st b st') (child d) st

theorem leaves_children (hchild : RecordsTrees m catalog s k child) (ds : List ObjectId)
    (st : State) (hn : (listings (s.carriedContents m catalog) k ds).Nodup) :
    Leaves (fun bs st' =>
      RegisteredAll m catalog s (listings (s.carriedContents m catalog) k ds) ds st bs st')
      (ds.mapM child) st := by
  induction ds generalizing st with
  | nil => exact ends_ok rfl (registeredAll_nil st)
  | cons d ds ih =>
    rw [listings_cons] at hn ⊢
    obtain ⟨hd, hds, hapart⟩ := List.nodup_append'.1 hn
    rw [List.mapM_cons]
    refine (hchild d st hd).bind fun b st₁ h => (ih st₁ hds).bind fun bs st₂ hs => ?_
    exact ends_ok rfl (h.cons hs hapart)

theorem Opened.leaves_setChildren {ds : List ObjectId} {bs : List NodeId}
    (h : Opened m catalog s x a L done st₀ st) (hnew : name ∉ done)
    (hv : s.value? x name = some v) (href : v.isReference = false) (hds : v.children = ds)
    (hp : (st.forest.get a).type.property? name = some p) (hk : p.kind = .child)
    (hall : RegisteredAll m catalog s K ds st bs st₁) (hd : L.Disjoint K) :
    Leaves (fun _ st' => Opened m catalog s x a (L ++ K) (done ++ [name]) st₀ st')
      (setChildren a p bs) st₁ := by
  have hopened := h.extend hall.recorded hd
  have hget := hall.recorded.grown.kept a h.lt
  rw [← hget] at hp
  have hlater : ∀ b ∈ bs, a < b := fun b hb => Nat.lt_of_lt_of_le h.lt (hall.free b hb).1
  obtain ⟨w, g, hrun, hfilled, hchildren, htargets⟩ := setChildren_admitted hp hk hopened.free
    (hopened.bare name hnew) hall.distinct fun b hb =>
      ⟨Nat.ne_of_gt (hlater b hb), (hall.free b hb).2⟩
  have hsub : w.children ⊆ bs := by
    rw [hchildren, admitted]
    split
    · exact List.Subset.refl bs
    · exact List.take_subset 1 bs
  refine ends_ok hrun (hopened.fill hv hfilled htargets (fun c hc => hlater c (hsub hc)) href
    fun q hq _ => ?_)
  obtain rfl : p = q := Option.some.inj (hp.symm.trans hq)
  rw [hchildren, hds]
  have himages : List.Forall₂ (fun c b => c ∈ L ++ K ∧ st₁.created.get? c = some b) ds bs :=
    hall.images.imp fun _ _ hcb => ⟨List.mem_append_right L hcb.1, hcb.2⟩
  unfold admitted
  split
  · exact himages
  · exact List.forall₂_take 1 himages

theorem Opened.leaves_setValue {w : Value} (h : Opened m catalog s x a L done st₀ st)
    (hv : s.value? x name = some v) (href : v.isReference = false) (hflat : v.children = []) :
    Leaves (fun _ st' => Opened m catalog s x a L (done ++ [name]) st₀ st')
      (edit (Forest.setValue a name w)) st := by
  obtain ⟨e, he⟩ | ⟨p, hp, hk, hw⟩ := Forest.setValue_cases st.forest a name w
  · exact ends_error (edit_error he) trivial
  · have hchildren := Value.children_eq_nil hw
    have htargets : w.targets = [] := by cases w <;> simp_all [Value.holdsNodes, Value.targets]
    refine ends_ok (edit_ok (Forest.setValue_ok hp hk hw))
      (h.fill hv (Forest.filled_setSlot h.lt hchildren) htargets (by simp [hchildren]) href ?_)
    exact fun _ _ hne => absurd hflat hne

theorem leaves_opened_property (hchild : RecordsTrees m catalog s k child)
    (h : Opened m catalog s x a L done st₀ st) (hnew : name ∉ done) (hpos : name ≠ "position")
    (hv : s.value? x name = some v) (ht : (st.forest.get a).type = t)
    (hp : t.property? name = some p)
    (hn : (L ++ listings (s.carriedContents m catalog) k v.children).Nodup) :
    Leaves (fun _ st' => Opened m catalog s x a
      (L ++ listings (s.carriedContents m catalog) k v.children) (done ++ [name]) st₀ st')
      (convertProperty catalog t a p child v) st := by
  obtain ⟨-, hbelow, hapart⟩ := List.nodup_append'.1 hn
  obtain rfl : p.name = name := Forest.property?_name hp
  subst ht
  have hflat : ∀ {w : FeatureValue}, w.children = [] →
      L ++ listings (s.carriedContents m catalog) k w.children = L := fun hw => by
    rw [hw]
    exact List.append_nil L
  unfold convertProperty
  split
  · rename_i d hk
    have hone : listings (s.carriedContents m catalog) k (FeatureValue.contained d).children =
        listing (s.carriedContents m catalog) k d := List.flatMap_singleton ..
    rw [hone] at hbelow hapart ⊢
    refine (hchild d st hbelow).bind fun b st₁ hd => ?_
    have hall := hd.cons (registeredAll_nil st₁) (List.disjoint_nil_right _)
    rw [List.append_nil] at hall
    exact h.leaves_setChildren hnew hv rfl rfl hp hk hall hapart
  · rename_i ds hk
    refine (leaves_children hchild ds st hbelow).bind fun bs st₁ hall => ?_
    exact h.leaves_setChildren hnew hv rfl rfl hp hk hall hapart
  · rename_i d hk
    rw [hflat rfl]
    exact ends_ok rfl (h.wait hnew hv rfl hpos hp hk)
  · rename_i ds hk
    rw [hflat rfl]
    exact ends_ok rfl (h.wait hnew hv rfl hpos hp hk)
  · rename_i items hk
    rw [hflat rfl]
    have hitems : Gives (fun _ => True) (fun _ => True)
        (items.mapM (plainValue catalog (st.forest.get a).type p)) := by
      cases items.mapM (plainValue catalog (st.forest.get a).type p) <;> trivial
    refine (ends_lift hitems st).bind fun ws st₁ hst => ?_
    rw [hst.2]
    exact h.leaves_setValue hv rfl rfl
  · rename_i hk
    refine (ends_lift ((clean_plainValue _).imp_both (fun _ _ => trivial) fun _ hw => hw) st).bind
      fun w st₁ hw => ?_
    obtain ⟨⟨hchildren, href, -⟩, rfl⟩ := hw
    rw [hflat hchildren]
    exact h.leaves_setValue hv href hchildren
  · exact ends_error rfl trivial

theorem leaves_opened_value (hchild : RecordsTrees m catalog s k child)
    (h : Opened m catalog s x a L done st₀ st) (hnew : name ∉ done)
    (hv : s.value? x name = some v) (ht : (st.forest.get a).type = t) (fs : List OwnedFeature)
    {ds : List ObjectId}
    (hds : ds = if carries m catalog (s.get x).type name then v.children else [])
    (hn : (L ++ listings (s.carriedContents m catalog) k ds).Nodup) :
    Leaves (fun _ st' => Opened m catalog s x a
      (L ++ listings (s.carriedContents m catalog) k ds) (done ++ [name]) st₀ st')
      (convertValue s catalog options x fs t a child name v) st := by
  have htype : typeOf m catalog (s.get x).type = .ok t := ht ▸ h.type
  have hsame : ds = [] → L ++ listings (s.carriedContents m catalog) k ds = L := fun hw => by
    rw [hw]
    exact List.append_nil L
  unfold convertValue
  split
  · rename_i hnull
    obtain rfl := FeatureValue.isNull_iff.1 hnull
    rw [hsame (by rw [hds]; split <;> rfl)]
    exact ends_ok rfl (h.pass hv fun _ _ _ => ⟨rfl, rfl⟩)
  split
  · rename_i hpos
    have hnot : ¬ carries m catalog (s.get x).type name = true := fun hc =>
      ((carries_iff htype).1 hc).1 hpos
    rw [hsame (by rw [hds, if_neg hnot])]
    split
    · exact ends_ok rfl (h.place hv hpos _)
    · exact ends_ok rfl (h.pass hv fun hne => absurd hpos hne)
  split
  · rename_i hpos _ p hp
    rw [if_pos ((carries_iff htype).2 ⟨hpos, p, hp⟩)] at hds
    subst hds
    exact leaves_opened_property hchild h hnew hpos hv ht hp hn
  · rename_i hnone
    have hnot : ¬ carries m catalog (s.get x).type name = true := fun hc => by
      obtain ⟨p, hp⟩ := ((carries_iff htype).1 hc).2
      rw [hnone] at hp
      cases hp
    rw [hsame (by rw [hds, if_neg hnot])]
    split
    · refine ends_ok rfl (h.pass hv fun _ p hp => ?_)
      rw [ht, hnone] at hp
      cases hp
    · exact ends_error rfl trivial

theorem leaves_opened_values (hchild : RecordsTrees m catalog s k child)
    (ht : typeOf m catalog (s.get x).type = .ok t) (fs : List OwnedFeature)
    {rest : List (String × FeatureValue)} (h : Opened m catalog s x a L done st₀ st)
    (hvalues : ∀ e ∈ rest, s.value? x e.1 = some e.2)
    (hnames : (done ++ rest.map Prod.fst).Nodup) {ds : List ObjectId}
    (hds : ds = (rest.filter fun e =>
      carries m catalog (s.get x).type e.1).flatMap (·.2.children))
    (hn : (L ++ listings (s.carriedContents m catalog) k ds).Nodup) :
    Leaves (fun _ st' => Opened m catalog s x a
      (L ++ listings (s.carriedContents m catalog) k ds) (done ++ rest.map Prod.fst) st₀ st')
      (rest.forM fun e => convertValue s catalog options x fs t a child e.1 e.2) st := by
  induction rest generalizing L done st ds with
  | nil =>
    subst hds
    exact ends_ok rfl (by simpa [listings] using h)
  | cons e rest ih =>
    obtain ⟨name, v⟩ := e
    have hsplit : ds = (if carries m catalog (s.get x).type name then v.children else []) ++
        (rest.filter fun e => carries m catalog (s.get x).type e.1).flatMap (·.2.children) := by
      rw [hds, List.filter_cons]
      split <;> simp_all
    rw [hsplit, listings_append, ← List.append_assoc] at hn ⊢
    rw [List.map_cons, List.append_cons] at hnames ⊢
    have hnew : name ∉ done := by
      have hboth := (List.nodup_append'.1 hnames).1
      exact fun hin => (List.nodup_append'.1 hboth).2.2 hin (by simp)
    have htype : (st.forest.get a).type = t := Except.ok.inj (h.type.symm.trans ht)
    refine (leaves_opened_value hchild h hnew (hvalues (name, v) (by simp)) htype fs rfl
      (List.nodup_append'.1 hn).1).bind fun _ st₁ h₁ => ?_
    exact ih h₁ (fun e he => hvalues e (by simp [he])) hnames rfl hn

theorem slot_ofType_flat {r : String} {w : Value} (hw : (Node.ofType t).slots.get? r = some w) :
    w.children = [] ∧ w.targets = [] := by
  have hmem := Table.mem_values_ofList (Table.mem_values_iff.2 ⟨r, hw⟩)
  rw [List.map_map, List.mem_map] at hmem
  obtain ⟨p, -, rfl⟩ := hmem
  refine ⟨p.children_emptySlot, ?_⟩
  cases hm : p.multiple <;> cases hk : p.kind <;>
    simp [Property.emptySlot, hm, hk, Value.targets]

theorem opened_newNode (ht : typeOf m catalog (s.get x).type = .ok t) (st : State) :
    Opened m catalog s x st.forest.size [x] [] st
      ⟨(st.forest.newNode t).2, st.created.insert x st.forest.size, st.pending⟩ := by
  have hget : (st.forest.newNode t).2.get st.forest.size = .ofType t := by
    rw [Forest.get_newNode, if_pos rfl]
  have hslot : ∀ r w, (st.forest.newNode t).2.slot? st.forest.size r = some w →
      w.children = [] ∧ w.targets = [] := fun r w hw => by
    rw [Forest.slot?, hget] at hw
    exact slot_ofType_flat hw
  refine ⟨Forest.extends_push st.forest (.ofType t), ?_, by simp, Table.get?_insert_self _ _ _, ?_,
    fun r _ => ?_, fun z hz b hb => ?_⟩
  · refine Gains.start (l := st.log) ?_ ?_
    · simp [State.log]
    · rintro q ⟨hdone, -⟩
      cases hdone rfl
  · rw [hget]
    rfl
  · rw [Forest.childrenIn]
    cases hw : (st.forest.newNode t).2.slot? st.forest.size r with
    | none => rfl
    | some w => exact (hslot r w hw).1
  · obtain rfl := List.mem_singleton.1 hz
    rw [Table.get?_insert_self, Option.some.injEq] at hb
    subst hb
    refine ⟨by rw [hget, ht]; rfl, fun r _ _ hr => absurd (hr rfl) List.not_mem_nil,
      fun r _ hr => absurd (hr rfl) List.not_mem_nil, fun r => ?_⟩
    rw [Forest.targetsIn]
    cases hw : (st.forest.newNode t).2.slot? st.forest.size r with
    | none => rfl
    | some w => exact (hslot r w hw).2

/-- Converting an object records all objects of its carried tree. -/
theorem recordsTrees (options : ConversionOptions) (k : Nat) :
    RecordsTrees m catalog s k (convert s m catalog options k) := by
  induction k with
  | zero => exact fun d st _ => ends_error rfl trivial
  | succ k ih =>
    intro x st hn
    rw [listing] at hn ⊢
    unfold convert
    refine (ends_lift ((clean_typeOf (s.get x).type).imp_both (fun _ _ => trivial) fun _ h => h)
      st).bind fun t st₁ h => ?_
    obtain ⟨ht, rfl⟩ := h
    have hfeatures : Gives (fun _ : ConversionError => True) (fun _ => True)
        ((m.ownedFeatures (s.get x).type).mapError .metamodel) := by
      cases m.ownedFeatures (s.get x).type <;> trivial
    refine (ends_lift hfeatures st₁).bind fun fs st₂ h => ?_
    obtain ⟨-, rfl⟩ := h
    refine ends_bind_ok rfl (ends_bind_ok rfl ?_)
    refine (leaves_opened_values ih ht fs (opened_newNode ht st₂)
      (fun e he => Table.get?_eq_some_iff.2 he) (by simpa using (s.get x).values.nodup) rfl hn).bind
      fun _ st₃ h₃ => ?_
    have hkeys : ∀ name v, s.value? x name = some v →
        name ∈ [] ++ (s.get x).values.entries.map Prod.fst := fun name v hv =>
      Table.mem_keys_iff.2 ⟨v, hv⟩
    refine ends_ok rfl ⟨⟨h₃.grown, h₃.gains.finish ?_, fun z hz b hb => ?_⟩, h₃.mem, h₃.image,
      h₃.free⟩
    · rintro q ⟨v, -, hv, -⟩
      exact hkeys q.name v hv
    · refine (h₃.pictured z hz b hb).imp fun name v hv _ e => ?_
      subst e
      exact hkeys name v hv

theorem clean_recorded (hs : s.Owned) (honce : s.ListsOnce) (hx : x < s.size)
    (options : ConversionOptions) (st : State) :
    EndsClean (fun b st' => Registered m catalog s (s.carriedTree m catalog x) x st b st')
      (convert s m catalog options (s.size + 1) x) st := by
  cases hrun : convert s m catalog options (s.size + 1) x st with
  | error e st' => exact ends_error hrun ((clean_convert options _ x st).of_error hrun)
  | ok b st' =>
    obtain ⟨hheight, hnodup⟩ :=
      ObjectStore.carried_of_height hs honce hx ((clean_convert options _ x st).of_ok hrun)
    rw [ObjectStore.carriedTree, ← listing_eq_of_height hheight (Nat.le_succ s.size)]
    exact ends_ok hrun ((recordsTrees options (s.size + 1) x st (hnodup _)).of_ok hrun)

end Steps

theorem addReferences_unset {f : Forest} {p : Property}
    (hp : (f.get a).type.property? name = some p) (hk : p.kind = .reference)
    (hm : p.multiple = true) (hunset : f.targetsIn a name = []) (ids : List NodeId) :
    ∃ g, (ids.forM (Forest.addReference a name) : Edit Unit) f = .ok () g ∧
      (∀ j, (g.get j).type = (f.get j).type) ∧
      (∀ j r, ¬ (j = a ∧ r = name) → g.slot? j r = f.slot? j r) ∧ g.targetsIn a name = ids := by
  cases ids with
  | nil => exact ⟨f, rfl, fun _ => rfl, fun _ _ _ => rfl, hunset⟩
  | cons id ids =>
    have ha : a < f.size := Forest.lt_size_of_property? hp
    have hpush : f.pushReference a name id = f.setSlot a name (.references [id]) := by
      unfold Forest.pushReference
      split
      · rename_i ds hslot
        rw [Forest.targetsIn, hslot] at hunset
        rw [show ds = [] from hunset, List.nil_append]
      · rfl
    have hfirst : f.Filled (f.setSlot a name (.references [id])) a name (.references [id]) :=
      Forest.filled_setSlot ha rfl
    obtain ⟨g, hrun, hfilled⟩ := Forest.addReferences_filled
      (f := f.setSlot a name (.references [id])) (by rw [hfirst.type]; exact hp) hk hm ids [id]
      (by rw [hfirst.slot?, if_pos ⟨rfl, rfl⟩])
    refine ⟨g, ?_, fun j => by rw [hfilled.type, hfirst.type], fun j r hjr => ?_, ?_⟩
    · refine (forM_cons_ok ?_).trans hrun
      rw [Forest.addReference_ok hp hk hm, hpush]
    · rw [hfilled.slot?, if_neg hjr, hfirst.slot?, if_neg hjr]
    · rw [Forest.targetsIn, hfilled.slot?, if_pos ⟨rfl, rfl⟩]
      rfl

theorem settle_lenient (positions : Bool) {q : Pending} {p : Property}
    (htype : (st.forest.get q.node).type = q.type) (hp : q.type.property? q.name = some p)
    (hk : p.kind = .reference) (hunset : st.forest.targetsIn q.node q.name = []) :
    ∃ g, settle ⟨positions, false⟩ q st = .ok () { st with forest := g } ∧
      (∀ j, (g.get j).type = (st.forest.get j).type) ∧
      (∀ j r, ¬ (j = q.node ∧ r = q.name) → g.slot? j r = st.forest.slot? j r) ∧
      g.targetsIn q.node q.name = admitted p.multiple (q.targets.filterMap st.created.get?) := by
  have hp' : (st.forest.get q.node).type.property? q.name = some p := by rw [htype, hp]
  obtain ⟨ids, hids⟩ : ∃ ids, ids = q.targets.filterMap st.created.get? := ⟨_, rfl⟩
  have hrun : settle ⟨positions, false⟩ q st = (if p.multiple then
      ids.forM fun id => edit (Forest.addReference q.node q.name id)
      else edit (Forest.setReference q.node q.name ids.head?)) st := by
    have hmany : (q.type.property? q.name).any (·.multiple) = p.multiple := by rw [hp]; rfl
    rw [← hmany, hids]
    rfl
  rw [← hids]
  cases hm : p.multiple with
  | true =>
    obtain ⟨g, hadd, hrest⟩ := addReferences_unset hp' hk hm hunset ids
    refine ⟨g, ?_, hrest⟩
    rw [hrun, hm]
    exact edit_forM ids hadd
  | false =>
    rw [hm] at hrun
    obtain ⟨w, hw⟩ : ∃ w : Value, w = (ids.head?.map .reference).getD .null := ⟨_, rfl⟩
    have hfilled : st.forest.Filled (st.forest.setSlot q.node q.name w) q.node q.name w := by
      refine Forest.filled_setSlot (Forest.lt_size_of_property? hp') ?_
      cases ids <;> rw [hw] <;> rfl
    refine ⟨_, hrun.trans (edit_ok ?_), hfilled.type, fun j r hjr => ?_, ?_⟩
    · rw [hw]
      exact Forest.setReference_ok hp' hk hm
    · rw [hfilled.slot?, if_neg hjr]
    · rw [Forest.targetsIn, hfilled.slot?, if_pos ⟨rfl, rfl⟩, hw]
      cases ids <;> rfl

/-- Settling all entries, no two of which are for the same slot, changes nothing else. -/
theorem settles_lenient (positions : Bool) (ps : List Pending) (st : State) (hn : ps.Nodup)
    (hready : ∀ q ∈ ps, (st.forest.get q.node).type = q.type ∧
      ∃ p, q.type.property? q.name = some p ∧ p.kind = .reference)
    (hunset : ∀ q ∈ ps, st.forest.targetsIn q.node q.name = [])
    (hagree : ∀ q ∈ ps, ∀ r ∈ ps, q.node = r.node → q.name = r.name → q = r) :
    ∃ g, ps.forM (settle ⟨positions, false⟩) st = .ok () { st with forest := g } ∧
      (∀ j, (g.get j).type = (st.forest.get j).type) ∧
      (∀ j r, (∀ q ∈ ps, ¬ (j = q.node ∧ r = q.name)) → g.slot? j r = st.forest.slot? j r) ∧
      ∀ q ∈ ps, ∀ p, q.type.property? q.name = some p →
        g.targetsIn q.node q.name = admitted p.multiple (q.targets.filterMap st.created.get?) := by
  induction ps generalizing st with
  | nil => exact ⟨st.forest, rfl, fun _ => rfl, fun _ _ _ => rfl, by simp⟩
  | cons q ps ih =>
    obtain ⟨hq, hps⟩ := List.nodup_cons.1 hn
    obtain ⟨htype, p, hp, hk⟩ := hready q (by simp)
    obtain ⟨g₁, hstep, htype₁, hother₁, htargets⟩ := settle_lenient positions htype hp hk
      (hunset q (by simp))
    -- no later entry is for the slot of this one
    have hapart : ∀ r ∈ ps, ¬ (r.node = q.node ∧ r.name = q.name) := fun r hr e =>
      hq (hagree r (by simp [hr]) q (by simp) e.1 e.2 ▸ hr)
    obtain ⟨g, hrun, htype₂, hother₂, hheld⟩ := ih { st with forest := g₁ } hps
      (fun r hr => ⟨(htype₁ _).trans (hready r (by simp [hr])).1, (hready r (by simp [hr])).2⟩)
      (fun r hr => by
        rw [Forest.targetsIn, hother₁ _ _ (hapart r hr)]
        exact hunset r (by simp [hr]))
      (fun r hr r' hr' => hagree r (by simp [hr]) r' (by simp [hr']))
    refine ⟨g, (forM_cons_ok hstep).trans hrun, fun j => (htype₂ j).trans (htype₁ j),
      fun j r hnone => ?_, fun r hr p' hp' => ?_⟩
    · rw [hother₂ j r fun q' hq' => hnone q' (by simp [hq']), hother₁ j r (hnone q (by simp))]
    · rcases List.mem_cons.1 hr with rfl | hr
      · obtain rfl : p = p' := Option.some.inj (hp.symm.trans hp')
        rw [Forest.targetsIn, hother₂ _ _ fun q' hq' e => hapart q' hq' ⟨e.1.symm, e.2.symm⟩]
        exact htargets
      · exact hheld r hr p' hp'

/-- Objects and their nodes: different objects have different images, which are of the types for
their classes; the image of an object has the images of its contents as children, and a feature
with references refers to the images of those targets that are converted along with it, in both
cases only to the first of them if the property has room for one only. -/
structure Images (s : ObjectStore) (m : Metamodel) (catalog : TypeCatalog) (x : ObjectId)
    (g : Forest) (image : ObjectId → NodeId) : Prop where
  injective : ∀ y ∈ s.carriedTree m catalog x, ∀ z ∈ s.carriedTree m catalog x,
    image y = image z → y = z
  type : ∀ y ∈ s.carriedTree m catalog x,
    typeOf m catalog (s.get y).type = .ok (g.get (image y)).type
  contents : ∀ y ∈ s.carriedTree m catalog x, ∀ name p, name ≠ "position" →
    (g.get (image y)).type.property? name = some p → s.contentsIn y name ≠ [] →
    g.childrenIn (image y) name = admitted p.multiple ((s.contentsIn y name).map image)
  references : ∀ y ∈ s.carriedTree m catalog x, ∀ name v p, name ≠ "position" →
    s.value? y name = some v → v.isReference = true →
    (g.get (image y)).type.property? name = some p → p.kind = .reference ∧
      g.targetsIn (image y) name =
        admitted p.multiple ((v.targets.filter (· ∈ s.carriedTree m catalog x)).map image)

theorem Entry.unique {q r : Pending} (hq : Entry m catalog s z q) (hr : Entry m catalog s z r)
    (hnode : q.node = r.node) (hname : q.name = r.name) : q = r := by
  obtain ⟨node, t, name, targets⟩ := q
  obtain ⟨node', t', name', targets'⟩ := r
  obtain ⟨v, -, hv, -, -, ht, -, -, htargets⟩ := hq
  obtain ⟨v', -, hv', -, -, ht', -, -, htargets'⟩ := hr
  dsimp only at *
  subst hnode hname
  rw [hv, Option.some.injEq] at hv'
  rw [ht, Except.ok.injEq] at ht'
  rw [ht', htargets, htargets', hv']

theorem Recorded.settles {f : Forest} (positions : Bool)
    (h : Recorded m catalog s (s.carriedTree m catalog x) ⟨f, .empty, []⟩ st) :
    ∃ g, st.pending.forM (settle ⟨positions, false⟩) st = .ok () { st with forest := g } ∧
      Images s m catalog x g st.log.image := by
  have hgains : Gains Pending.node (Entry m catalog s) (s.carriedTree m catalog x)
      ⟨.empty, [], f.size⟩ st.log := h.gains
  have hcreated : ∀ z ∈ s.carriedTree m catalog x, st.created.get? z = some (st.log.image z) :=
    fun z hz => by
      have hget := hgains.get?_eq (z := z)
      rwa [if_pos hz] at hget
  have hpending : ∀ q, q ∈ st.pending ↔ ∃ z ∈ s.carriedTree m catalog x,
      q.node = st.log.image z ∧ Entry m catalog s z q := fun q => hgains.mem_pending_iff
  have hpic := fun z hz => h.pictured z hz _ (hcreated z hz)
  have hready : ∀ q ∈ st.pending, (st.forest.get q.node).type = q.type ∧
      ∃ p, q.type.property? q.name = some p ∧ p.kind = .reference := by
    intro q hq
    obtain ⟨z, hz, hnode, -, p, -, -, -, ht, hp, hk, -⟩ := (hpending q).1 hq
    rw [hnode]
    exact ⟨Except.ok.inj ((hpic z hz).type.symm.trans ht), p, hp, hk⟩
  have hunset : ∀ q ∈ st.pending, st.forest.targetsIn q.node q.name = [] := by
    intro q hq
    obtain ⟨z, hz, hnode, -⟩ := (hpending q).1 hq
    rw [hnode]
    exact (hpic z hz).unset q.name
  have hagree : ∀ q ∈ st.pending, ∀ r ∈ st.pending, q.node = r.node → q.name = r.name →
      q = r := by
    intro q hq r hr hnode hname
    obtain ⟨y, hy, hyq, hentry⟩ := (hpending q).1 hq
    obtain ⟨z, hz, hzr, hentry'⟩ := (hpending r).1 hr
    obtain rfl := hgains.image_inj hy hz (hyq.symm.trans (hnode.trans hzr))
    exact hentry.unique hentry' hnode hname
  obtain ⟨g, hrun, htype, hother, hheld⟩ := settles_lenient positions st.pending st
    hgains.nodup_pending hready hunset hagree
  refine ⟨g, hrun, fun y hy z hz => hgains.image_inj hy hz, fun y hy => ?_,
    fun y hy name p hpos hp hne => ?_, fun y hy name v p hpos hv href hp => ?_⟩
  · rw [htype, (hpic y hy).type]
  · -- no reference is settled where contents are
    have hnone : ∀ q ∈ st.pending, ¬ (st.log.image y = q.node ∧ name = q.name) := by
      rintro q hq ⟨hnode, rfl⟩
      obtain ⟨z, hz, hown, v, -, hv, href, -⟩ := (hpending q).1 hq
      obtain rfl : y = z := hgains.image_inj hy hz (hnode.trans hown)
      rw [ObjectStore.contentsIn_eq hv, FeatureValue.children_of_isReference href] at hne
      exact hne rfl
    rw [htype] at hp
    have himages : List.Forall₂ (fun c b => st.log.image c = b)
        (admitted p.multiple (s.contentsIn y name)) (st.forest.childrenIn (st.log.image y) name) :=
      ((hpic y hy).contents name p trivial hpos hne hp).imp fun c b hcb =>
        Option.some.inj ((hcreated c hcb.1).symm.trans hcb.2)
    rw [Forest.childrenIn, hother _ _ hnone, admitted_map, ← List.forall₂_eq_eq_eq]
    exact List.forall₂_map_right_iff.2 (himages.flip.imp fun _ _ hb => hb.symm)
  · rw [htype] at hp
    have hk := (hpic y hy).features name v p trivial hpos hv href hp
    have hmem := (hpending ⟨st.log.image y, (st.forest.get (st.log.image y)).type, name,
      v.targets⟩).2 ⟨y, hy, rfl, v, p, hv, href, hpos, (hpic y hy).type, hp, hk, rfl⟩
    refine ⟨hk, (hheld _ hmem p hp).trans ?_⟩
    exact congrArg _ (hgains.filterMap_get? v.targets)

end ToNodes

end TreeInterchange
