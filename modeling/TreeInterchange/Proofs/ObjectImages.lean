import TreeInterchange.Proofs.ConversionLogs
import TreeInterchange.Proofs.ConversionToObjects
import TreeInterchange.Proofs.RenderedTrees

/-!
# Which object is the image of which node

A conversion to objects records the object of each node of the tree, contains the objects of the
children where the node has the children, and puts exactly the references of the tree on the
list of those that wait. None of its errors is about a reference that leaves the tree.

While a node is converted, its object is known and its slots are done one after the other; what
is converted in between are other nodes, whose objects come later.
-/

namespace TreeInterchange.ToObjects

open StatefulRuns ConversionLog

variable {m : Metamodel} {f : Forest} {L K : List NodeId} {st₀ st st' st₁ st₂ : State}
  {y z : NodeId} {o : ObjectId} {done : List String} {name : String} {v : Value}

def State.log (st : State) : ConversionLog Pending := ⟨st.created, st.pending, st.store.size⟩

def Entry (m : Metamodel) (f : Forest) (z : NodeId) (q : Pending) : Prop :=
  ∃ v c g, f.slot? z q.feature = some v ∧ v.isReference = true ∧
    classOf m (f.get z).type.name = .ok c ∧ m.feature? c q.feature = .ok (some g) ∧
    g.kind = .reference ∧ q = ⟨q.owner, c, q.feature, g.isMany, v.targets⟩

/-- The object `o` is of the class for the node `z`, with features for the references of the slots
that are done, and where such a slot has children, the object contains their images, which are
recorded for nodes of `L`. -/
structure Picture (m : Metamodel) (f : Forest) (L : List NodeId) (done : String → Prop) (st : State)
    (z : NodeId) (o : ObjectId) : Prop where
  type : classOf m (f.get z).type.name = .ok (st.store.get o).type
  features : ∀ name v, done name → f.slot? z name = some v → v.isReference = true →
    ∃ g, m.feature? (st.store.get o).type name = .ok (some g) ∧ g.kind = .reference
  contents : ∀ name, done name → f.childrenIn z name ≠ [] →
    List.Forall₂ (fun c p => c ∈ L ∧ st.created.get? c = some p) (f.childrenIn z name)
      (st.store.contentsIn o name)

theorem Picture.mono {seen : String → Prop} (h : Picture m f L seen st z o) (hL : L ⊆ K)
    (hcreated : ∀ c ∈ L, st'.created.get? c = st.created.get? c)
    (htype : (st'.store.get o).type = (st.store.get o).type)
    (hcontents : ∀ name, seen name → st'.store.contentsIn o name = st.store.contentsIn o name) :
    Picture m f K seen st' z o := by
  refine ⟨by rw [htype, h.type], by rw [htype]; exact h.features, fun name hname hne => ?_⟩
  rw [hcontents name hname]
  refine (h.contents name hname hne).imp fun c p hcp => ⟨hL hcp.1, ?_⟩
  rw [hcreated c hcp.1, hcp.2]

theorem Picture.imp {seen seen' : String → Prop} (h : Picture m f L seen st z o)
    (hseen : ∀ name v, f.slot? z name = some v → seen' name → seen name) :
    Picture m f L seen' st z o := by
  refine ⟨h.type, fun name v hname hv => h.features name v (hseen name v hv hname) hv,
    fun name hname hne => ?_⟩
  obtain ⟨d, hd⟩ := List.exists_mem_of_ne_nil _ hne
  obtain ⟨v, hv, -⟩ := Forest.mem_childrenIn_iff.1 hd
  exact h.contents name (hseen name v hv hname) hne

theorem Keeps.contentsIn {s t : ObjectStore} (h : Keeps s t) (ho : o < s.size) (name : String) :
    t.contentsIn o name = s.contentsIn o name := by
  rw [ObjectStore.contentsIn, h.value? ho, ObjectStore.contentsIn]

/-- From one state to another exactly the nodes `L` were converted. -/
structure Recorded (m : Metamodel) (f : Forest) (L : List NodeId) (st st' : State) : Prop where
  keeps : Keeps st.store st'.store
  gains : Gains Pending.owner (Entry m f) L st.log st'.log
  pictured : ∀ z ∈ L, ∀ o, st'.created.get? z = some o →
    Picture m f L (fun _ => True) st' z o

theorem Recorded.refl (st : State) : Recorded m f [] st st := ⟨.refl _, .refl _, by simp⟩

theorem Recorded.later (h : Recorded m f K st st') (hd : L.Disjoint K) {seen : String → Prop}
    (hpic : Picture m f L seen st z o) (ho : o < st.store.size) :
    Picture m f (L ++ K) seen st' z o :=
  hpic.mono (List.subset_append_left L K) (fun _ hc => h.gains.old _ (hd hc)) (h.keeps.type o ho)
    fun name _ => h.keeps.contentsIn ho name

theorem Recorded.trans (h : Recorded m f L st st₁) (h' : Recorded m f K st₁ st₂)
    (hd : L.Disjoint K) : Recorded m f (L ++ K) st st₂ := by
  refine ⟨h.keeps.trans h'.keeps, h.gains.trans h'.gains hd, fun z hz o ho => ?_⟩
  rcases List.mem_append.1 hz with hz | hz
  · have ho₁ : st₁.created.get? z = some o := (h'.gains.old z (hd hz)).symm.trans ho
    exact h'.later hd (h.pictured z hz o ho₁) (h.gains.bounds hz ho₁).2
  · exact (h'.pictured z hz o ho).mono (List.subset_append_right L K) (fun _ _ => rfl) rfl
      fun _ _ => rfl

/-- The slots `done` of the node `y` have been converted into the object `o`, and `L` are the nodes
that have been converted, `y` among them. -/
structure Opened (m : Metamodel) (f : Forest) (y : NodeId) (o : ObjectId) (L : List NodeId)
    (done : List String) (st₀ st : State) : Prop where
  keeps : Keeps st₀.store st.store
  gains : Gains Pending.owner (UpTo Pending.feature y done (Entry m f)) L st₀.log st.log
  mem : y ∈ L
  image : st.created.get? y = some o
  free : (st.store.get o).container = none
  pictured : ∀ z ∈ L, ∀ p, st.created.get? z = some p →
    Picture m f L (fun name => z = y → name ∈ done) st z p

namespace Opened

theorem lt (h : Opened m f y o L done st₀ st) : o < st.store.size :=
  (h.gains.bounds h.mem h.image).2

theorem new (h : Opened m f y o L done st₀ st) : st₀.store.size ≤ o :=
  (h.gains.bounds h.mem h.image).1

theorem extend (h : Opened m f y o L done st₀ st) (h' : Recorded m f K st st')
    (hd : L.Disjoint K) : Opened m f y o (L ++ K) done st₀ st' := by
  have hkept : ∀ z ∈ L, st'.created.get? z = st.created.get? z := fun z hz =>
    h'.gains.old z (hd hz)
  refine ⟨h.keeps.trans h'.keeps, h.gains.trans_upTo h'.gains hd h.mem,
    List.mem_append_left K h.mem, by rw [hkept y h.mem, h.image], h'.keeps.free o h.lt h.free,
    fun z hz p hp => ?_⟩
  rcases List.mem_append.1 hz with hz | hz
  · rw [hkept z hz] at hp
    exact h'.later hd (h.pictured z hz p hp) (h.gains.bounds hz hp).2
  · have hpic : Picture m f K (fun name => z = y → name ∈ done) st' z p :=
      (h'.pictured z hz p hp).imp fun _ _ _ _ => trivial
    exact hpic.mono (List.subset_append_right L K) (fun _ _ => rfl) rfl fun _ _ => rfl

theorem grow (h : Opened m f y o L done st₀ st) {t : ObjectStore} (ht : Keeps st.store t) :
    Opened m f y o L done st₀ { st with store := t } := by
  refine ⟨h.keeps.trans ht, h.gains.grow ht.size_le, h.mem, h.image, ht.free o h.lt h.free,
    fun z hz p hp => ?_⟩
  have hlt := (h.gains.bounds hz hp).2
  exact (h.pictured z hz p hp).mono (List.Subset.refl L) (fun _ _ => rfl) (ht.type p hlt)
    fun r _ => ht.contentsIn hlt r

theorem set (h : Opened m f y o L done st₀ st) {w : FeatureValue} (hn : w.children.Nodup)
    (hfree : ∀ p ∈ w.children, o < p ∧ (st.store.get p).container = none) (hnew : name ∉ done) :
    Opened m f y o L done st₀ { st with store := st.store.set o name w } := by
  have hfree' : ∀ p ∈ w.children, (st.store.get p).container = none := fun p hp => (hfree p hp).2
  have hset := ObjectStore.set_free o name hn hfree'
  have hlog : State.log { st with store := st.store.set o name w } = st.log := by
    simp only [State.log, ObjectStore.size_set]
  refine ⟨h.keeps.set h.new hn fun p hp => ⟨?_, hfree' p hp⟩, by rw [hlog]; exact h.gains, h.mem,
    h.image, (hset o).2.2 (fun hc => Nat.lt_irrefl o (hfree o hc).1) h.free, fun z hz p hp => ?_⟩
  · exact Nat.le_of_lt (Nat.lt_of_le_of_lt h.new (hfree p hp).1)
  · refine (h.pictured z hz p hp).mono (List.Subset.refl L) (fun _ _ => rfl) (hset p).1
      fun r hr => ?_
    have hother : ¬ (p = o ∧ r = name ∧ o < st.store.size) := by
      rintro ⟨rfl, rfl, -⟩
      exact hnew (hr (h.gains.apart z hz y h.mem (hp.trans h.image.symm)))
    rw [ObjectStore.contentsIn, ObjectStore.value?_set_free _ _ hn hfree', if_neg hother,
      ObjectStore.contentsIn]

theorem finish (h : Opened m f y o L done st₀ st) (hv : f.slot? y name = some v)
    (href : v.isReference = false) (hchildren : v.children ≠ [] →
      List.Forall₂ (fun c p => c ∈ L ∧ st.created.get? c = some p) v.children
        (st.store.contentsIn o name)) : Opened m f y o L (done ++ [name]) st₀ st := by
  refine ⟨h.keeps, h.gains.pass ?_, h.mem, h.image, h.free, fun z hz p hp => ?_⟩
  · rintro q ⟨w, -, -, hw, hr, -⟩ rfl
    rw [hv, Option.some.injEq] at hw
    rw [← hw, href] at hr
    cases hr
  · have hpic := h.pictured z hz p hp
    by_cases hzy : z = y
    · subst hzy
      obtain rfl : p = o := Option.some.inj (hp.symm.trans h.image)
      refine ⟨hpic.type, fun r w hr hw hwr => ?_, fun r hr hne => ?_⟩
      · refine hpic.features r w (fun _ => (List.mem_append.1 (hr rfl)).resolve_right fun hr' => ?_)
          hw hwr
        rw [List.mem_singleton.1 hr', hv, Option.some.injEq] at hw
        rw [← hw, href] at hwr
        cases hwr
      · rcases List.mem_append.1 (hr rfl) with hr | hr
        · exact hpic.contents r (fun _ => hr) hne
        · obtain rfl := List.mem_singleton.1 hr
          rw [Forest.childrenIn_eq hv] at hne ⊢
          exact hchildren hne
    · exact hpic.imp fun _ _ _ _ e => absurd e hzy

theorem wait (h : Opened m f y o L done st₀ st) (hnew : name ∉ done) (hv : f.slot? y name = some v)
    (href : v.isReference = true) {c : ClassifierRef} {g : Feature}
    (hc : classOf m (f.get y).type.name = .ok c) (hg : m.feature? c name = .ok (some g))
    (hk : g.kind = .reference) : Opened m f y o L (done ++ [name]) st₀
      { st with pending := st.pending ++ [⟨o, c, name, g.isMany, v.targets⟩] } := by
  refine ⟨h.keeps, h.gains.wait h.mem h.image hnew fun q => ⟨?_, ?_⟩, h.mem, h.image, h.free,
    fun z hz p hp => ?_⟩
  · rintro rfl
    exact ⟨rfl, rfl, v, c, g, hv, href, hc, hg, hk, rfl⟩
  · rintro ⟨howner, hname, w, c', g', hw, -, hc', hg', -, hq⟩
    rw [hname] at hw hg' hq
    rw [hv, Option.some.injEq] at hw
    rw [hc, Except.ok.injEq] at hc'
    subst hw hc'
    rw [hg, Except.ok.injEq, Option.some.injEq] at hg'
    rw [hq, hg', howner]
  · have hpic := h.pictured z hz p hp
    by_cases hzy : z = y
    · subst hzy
      obtain rfl : c = (st.store.get p).type := Except.ok.inj (hc.symm.trans hpic.type)
      refine ⟨hpic.type, fun r w hr hw hwr => ?_, fun r hr hne => ?_⟩
      · rcases List.mem_append.1 (hr rfl) with hr | hr
        · exact hpic.features r w (fun _ => hr) hw hwr
        · rw [List.mem_singleton.1 hr]
          exact ⟨g, hg, hk⟩
      · refine hpic.contents r (fun _ => (List.mem_append.1 (hr rfl)).resolve_right fun hr' => ?_)
          hne
        rw [List.mem_singleton.1 hr', Forest.childrenIn_eq hv, children_of_isReference href] at hne
        exact hne rfl
    · exact (hpic.imp fun _ _ _ _ e => absurd e hzy).mono (List.Subset.refl L) (fun _ _ => rfl) rfl
        fun _ _ => rfl

end Opened

theorem ends_lift {α : Type} {allowed : ConversionError → Prop} {e : Except ConversionError α}
    {result : α → Prop} (h : Gives allowed result e) (st : State) :
    Ends allowed (fun a st' => result a ∧ st' = st) (lift e) st := by
  cases e with
  | ok a => exact ends_ok rfl ⟨h, rfl⟩
  | error err => exact ends_error rfl h

theorem clean_classOf (c : QualifiedName) :
    Gives (fun e => ¬ e.IsDangling) (fun r => classOf m c = .ok r) (classOf m c) := by
  unfold classOf
  split
  · rfl
  · exact id

theorem clean_features (c : ClassifierRef) :
    Gives (fun e => ¬ e.IsDangling) (fun fs => m.features c = .ok fs)
      ((m.features c).mapError ConversionError.metamodel) := by
  cases m.features c with
  | ok fs => rfl
  | error e => exact id

theorem clean_enumValue (c : ClassifierRef) (e : EnumValue) :
    Gives (fun e => ¬ e.IsDangling) (fun w => w.children = []) (enumValue m c e) := by
  unfold enumValue
  dsimp only
  split
  · rfl
  · exact id

theorem clean_plainValue (c : ClassifierRef) (g : Feature) (v : Value) :
    Gives (fun e => ¬ e.IsDangling)
      (fun w => v.children = [] ∧ v.isReference = false ∧ w.children = [])
      (plainValue m c g v) := by
  have hmismatch : ∀ found, ¬ (ConversionError.typeMismatch c.render g.name found).IsDangling :=
    fun _ => id
  unfold plainValue
  dsimp only
  split
  · exact ⟨rfl, rfl, rfl⟩
  · exact ⟨rfl, rfl, rfl⟩
  · exact ⟨rfl, rfl, rfl⟩
  · exact ⟨rfl, rfl, rfl⟩
  · exact ⟨rfl, rfl, rfl⟩
  -- a scalar of no particular type
  · split
    · exact ⟨rfl, rfl, rfl⟩
    · exact hmismatch _
  · split
    · exact ⟨rfl, rfl, rfl⟩
    · exact hmismatch _
  · split
    · exact ⟨rfl, rfl, rfl⟩
    · exact hmismatch _
  · split
    · exact ⟨rfl, rfl, rfl⟩
    · exact hmismatch _
  · exact (clean_enumValue _ _).imp fun _ hw => ⟨rfl, rfl, hw⟩
  · exact hmismatch _

/-- What converting a node leaves. -/
structure Registered (m : Metamodel) (f : Forest) (L : List NodeId) (d : NodeId) (st : State)
    (o : ObjectId) (st' : State) : Prop where
  recorded : Recorded m f L st st'
  mem : d ∈ L
  image : st'.created.get? d = some o
  free : (st'.store.get o).container = none

structure RegisteredAll (m : Metamodel) (f : Forest) (L ds : List NodeId) (st : State)
    (os : List ObjectId) (st' : State) : Prop where
  recorded : Recorded m f L st st'
  images : List.Forall₂ (fun d o => d ∈ L ∧ st'.created.get? d = some o) ds os
  distinct : os.Nodup
  free : ∀ o ∈ os, st.store.size ≤ o ∧ (st'.store.get o).container = none

theorem registeredAll_nil (st : State) : RegisteredAll m f [] [] st [] st :=
  ⟨.refl st, .nil, List.nodup_nil, by simp⟩

theorem Registered.cons {d : NodeId} {ds : List NodeId} {os : List ObjectId}
    (h : Registered m f L d st o st₁) (hs : RegisteredAll m f K ds st₁ os st₂)
    (hd : L.Disjoint K) : RegisteredAll m f (L ++ K) (d :: ds) st (o :: os) st₂ := by
  obtain ⟨hle, hlt⟩ := h.recorded.gains.bounds h.mem h.image
  have hkeeps := hs.recorded.keeps
  refine ⟨h.recorded.trans hs.recorded hd, .cons ⟨List.mem_append_left K h.mem, ?_⟩
    (hs.images.imp fun _ _ hcp => ⟨List.mem_append_right L hcp.1, hcp.2⟩),
    List.nodup_cons.2 ⟨fun ho => Nat.not_lt_of_le (hs.free o ho).1 hlt, hs.distinct⟩,
    List.forall_mem_cons.2 ⟨⟨hle, hkeeps.free o hlt h.free⟩, fun p hp => ?_⟩⟩
  · exact (hs.recorded.gains.old d (hd h.mem)).trans h.image
  · exact ⟨Nat.le_trans h.recorded.keeps.size_le (hs.free p hp).1, (hs.free p hp).2⟩

section Steps

variable {options : ConversionOptions} {k : Nat} {child : NodeId → Convert ObjectId}

/-- Conversions of nodes record the nodes of their trees. -/
def RecordsTrees (m : Metamodel) (f : Forest) (k : Nat) (child : NodeId → Convert ObjectId) :
    Prop :=
  ∀ d st, (listing f.children k d).Nodup →
    EndsClean (fun o st' => Registered m f (listing f.children k d) d st o st') (child d) st

theorem clean_children (hchild : RecordsTrees m f k child) (ds : List NodeId) (st : State)
    (hn : (listings f.children k ds).Nodup) :
    EndsClean (fun os st' => RegisteredAll m f (listings f.children k ds) ds st os st')
      (ds.mapM child) st := by
  induction ds generalizing st with
  | nil => exact ends_ok rfl (registeredAll_nil st)
  | cons d ds ih =>
    rw [listings_cons] at hn ⊢
    obtain ⟨hd, hds, hapart⟩ := List.nodup_append'.1 hn
    rw [List.mapM_cons]
    refine (hchild d st hd).bind fun o st₁ h => (ih st₁ hds).bind fun os st₂ hs => ?_
    exact ends_ok rfl (h.cons hs hapart)

theorem clean_slot (hchild : RecordsTrees m f k child) (c : ClassifierRef) (g : Feature)
    (v : Value) (st : State) (hn : (listings f.children k v.children).Nodup) :
    EndsClean (fun res st' => (∀ w, res = .value w → v.isReference = false ∧
        RegisteredAll m f (listings f.children k v.children) v.children st w.children st') ∧
      ∀ targets, res = .later targets → v.isReference = true ∧ g.kind = .reference ∧
        targets = v.targets ∧ st' = st) (slotValue m c g child v) st := by
  have hflat : ∀ {w : FeatureValue}, v.children = [] → w.children = [] →
      RegisteredAll m f (listings f.children k v.children) v.children st w.children st := by
    intro w hv hw
    rw [hv, hw]
    exact registeredAll_nil st
  unfold slotValue
  split
  · rename_i d hk
    have hone : (listing f.children k d).Nodup := by
      simpa [Value.children, listings] using hn
    refine (hchild d st hone).bind fun o st' h => ends_ok rfl ⟨?_, by simp⟩
    rintro w ⟨⟩
    have hall := h.cons (registeredAll_nil (m := m) (f := f) st') (by simp)
    rw [List.append_nil] at hall
    exact ⟨rfl, by simpa [Value.children, listings, FeatureValue.children] using hall⟩
  · rename_i ds hk
    refine (clean_children hchild ds st hn).bind fun os st' h => ends_ok rfl ⟨?_, by simp⟩
    rintro w ⟨⟩
    exact ⟨rfl, h⟩
  · rename_i d hk
    refine ends_ok rfl ⟨by simp, ?_⟩
    rintro targets ⟨⟩
    exact ⟨rfl, hk, rfl, rfl⟩
  · rename_i ds hk
    refine ends_ok rfl ⟨by simp, ?_⟩
    rintro targets ⟨⟩
    exact ⟨rfl, hk, rfl, rfl⟩
  · rename_i items hk
    have hitems : ∀ i : Value, Gives (fun e => ¬ e.IsDangling)
        (fun w : FeatureValue => w.children = []) (plainValue m c g i) := fun i =>
      (clean_plainValue c g i).imp fun _ h => h.2.2
    refine (ends_lift (Gives.mapM fun i _ => hitems i) st).bind fun ws st' h => ?_
    obtain ⟨-, rfl⟩ := h
    refine ends_ok rfl ⟨?_, by simp⟩
    rintro w ⟨⟩
    exact ⟨rfl, hflat rfl rfl⟩
  · rename_i hk
    refine (ends_lift (clean_plainValue c g _) st).bind fun w st' h => ?_
    obtain ⟨⟨hv, href, hw⟩, rfl⟩ := h
    refine ends_ok rfl ⟨?_, by simp⟩
    rintro w' ⟨⟩
    exact ⟨href, hflat hv hw⟩
  · exact ends_error rfl id

theorem clean_opened_slot (hchild : RecordsTrees m f k child) {c : ClassifierRef}
    {fs : List Feature} (hc : classOf m (f.get y).type.name = .ok c) (hfs : m.features c = .ok fs)
    (h : Opened m f y o L done st₀ st) (hnew : name ∉ done) (hv : f.slot? y name = some v)
    (hn : (L ++ listings f.children k v.children).Nodup) :
    EndsClean (fun _ st' => Opened m f y o (L ++ listings f.children k v.children)
      (done ++ [name]) st₀ st') (convertSlot m c fs o child name v) st := by
  obtain ⟨-, hbelow, hapart⟩ := List.nodup_append'.1 hn
  unfold convertSlot
  split
  · rename_i hnull
    have hv' : v = .null := by cases v <;> simp_all [Value.isNull]
    subst hv'
    have hsame : L ++ listings f.children k Value.null.children = L := List.append_nil L
    rw [hsame]
    exact ends_ok rfl (h.finish hv rfl fun hne => absurd rfl hne)
  split
  · exact ends_error rfl id
  rename_i g hfind
  have hname : g.name = name := by simpa using List.find?_some hfind
  have hg : m.feature? c name = .ok (some g) := by
    rw [Metamodel.feature?, hfs, ← hfind]
    rfl
  refine (clean_slot hchild c g v st hbelow).bind fun res st' hres => ?_
  obtain ⟨hvalue, hlater⟩ := hres
  cases res with
  | value w =>
    obtain ⟨href, hall⟩ := hvalue w rfl
    have hopened := h.extend hall.recorded hapart
    have hfree : ∀ p ∈ w.children, o < p ∧ (st'.store.get p).container = none := fun p hp =>
      ⟨Nat.lt_of_lt_of_le h.lt (hall.free p hp).1, (hall.free p hp).2⟩
    rw [hname]
    refine ends_ok rfl ((hopened.set hall.distinct hfree hnew).finish hv href fun _ => ?_)
    rw [ObjectStore.contentsIn, ObjectStore.value?_set_free _ _ hall.distinct fun p hp =>
      (hfree p hp).2, if_pos ⟨rfl, rfl, hopened.lt⟩]
    exact hall.images.imp fun _ _ hcp => ⟨List.mem_append_right L hcp.1, hcp.2⟩
  | later targets =>
    obtain ⟨href, hk, rfl, rfl⟩ := hlater targets rfl
    rw [children_of_isReference href, hname]
    have hsame : L ++ listings f.children k [] = L := List.append_nil L
    rw [hsame]
    exact ends_ok rfl (h.wait hnew hv href hc hg hk)

theorem clean_opened_slots (hchild : RecordsTrees m f k child) {c : ClassifierRef}
    {fs : List Feature} (hc : classOf m (f.get y).type.name = .ok c) (hfs : m.features c = .ok fs)
    {rest : List (String × Value)} (h : Opened m f y o L done st₀ st)
    (hslots : ∀ e ∈ rest, f.slot? y e.1 = some e.2) (hnames : (done ++ rest.map Prod.fst).Nodup)
    (hn : (L ++ listings f.children k (rest.flatMap (·.2.children))).Nodup) :
    EndsClean (fun _ st' => Opened m f y o
      (L ++ listings f.children k (rest.flatMap (·.2.children))) (done ++ rest.map Prod.fst)
        st₀ st')
      (rest.forM fun e => convertSlot m c fs o child e.1 e.2) st := by
  induction rest generalizing L done st with
  | nil => exact ends_ok rfl (by simpa [listings] using h)
  | cons e rest ih =>
    obtain ⟨name, v⟩ := e
    rw [List.flatMap_cons, listings_append, ← List.append_assoc] at hn ⊢
    rw [List.map_cons, List.append_cons] at hnames ⊢
    have hnew : name ∉ done := by
      have hboth := (List.nodup_append'.1 hnames).1
      exact fun hin => (List.nodup_append'.1 hboth).2.2 hin (by simp)
    refine (clean_opened_slot hchild hc hfs h hnew (hslots (name, v) (by simp))
      (List.nodup_append'.1 hn).1).bind fun _ st₁ h₁ => ?_
    exact ih h₁ (fun e he => hslots e (by simp [he])) hnames hn

theorem clean_opened_position (fs : List Feature) (p : Option Position)
    (h : Opened m f y o L [] st₀ st) :
    EndsClean (fun _ st' => Opened m f y o L [] st₀ st') (convertPosition options fs o p) st := by
  unfold convertPosition
  split
  · rename_i q
    split
    · obtain ⟨id, t, ht⟩ : ∃ id t, positionObject q st.store = (id, t) := ⟨_, _, rfl⟩
      obtain ⟨rfl, hsize, hget, hfree, -⟩ := ht ▸ positionObject_spec st.store q
      have hmade : onStore (positionObject q) st = .ok st.store.size { st with store := t } := by
        simp only [onStore, ht]
      have hkeeps : Keeps st.store t := keeps_of_get (hsize ▸ Nat.le_add_right _ 3) hget
      refine ends_bind_ok hmade (ends_ok rfl ((h.grow hkeeps).set (List.nodup_singleton _) ?_
        (by simp)))
      simpa [FeatureValue.children] using ⟨h.lt, hfree⟩
    · exact ends_ok rfl h
  · exact ends_ok rfl h

theorem opened_newObject {c : ClassifierRef} (hc : classOf m (f.get y).type.name = .ok c)
    (st : State) : Opened m f y st.store.size [y] [] st
      ⟨(st.store.newObject c).2, st.created.insert y st.store.size, st.pending⟩ := by
  have hget := ObjectStore.get_newObject_self st.store c
  refine ⟨keeps_of_get (by simp) fun j hj => ObjectStore.get_newObject_of_lt c hj, ?_, by simp,
    Table.get?_insert_self _ _ _, ?_, fun z hz p hp => ?_⟩
  · refine Gains.start (l := st.log) ?_ ?_
    · simp [State.log]
    · rintro q ⟨hdone, -⟩
      cases hdone rfl
  · rw [hget]
    rfl
  · obtain rfl := List.mem_singleton.1 hz
    rw [Table.get?_insert_self, Option.some.injEq] at hp
    subst hp
    refine ⟨?_, fun name v hname => absurd (hname rfl) List.not_mem_nil,
      fun name hname => absurd (hname rfl) List.not_mem_nil⟩
    rw [hget, hc]
    rfl

theorem children_eq_flatMap (f : Forest) (y : NodeId) :
    f.children y = (f.get y).slots.entries.flatMap (·.2.children) := by
  rw [Forest.children, Node.children, Table.values, List.flatMap_map]

/-- Converting a tree records all its nodes. -/
theorem recordsTrees (options : ConversionOptions) (k : Nat) :
    RecordsTrees m f k (convert f m options k) := by
  induction k with
  | zero =>
    intro d st _
    exact ends_error rfl id
  | succ k ih =>
    intro y st hn
    rw [listing, children_eq_flatMap] at hn ⊢
    unfold convert
    refine (ends_lift (clean_classOf (f.get y).type.name) st).bind fun c st₁ h => ?_
    obtain ⟨hc, rfl⟩ := h
    refine (ends_lift (clean_features c) st₁).bind fun fs st₂ h => ?_
    obtain ⟨hfs, rfl⟩ := h
    refine ends_bind_ok rfl (ends_bind_ok rfl ?_)
    refine (clean_opened_position fs (f.position y) (opened_newObject hc st₂)).bind
      fun _ st₃ h₃ => ?_
    refine (clean_opened_slots ih hc hfs h₃ (fun e he => Table.get?_eq_some_iff.2 he)
      (by simpa using (f.get y).slots.nodup) hn).bind fun _ st₄ h₄ => ?_
    have hkeys : ∀ name v, f.slot? y name = some v →
        name ∈ [] ++ (f.get y).slots.entries.map Prod.fst := fun name v hv =>
      Table.mem_keys_iff.2 ⟨v, hv⟩
    refine ends_ok rfl ⟨⟨h₄.keeps, h₄.gains.finish ?_, fun z hz p hp => ?_⟩, h₄.mem, h₄.image,
      h₄.free⟩
    · rintro q ⟨v, -, -, hv, -⟩
      exact hkeys q.feature v hv
    · refine (h₄.pictured z hz p hp).imp fun name v hv _ e => ?_
      subst e
      exact hkeys name v hv

theorem clean_recorded (hf : f.IsForest) (hy : y < f.size) (options : ConversionOptions)
    (st : State) :
    EndsClean (fun o st' => Registered m f (f.walk y) y st o st')
      (convert f m options (f.size + 1) y) st := by
  rw [← hf.listing_succ_eq_walk hy]
  exact recordsTrees options (f.size + 1) y st (hf.nodup_listing (f.size + 1) y)

end Steps

/-- What a reference holds once its targets are known. -/
def settledValue (many : Bool) (ids : List ObjectId) : FeatureValue :=
  if many then .references ids else (ids.head?.map .reference).getD .null

theorem targets_settledValue (many : Bool) (ids : List ObjectId) :
    (settledValue many ids).targets = admitted many ids := by
  cases many
  · cases ids <;> rfl
  · rfl

/-- The value that an entry leads to. -/
def Pending.value (created : Table NodeId ObjectId) (q : Pending) : FeatureValue :=
  settledValue q.many (q.targets.filterMap created.get?)

theorem settle_lenient (positions : Bool) (q : Pending) (st : State) :
    settle ⟨positions, false⟩ q st =
      .ok () { st with store := st.store.set q.owner q.feature (q.value st.created) } := rfl

theorem value?_settled {t : ObjectStore} {q : Pending} (hq : q.owner < t.size)
    (created : Table NodeId ObjectId) (o : ObjectId) (name : String) :
    (t.set q.owner q.feature (q.value created)).value? o name =
      if o = q.owner ∧ name = q.feature then some (q.value created) else t.value? o name := by
  have hflat : (q.value created).children = [] := children_settled q.many _
  rw [ObjectStore.value?_set_free _ _ (hflat ▸ List.nodup_nil) (by simp [hflat])]
  simp only [hq, and_true]

theorem type_settled {t : ObjectStore} (q : Pending) (created : Table NodeId ObjectId)
    (o : ObjectId) :
    ((t.set q.owner q.feature (q.value created)).get o).type = (t.get o).type := by
  have hflat : (q.value created).children = [] := children_settled q.many _
  exact (ObjectStore.set_free _ _ (hflat ▸ List.nodup_nil) (by simp [hflat]) o).1

/-- Settling all entries stores their values, if no two of them are for the same feature, and
changes nothing else. -/
theorem settles_lenient (positions : Bool) (ps : List Pending) (st : State)
    (howner : ∀ q ∈ ps, q.owner < st.store.size)
    (hagree : ∀ q ∈ ps, ∀ r ∈ ps, q.owner = r.owner → q.feature = r.feature → q = r) :
    ∃ t, ps.forM (settle ⟨positions, false⟩) st = .ok () { st with store := t } ∧
      (∀ o, (t.get o).type = (st.store.get o).type) ∧
      (∀ o name, (∀ q ∈ ps, ¬ (o = q.owner ∧ name = q.feature)) →
        t.value? o name = st.store.value? o name) ∧
      ∀ q ∈ ps, t.value? q.owner q.feature = some (q.value st.created) := by
  induction ps generalizing st with
  | nil => exact ⟨st.store, rfl, fun _ => rfl, fun _ _ _ => rfl, by simp⟩
  | cons q ps ih =>
    have hq := howner q (by simp)
    obtain ⟨st₁, hst₁⟩ : ∃ st₁ : State, st₁ =
        { st with store := st.store.set q.owner q.feature (q.value st.created) } := ⟨_, rfl⟩
    have hcreated : st₁.created = st.created := by rw [hst₁]
    have hvalue : ∀ o name, st₁.store.value? o name = if o = q.owner ∧ name = q.feature then
        some (q.value st.created) else st.store.value? o name := fun o name => by
      rw [hst₁]
      exact value?_settled hq st.created o name
    obtain ⟨t, hrun, htype, hother, hheld⟩ := ih st₁
      (fun r hr => by rw [hst₁, ObjectStore.size_set]; exact howner r (by simp [hr]))
      (fun r hr r' hr' => hagree r (by simp [hr]) r' (by simp [hr']))
    refine ⟨t, ?_, fun o => ?_, fun o name hnone => ?_, fun r hr => ?_⟩
    · rw [forM_cons_ok (settle_lenient positions q st), ← hst₁, hrun, hst₁]
    · rw [htype, hst₁]
      exact type_settled q st.created o
    · rw [hother o name fun r hr => hnone r (by simp [hr]), hvalue, if_neg (hnone q (by simp))]
    · by_cases hlater : r ∈ ps
      · rw [hheld r hlater, hcreated]
      · obtain rfl : r = q := (List.mem_cons.1 hr).resolve_right hlater
        -- no later entry is for the same feature
        have hlast : ∀ r' ∈ ps, ¬ (r.owner = r'.owner ∧ r.feature = r'.feature) := by
          rintro r' hr' ⟨ho, hf⟩
          exact hlater (hagree r hr r' (by simp [hr']) ho hf ▸ hr')
        rw [hother _ _ hlast, hvalue, if_pos ⟨rfl, rfl⟩]

end TreeInterchange.ToObjects

namespace TreeInterchange

/-- The objects that the feature `name` refers to. -/
def ObjectStore.targetsIn (s : ObjectStore) (id : ObjectId) (name : String) : List ObjectId :=
  ((s.value? id name).map FeatureValue.targets).getD []

namespace ToObjects

open StatefulRuns ConversionLog

/-- A tree and its objects: different nodes have different images, which are of the classes for
their types; the image of a node contains the images of its children where the node has the
children, and a slot with references refers to the images of those targets that are in the tree,
or to the first of them if the feature has room for one only. -/
structure Images (f : Forest) (m : Metamodel) (n : NodeId) (t : ObjectStore)
    (image : NodeId → ObjectId) : Prop where
  injective : ∀ x ∈ f.walk n, ∀ y ∈ f.walk n, image x = image y → x = y
  type : ∀ y ∈ f.walk n, classOf m (f.get y).type.name = .ok (t.get (image y)).type
  contents : ∀ y ∈ f.walk n, ∀ name, f.childrenIn y name ≠ [] →
    t.contentsIn (image y) name = (f.childrenIn y name).map image
  references : ∀ y ∈ f.walk n, ∀ name v, f.slot? y name = some v → v.isReference = true →
    ∃ g, m.feature? (t.get (image y)).type name = .ok (some g) ∧ g.kind = .reference ∧
      t.targetsIn (image y) name =
        admitted g.isMany ((v.targets.filter (· ∈ f.walk n)).map image)

variable {m : Metamodel} {f : Forest} {n y : NodeId} {o : ObjectId} {s : ObjectStore} {st : State}

theorem Entry.unique {q r : Pending} (hq : Entry m f y q) (hr : Entry m f y r)
    (howner : q.owner = r.owner) (hname : q.feature = r.feature) : q = r := by
  obtain ⟨v, c, g, hv, -, hc, hg, -, hqe⟩ := hq
  obtain ⟨v', c', g', hv', -, hc', hg', -, hre⟩ := hr
  rw [hname] at hv hg hqe
  rw [hv, Option.some.injEq] at hv'
  rw [hc, Except.ok.injEq] at hc'
  subst hv' hc'
  rw [hg, Except.ok.injEq, Option.some.injEq] at hg'
  rw [hqe, hre, hg', howner]

theorem Recorded.settles (positions : Bool) (h : Recorded m f (f.walk n) ⟨s, .empty, []⟩ st) :
    ∃ t, st.pending.forM (settle ⟨positions, false⟩) st = .ok () { st with store := t } ∧
      Images f m n t st.log.image := by
  have hgains : Gains Pending.owner (Entry m f) (f.walk n) ⟨.empty, [], s.size⟩ st.log := h.gains
  have hcreated : ∀ z ∈ f.walk n, st.created.get? z = some (st.log.image z) := fun z hz => by
    have hget := hgains.get?_eq (z := z)
    rwa [if_pos hz] at hget
  have hpending : ∀ q, q ∈ st.pending ↔
      ∃ z ∈ f.walk n, q.owner = st.log.image z ∧ Entry m f z q := fun q => hgains.mem_pending_iff
  have hpic := fun z hz => h.pictured z hz _ (hcreated z hz)
  have howner : ∀ q ∈ st.pending, q.owner < st.store.size := by
    intro q hq
    obtain ⟨z, hz, hown, -⟩ := (hpending q).1 hq
    rw [hown]
    exact (hgains.bounds hz (hcreated z hz)).2
  have hagree : ∀ q ∈ st.pending, ∀ r ∈ st.pending, q.owner = r.owner → q.feature = r.feature →
      q = r := by
    intro q hq r hr howner hname
    obtain ⟨y, hy, hyq, hentry⟩ := (hpending q).1 hq
    obtain ⟨z, hz, hzr, hentry'⟩ := (hpending r).1 hr
    obtain rfl := hgains.image_inj hy hz (hyq.symm.trans (howner.trans hzr))
    exact hentry.unique hentry' howner hname
  obtain ⟨t, hrun, htype, hother, hheld⟩ := settles_lenient positions st.pending st howner hagree
  refine ⟨t, hrun, fun x hx y hy => hgains.image_inj hx hy, fun y hy => ?_, fun y hy name hne => ?_,
    fun y hy name v hv href => ?_⟩
  · rw [htype, (hpic y hy).type]
  · -- no reference is settled where children are
    have hnone : ∀ q ∈ st.pending, ¬ (st.log.image y = q.owner ∧ name = q.feature) := by
      rintro q hq ⟨ho, rfl⟩
      obtain ⟨z, hz, hown, v, -, -, hv, href, -⟩ := (hpending q).1 hq
      obtain rfl : y = z := hgains.image_inj hy hz (ho.trans hown)
      rw [Forest.childrenIn_eq hv, children_of_isReference href] at hne
      exact hne rfl
    have hcontents : t.contentsIn (st.log.image y) name =
        st.store.contentsIn (st.log.image y) name := by
      rw [ObjectStore.contentsIn, hother _ _ hnone, ObjectStore.contentsIn]
    have himages : List.Forall₂ (fun c p => st.log.image c = p) (f.childrenIn y name)
        (st.store.contentsIn (st.log.image y) name) :=
      ((hpic y hy).contents name trivial hne).imp fun c p hcp =>
        Option.some.inj ((hcreated c hcp.1).symm.trans hcp.2)
    rw [hcontents, ← List.forall₂_eq_eq_eq]
    exact List.forall₂_map_right_iff.2 (himages.flip.imp fun _ _ hp => hp.symm)
  · obtain ⟨g, hg, hk⟩ := (hpic y hy).features name v trivial hv href
    have hmem := (hpending ⟨st.log.image y, _, name, g.isMany, v.targets⟩).2
      ⟨y, hy, rfl, v, _, g, hv, href, (hpic y hy).type, hg, hk, rfl⟩
    refine ⟨g, by rw [htype, hg], hk, ?_⟩
    rw [ObjectStore.targetsIn, hheld _ hmem]
    simp only [Option.map_some, Option.getD_some, Pending.value, targets_settledValue]
    exact congrArg _ (hgains.filterMap_get? v.targets)

end ToObjects

end TreeInterchange
