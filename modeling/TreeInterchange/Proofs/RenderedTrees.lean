import TreeInterchange.Proofs.ConversionRuns
import TreeInterchange.Proofs.InheritedFeatures
import TreeInterchange.Proofs.TreeConvertibility

/-!
# The objects that stand for the nodes of a tree

Where a conversion into whatever metamodel succeeds, an object stands for each node of the tree:
it is of the class that corresponds to the type of the node, and it has the slots of the node in
the features of their names, children as the objects that stand for them and plain values as
the types of the features ask.

The objects of a child come after that of its parent, so what is stored into the parent later on
leaves them alone; the references of the whole tree are stored last, and only where the class
has a reference.
-/

namespace TreeInterchange

namespace ObjectStore

variable {s : ObjectStore} {v : FeatureValue}

theorem set_free (id : ObjectId) (feature : String) (hn : v.children.Nodup)
    (hfree : ∀ c ∈ v.children, (s.get c).container = none) (j : ObjectId) :
    ((s.set id feature v).get j).type = (s.get j).type ∧
      ((s.set id feature v).get j).values =
        (if j = id ∧ id < s.size then (s.get j).values.insert feature v else (s.get j).values) ∧
      (j ∉ v.children → (s.get j).container = none →
        ((s.set id feature v).get j).container = none) := by
  obtain ⟨hsize, hclaim⟩ := claim_fresh id feature v.children s hn hfree
  obtain ⟨ht, hv, hc⟩ := hclaim j
  simp only [ObjectStore.set]
  generalize List.filter _ _ = former
  obtain ⟨ht', hv', hc'⟩ := (let_go former
    ((v.children.foldl (claim id feature) s).setValue id feature v)).2 j
  refine ⟨?_, ?_, fun hj hnone => ?_⟩
  · rw [ht', type_setValue, ht]
  · rw [hv', values_setValue, hsize, hv]
  · have hkept : ¬ (j ∈ v.children ∧ j < s.size) := fun h => hj h.1
    rw [hc', container_setValue, hc, if_neg hkept, hnone, ite_self]

theorem value?_set_free (id : ObjectId) (feature : String) (hn : v.children.Nodup)
    (hfree : ∀ c ∈ v.children, (s.get c).container = none) (j : ObjectId) (g : String) :
    (s.set id feature v).value? j g =
      if j = id ∧ g = feature ∧ id < s.size then some v else s.value? j g := by
  rw [value?, (set_free id feature hn hfree j).2.1]
  by_cases hj : j = id ∧ id < s.size
  · rw [if_pos hj, Table.get?_insert]
    simp only [hj, true_and, and_true, eq_comm, value?]
  · rw [if_neg hj, if_neg fun h => hj ⟨h.1, h.2.2⟩, value?]

end ObjectStore

namespace ToObjects

open StatefulRuns

/-- In a later store, the objects of an earlier one are as they were, and those that had no
container still have none. -/
structure Keeps (s t : ObjectStore) : Prop where
  size_le : s.size ≤ t.size
  type : ∀ j < s.size, (t.get j).type = (s.get j).type
  values : ∀ j < s.size, (t.get j).values = (s.get j).values
  free : ∀ j < s.size, (s.get j).container = none → (t.get j).container = none

theorem Keeps.refl (s : ObjectStore) : Keeps s s :=
  ⟨Nat.le_refl _, fun _ _ => rfl, fun _ _ => rfl, fun _ _ => id⟩

theorem Keeps.trans {s t u : ObjectStore} (h : Keeps s t) (h' : Keeps t u) : Keeps s u := by
  have hlt : ∀ j < s.size, j < t.size := fun j hj => Nat.lt_of_lt_of_le hj h.size_le
  refine ⟨Nat.le_trans h.size_le h'.size_le, fun j hj => ?_, fun j hj => ?_, fun j hj hfree => ?_⟩
  · rw [h'.type j (hlt j hj), h.type j hj]
  · rw [h'.values j (hlt j hj), h.values j hj]
  · exact h'.free j (hlt j hj) (h.free j hj hfree)

theorem Keeps.value? {s t : ObjectStore} (h : Keeps s t) {j : ObjectId} (hj : j < s.size)
    (name : String) : t.value? j name = s.value? j name := by
  rw [ObjectStore.value?, h.values j hj, ObjectStore.value?]

theorem keeps_of_get {s t : ObjectStore} (hsize : s.size ≤ t.size)
    (hget : ∀ j < s.size, t.get j = s.get j) : Keeps s t :=
  ⟨hsize, fun j hj => by rw [hget j hj], fun j hj => by rw [hget j hj],
    fun j hj => by rw [hget j hj]; exact id⟩

theorem Keeps.set {s t : ObjectStore} (h : Keeps s t) {id : ObjectId} {feature : String}
    {v : FeatureValue} (hid : s.size ≤ id) (hn : v.children.Nodup)
    (hv : ∀ c ∈ v.children, s.size ≤ c ∧ (t.get c).container = none) :
    Keeps s (t.set id feature v) := by
  have hset := ObjectStore.set_free id feature hn fun c hc => (hv c hc).2
  refine ⟨by rw [ObjectStore.size_set]; exact h.size_le, fun j hj => ?_, fun j hj => ?_,
    fun j hj hfree => ?_⟩
  · rw [(hset j).1, h.type j hj]
  · have hne : ¬ (j = id ∧ id < t.size) := by omega
    rw [(hset j).2.1, if_neg hne, h.values j hj]
  · exact (hset j).2.2 (fun hc => Nat.not_lt_of_le (hv j hc).1 hj) (h.free j hj hfree)

variable {m : Metamodel} {f : Forest}

/-- From the place `lo` on, what an object holds at a feature that is no reference lasts. -/
structure Lasts (m : Metamodel) (lo : ObjectId) (t t' : ObjectStore) : Prop where
  size_le : t.size ≤ t'.size
  type : ∀ j < t.size, (t'.get j).type = (t.get j).type
  value : ∀ j name w g, lo ≤ j → t.value? j name = some w →
    m.feature? (t.get j).type name = .ok (some g) → g.kind ≠ .reference →
    t'.value? j name = some w

theorem Keeps.lasts {t t' : ObjectStore} (h : Keeps t t') (lo : ObjectId) : Lasts m lo t t' := by
  refine ⟨h.size_le, h.type, fun j name w g _ hw _ _ => ?_⟩
  rw [h.value? (ObjectStore.lt_size_of_value? hw), hw]

/-- Storing into an object before the place `lo`. -/
theorem lasts_set {t : ObjectStore} {id lo : ObjectId} {feature : String} {v : FeatureValue}
    (hn : v.children.Nodup) (hv : ∀ c ∈ v.children, (t.get c).container = none) (hlo : id < lo) :
    Lasts m lo t (t.set id feature v) := by
  refine ⟨by rw [ObjectStore.size_set], fun j _ => (ObjectStore.set_free id feature hn hv j).1,
    fun j name w g hj hw _ _ => ?_⟩
  have hne : ¬ (j = id ∧ name = feature ∧ id < t.size) := fun h =>
    Nat.not_le_of_lt hlo (h.1 ▸ hj)
  rw [ObjectStore.value?_set_free _ _ hn hv, if_neg hne, hw]

theorem Lasts.trans {lo : ObjectId} {t t₁ t₂ : ObjectStore} (h : Lasts m lo t t₁)
    (h' : Lasts m lo t₁ t₂) : Lasts m lo t t₂ := by
  have hlt : ∀ j < t.size, j < t₁.size := fun j hj => Nat.lt_of_lt_of_le hj h.size_le
  refine ⟨Nat.le_trans h.size_le h'.size_le, fun j hj => ?_, fun j name w g hj hw hg hk => ?_⟩
  · rw [h'.type j (hlt j hj), h.type j hj]
  · refine h'.value j name w g hj (h.value j name w g hj hw hg hk) ?_ hk
    rw [h.type j (ObjectStore.lt_size_of_value? hw), hg]

/-- What a feature `g` of class `c` holds for the value of a slot, if `child` says which objects
stand for which children. -/
def ShowsValue (m : Metamodel) (child : NodeId → ObjectId → Prop) (c : ClassifierRef)
    (g : Feature) : Value → FeatureValue → Prop
  | .node d, w => ∃ p, w = .contained p ∧ child d p
  | .nodes ds, w => ∃ ps, w = .containedMany ps ∧ List.Forall₂ child ds ps
  | .list items, w => ∃ ws, w = .list ws ∧ items.mapM (plainValue m c g) = .ok ws
  | v, w => plainValue m c g v = .ok w

/-- An object shows a slot, unless there is nothing in it or a reference. -/
def ShowsSlot (m : Metamodel) (t : ObjectStore) (child : NodeId → ObjectId → Prop) (o : ObjectId)
    (name : String) (v : Value) : Prop :=
  v.isNull = true ∨ v.isReference = true ∨ ∃ g w, m.feature? (t.get o).type name = .ok (some g) ∧
    g.kind ≠ .reference ∧ t.value? o name = some w ∧ ShowsValue m child (t.get o).type g v w

/-- The object `o` stands for the node `y`, and objects from the place `lo` on for the nodes below
it, which are fewer than `k` levels deep. -/
def Stands (m : Metamodel) (f : Forest) (t : ObjectStore) (lo : ObjectId) :
    Nat → NodeId → ObjectId → Prop
  | 0, _, _ => False
  | k + 1, y, o => lo ≤ o ∧ o < t.size ∧
      classOf m (f.get y).type.name = .ok (t.get o).type ∧
      ∀ name v, f.slot? y name = some v → ShowsSlot m t (Stands m f t lo k) o name v

theorem Stands.bounds {t : ObjectStore} {lo o : ObjectId} {k : Nat} {y : NodeId}
    (h : Stands m f t lo k y o) : lo ≤ o ∧ o < t.size := by
  cases k with
  | zero => exact h.elim
  | succ k => exact ⟨h.1, h.2.1⟩

theorem showsValue_of_plainValue {child : NodeId → ObjectId → Prop} {c : ClassifierRef}
    {g : Feature} {v : Value} {w : FeatureValue} (h : plainValue m c g v = .ok w) :
    ShowsValue m child c g v w := by
  cases v with
  | node d => simp [plainValue] at h
  | nodes ds => simp [plainValue] at h
  | list items => simp [plainValue] at h
  | _ => exact h

theorem ShowsValue.imp {child child' : NodeId → ObjectId → Prop} {c : ClassifierRef} {g : Feature}
    {v : Value} {w : FeatureValue} (h : ShowsValue m child c g v w)
    (himp : ∀ d p, child d p → child' d p) : ShowsValue m child' c g v w := by
  cases v with
  | node d =>
    obtain ⟨p, hw, hp⟩ := h
    exact ⟨p, hw, himp d p hp⟩
  | nodes ds =>
    obtain ⟨ps, hw, hps⟩ := h
    exact ⟨ps, hw, hps.imp himp⟩
  | _ => exact h

theorem ShowsSlot.imp {t t' : ObjectStore} {child child' : NodeId → ObjectId → Prop} {o : ObjectId}
    {name : String} {v : Value} (h : ShowsSlot m t child o name v)
    (htype : (t'.get o).type = (t.get o).type)
    (hvalue : ∀ w g, t.value? o name = some w → m.feature? (t.get o).type name = .ok (some g) →
      g.kind ≠ .reference → t'.value? o name = some w)
    (himp : ∀ d p, child d p → child' d p) : ShowsSlot m t' child' o name v := by
  rcases h with hnull | href | ⟨g, w, hg, hk, hw, hshows⟩
  · exact .inl hnull
  · exact .inr (.inl href)
  · refine .inr (.inr ⟨g, w, ?_, hk, hvalue w g hw hg hk, ?_⟩)
    · rw [htype, hg]
    · rw [htype]
      exact hshows.imp himp

theorem Stands.imp {t t' : ObjectStore} {lo lo' o : ObjectId} {k : Nat} {y : NodeId}
    (h : Stands m f t lo k y o) (hlo : lo' ≤ lo) (hlasts : Lasts m lo t t') :
    Stands m f t' lo' k y o := by
  induction k generalizing y o with
  | zero => exact h.elim
  | succ k ih =>
    obtain ⟨hle, hlt, hclass, hslots⟩ := h
    have htype := hlasts.type o hlt
    refine ⟨Nat.le_trans hlo hle, Nat.lt_of_lt_of_le hlt hlasts.size_le, ?_, fun name v hv => ?_⟩
    · rw [htype, hclass]
    · exact (hslots name v hv).imp htype (fun w g => hlasts.value o name w g hle) fun _ _ => ih

/-- A reference that waits at a feature for references. -/
def AtReference (m : Metamodel) (t : ObjectStore) (q : Pending) : Prop :=
  q.owner < t.size ∧
    ∃ g, m.feature? (t.get q.owner).type q.feature = .ok (some g) ∧ g.kind = .reference

/-- A step that keeps all objects and leaves references only where they belong. -/
structure Advances (m : Metamodel) (st st' : State) : Prop where
  keeps : Keeps st.store st'.store
  waits : (∀ q ∈ st.pending, AtReference m st.store q) →
    ∀ q ∈ st'.pending, AtReference m st'.store q

theorem Advances.refl (st : State) : Advances m st st := ⟨.refl _, id⟩

theorem Advances.trans {st st₁ st₂ : State} (h : Advances m st st₁) (h' : Advances m st₁ st₂) :
    Advances m st st₂ :=
  ⟨h.keeps.trans h'.keeps, h'.waits ∘ h.waits⟩

theorem AtReference.of_type {t t' : ObjectStore} {q : Pending} (h : AtReference m t q)
    (hsize : t.size ≤ t'.size) (htype : ∀ j < t.size, (t'.get j).type = (t.get j).type) :
    AtReference m t' q := by
  obtain ⟨hlt, hg⟩ := h
  exact ⟨Nat.lt_of_lt_of_le hlt hsize, by rwa [htype _ hlt]⟩

theorem advances_of_keeps {st st' : State} (h : Keeps st.store st'.store)
    (hpending : st'.pending = st.pending) : Advances m st st' :=
  ⟨h, fun hwaits q hq => (hwaits q (hpending ▸ hq)).of_type h.size_le h.type⟩

/-- What converting a node leaves. -/
structure Standing (m : Metamodel) (f : Forest) (k : Nat) (y : NodeId) (st : State) (o : ObjectId)
    (st' : State) : Prop where
  advances : Advances m st st'
  free : (st'.store.get o).container = none
  stands : Stands m f st'.store st.store.size k y o

/-- Conversions of nodes leave objects that stand for them. -/
def ConvertsNodes (m : Metamodel) (f : Forest) (k : Nat) (child : NodeId → Convert ObjectId) :
    Prop :=
  ∀ d st, Leaves (fun o st' => Standing m f k d st o st') (child d) st

/-- What converting siblings leaves: objects one after the other. -/
structure StandingAll (m : Metamodel) (f : Forest) (k : Nat) (ds : List NodeId) (st : State)
    (os : List ObjectId) (st' : State) : Prop where
  advances : Advances m st st'
  distinct : os.Nodup
  free : ∀ o ∈ os, st.store.size ≤ o ∧ (st'.store.get o).container = none
  stands : List.Forall₂ (Stands m f st'.store st.store.size k) ds os

theorem Standing.cons {k : Nat} {d : NodeId} {ds : List NodeId} {st st₁ st₂ : State} {o : ObjectId}
    {os : List ObjectId} (h : Standing m f k d st o st₁) (hs : StandingAll m f k ds st₁ os st₂) :
    StandingAll m f k (d :: ds) st (o :: os) st₂ := by
  obtain ⟨hle, hlt⟩ := h.stands.bounds
  have hsize := h.advances.keeps.size_le
  have hkeeps := hs.advances.keeps
  refine ⟨h.advances.trans hs.advances, ?_, ?_, ?_⟩
  · refine List.nodup_cons.2 ⟨fun ho => ?_, hs.distinct⟩
    exact Nat.not_lt_of_le (hs.free o ho).1 hlt
  · refine List.forall_mem_cons.2 ⟨⟨hle, hkeeps.free o hlt h.free⟩, fun p hp => ?_⟩
    exact ⟨Nat.le_trans hsize (hs.free p hp).1, (hs.free p hp).2⟩
  · refine .cons (h.stands.imp (Nat.le_refl _) (hkeeps.lasts _)) (hs.stands.imp fun e p hp => ?_)
    exact hp.imp hsize ((Keeps.refl _).lasts _)

section Steps

variable {options : ConversionOptions} {k : Nat} {child : NodeId → Convert ObjectId}

theorem leaves_children (hchild : ConvertsNodes m f k child) (ds : List NodeId) (st : State) :
    Leaves (fun os st' => StandingAll m f k ds st os st') (ds.mapM child) st := by
  induction ds generalizing st with
  | nil => exact ends_ok rfl ⟨.refl st, List.nodup_nil, by simp, .nil⟩
  | cons d ds ih =>
    rw [List.mapM_cons]
    refine (hchild d st).bind fun o st₁ h => (ih st₁).bind fun os st₂ hs => ?_
    exact ends_ok rfl (h.cons hs)

/-- What converting the value of a slot leaves to be stored. -/
structure Prepared (m : Metamodel) (f : Forest) (k : Nat) (c : ClassifierRef) (g : Feature)
    (v : Value) (st : State) (w : FeatureValue) (st' : State) : Prop where
  kind : g.kind ≠ .reference
  distinct : w.children.Nodup
  free : ∀ o ∈ w.children, st.store.size ≤ o ∧ (st'.store.get o).container = none
  shows : ShowsValue m (Stands m f st'.store st.store.size k) c g v w

theorem prepared_flat {c : ClassifierRef} {g : Feature} {v : Value} {st : State} {w : FeatureValue}
    (hk : g.kind = .plain) (hflat : w.children = [])
    (hshows : ShowsValue m (Stands m f st.store st.store.size k) c g v w) :
    Prepared m f k c g v st w st :=
  ⟨by simp [hk], by simp [hflat], by simp [hflat], hshows⟩

theorem leaves_slot (hchild : ConvertsNodes m f k child) (c : ClassifierRef) (g : Feature)
    (v : Value) (st : State) :
    Leaves (fun res st' => Advances m st st' ∧
      (∀ w, res = .value w → Prepared m f k c g v st w st') ∧
      ∀ targets, res = .later targets → v.isReference = true ∧ g.kind = .reference)
      (slotValue m c g child v) st := by
  unfold slotValue
  split
  · rename_i d hk
    refine (hchild d st).bind fun o st' h => ends_ok rfl ⟨h.advances, ?_, by simp⟩
    rintro w ⟨⟩
    refine ⟨by simp [hk], List.nodup_singleton o, ?_, o, rfl, h.stands⟩
    simpa [FeatureValue.children] using ⟨h.stands.bounds.1, h.free⟩
  · rename_i ds hk
    refine (leaves_children hchild ds st).bind fun os st' h => ends_ok rfl ⟨h.advances, ?_, by simp⟩
    rintro w ⟨⟩
    exact ⟨by simp [hk], h.distinct, h.free, os, rfl, h.stands⟩
  · rename_i hk
    exact ends_ok rfl ⟨.refl st, by simp, fun _ _ => ⟨rfl, hk⟩⟩
  · rename_i hk
    exact ends_ok rfl ⟨.refl st, by simp, fun _ _ => ⟨rfl, hk⟩⟩
  · rename_i items hk
    refine (leaves_lift _ st).bind fun ws st' h => ?_
    obtain ⟨hws, rfl⟩ := h
    refine ends_ok rfl ⟨.refl _, ?_, by simp⟩
    rintro w ⟨⟩
    exact prepared_flat hk rfl ⟨ws, rfl, hws⟩
  · rename_i hk
    refine (leaves_lift _ st).bind fun w st' h => ?_
    obtain ⟨hw, rfl⟩ := h
    refine ends_ok rfl ⟨.refl _, ?_, by simp⟩
    rintro w' ⟨⟩
    exact prepared_flat hk (children_plainValue hw) (showsValue_of_plainValue hw)
  · exact ends_error rfl trivial

/-- The slots `done` of a node have been converted into the object `o`, and their trees into objects
after it, which later values of `o` do not touch. -/
structure Begun (m : Metamodel) (f : Forest) (k : Nat) (c : ClassifierRef) (st₀ : State)
    (o : ObjectId) (done : List (String × Value)) (st : State) : Prop where
  advances : Advances m st₀ st
  new : st₀.store.size ≤ o
  lt : o < st.store.size
  type : (st.store.get o).type = c
  free : (st.store.get o).container = none
  slots : ∀ name v, (name, v) ∈ done →
    ShowsSlot m st.store (Stands m f st.store (o + 1) k) o name v

section Slots

variable {c : ClassifierRef} {st₀ st st' : State} {o : ObjectId} {done : List (String × Value)}
  {name : String} {v : Value}

theorem Begun.snoc (h : Begun m f k c st₀ o done st)
    (hshows : ShowsSlot m st.store (Stands m f st.store (o + 1) k) o name v) :
    Begun m f k c st₀ o (done ++ [(name, v)]) st := by
  refine ⟨h.advances, h.new, h.lt, h.type, h.free, fun name' v' hmem => ?_⟩
  rcases List.mem_append.1 hmem with hmem | hmem
  · exact h.slots name' v' hmem
  · obtain ⟨rfl, rfl⟩ := Prod.mk.inj (List.mem_singleton.1 hmem)
    exact hshows

theorem Begun.advance (h : Begun m f k c st₀ o done st) (hadvances : Advances m st st') :
    Begun m f k c st₀ o done st' := by
  have hkeeps := hadvances.keeps
  refine ⟨h.advances.trans hadvances, h.new, Nat.lt_of_lt_of_le h.lt hkeeps.size_le, ?_,
    hkeeps.free o h.lt h.free, fun name v hmem => ?_⟩
  · rw [hkeeps.type o h.lt, h.type]
  · refine (h.slots name v hmem).imp (hkeeps.type o h.lt) (fun w g hw _ _ => ?_) fun d p hp => ?_
    · rw [hkeeps.value? h.lt, hw]
    · exact hp.imp (Nat.le_refl _) (hkeeps.lasts _)

theorem Begun.set (h : Begun m f k c st₀ o done st) {w : FeatureValue} (hn : w.children.Nodup)
    (hfree : ∀ p ∈ w.children, o < p ∧ (st.store.get p).container = none)
    (hnew : name ∉ done.map Prod.fst) :
    Begun m f k c st₀ o done { st with store := st.store.set o name w } := by
  have hfree' : ∀ p ∈ w.children, (st.store.get p).container = none := fun p hp => (hfree p hp).2
  have hset := ObjectStore.set_free o name hn hfree'
  refine ⟨⟨h.advances.keeps.set h.new hn fun p hp => ?_, fun hwaits q hq => ?_⟩, h.new, ?_,
    (hset o).1.trans h.type, (hset o).2.2 (fun hc => Nat.lt_irrefl o (hfree o hc).1) h.free,
    fun name' v' hmem => ?_⟩
  · exact ⟨Nat.le_of_lt (Nat.lt_of_le_of_lt h.new (hfree p hp).1), hfree' p hp⟩
  · exact (h.advances.waits hwaits q hq).of_type (by rw [ObjectStore.size_set])
      fun j _ => (hset j).1
  · rw [ObjectStore.size_set]
    exact h.lt
  · have hne : name' ≠ name := fun he => hnew (he ▸ List.mem_map_of_mem hmem)
    refine (h.slots name' v' hmem).imp (hset o).1 (fun w' g' hw' _ _ => ?_) fun d p hp => ?_
    · rw [ObjectStore.value?_set_free _ _ hn hfree', if_neg fun he => hne he.2.1, hw']
    · exact hp.imp (Nat.le_refl _) (lasts_set hn hfree' (Nat.lt_succ_self o))

theorem Begun.store (h : Begun m f k c st₀ o done st) (hadvances : Advances m st st') {g : Feature}
    {w : FeatureValue} (hg : m.feature? c name = .ok (some g))
    (hprepared : Prepared m f k c g v st w st') (hnew : name ∉ done.map Prod.fst) :
    Begun m f k c st₀ o (done ++ [(name, v)])
      { st' with store := st'.store.set o name w } := by
  have hfree : ∀ p ∈ w.children, o < p ∧ (st'.store.get p).container = none := fun p hp =>
    ⟨Nat.lt_of_lt_of_le h.lt (hprepared.free p hp).1, (hprepared.free p hp).2⟩
  have hfree' : ∀ p ∈ w.children, (st'.store.get p).container = none := fun p hp => (hfree p hp).2
  have hbegun := (h.advance hadvances).set hprepared.distinct hfree hnew
  refine hbegun.snoc (.inr (.inr ⟨g, w, ?_, hprepared.kind, ?_, ?_⟩))
  · rw [hbegun.type, hg]
  · rw [ObjectStore.value?_set_free _ _ hprepared.distinct hfree',
      if_pos ⟨rfl, rfl, (h.advance hadvances).lt⟩]
  · rw [hbegun.type]
    exact hprepared.shows.imp fun d p hp => hp.imp (Nat.succ_le_of_lt h.lt)
      (lasts_set hprepared.distinct hfree' h.lt)

theorem leaves_begun_slot (hchild : ConvertsNodes m f k child) {fs : List Feature}
    (hfs : m.features c = .ok fs) (h : Begun m f k c st₀ o done st)
    (hnew : name ∉ done.map Prod.fst) :
    Leaves (fun _ st' => Begun m f k c st₀ o (done ++ [(name, v)]) st')
      (convertSlot m c fs o child name v) st := by
  unfold convertSlot
  split
  · rename_i hnull
    exact ends_ok rfl (h.snoc (.inl hnull))
  split
  · exact ends_error rfl trivial
  rename_i g hfind
  have hname : g.name = name := by simpa using List.find?_some hfind
  have hg : m.feature? c name = .ok (some g) := by
    rw [Metamodel.feature?, hfs, ← hfind]
    rfl
  refine (leaves_slot hchild c g v st).bind fun res st' ⟨hadvances, hvalue, hlater⟩ => ?_
  cases res with
  | value w =>
    rw [hname]
    exact ends_ok rfl (h.store hadvances hg (hvalue w rfl) hnew)
  | later targets =>
    obtain ⟨href, hkind⟩ := hlater targets rfl
    have hwaiting : Advances m st { st' with
        pending := st'.pending ++ [⟨o, c, g.name, g.isMany, targets⟩] } := by
      refine ⟨hadvances.keeps, fun hwaits q hq => ?_⟩
      rcases List.mem_append.1 hq with hq | hq
      · exact hadvances.waits hwaits q hq
      · rw [List.mem_singleton.1 hq]
        refine ⟨Nat.lt_of_lt_of_le h.lt hadvances.keeps.size_le, g, ?_, hkind⟩
        rw [hadvances.keeps.type o h.lt, h.type, hname, hg]
    exact ends_ok rfl ((h.advance hwaiting).snoc (.inr (.inl href)))

theorem leaves_begun_slots (hchild : ConvertsNodes m f k child) {fs : List Feature}
    (hfs : m.features c = .ok fs) {rest : List (String × Value)}
    (h : Begun m f k c st₀ o done st) (hnodup : ((done ++ rest).map Prod.fst).Nodup) :
    Leaves (fun _ st' => Begun m f k c st₀ o (done ++ rest) st')
      (rest.forM fun e => convertSlot m c fs o child e.1 e.2) st := by
  induction rest generalizing done st with
  | nil => exact ends_ok rfl (by simpa using h)
  | cons e rest ih =>
    obtain ⟨name, v⟩ := e
    have hnew : name ∉ done.map Prod.fst := by
      rw [List.map_append, List.nodup_append] at hnodup
      exact fun hmem => hnodup.2.2 name hmem name (by simp) rfl
    refine (leaves_begun_slot (v := v) hchild hfs h hnew).bind fun _ st₁ h₁ => ?_
    have hrest := ih h₁ (by simpa using hnodup)
    simpa using hrest

end Slots

theorem leaves_begun_position {c : ClassifierRef} {st₀ st : State} {o : ObjectId}
    (fs : List Feature) (p : Option Position) (h : Begun m f k c st₀ o [] st) :
    Leaves (fun _ st' => Begun m f k c st₀ o [] st') (convertPosition options fs o p) st := by
  unfold convertPosition
  split
  · rename_i q
    split
    · obtain ⟨id, t, ht⟩ : ∃ id t, positionObject q st.store = (id, t) := ⟨_, _, rfl⟩
      obtain ⟨rfl, hsize, hget, hfree, -⟩ := ht ▸ positionObject_spec st.store q
      have hmade : onStore (positionObject q) st = .ok st.store.size { st with store := t } := by
        simp only [onStore, ht]
      have hroom : st.store.size ≤ t.size := hsize ▸ Nat.le_add_right _ 3
      have hkeeps : Keeps st.store t := keeps_of_get hroom hget
      have hbegun : Begun m f k c st₀ o [] { st with store := t } :=
        h.advance (advances_of_keeps hkeeps rfl)
      refine ends_bind_ok hmade (ends_ok rfl (hbegun.set (List.nodup_singleton _) ?_ (by simp)))
      simpa [FeatureValue.children] using ⟨h.lt, hfree⟩
    · exact ends_ok rfl h
  · exact ends_ok rfl h

/-- Converting a tree leaves objects that stand for its nodes. -/
theorem convertsNodes (options : ConversionOptions) (k : Nat) :
    ConvertsNodes m f k (convert f m options k) := by
  induction k with
  | zero => exact fun d st => ends_error rfl trivial
  | succ k ih =>
    intro y st
    unfold convert
    refine (leaves_lift _ st).bind fun c st₁ h => ?_
    obtain ⟨hc, rfl⟩ := h
    refine (leaves_lift _ st₁).bind fun fs st₂ h => ?_
    obtain ⟨hfs, rfl⟩ := h
    have hfs : m.features c = .ok fs := by
      cases hm : m.features c with
      | error e => rw [hm] at hfs; cases hfs
      | ok gs => rw [hm] at hfs; cases hfs; rfl
    refine ends_bind_ok rfl (ends_bind_ok rfl ?_)
    have hget := ObjectStore.get_newObject_self st₂.store c
    have hbegun : Begun m f k c st₂ st₂.store.size []
        ⟨(st₂.store.newObject c).2, st₂.created.insert y st₂.store.size, st₂.pending⟩ := by
      refine ⟨advances_of_keeps (keeps_of_get (by simp) fun j hj => ?_) rfl, Nat.le_refl _,
        by simp, ?_, ?_, by simp⟩
      · exact ObjectStore.get_newObject_of_lt c hj
      · rw [hget]
        rfl
      · rw [hget]
        rfl
    refine (leaves_begun_position fs (f.position y) hbegun).bind fun _ st₃ h₃ => ?_
    refine (leaves_begun_slots ih hfs h₃ (f.get y).slots.nodup).bind fun _ st₄ h₄ => ?_
    refine ends_ok rfl ⟨h₄.advances, h₄.free, h₄.new, h₄.lt, ?_, fun name v hv => ?_⟩
    · rw [h₄.type, hc]
    · have hslot := h₄.slots name v (Table.get?_eq_some_iff.1 hv)
      refine hslot.imp rfl (fun _ _ hw _ _ => hw) fun d p hp => ?_
      exact hp.imp (Nat.le_succ _) ((Keeps.refl _).lasts _)

theorem leaves_lasting_settle (lo : ObjectId) {q : Pending} {st : State}
    (hq : AtReference m st.store q) :
    Leaves (fun _ st' => Lasts m lo st.store st'.store) (settle options q) st := by
  unfold settle
  refine ends_bind_ok rfl ?_
  refine (leaves_lift _ st).bind fun ids st' ⟨_, h⟩ => ?_
  subst h
  -- nothing is owned, so the objects keep their containers
  have hflat := children_settled q.many ids
  generalize (if q.many then FeatureValue.references ids
    else (ids.head?.map .reference).getD .null) = v at hflat ⊢
  have hn : v.children.Nodup := hflat ▸ List.nodup_nil
  have hfree : ∀ c ∈ v.children, (st'.store.get c).container = none := by simp [hflat]
  refine ends_ok rfl ⟨by rw [ObjectStore.size_set],
    fun j _ => (ObjectStore.set_free _ _ hn hfree j).1, fun j name w g _ hw hg hk => ?_⟩
  rw [ObjectStore.value?_set_free _ _ hn hfree, if_neg, hw]
  rintro ⟨rfl, rfl, -⟩
  obtain ⟨-, g', hg', hk'⟩ := hq
  rw [hg] at hg'
  cases hg'
  exact hk hk'

theorem leaves_lasting_settles (lo : ObjectId) {st : State}
    (hwaits : ∀ q ∈ st.pending, AtReference m st.store q) :
    Leaves (fun _ st' => Lasts m lo st.store st'.store) (st.pending.forM (settle options)) st := by
  refine Ends.forM (I := fun st' : State => Lasts m lo st.store st'.store)
    ((Keeps.refl _).lasts lo) ?_
  intro q hq st' hlasts
  have hq' := (hwaits q hq).of_type hlasts.size_le hlasts.type
  exact (leaves_lasting_settle lo hq').imp fun _ _ h => hlasts.trans h

theorem leaves_standing_tree (n : NodeId) (s : ObjectStore) :
    Leaves (fun root st' => Stands m f st'.store s.size (f.size + 1) n root)
      (convertTree f m options n) ⟨s, .empty, []⟩ := by
  unfold convertTree
  refine (convertsNodes options (f.size + 1) n ⟨s, .empty, []⟩).bind fun root st h => ?_
  refine ends_bind_ok rfl ?_
  refine (leaves_lasting_settles s.size (h.advances.waits (by simp))).bind fun _ st' hlasts => ?_
  exact ends_ok rfl (h.stands.imp (Nat.le_refl _) hlasts)

end Steps

/-- In a store with the tree of `n` under `root`, the object at the place of a node. -/
inductive StandsFor (f : Forest) (t : ObjectStore) (n : NodeId) (root : ObjectId) :
    NodeId → ObjectId → Prop
  | root : StandsFor f t n root n root
  | child {y c : NodeId} {o p : ObjectId} {name : String} (h : StandsFor f t n root y o)
      (hslot : f.slot? y name = some (.node c)) (hvalue : t.value? o name = some (.contained p)) :
      StandsFor f t n root c p
  | item {y c : NodeId} {o p : ObjectId} {name : String} {cs : List NodeId} {ps : List ObjectId}
      {i : Nat} (h : StandsFor f t n root y o) (hslot : f.slot? y name = some (.nodes cs))
      (hvalue : t.value? o name = some (.containedMany ps)) (hc : cs[i]? = some c)
      (hp : ps[i]? = some p) : StandsFor f t n root c p

section Stands

variable {t : ObjectStore} {n y : NodeId} {lo root o : ObjectId} {k : Nat}

theorem Stands.classOf (h : Stands m f t lo k y o) :
    classOf m (f.get y).type.name = .ok (t.get o).type := by
  cases k with
  | zero => exact h.elim
  | succ k => exact h.2.2.1

theorem Stands.slot (h : Stands m f t lo k y o) {name : String} {v : Value}
    (hv : f.slot? y name = some v) (hnull : v.isNull = false) (href : v.isReference = false) :
    ∃ k' g w, m.feature? (t.get o).type name = .ok (some g) ∧ t.value? o name = some w ∧
      ShowsValue m (Stands m f t lo k') (t.get o).type g v w := by
  cases k with
  | zero => exact h.elim
  | succ k =>
    obtain ⟨-, -, -, hslots⟩ := h
    rcases hslots name v hv with hnull' | href' | ⟨g, w, hg, -, hw, hshows⟩
    · rw [hnull] at hnull'
      cases hnull'
    · rw [href] at href'
      cases href'
    · exact ⟨k, g, w, hg, hw, hshows⟩

theorem Stands.of_standsFor (hroot : Stands m f t lo k n root) (h : StandsFor f t n root y o) :
    ∃ k, Stands m f t lo k y o := by
  induction h with
  | root => exact ⟨k, hroot⟩
  | child _ hslot hvalue ih =>
    obtain ⟨k, hk⟩ := ih
    obtain ⟨k', g, w, -, hw, p, rfl, hp⟩ := hk.slot hslot rfl rfl
    rw [hvalue] at hw
    cases hw
    exact ⟨k', hp⟩
  | item _ hslot hvalue hc hp ih =>
    obtain ⟨k, hk⟩ := ih
    obtain ⟨k', g, w, -, hw, ps, rfl, hps⟩ := hk.slot hslot rfl rfl
    rw [hvalue] at hw
    cases hw
    exact ⟨k', of_forall₂_getElem? hps hc hp⟩

theorem Stands.exists_child (h : Stands m f t lo k y o) (hy : StandsFor f t n root y o) {c : NodeId}
    (hc : c ∈ f.children y) : ∃ p, StandsFor f t n root c p := by
  obtain ⟨name, hc⟩ := Forest.mem_children_iff.1 hc
  obtain ⟨v, hv, hc⟩ := Forest.mem_childrenIn_iff.1 hc
  cases v with
  | node d =>
    obtain rfl : c = d := List.mem_singleton.1 hc
    obtain ⟨_, g, w, -, hw, p, rfl, -⟩ := h.slot hv rfl rfl
    exact ⟨p, hy.child hv hw⟩
  | nodes ds =>
    obtain ⟨_, g, w, -, hw, ps, rfl, hps⟩ := h.slot hv rfl rfl
    obtain ⟨i, hi, rfl⟩ := List.getElem_of_mem hc
    have hi' : i < ps.length := hps.length_eq ▸ hi
    exact ⟨ps[i], hy.item hv hw (List.getElem?_eq_getElem hi) (List.getElem?_eq_getElem hi')⟩
  | _ => cases hc

theorem Stands.exists_standsFor (h : Stands m f t lo k n root) {d : Nat} {x : NodeId}
    (hx : StandsFor f t n root x o) (hy : y ∈ listing f.children d x) :
    ∃ p, StandsFor f t n root y p := by
  induction d generalizing x o with
  | zero => simp [listing] at hy
  | succ d ih =>
    rcases mem_listing_succ.1 hy with rfl | ⟨c, hc, hy⟩
    · exact ⟨o, hx⟩
    · obtain ⟨k', hk'⟩ := h.of_standsFor hx
      obtain ⟨p, hp⟩ := hk'.exists_child hx hc
      exact ih hp hy

end Stands

end ToObjects

open ToObjects in
/-- A conversion that succeeds leaves the tree of the node under its root. -/
theorem Forest.stands_toObjects {f : Forest} {n : NodeId} {m : Metamodel}
    {options : ConversionOptions} {s t : ObjectStore} {root : ObjectId}
    (h : f.toObjects n m options s = (.ok root, t)) :
    Stands m f t s.size (f.size + 1) n root := by
  have hends : Leaves (fun root st' => Stands m f st'.store s.size (f.size + 1) n root)
      (convertTree f m options n) ⟨s, .empty, []⟩ := leaves_standing_tree n s
  unfold toObjects at h
  unfold Leaves StatefulRuns.Ends at hends
  split at h
  · rename_i root' st hrun
    rw [hrun] at hends
    cases h
    exact hends
  · cases h

end TreeInterchange
