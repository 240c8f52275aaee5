import Mathlib.Tactic.Tauto
import TreeInterchange.Proofs.ObjectConformity
import TreeInterchange.Proofs.StatefulRuns

/-!
# Reading back what was written

The reader makes one object for each object of the written tree. It goes through the features
of a class in declared order, so the new objects are numbered by the walk of the old tree in
that order. Until all objects are there, references are null and wait as texts.

The statements are about a renaming `φ` that sends the walk to a run of fresh places. One
feature is read at a time; what has been read of an object so far is the invariant of the
loop over its features, and the induction is on the height of the tree.
-/

namespace TreeInterchange.ObjectDocument

variable (m : Metamodel) (s : ObjectStore) (root : ObjectId) (φ : ObjectId → Nat)

/-- What an object contains, in the order in which its class declares the features. -/
def declared (x : ObjectId) : List ObjectId :=
  match m.features (s.get x).type with
  | .ok fs => fs.flatMap fun f => s.contentsIn x f.name
  | .error _ => []

/-- A value as it is first stored: renamed, and with references still open. -/
def firstValue : FeatureValue → FeatureValue
  | .contained c => .contained (φ c)
  | .containedMany cs => .containedMany (cs.map φ)
  | .reference _ => .null
  | .references _ => .null
  | v => v

/-- The entries that reading some features of an object makes. -/
def firstEntries (fs : List Feature) (x : ObjectId) : List (String × FeatureValue) :=
  fs.filterMap fun f => (s.present? x f.name).map fun v => (f.name, firstValue φ v)

/-- The object `φ x` of `t` is what reading makes of `x` before references are resolved. -/
structure Copied (t : ObjectStore) (x : ObjectId) : Prop where
  type : (t.get (φ x)).type = (s.get x).type
  entries : ∀ fs, m.features (s.get x).type = .ok fs →
    (t.get (φ x)).values.entries = firstEntries s φ fs x

def referenceText (target : ObjectId) : String :=
  (s.fragmentFrom? root target).getD (s.fragment target)

/-- The open reference for a feature of `x` that holds `v`. -/
def openReference (x : ObjectId) (f : Feature) (v : FeatureValue) : Pending :=
  ⟨φ x, f.name, f.isMany, v.targets.map (referenceText s root)⟩

/-- An open reference of `x`, among some of its features. -/
def IsOpen (fs : List Feature) (x : ObjectId) (p : Pending) : Prop :=
  ∃ f ∈ fs, ∃ v, f.kind = .reference ∧ s.present? x f.name = some v ∧
    p = openReference s root φ x f v

/-- From one state to another exactly the objects of `L` were read. -/
structure Extends (L : List ObjectId) (st st' : ReadState) : Prop where
  size : st'.store.size = st.store.size + L.length
  kept : ∀ j < st.store.size, st'.store.get j = st.store.get j
  copied : ∀ y ∈ L, Copied m s φ st'.store y
  pending : ∃ ps, st'.pending = st.pending ++ ps ∧ ∀ p, p ∈ ps ↔
    ∃ y ∈ L, ∃ fs, m.features (s.get y).type = .ok fs ∧ IsOpen s root φ fs y p

variable {m s root φ}

theorem children_firstValue (v : FeatureValue) :
    (firstValue φ v).children = v.children.map φ := by
  cases v <;> rfl

theorem declared_eq {x : ObjectId} {fs : List Feature} (hx : m.features (s.get x).type = .ok fs) :
    declared m s x = fs.flatMap fun f => s.contentsIn x f.name := by
  simp [declared, hx]

theorem lt_of_numbered {L : List ObjectId} {n : Nat} (h : L.map φ = List.range' n L.length)
    {y : ObjectId} (hy : y ∈ L) : n ≤ φ y ∧ φ y < n + L.length := by
  have hm : φ y ∈ List.range' n L.length := h ▸ List.mem_map_of_mem hy
  rwa [List.mem_range'_1] at hm

theorem Copied.of_same {t t' : ObjectStore} {x : ObjectId} (h : Copied m s φ t x)
    (ht : (t'.get (φ x)).type = (t.get (φ x)).type)
    (hv : (t'.get (φ x)).values = (t.get (φ x)).values) : Copied m s φ t' x :=
  ⟨ht.trans h.type, fun fs hfs => by rw [hv, h.entries fs hfs]⟩

theorem Extends.refl (st : ReadState) : Extends m s root φ [] st st :=
  ⟨rfl, fun _ _ => rfl, by simp, [], by simp, by simp⟩

theorem Extends.trans {L K : List ObjectId} {st st₁ st₂ : ReadState}
    (h : Extends m s root φ L st st₁) (h' : Extends m s root φ K st₁ st₂)
    (hL : L.map φ = List.range' st.store.size L.length) :
    Extends m s root φ (L ++ K) st st₂ := by
  obtain ⟨ps, hps, hmem⟩ := h.pending
  obtain ⟨qs, hqs, hmem'⟩ := h'.pending
  refine ⟨?_, fun j hj => ?_, fun y hy => ?_, ps ++ qs, ?_, fun p => ?_⟩
  · rw [h'.size, h.size, List.length_append]
    omega
  · rw [h'.kept j (by have := h.size; omega), h.kept j hj]
  · rcases List.mem_append.1 hy with hy | hy
    · have hlt := (lt_of_numbered hL hy).2
      rw [← h.size] at hlt
      exact (h.copied y hy).of_same (by rw [h'.kept _ hlt]) (by rw [h'.kept _ hlt])
    · exact h'.copied y hy
  · rw [hqs, hps, List.append_assoc]
  · rw [List.mem_append, hmem, hmem']
    constructor
    · rintro (⟨y, hy, h⟩ | ⟨y, hy, h⟩)
      · exact ⟨y, by simp [hy], h⟩
      · exact ⟨y, by simp [hy], h⟩
    · rintro ⟨y, hy, h⟩
      rcases List.mem_append.1 hy with hy | hy
      · exact .inl ⟨y, hy, h⟩
      · exact .inr ⟨y, hy, h⟩

/-- Reading the document of `x`, written `k` levels deep, makes exactly the tree of `x`. -/
def ReadsBack (m : Metamodel) (s : ObjectStore) (root : ObjectId) (φ : ObjectId → Nat)
    (k d : Nat) (x : ObjectId) : Prop :=
  ∀ expected st, (listing (declared m s) k x).map φ =
      List.range' st.store.size (listing (declared m s) k x).length →
    ∃ members st', writeWithin s root k x = .object members ∧
      readObject m d members expected st = .ok (φ x) st' ∧
      Extends m s root φ (listing (declared m s) k x) st st' ∧
      (st'.store.get (φ x)).container = none

theorem readOwned_back {k d : Nat} {c : ObjectId} (hc : ReadsBack m s root φ k d c) (f : Feature)
    {st : ReadState} (hnum : (listing (declared m s) k c).map φ =
      List.range' st.store.size (listing (declared m s) k c).length) :
    ∃ st', readOwned (readObject m d) f (writeWithin s root k c) st = .ok (φ c) st' ∧
      Extends m s root φ (listing (declared m s) k c) st st' ∧
      (st'.store.get (φ c)).container = none := by
  obtain ⟨members, st', hw, hrun, hext, hfree⟩ := hc (some f.type.classifier) st hnum
  exact ⟨st', by rw [hw]; exact hrun, hext, hfree⟩

theorem mapM_readOwned_back {k d : Nat} (f : Feature) (cs : List ObjectId)
    (hcs : ∀ c ∈ cs, HeightAtMost (declared m s) k c ∧ ReadsBack m s root φ k d c) (st : ReadState)
    (hnum : (listings (declared m s) k cs).map φ =
      List.range' st.store.size (listings (declared m s) k cs).length) :
    ∃ st', (cs.map (writeWithin s root k)).mapM (readOwned (readObject m d) f) st =
        .ok (cs.map φ) st' ∧
      Extends m s root φ (listings (declared m s) k cs) st st' ∧
      ∀ c ∈ cs, (st'.store.get (φ c)).container = none := by
  induction cs generalizing st with
  | nil => exact ⟨st, rfl, Extends.refl st, by simp⟩
  | cons c cs ih =>
    rw [listings_cons] at hnum
    obtain ⟨hhead, htail⟩ := range'_split hnum
    obtain ⟨st₁, hrun, hext, hfree⟩ := readOwned_back (hcs c (by simp)).2 f hhead
    rw [← hext.size] at htail
    obtain ⟨st₂, hruns, hexts, hfrees⟩ := ih (fun d hd => hcs d (by simp [hd])) st₁ htail
    refine ⟨st₂, StatefulRuns.mapM_cons_ok hrun hruns, ?_, fun d hd => ?_⟩
    · rw [listings_cons]
      exact hext.trans hexts hhead
    · rcases List.mem_cons.1 hd with rfl | hd
      · have hlt := (lt_of_numbered hhead (self_mem_listing (hcs d (by simp)).1)).2
        rw [← hext.size] at hlt
        rw [hexts.kept _ hlt, hfree]
      · exact hfrees d hd

def inFeatures (s : ObjectStore) (x : ObjectId) (fs : List Feature) : List ObjectId :=
  fs.flatMap fun f => s.contentsIn x f.name

/-- The features `done` of `x` have been read, and the trees that they contain. -/
structure Partial (m : Metamodel) (s : ObjectStore) (root : ObjectId) (φ : ObjectId → Nat)
    (k : Nat) (x : ObjectId) (done : List Feature) (st₀ st : ReadState) : Prop where
  size : st.store.size =
    st₀.store.size + 1 + (listings (declared m s) k (inFeatures s x done)).length
  kept : ∀ j < st₀.store.size, st.store.get j = st₀.store.get j
  type : (st.store.get (φ x)).type = (s.get x).type
  entries : (st.store.get (φ x)).values.entries = firstEntries s φ done x
  free : (st.store.get (φ x)).container = none
  copied : ∀ y ∈ listings (declared m s) k (inFeatures s x done), Copied m s φ st.store y
  pending : ∃ ps, st.pending = st₀.pending ++ ps ∧ ∀ p, p ∈ ps ↔
    IsOpen s root φ done x p ∨ ∃ y ∈ listings (declared m s) k (inFeatures s x done), ∃ fs,
      m.features (s.get y).type = .ok fs ∧ IsOpen s root φ fs y p

theorem firstEntries_append (done : List Feature) (f : Feature) (x : ObjectId) :
    firstEntries s φ (done ++ [f]) x = firstEntries s φ done x ++
      ((s.present? x f.name).map fun v => (f.name, firstValue φ v)).toList := by
  rw [firstEntries, List.filterMap_append]
  cases h : s.present? x f.name <;> simp [firstEntries, h]

theorem isOpen_append {done : List Feature} {f : Feature} {x : ObjectId} {p : Pending} :
    IsOpen s root φ (done ++ [f]) x p ↔ IsOpen s root φ done x p ∨ ∃ v, f.kind = .reference ∧
      s.present? x f.name = some v ∧ p = openReference s root φ x f v := by
  simp only [IsOpen, List.mem_append, List.mem_singleton, or_and_right, exists_or, exists_eq_left]

theorem inFeatures_append (x : ObjectId) (done : List Feature) (f : Feature) :
    inFeatures s x (done ++ [f]) = inFeatures s x done ++ s.contentsIn x f.name := by
  simp [inFeatures]

theorem firstEntries_keys_subset {done : List Feature} {x : ObjectId} {name : String}
    (h : name ∈ (firstEntries s φ done x).map Prod.fst) : name ∈ done.map (·.name) := by
  obtain ⟨⟨k, v⟩, he, rfl⟩ := List.mem_map.1 h
  obtain ⟨f, hf, hv⟩ := List.mem_filterMap.1 he
  obtain ⟨w, -, hw⟩ := Option.map_eq_some_iff.1 hv
  exact List.mem_map.2 ⟨f, hf, (Prod.mk.inj hw).1⟩

private theorem or_regroup {a b c d : Prop} : ((a ∨ b) ∨ c) ∨ d ↔ (a ∨ d) ∨ b ∨ c := by tauto

section Features

variable {k d : Nat} {x : ObjectId} {done : List Feature} {f : Feature} {st₀ st : ReadState}
  (hp : Partial m s root φ k x done st₀ st)
include hp

theorem Partial.skip (hf : s.present? x f.name = none) :
    Partial m s root φ k x (done ++ [f]) st₀ st := by
  have hin : s.contentsIn x f.name = [] := by
    rw [ObjectStore.contentsIn_present, hf]
    rfl
  have hsame : inFeatures s x (done ++ [f]) = inFeatures s x done := by
    rw [inFeatures_append, hin, List.append_nil]
  refine ⟨by rw [hsame, hp.size], hp.kept, hp.type, ?_, hp.free, by rw [hsame]; exact hp.copied, ?_⟩
  · rw [firstEntries_append, hf, hp.entries]
    simp
  · obtain ⟨ps, hps, hmem⟩ := hp.pending
    refine ⟨ps, hps, fun p => ?_⟩
    rw [hmem, hsame, isOpen_append, hf]
    simp

/-- Storing the value of a feature, after what it contains was read in between. -/
theorem Partial.store (hx : φ x = st₀.store.size) (hnew : f.name ∉ done.map (·.name))
    {v w : FeatureValue} {st₁ st₂ : ReadState} (hv : s.present? x f.name = some v)
    (hw : firstValue φ v = w)
    (hnum : (listings (declared m s) k (inFeatures s x done)).map φ =
      List.range' (st₀.store.size + 1) (listings (declared m s) k (inFeatures s x done)).length)
    (hnum₁ : (listings (declared m s) k (s.contentsIn x f.name)).map φ =
      List.range' st.store.size (listings (declared m s) k (s.contentsIn x f.name)).length)
    (hread : Extends m s root φ (listings (declared m s) k (s.contentsIn x f.name)) st st₁)
    (hnodup : w.children.Nodup)
    (hfree : ∀ c ∈ w.children, st.store.size ≤ c ∧ c < st₁.store.size ∧
      (st₁.store.get c).container = none)
    (hstore : st₂.store = st₁.store.set (φ x) f.name w)
    (hpend : st₂.pending = st₁.pending ++
      if f.kind = .reference then [openReference s root φ x f v] else []) :
    Partial m s root φ k x (done ++ [f]) st₀ st₂ := by
  have hltx : φ x < st.store.size := by rw [hx, hp.size]; omega
  have hgetx : st₁.store.get (φ x) = st.store.get (φ x) := hread.kept _ hltx
  have hnokey : f.name ∉ (st₁.store.get (φ x)).values.keys := by
    rw [hgetx, Table.keys, hp.entries]
    exact fun h => hnew (firstEntries_keys_subset h)
  have hlt₁ : φ x < st₁.store.size := by rw [hread.size]; omega
  obtain ⟨hentries, htype, hvalues, hcont⟩ := ObjectStore.set_append hlt₁ hnokey hnodup
    fun c hc => (hfree c hc).2
  rw [← hstore] at hentries htype hvalues hcont
  -- what was copied is above `x` and keeps its class and values
  have hkeep : ∀ y, Copied m s φ st₁.store y → φ y ≠ φ x → Copied m s φ st₂.store y :=
    fun y hy hne => hy.of_same (htype _) (hvalues _ hne)
  refine ⟨?_, fun j hj => ?_, ?_, ?_, ?_, fun y hy => ?_, ?_⟩
  · rw [hstore, ObjectStore.size_set, hread.size, hp.size, inFeatures_append, listings_append,
      List.length_append]
    omega
  · have hjs : j < st.store.size := by rw [hp.size]; omega
    have hold : st₁.store.get j = st₀.store.get j := by rw [hread.kept j hjs, hp.kept j hj]
    have hjx : j ≠ φ x := by rw [hx]; omega
    have hjc : j ∉ w.children := fun h => by have := (hfree j h).1; omega
    have hj₁ := hcont j
    rw [if_neg hjc] at hj₁
    rw [← hold]
    exact Object.ext (htype j) (hvalues j hjx) hj₁
  · rw [htype, hgetx, hp.type]
  · rw [hentries, hgetx, hp.entries, firstEntries_append, hv, ← hw]
    rfl
  · rw [hcont, if_neg, hgetx, hp.free]
    intro h
    have := (hfree _ h).1
    omega
  · rw [inFeatures_append, listings_append] at hy
    rcases List.mem_append.1 hy with hy | hy
    · have hb := lt_of_numbered hnum hy
      have hlt : φ y < st.store.size := by rw [hp.size]; exact hb.2
      refine hkeep y ((hp.copied y hy).of_same ?_ ?_) (by omega)
      · rw [hread.kept _ hlt]
      · rw [hread.kept _ hlt]
    · have hb := lt_of_numbered hnum₁ hy
      exact hkeep y (hread.copied y hy) (by omega)
  · obtain ⟨ps, hps, hmem⟩ := hp.pending
    obtain ⟨qs, hqs, hmem'⟩ := hread.pending
    refine ⟨ps ++ qs ++ if f.kind = .reference then [openReference s root φ x f v] else [], ?_,
      fun p => ?_⟩
    · rw [hpend, hqs, hps]
      simp only [List.append_assoc]
    · rw [List.mem_append, List.mem_append, hmem, hmem', isOpen_append, inFeatures_append,
        listings_append]
      have hown : (p ∈ if f.kind = .reference then [openReference s root φ x f v] else []) ↔
          ∃ u, f.kind = .reference ∧ s.present? x f.name = some u ∧
            p = openReference s root φ x f u := by
        rw [hv]
        by_cases hk : f.kind = .reference <;> simp [hk]
      rw [hown]
      simp only [List.mem_append, or_and_right, exists_or]
      exact or_regroup

theorem Partial.store_flat (hx : φ x = st₀.store.size) (hnew : f.name ∉ done.map (·.name))
    {v w : FeatureValue} {st₂ : ReadState} (hv : s.present? x f.name = some v)
    (hw : firstValue φ v = w) (hflat : v.children = [])
    (hnum : (listings (declared m s) k (inFeatures s x done)).map φ =
      List.range' (st₀.store.size + 1) (listings (declared m s) k (inFeatures s x done)).length)
    (hstore : st₂.store = st.store.set (φ x) f.name w)
    (hpend : st₂.pending = st.pending ++
      if f.kind = .reference then [openReference s root φ x f v] else []) :
    Partial m s root φ k x (done ++ [f]) st₀ st₂ := by
  have hnone : listings (declared m s) k (s.contentsIn x f.name) = [] := by
    rw [ObjectStore.contentsIn_eq (ObjectStore.present?_eq_some.1 hv).1, hflat]
    rfl
  have hwflat : w.children = [] := by
    rw [← hw, children_firstValue, hflat]
    rfl
  refine hp.store hx hnew hv hw hnum (by simp [hnone]) (hnone ▸ Extends.refl st) ?_ ?_ hstore hpend
  · rw [hwflat]
    exact List.nodup_nil
  · rw [hwflat]
    simp

end Features

theorem owned_back {k d : Nat} {f : Feature} {v : FeatureValue} (hk : f.kind = .containment)
    (hh : f.holds v = true) (hv : v.isNull = false)
    (hcs : ∀ c ∈ v.children, HeightAtMost (declared m s) k c ∧ ReadsBack m s root φ k d c)
    {st : ReadState} (hnum : (listings (declared m s) k v.children).map φ =
      List.range' st.store.size (listings (declared m s) k v.children).length) :
    ∃ st', owned (readObject m d) f (writeValue (writeWithin s root k) (reference s root) v) st =
        .ok (firstValue φ v) st' ∧
      Extends m s root φ (listings (declared m s) k v.children) st st' ∧
      ∀ c ∈ v.children, (st'.store.get (φ c)).container = none := by
  cases v with
  | contained c =>
    have hsingle : f.isMany = false := by simpa [Feature.holds, hk] using hh
    have htrees : listings (declared m s) k [c] = listing (declared m s) k c := by simp [listings]
    simp only [FeatureValue.children, htrees] at hnum ⊢
    obtain ⟨members, st', hw, hrun, hext, hfree⟩ :=
      (hcs c (by simp [FeatureValue.children])).2 (some f.type.classifier) st hnum
    refine ⟨st', ?_, hext, by simpa using hfree⟩
    rw [writeValue, hw]
    simp only [owned, hsingle, readOwned]
    exact StatefulRuns.bind_ok hrun
  | containedMany cs =>
    have hmany : f.isMany = true := by simpa [Feature.holds, hk] using hh
    obtain ⟨st', hrun, hext, hfree⟩ := mapM_readOwned_back f cs hcs st hnum
    refine ⟨st', ?_, hext, hfree⟩
    rw [writeValue]
    simp only [owned, hmany]
    exact StatefulRuns.bind_ok hrun
  | null => cases hv
  | _ => simp [Feature.holds, hk] at hh

theorem reference?_reference (id : ObjectId) :
    MetamodelDocument.reference? (reference s root id) = some (referenceText s root id) := by
  simp [reference, MetamodelDocument.reference?, JsonMembers.text?, JsonMembers.get?,
    referenceText]

theorem targets_references (ids : List ObjectId) :
    targets (.array (ids.map (reference s root))) = ids.map (referenceText s root) := by
  simp only [targets]
  induction ids with
  | nil => rfl
  | cons id ids ih => simp [reference?_reference, ih]

theorem targets_writeValue {f : Feature} {v : FeatureValue} {object : ObjectId → Json}
    (hk : f.kind = .reference) (hh : f.holds v = true) :
    targets (writeValue object (reference s root) v) = v.targets.map (referenceText s root) := by
  cases v with
  | null => rfl
  | reference id =>
    have hone : MetamodelDocument.reference? (reference s root id) = _ := reference?_reference id
    simp only [writeValue, reference, targets] at hone ⊢
    simp [hone, FeatureValue.targets]
  | references ids => exact targets_references ids
  | _ => simp [Feature.holds, hk] at hh

theorem readFeature_back {k d : Nat} {x : ObjectId} {fs done : List Feature} {f : Feature}
    {st₀ st : ReadState} (hx : s.ObjectConforms m x fs) (hf : f ∈ fs)
    (hp : Partial m s root φ k x done st₀ st) (hφ : φ x = st₀.store.size)
    (hnew : f.name ∉ done.map (·.name))
    (hcs : ∀ c ∈ s.contentsIn x f.name,
      HeightAtMost (declared m s) k c ∧ ReadsBack m s root φ k d c)
    (hnum : (listings (declared m s) k (inFeatures s x (done ++ [f]))).map φ =
      List.range' (st₀.store.size + 1)
        (listings (declared m s) k (inFeatures s x (done ++ [f]))).length) :
    ∃ st', readFeature m (readObject m d) (φ x) (writtenMembers s root k x) f st = .ok () st' ∧
      Partial m s root φ k x (done ++ [f]) st₀ st' := by
  rw [inFeatures_append, listings_append] at hnum
  obtain ⟨hdone, hnow⟩ := range'_split hnum
  rw [← hp.size] at hnow
  have hget : JsonMembers.get? (writtenMembers s root k x) f.name = _ :=
    get?_writtenMembers k (hx.featuresWritable f hf).notClass
  unfold readFeature
  rw [hget]
  cases hv : s.present? x f.name with
  | none => exact ⟨st, rfl, hp.skip hv⟩
  | some v =>
    obtain ⟨hvalue, hnull⟩ := ObjectStore.present?_eq_some.1 hv
    obtain ⟨hholds, hfin⟩ := hx.holds hf hvalue
    rw [ObjectStore.contentsIn_eq hvalue] at hcs
    cases hk : f.kind with
    | plain =>
      have hfirst : firstValue φ v = v := by
        cases v <;> simp_all [Feature.holds, firstValue, FeatureType.stores]
      refine ⟨⟨st.store.set (φ x) f.name v, st.pending⟩, ?_, ?_⟩
      · simp only [Option.map_some, plainValue_writeValue hk hholds hfin hnull]
        rfl
      · exact hp.store_flat hφ hnew hv hfirst
          (children_eq_nil_of_holds (by simp [hk]) hholds) hdone rfl (by simp [hk])
    | containment =>
      have hnow' := hnow
      rw [ObjectStore.contentsIn_eq hvalue] at hnow'
      obtain ⟨st₁, hrun, hext, hfree⟩ := owned_back hk hholds hnull hcs hnow'
      have hsub := (sublist_listings fun c hc => (hcs c hc).1).map φ
      refine ⟨⟨st₁.store.set (φ x) f.name (firstValue φ v), st₁.pending⟩, ?_, ?_⟩
      · simp only [Option.map_some]
        exact StatefulRuns.bind_ok hrun
      · refine hp.store hφ hnew hv rfl hdone hnow ?_ ?_ ?_ rfl (by simp [hk])
        · rwa [ObjectStore.contentsIn_eq hvalue]
        · rw [children_firstValue]
          exact hsub.nodup (hnow' ▸ List.nodup_range')
        · rw [children_firstValue]
          intro e he
          obtain ⟨c, hc, rfl⟩ := List.mem_map.1 he
          have hb := lt_of_numbered hnow' ((sublist_listings fun c hc => (hcs c hc).1).subset hc)
          rw [← hext.size] at hb
          exact ⟨hb.1, hb.2, hfree c hc⟩
    | reference =>
      have hfirst : firstValue φ v = .null := by
        cases v <;> simp_all [Feature.holds, firstValue]
      refine ⟨⟨st.store.set (φ x) f.name .null, st.pending ++ [openReference s root φ x f v]⟩, ?_,
        ?_⟩
      · simp only [Option.map_some, targets_writeValue hk hholds]
        rfl
      · exact hp.store_flat hφ hnew hv hfirst
          (children_eq_nil_of_holds (by simp [hk]) hholds) hdone rfl (by simp [hk])

theorem readFeatures_back {k d : Nat} {x : ObjectId} {fs : List Feature}
    {st₀ : ReadState} (hx : s.ObjectConforms m x fs) (hφ : φ x = st₀.store.size)
    (hcs : ∀ c ∈ inFeatures s x fs, HeightAtMost (declared m s) k c ∧ ReadsBack m s root φ k d c)
    (hnum : (listings (declared m s) k (inFeatures s x fs)).map φ =
      List.range' (st₀.store.size + 1) (listings (declared m s) k (inFeatures s x fs)).length)
    (rest done : List Feature) (hfs : fs = done ++ rest) {st : ReadState}
    (hp : Partial m s root φ k x done st₀ st) :
    ∃ st', rest.forM (readFeature m (readObject m d) (φ x) (writtenMembers s root k x)) st =
        .ok () st' ∧ Partial m s root φ k x fs st₀ st' := by
  induction rest generalizing done st with
  | nil =>
    rw [List.append_nil] at hfs
    exact ⟨st, rfl, hfs ▸ hp⟩
  | cons f rest ih =>
    have hfs' : fs = (done ++ [f]) ++ rest := by rw [hfs, List.append_assoc, List.singleton_append]
    have hf : f ∈ fs := by rw [hfs]; simp
    have hnew : f.name ∉ done.map (·.name) := by
      have hn := Metamodel.nodup_features hx.features
      rw [hfs, List.map_append, List.nodup_append] at hn
      exact fun h => hn.2.2 _ h _ (by simp) rfl
    have hhere : (listings (declared m s) k (inFeatures s x (done ++ [f]))).map φ =
        List.range' (st₀.store.size + 1)
          (listings (declared m s) k (inFeatures s x (done ++ [f]))).length := by
      rw [hfs', inFeatures, List.flatMap_append, listings_append] at hnum
      exact (range'_split hnum).1
    obtain ⟨st₁, hrun, hp₁⟩ := readFeature_back hx hf hp hφ hnew
      (fun c hc => hcs c (List.mem_flatMap.2 ⟨f, hf, hc⟩)) hhere
    obtain ⟨st₂, hruns, hp₂⟩ := ih (done ++ [f]) hfs' hp₁
    exact ⟨st₂, (StatefulRuns.forM_cons_ok hrun).trans hruns, hp₂⟩

theorem partial_newObject {k : Nat} {x : ObjectId} {st : ReadState} (hφ : φ x = st.store.size) :
    Partial m s root φ k x [] st ⟨(st.store.newObject (s.get x).type).2, st.pending⟩ := by
  have hget : (st.store.newObject (s.get x).type).2.get (φ x) = .ofType (s.get x).type := by
    rw [ObjectStore.get_newObject, if_pos hφ]
  refine ⟨by simp [listings, inFeatures], fun j hj => ?_, by simp only [hget]; rfl,
    by simp only [hget]; rfl, by simp only [hget]; rfl, by simp [listings, inFeatures], [], by simp,
    ?_⟩
  · rw [ObjectStore.get_newObject, if_neg (Nat.ne_of_lt hj)]
  · simp [IsOpen, listings, inFeatures]

theorem listing_declared {k : Nat} {x : ObjectId} {fs : List Feature}
    (hfs : m.features (s.get x).type = .ok fs) : listing (declared m s) (k + 1) x =
      x :: listings (declared m s) k (inFeatures s x fs) := by
  rw [listing, declared_eq hfs]
  rfl

theorem Partial.extends {k : Nat} {x : ObjectId} {fs : List Feature} {st₀ st : ReadState}
    (hp : Partial m s root φ k x fs st₀ st) (hfs : m.features (s.get x).type = .ok fs) :
    Extends m s root φ (listing (declared m s) (k + 1) x) st₀ st := by
  rw [listing_declared hfs]
  refine ⟨?_, hp.kept, ?_, ?_⟩
  · rw [hp.size, List.length_cons]
    omega
  · intro y hy
    rcases List.mem_cons.1 hy with rfl | hy
    · refine ⟨hp.type, fun gs hgs => ?_⟩
      rw [hfs] at hgs
      rw [hp.entries, Except.ok.inj hgs]
    · exact hp.copied y hy
  · obtain ⟨ps, hps, hmem⟩ := hp.pending
    refine ⟨ps, hps, fun p => ?_⟩
    rw [hmem]
    simp [hfs]

/-- Reading gives back every tree of conforming objects, whatever was read before. -/
theorem readsBack {k : Nat} {x : ObjectId} (hheight : HeightAtMost (declared m s) k x)
    (hconf : ∀ y ∈ listing (declared m s) k x, ∃ fs, s.ObjectConforms m y fs) {d : Nat}
    (hd : (writeWithin s root k x).depth ≤ d) : ReadsBack m s root φ k d x := by
  induction k generalizing x d with
  | zero => exact hheight.elim
  | succ k ih =>
    obtain ⟨fs, hx⟩ := hconf x (self_mem_listing hheight)
    have hdecl : declared m s x = inFeatures s x fs := declared_eq hx.features
    have hw : writeWithin s root (k + 1) x = .object (writtenMembers s root k x) :=
      writeWithin_succ hx k
    have hpos : 0 < d := by
      refine Nat.lt_of_lt_of_le ?_ hd
      rw [hw, Json.depth]
      exact Nat.succ_pos _
    obtain ⟨d, rfl⟩ : ∃ n, d = n + 1 := ⟨d - 1, by omega⟩
    intro expected st hnum
    rw [listing_declared hx.features, List.map_cons, List.length_cons, List.range'_succ,
      List.cons.injEq] at hnum
    have hcs : ∀ c ∈ inFeatures s x fs,
        HeightAtMost (declared m s) k c ∧ ReadsBack m s root φ k d c := by
      intro c hc
      have hbelow : c ∈ declared m s x := hdecl ▸ hc
      obtain ⟨f, -, hcf⟩ := List.mem_flatMap.1 hc
      have hlt : (writeWithin s root k c).depth < (writeWithin s root (k + 1) x).depth :=
        depth_writeWithin_lt hx hcf
      exact ⟨hheight c hbelow, ih (hheight c hbelow)
        (fun y hy => hconf y (mem_listing_succ.2 (.inr ⟨c, hbelow, hy⟩))) (by omega)⟩
    obtain ⟨st', hrun, hp⟩ := readFeatures_back hx hnum.1 hcs hnum.2 fs [] rfl
      (partial_newObject hnum.1)
    refine ⟨_, st', hw, ?_, hp.extends hx.features, hp.free⟩
    have hclass : lift (classOf (writtenMembers s root k x) expected) st =
        .ok (s.get x).type st := by
      rw [classOf_writtenMembers hx]
      rfl
    have hfeatures : lift (m.features (s.get x).type) st = .ok fs st := by
      rw [hx.features]
      rfl
    have hnew : newObject (s.get x).type st =
        .ok (φ x) ⟨(st.store.newObject (s.get x).type).2, st.pending⟩ := by
      rw [hnum.1]
      rfl
    rw [readObject, StatefulRuns.bind_ok hclass, StatefulRuns.bind_ok hfeatures]
    simp only [strayKey?_writtenMembers hx]
    rw [StatefulRuns.bind_ok hnew, StatefulRuns.bind_ok hrun]
    rfl

end TreeInterchange.ObjectDocument
