import TreeInterchange.Proofs.PositionObjects
import TreeInterchange.Proofs.StatefulRuns
import TreeInterchange.Proofs.TreeConvertibility

/-!
# The objects that a tree is converted to

A conversion that succeeds makes one object for each node and three more for each position,
numbered by the walk through the tree. At first the object of a node shows all slots but the
references, which wait until every node has its object; in the end it shows them all.

The induction is on the height of the tree, and the invariant of the loop over the slots of
a node is what has been shown of it so far.
-/

namespace TreeInterchange.ToObjects

variable (m : Metamodel) (f : Forest) (uri : String) (φ : NodeId → Nat)

/-- How many objects are made for a node itself: one, and three for its position. -/
def cost (y : NodeId) : Nat := if (f.position y).isSome then 4 else 1

def classRef (y : NodeId) : ClassifierRef := ⟨uri, (f.get y).type.name.name⟩

/-- What is stored for a slot; null is left out. -/
def fullView (v : Value) : Option FeatureValue := if v.isNull then none else some (v.depict φ)

/-- What is stored for a slot at first, while references wait. -/
def firstView (v : Value) : Option FeatureValue := if v.isReference then none else fullView φ v

/-- The object `φ y` holds the position of `y`, if it has one. -/
def ShowsPosition (t : ObjectStore) (y : NodeId) : Prop :=
  match f.position y with
  | some p => t.value? (φ y) "position" = some (.contained (φ y + 1)) ∧ PositionAt t (φ y + 1) p
  | none => t.value? (φ y) "position" = none

/-- The object `φ y` has the class and the position for `y`, and a view of its slots. -/
structure Shows (view : Value → Option FeatureValue) (t : ObjectStore) (y : NodeId) : Prop where
  type : (t.get (φ y)).type = classRef f uri y
  features : ∃ os, m.ownedFeatures (classRef f uri y) = .ok os
  position : ShowsPosition f φ t y
  values : ∀ name, name ≠ "position" → t.value? (φ y) name = (f.slot? y name).bind view

/-- The object `φ y` can be read as `y`, wherever the objects of its position are. -/
structure Pictures (t : ObjectStore) (y : NodeId) : Prop where
  type : (t.get (φ y)).type = classRef f uri y
  features : ∃ os, m.ownedFeatures (classRef f uri y) = .ok os
  position : ∀ p, f.position y = some p →
    (∃ q, t.value? (φ y) "position" = some (.contained q)) ∧ t.position? (φ y) = some p
  noPosition : f.position y = none → t.value? (φ y) "position" = none
  values : ∀ name, name ≠ "position" → t.value? (φ y) name = (f.slot? y name).bind (fullView φ)

def openReference (y : NodeId) (name : String) (v : Value) : Pending :=
  ⟨φ y, classRef f uri y, name, v.isReferences, v.targets⟩

def IsOpen (slots : List (String × Value)) (y : NodeId) (q : Pending) : Prop :=
  ∃ name v, (name, v) ∈ slots ∧ v.isReference = true ∧ q = openReference f uri φ y name v

/-- From one state to another exactly the objects for the nodes of `L` were made. -/
structure Made (L : List NodeId) (st st' : State) : Prop where
  size : st'.store.size = st.store.size + totalCost (cost f) L
  kept : ∀ j < st.store.size, st'.store.get j = st.store.get j
  shown : ∀ y ∈ L, Shows m f uri φ (firstView φ) st'.store y
  created : ∀ z, st'.created.get? z = if z ∈ L then some (φ z) else st.created.get? z
  pending : ∃ ps, st'.pending = st.pending ++ ps ∧ ∀ q, q ∈ ps ↔
    ∃ y ∈ L, IsOpen f uri φ (f.get y).slots.entries y q

variable {m f uri φ}

theorem cost_pos (y : NodeId) : 0 < cost f y := by
  unfold cost
  split <;> omega

theorem ShowsPosition.congr {s t : ObjectStore} {y : NodeId} (h : ShowsPosition f φ s y)
    (hown : t.value? (φ y) "position" = s.value? (φ y) "position")
    (hrest : ∀ j, φ y < j → j < φ y + cost f y →
      (t.get j).type = (s.get j).type ∧ (t.get j).values = (s.get j).values) :
    ShowsPosition f φ t y := by
  unfold ShowsPosition at h ⊢
  cases hp : f.position y with
  | none =>
    rw [hp] at h
    exact hown.trans h
  | some p =>
    rw [hp] at h
    refine ⟨hown.trans h.1, h.2.congr fun j h₁ h₂ => hrest j (by omega) ?_⟩
    simp only [cost, hp, Option.isSome_some, if_true]
    omega

theorem Shows.congr {view : Value → Option FeatureValue} {s t : ObjectStore} {y : NodeId}
    (h : Shows m f uri φ view s y) (hsame : ∀ j, φ y ≤ j → j < φ y + cost f y →
      (t.get j).type = (s.get j).type ∧ (t.get j).values = (s.get j).values) :
    Shows m f uri φ view t y := by
  have hpos := cost_pos (f := f) y
  obtain ⟨htype, hvalues⟩ := hsame (φ y) (Nat.le_refl _) (by omega)
  have hvalue : ∀ g, t.value? (φ y) g = s.value? (φ y) g := by
    intro g
    rw [ObjectStore.value?, hvalues]
    rfl
  refine ⟨htype.trans h.type, h.features, h.position.congr (hvalue _) fun j h₁ h₂ => ?_,
    fun name hname => ?_⟩
  · exact hsame j (by omega) h₂
  · rw [hvalue, h.values name hname]

theorem Shows.pictures {t : ObjectStore} {y : NodeId} (h : Shows m f uri φ (fullView φ) t y) :
    Pictures m f uri φ t y := by
  have hshown := h.position
  unfold ShowsPosition at hshown
  refine ⟨h.type, h.features, fun p hp => ?_, fun hp => ?_, h.values⟩
  · rw [hp] at hshown
    exact ⟨⟨_, hshown.1⟩, hshown.2.position? hshown.1⟩
  · rwa [hp] at hshown

theorem Made.refl (st : State) : Made m f uri φ [] st st :=
  ⟨by simp [totalCost], fun _ _ => rfl, by simp, by simp, [], by simp, by simp⟩

theorem Made.trans {L K : List NodeId} {st st₁ st₂ : State} (h : Made m f uri φ L st st₁)
    (h' : Made m f uri φ K st₁ st₂) (hL : Numbered φ (cost f) st.store.size L) :
    Made m f uri φ (L ++ K) st st₂ := by
  obtain ⟨ps, hps, hmem⟩ := h.pending
  obtain ⟨qs, hqs, hmem'⟩ := h'.pending
  refine ⟨?_, fun j hj => ?_, fun y hy => ?_, fun z => ?_, ps ++ qs, ?_, fun q => ?_⟩
  · rw [h'.size, h.size, totalCost_append, Nat.add_assoc]
  · rw [h'.kept j (by have := h.size; omega), h.kept j hj]
  · rcases List.mem_append.1 hy with hy | hy
    · have hb := hL.bounds hy
      rw [← h.size] at hb
      apply (h.shown y hy).congr
      intro j h₁ h₂
      rw [h'.kept j (by omega)]
      exact ⟨rfl, rfl⟩
    · exact h'.shown y hy
  · rw [h'.created, h.created]
    by_cases hK : z ∈ K <;> by_cases hL : z ∈ L <;> simp [hK, hL]
  · rw [hqs, hps, List.append_assoc]
  · rw [List.mem_append, hmem, hmem']
    simp only [List.mem_append, or_and_right, exists_or]

/-- A conversion of `y` that succeeds makes exactly the objects of its tree. -/
def Converts (m : Metamodel) (f : Forest) (uri : String) (φ : NodeId → Nat) (k : Nat) (y : NodeId) :
    Prop :=
  ∀ st o st', Numbered φ (cost f) st.store.size (listing f.children k y) →
    convert f m .default k y st = .ok o st' →
    o = φ y ∧ Made m f uri φ (listing f.children k y) st st' ∧
      (st'.store.get (φ y)).container = none

theorem mapM_convert {k : Nat} (cs : List NodeId)
    (hcs : ∀ d ∈ cs, HeightAtMost f.children k d ∧ Converts m f uri φ k d) {st st' : State}
    {os : List ObjectId} (hnum : Numbered φ (cost f) st.store.size (listings f.children k cs))
    (h : cs.mapM (convert f m .default k) st = .ok os st') :
    os = cs.map φ ∧ Made m f uri φ (listings f.children k cs) st st' ∧
      ∀ d ∈ cs, (st'.store.get (φ d)).container = none := by
  induction cs generalizing st os with
  | nil =>
    cases h
    exact ⟨rfl, Made.refl _, by simp⟩
  | cons d cs ih =>
    rw [listings_cons, numbered_append] at hnum
    obtain ⟨o, st₁, os', hd, hrest, rfl⟩ := StatefulRuns.of_mapM_cons_ok h
    obtain ⟨hheight, hconv⟩ := hcs d (by simp)
    obtain ⟨rfl, hmade, hfree⟩ := hconv st o st₁ hnum.1 hd
    rw [← hmade.size] at hnum
    obtain ⟨rfl, hmades, hfrees⟩ := ih (fun e he => hcs e (by simp [he])) hnum.2 hrest
    refine ⟨rfl, ?_, fun e he => ?_⟩
    · rw [listings_cons]
      exact hmade.trans hmades hnum.1
    · rcases List.mem_cons.1 he with rfl | he
      · have hb := hnum.1.bounds (self_mem_listing hheight)
        have hpos := cost_pos (f := f) e
        rw [← hmade.size] at hb
        rw [hmades.kept _ (by omega), hfree]
      · exact hfrees e he

def inSlots (slots : List (String × Value)) : List NodeId := slots.flatMap (·.2.children)

theorem inSlots_append (done : List (String × Value)) (name : String) (v : Value) :
    inSlots (done ++ [(name, v)]) = inSlots done ++ v.children := by
  simp [inSlots]

/-- The slots `done` of `y` have been converted, and the trees that they hold. -/
structure Partial (m : Metamodel) (f : Forest) (uri : String) (φ : NodeId → Nat) (k : Nat)
    (y : NodeId) (done : List (String × Value)) (st₀ st : State) : Prop where
  size : st.store.size =
    st₀.store.size + cost f y + totalCost (cost f) (listings f.children k (inSlots done))
  kept : ∀ j < st₀.store.size, st.store.get j = st₀.store.get j
  type : (st.store.get (φ y)).type = classRef f uri y
  position : ShowsPosition f φ st.store y
  values : ∀ name, name ≠ "position" →
    st.store.value? (φ y) name = (done.lookup name).bind (firstView φ)
  free : (st.store.get (φ y)).container = none
  shown : ∀ z ∈ listings f.children k (inSlots done), Shows m f uri φ (firstView φ) st.store z
  created : ∀ z, st.created.get? z =
    if z = y ∨ z ∈ listings f.children k (inSlots done) then some (φ z) else st₀.created.get? z
  pending : ∃ ps, st.pending = st₀.pending ++ ps ∧ ∀ q, q ∈ ps ↔
    IsOpen f uri φ done y q ∨ ∃ z ∈ listings f.children k (inSlots done),
      IsOpen f uri φ (f.get z).slots.entries z q

theorem isOpen_append {done : List (String × Value)} {name : String} {v : Value} {y : NodeId}
    {q : Pending} : IsOpen f uri φ (done ++ [(name, v)]) y q ↔
      IsOpen f uri φ done y q ∨ v.isReference = true ∧ q = openReference f uri φ y name v := by
  constructor
  · rintro ⟨g, w, hm, hr, rfl⟩
    rcases List.mem_append.1 hm with hm | hm
    · exact .inl ⟨g, w, hm, hr, rfl⟩
    · obtain ⟨rfl, rfl⟩ := Prod.mk.inj (List.mem_singleton.1 hm)
      exact .inr ⟨hr, rfl⟩
  · rintro (⟨g, w, hm, hr, rfl⟩ | ⟨hr, rfl⟩)
    · exact ⟨g, w, List.mem_append.2 (.inl hm), hr, rfl⟩
    · exact ⟨name, v, by simp, hr, rfl⟩

theorem lookup_append_single {done : List (String × Value)} {name : String} {v : Value}
    (hnew : name ∉ done.map Prod.fst) (g : String) :
    (done ++ [(name, v)]).lookup g = if g = name then some v else done.lookup g := by
  rw [List.lookup_append]
  by_cases hg : g = name
  · subst hg
    rw [Table.lookup_eq_none_iff.2 hnew]
    simp
  · have hb : (g == name) = false := by simpa using hg
    simp [hg, List.lookup_cons, hb]

theorem fresh_depict {s : ObjectStore} {n : Nat} {v : Value} (hnodup : (v.children.map φ).Nodup)
    (hfree : ∀ d ∈ v.children, n ≤ φ d ∧ (s.get (φ d)).container = none) :
    (v.depict φ).children.Nodup ∧
      ∀ e ∈ (v.depict φ).children, n ≤ e ∧ (s.get e).container = none := by
  rw [Value.children_depict]
  refine ⟨hnodup, fun e he => ?_⟩
  obtain ⟨d, hd, rfl⟩ := List.mem_map.1 he
  exact hfree d hd

section Slots

variable {k : Nat} {y : NodeId} {done : List (String × Value)} {name : String} {v : Value}
  {st₀ st : State} (hp : Partial m f uri φ k y done st₀ st)
include hp

theorem Partial.pass (hnew : name ∉ done.map Prod.fst) (hflat : v.children = [])
    (hview : firstView φ v = none) {st' : State} (hstore : st'.store = st.store)
    (hcreated : st'.created = st.created) (hpend : st'.pending = st.pending ++
      if v.isReference then [openReference f uri φ y name v] else []) :
    Partial m f uri φ k y (done ++ [(name, v)]) st₀ st' := by
  have hsame : inSlots (done ++ [(name, v)]) = inSlots done := by
    rw [inSlots_append, hflat, List.append_nil]
  refine ⟨by rw [hsame, hstore, hp.size], by rw [hstore]; exact hp.kept, by rw [hstore, hp.type],
    by rw [hstore]; exact hp.position, fun g hg => ?_, by rw [hstore, hp.free],
    by rw [hsame, hstore]; exact hp.shown, by rw [hsame, hcreated]; exact hp.created, ?_⟩
  · rw [hstore, hp.values g hg, lookup_append_single hnew]
    split
    · rename_i hgn
      rw [hgn, Table.lookup_eq_none_iff.2 hnew]
      exact hview.symm
    · rfl
  · obtain ⟨ps, hps, hmem⟩ := hp.pending
    refine ⟨ps ++ if v.isReference then [openReference f uri φ y name v] else [], ?_, fun q => ?_⟩
    · rw [hpend, hps, List.append_assoc]
    · rw [List.mem_append, hmem, hsame, isOpen_append, or_right_comm]
      by_cases hr : v.isReference = true <;> simp [hr]

theorem Partial.store (hφ : φ y = st₀.store.size) (hname : name ≠ "position")
    (hnew : name ∉ done.map Prod.fst) (hview : firstView φ v = some (v.depict φ)) {st₁ st₂ : State}
    (hnum : Numbered φ (cost f) (st₀.store.size + cost f y) (listings f.children k (inSlots done)))
    (hnum₁ : Numbered φ (cost f) st.store.size (listings f.children k v.children))
    (hmade : Made m f uri φ (listings f.children k v.children) st st₁)
    (hnodup : (v.children.map φ).Nodup)
    (hfree : ∀ d ∈ v.children, st.store.size ≤ φ d ∧ (st₁.store.get (φ d)).container = none)
    (hstore : st₂.store = st₁.store.set (φ y) name (v.depict φ))
    (hcreated : st₂.created = st₁.created) (hpend : st₂.pending = st₁.pending) :
    Partial m f uri φ k y (done ++ [(name, v)]) st₀ st₂ := by
  have hpos := cost_pos (f := f) y
  have hltx : φ y < st.store.size := by
    rw [hφ, hp.size]
    omega
  have hgety : st₁.store.get (φ y) = st.store.get (φ y) := hmade.kept _ hltx
  have hvaluey : ∀ g, st₁.store.value? (φ y) g = st.store.value? (φ y) g := fun g => by
    rw [ObjectStore.value?, hgety]
    rfl
  have hlt₁ : φ y < st₁.store.size := by
    rw [hmade.size]
    omega
  have hnotRef : v.isReference = false := by
    by_contra h
    simp [firstView, h] at hview
  obtain ⟨hn, hfresh⟩ := fresh_depict hnodup hfree
  have hfree' : ∀ e ∈ (v.depict φ).children, (st₁.store.get e).container = none := fun e he =>
    (hfresh e he).2
  have hnot : ∀ j : Nat, j < st.store.size → j ∉ (v.depict φ).children := fun j hj hm =>
    Nat.not_lt_of_le (hfresh j hm).1 hj
  have hnone : st₁.store.contentsIn (φ y) name = [] := by
    apply ObjectStore.contentsIn_eq_nil
    rw [hvaluey, hp.values name hname, Table.lookup_eq_none_iff.2 hnew]
    rfl
  have hset := ObjectStore.set_fresh hn hfree' hnone
  have hvalue := ObjectStore.value?_set_fresh hn hfree' hnone
  rw [← hstore] at hset hvalue
  -- places below the size of `st` other than that of `y` are not touched
  have hkeep : ∀ j : Nat, j ≠ φ y → (st₂.store.get j).type = (st₁.store.get j).type ∧
      (st₂.store.get j).values = (st₁.store.get j).values := fun j hj => by
    obtain ⟨ht, hvs, -⟩ := hset j
    rw [if_neg fun h => hj h.1] at hvs
    exact ⟨ht, hvs⟩
  have hold : ∀ j : Nat, j < st.store.size → j ≠ φ y → st₂.store.get j = st.store.get j := by
    intro j hj hne
    rw [hstore, ObjectStore.get_set_fresh hn hfree' hnone hne (hnot j hj), hmade.kept j hj]
  refine ⟨?_, fun j hj => ?_, ?_, ?_, fun g hg => ?_, ?_, fun z hz => ?_, fun z => ?_, ?_⟩
  · rw [hstore, ObjectStore.size_set, hmade.size, hp.size, inSlots_append, listings_append,
      totalCost_append]
    omega
  · rw [hold j (by rw [hp.size]; omega) (by omega), hp.kept j hj]
  · rw [(hset (φ y)).1, hgety, hp.type]
  · refine hp.position.congr ?_ fun j h₁ h₂ => ?_
    · rw [hvalue, if_neg fun h => hname h.2.1.symm, hvaluey]
    · rw [hold j (by rw [hp.size]; omega) (by omega)]
      exact ⟨rfl, rfl⟩
  · rw [hvalue, lookup_append_single hnew]
    by_cases hgn : g = name
    · rw [if_pos ⟨rfl, hgn, hlt₁⟩, if_pos hgn]
      exact hview.symm
    · rw [if_neg fun h => hgn h.2.1, if_neg hgn, hvaluey, hp.values g hg]
  · rw [(hset (φ y)).2.2, if_neg fun h => hnot _ hltx h.1, hgety, hp.free]
  · rw [inSlots_append, listings_append] at hz
    rcases List.mem_append.1 hz with hz | hz
    · have hb := hnum.bounds hz
      apply (hp.shown z hz).congr
      intro j h₁ h₂
      rw [hold j (by rw [hp.size]; omega) (by omega)]
      exact ⟨rfl, rfl⟩
    · have hb := hnum₁.bounds hz
      exact (hmade.shown z hz).congr fun j h₁ h₂ => hkeep j (by omega)
  · rw [hcreated, hmade.created, hp.created, inSlots_append, listings_append, ite_mem_append]
  · obtain ⟨ps, hps, hmem⟩ := hp.pending
    obtain ⟨qs, hqs, hmem'⟩ := hmade.pending
    refine ⟨ps ++ qs, ?_, fun q => ?_⟩
    · rw [hpend, hqs, hps, List.append_assoc]
    · rw [List.mem_append, hmem, hmem', isOpen_append, inSlots_append, listings_append]
      simp only [hnotRef, Bool.false_eq_true, false_and, or_false, List.mem_append, or_and_right,
        exists_or, or_assoc]

end Slots

section Steps

variable {c : TypeCatalog} {package : String}

theorem lift_ok {α : Type} {e : Except ConversionError α} {a : α} {st st' : State}
    (h : lift e st = .ok a st') : e = .ok a ∧ st' = st := by
  unfold lift at h
  cases e with
  | error e => cases h
  | ok b =>
    cases h
    exact ⟨rfl, rfl⟩

/-- What has to hold of a property and the value in its slot. -/
structure SlotFits (c : TypeCatalog) (package : String) (p : Property) (v : Value) : Prop where
  admits : p.Admits v
  enums : ∀ name, p.type = .enumeration name →
    name.package = package ∧ ∃ e, c.enum? name = some e ∧ e.literals.Nodup
  fits : p.kind = .value → p.fits c v = true

theorem slotValue_plain (hc : c.WellKept) {p : Property} {v : Value} (hv : SlotFits c package p v)
    (hk : p.kind = .value) (hnull : v.isNull = false) {r : ClassifierRef}
    {child : NodeId → Convert ObjectId} {st st' : State} {res : Converted}
    (h : slotValue (Derivation.model c package uri) r (Derivation.featureOf package uri p) child v
      st = .ok res st') : st' = st ∧ res = .value (v.depict φ) := by
  have hkind : (Derivation.featureOf package uri p).kind = .plain := by
    rw [Derivation.kind_featureOf, hk]
  have hfits := hv.fits hk
  -- a scalar goes through `plainValue` as a whole
  have hscalar : p.type.fits c v = true →
      (slotValue (Derivation.model c package uri) r (Derivation.featureOf package uri p) child v =
        (lift (plainValue (Derivation.model c package uri) r (Derivation.featureOf package uri p) v)
          >>= fun w => pure (.value w))) →
      st' = st ∧ res = .value v.depictScalar := by
    intro hvf heq
    rw [heq] at h
    obtain ⟨w, u, hlift, hres⟩ := StatefulRuns.of_bind_ok h
    obtain ⟨hw, rfl⟩ := lift_ok hlift
    cases hres
    rw [Derivation.plainValue_model hc hk hv.enums hvf hw]
    exact ⟨rfl, rfl⟩
  cases v with
  | null => cases hnull
  | list items =>
    have hitems : ∀ i ∈ items, p.type.fits c i = true := List.all_eq_true.1 hfits
    simp only [slotValue, hkind] at h
    obtain ⟨ws, u, hlift, hres⟩ := StatefulRuns.of_bind_ok h
    obtain ⟨hws, rfl⟩ := lift_ok hlift
    cases hres
    rw [Derivation.mapM_plainValue_model hc hk hv.enums hitems hws]
    exact ⟨rfl, rfl⟩
  | string s => exact hscalar ((Bool.and_eq_true _ _).mp hfits).2 (by simp only [slotValue, hkind])
  | integer n => exact hscalar ((Bool.and_eq_true _ _).mp hfits).2 (by simp only [slotValue, hkind])
  | real x => exact hscalar ((Bool.and_eq_true _ _).mp hfits).2 (by simp only [slotValue, hkind])
  | boolean b => exact hscalar ((Bool.and_eq_true _ _).mp hfits).2 (by simp only [slotValue, hkind])
  | enumeration e =>
    exact hscalar ((Bool.and_eq_true _ _).mp hfits).2 (by simp only [slotValue, hkind])
  | _ =>
    have hadmits := hv.admits
    simp [Property.Admits, hk, Value.holdsNodes] at hadmits

/-- What converting the value of a slot gives: for a reference its targets, and otherwise the
picture of the value, once the children are converted. -/
theorem slotValue_ok (hc : c.WellKept) {p : Property} {v : Value} (hv : SlotFits c package p v)
    (hnull : v.isNull = false) {r : ClassifierRef} {child : NodeId → Convert ObjectId}
    {st st' : State} {res : Converted}
    (h : slotValue (Derivation.model c package uri) r (Derivation.featureOf package uri p) child v
      st = .ok res st') :
    v.isReference = true ∧ st' = st ∧ res = .later v.targets ∨
    v.isReference = false ∧ ∃ os, v.children.mapM child st = .ok os st' ∧
      (os = v.children.map φ → res = .value (v.depict φ)) := by
  have hkind := @Derivation.kind_featureOf package uri p
  rcases hv.admits.of_not_null hnull with ⟨hk, hflat⟩ | ⟨hk, hshape⟩ | ⟨hk, hshape⟩
  · obtain ⟨rfl, rfl⟩ := slotValue_plain (φ := φ) hc hv hk hnull h
    refine .inr ⟨Value.isReference_eq_false hflat, [], ?_, fun _ => rfl⟩
    rw [Value.children_eq_nil hflat]
    rfl
  · rw [hk] at hkind
    obtain ⟨-, d, rfl⟩ | ⟨-, ds, rfl⟩ := hshape
    · simp only [slotValue, hkind] at h
      obtain ⟨o, u, ho, hres⟩ := StatefulRuns.of_bind_ok h
      cases hres
      refine .inr ⟨rfl, [o], StatefulRuns.mapM_cons_ok ho rfl, fun hos => ?_⟩
      rw [(List.cons.inj hos).1]
      rfl
    · simp only [slotValue, hkind] at h
      obtain ⟨os, u, hos, hres⟩ := StatefulRuns.of_bind_ok h
      cases hres
      refine .inr ⟨rfl, os, hos, fun he => ?_⟩
      rw [he]
      rfl
  · rw [hk] at hkind
    obtain ⟨-, d, rfl⟩ | ⟨-, ds, rfl⟩ := hshape
    · simp only [slotValue, hkind] at h
      cases h
      exact .inl ⟨rfl, rfl, rfl⟩
    · simp only [slotValue, hkind] at h
      cases h
      exact .inl ⟨rfl, rfl, rfl⟩

theorem isReferences_eq {p : Property} {v : Value} (ha : p.Admits v) (hr : v.isReference = true) :
    v.isReferences = p.multiple := by
  have hnull : v.isNull = false := by cases v <;> simp_all [Value.isReference, Value.isNull]
  rcases ha.of_not_null hnull with
    ⟨-, hflat⟩ | ⟨-, ⟨-, d, rfl⟩ | ⟨-, ds, rfl⟩⟩ | ⟨-, ⟨hm, d, rfl⟩ | ⟨hm, ds, rfl⟩⟩
  · rw [Value.isReference_eq_false hflat] at hr
    cases hr
  · cases hr
  · cases hr
  · exact hm.symm
  · exact hm.symm

theorem children_of_isReference {v : Value} (h : v.isReference = true) : v.children = [] := by
  cases v <;> simp_all [Value.isReference, Value.children]

theorem convertSlot_ok (hc : c.WellKept) {k : Nat} {y : NodeId} {done : List (String × Value)}
    {p : Property} {v : Value} {fs : List Feature} {st₀ st st' : State}
    (hfind : fs.find? (·.name = p.name) = some (Derivation.featureOf package uri p))
    (hv : SlotFits c package p v)
    (hp : Partial (Derivation.model c package uri) f uri φ k y done st₀ st)
    (hφ : φ y = st₀.store.size) (hname : p.name ≠ "position") (hnew : p.name ∉ done.map Prod.fst)
    (hcs : ∀ d ∈ v.children, HeightAtMost f.children k d ∧
      Converts (Derivation.model c package uri) f uri φ k d)
    (hnum : Numbered φ (cost f) (st₀.store.size + cost f y)
      (listings f.children k (inSlots (done ++ [(p.name, v)]))))
    (h : convertSlot (Derivation.model c package uri) (classRef f uri y) fs (φ y)
      (convert f (Derivation.model c package uri) .default k) p.name v st = .ok () st') :
    Partial (Derivation.model c package uri) f uri φ k y (done ++ [(p.name, v)]) st₀ st' := by
  rw [inSlots_append, listings_append, numbered_append, ← hp.size] at hnum
  unfold convertSlot at h
  by_cases hnull : v.isNull = true
  · simp only [hnull, if_true] at h
    cases h
    have hv' : v = .null := by cases v <;> simp_all [Value.isNull]
    subst hv'
    exact hp.pass hnew rfl rfl rfl rfl (by simp [Value.isReference])
  · rw [Bool.not_eq_true] at hnull
    simp only [hnull, Bool.false_eq_true, if_false, hfind] at h
    obtain ⟨res, st₁, hslot, hrest⟩ := StatefulRuns.of_bind_ok h
    rcases slotValue_ok (φ := φ) hc hv hnull hslot with ⟨hr, rfl, rfl⟩ | ⟨hr, os, hos, hres⟩
    · cases hrest
      refine hp.pass hnew (children_of_isReference hr) (by simp [firstView, hr]) rfl rfl ?_
      simp only [hr, if_true, openReference, isReferences_eq hv.admits hr,
        Derivation.name_featureOf, Derivation.isMany_featureOf]
    · obtain ⟨rfl, hmade, hfree⟩ := mapM_convert v.children hcs hnum.2 hos
      have hsub := sublist_listings fun d hd => (hcs d hd).1
      rw [hres rfl] at hrest
      cases hrest
      refine hp.store hφ hname hnew (by simp [firstView, hr, fullView, hnull]) hnum.1 hnum.2 hmade
        ((hsub.map φ).nodup (hnum.2.nodup_map cost_pos)) (fun d hd => ?_) ?_ rfl rfl
      · exact ⟨(hnum.2.bounds (hsub.subset hd)).1, hfree d hd⟩
      · rw [Derivation.name_featureOf]

/-- What the slots of a node have to satisfy for the features of its class. -/
def NodeFits (c : TypeCatalog) (package uri : String) (f : Forest) (y : NodeId)
    (fs : List Feature) : Prop :=
  ∀ name v, f.slot? y name = some v → ∃ p : Property, p.name = name ∧ name ≠ "position" ∧
    fs.find? (·.name = p.name) = some (Derivation.featureOf package uri p) ∧ SlotFits c package p v

theorem convertSlots_ok (hc : c.WellKept) {k : Nat} {y : NodeId} {fs : List Feature}
    (hy : NodeFits c package uri f y fs) {st₀ : State} (hφ : φ y = st₀.store.size)
    (hcs : ∀ d ∈ f.children y, HeightAtMost f.children k d ∧
      Converts (Derivation.model c package uri) f uri φ k d)
    (hnum : Numbered φ (cost f) (st₀.store.size + cost f y)
      (listings f.children k (inSlots (f.get y).slots.entries)))
    (rest done : List (String × Value)) (hall : (f.get y).slots.entries = done ++ rest)
    {st st' : State} (hp : Partial (Derivation.model c package uri) f uri φ k y done st₀ st)
    (h : (rest.forM fun (name, v) => convertSlot (Derivation.model c package uri)
      (classRef f uri y) fs (φ y) (convert f (Derivation.model c package uri) .default k) name v :
        Convert Unit) st = .ok () st') :
    Partial (Derivation.model c package uri) f uri φ k y (f.get y).slots.entries st₀ st' := by
  induction rest generalizing done st with
  | nil =>
    cases h
    rw [hall, List.append_nil]
    exact hp
  | cons e rest ih =>
    obtain ⟨name, v⟩ := e
    have hall' : (f.get y).slots.entries = (done ++ [(name, v)]) ++ rest := by
      rw [hall, List.append_assoc, List.singleton_append]
    have hslot : f.slot? y name = some v := Table.get?_eq_some_iff.2 (by rw [hall]; simp)
    have hnew : name ∉ done.map Prod.fst := by
      have hn := (f.get y).slots.nodup
      rw [hall, List.map_append, List.nodup_append] at hn
      exact fun hm => hn.2.2 _ hm _ (by simp) rfl
    obtain ⟨p, rfl, hname, hfind, hfits⟩ := hy name v hslot
    rw [hall', inSlots, List.flatMap_append, listings_append, numbered_append] at hnum
    obtain ⟨st₁, hstep, hrest⟩ := StatefulRuns.of_forM_cons_ok h
    have hbelow : ∀ d ∈ v.children, d ∈ f.children y := fun d hd =>
      Forest.mem_children_iff.2 ⟨p.name, Forest.mem_childrenIn_iff.2 ⟨v, hslot, hd⟩⟩
    have hp₁ := convertSlot_ok hc hfind hfits hp hφ hname hnew (fun d hd => hcs d (hbelow d hd))
      hnum.1 hstep
    exact ih (done ++ [(p.name, v)]) hall' hp₁ hrest

theorem partial_nil {k : Nat} {y : NodeId} {st₀ : State} {s : ObjectStore}
    (hsize : s.size = st₀.store.size + cost f y)
    (hkept : ∀ j < st₀.store.size, s.get j = st₀.store.get j)
    (htype : (s.get (φ y)).type = classRef f uri y) (hposition : ShowsPosition f φ s y)
    (hvalues : ∀ name, name ≠ "position" → s.value? (φ y) name = none)
    (hfree : (s.get (φ y)).container = none) :
    Partial m f uri φ k y [] st₀ ⟨s, st₀.created.insert y (φ y), st₀.pending⟩ := by
  refine ⟨?_, hkept, htype, hposition, hvalues, hfree, by simp [listings, inSlots], fun z => ?_,
    [], by simp, by simp [IsOpen, listings, inSlots]⟩
  · rw [hsize]
    simp [listings, inSlots, totalCost]
  · rw [Table.get?_insert]
    by_cases hz : z = y
    · simp [hz]
    · have hz' : ¬ y = z := fun e => hz e.symm
      simp [hz, hz', listings, inSlots]

theorem convertPosition_ok {k : Nat} {y : NodeId} {fs : List Feature}
    (hroom : fs.any (·.name = "position") = true) {st₀ st : State} (hφ : φ y = st₀.store.size)
    (h : convertPosition .default fs (φ y) (f.position y)
      ⟨(st₀.store.newObject (classRef f uri y)).2, st₀.created.insert y (φ y), st₀.pending⟩ =
        .ok () st) : Partial (Derivation.model c package uri) f uri φ k y [] st₀ st := by
  obtain ⟨s₁, hs₁⟩ : ∃ s₁, s₁ = (st₀.store.newObject (classRef f uri y)).2 := ⟨_, rfl⟩
  rw [← hs₁] at h
  have hsize₁ : s₁.size = st₀.store.size + 1 := by simp [hs₁]
  have hget₁ : s₁.get (φ y) = .ofType (classRef f uri y) := by
    rw [hs₁, hφ, ObjectStore.get_newObject_self]
  have hempty : ∀ g, s₁.value? (φ y) g = none := fun g => by
    rw [ObjectStore.value?, hget₁]
    rfl
  have hold : ∀ j < st₀.store.size, s₁.get j = st₀.store.get j := fun j hj => by
    rw [hs₁, ObjectStore.get_newObject_of_lt _ hj]
  cases hpos : f.position y with
  | none =>
    rw [hpos] at h
    cases h
    exact partial_nil (by simp [cost, hpos, hsize₁]) hold (by rw [hget₁]; rfl)
      (by simp only [ShowsPosition, hpos, hempty]) (fun name _ => hempty name)
      (by rw [hget₁]; rfl)
  | some p =>
    rw [hpos] at h
    simp only [convertPosition, hroom, ConversionOptions.default, Bool.and_self, if_true] at h
    obtain ⟨o, st₁, hmake, hset⟩ := StatefulRuns.of_bind_ok h
    obtain ⟨s₂, hs₂⟩ : ∃ s₂, positionObject p s₁ = (s₁.size, s₂) :=
      ⟨_, Prod.ext (positionObject_spec s₁ p).1 rfl⟩
    obtain ⟨-, hsize₂, hget₂, hfree₂, hat⟩ := positionObject_spec s₁ p
    simp only [hs₂] at hsize₂ hget₂ hfree₂ hat
    simp only [onStore, hs₂, EStateM.Result.ok.injEq] at hmake
    obtain ⟨rfl, rfl⟩ := hmake
    simp only [setValue, onStore, EStateM.Result.ok.injEq, true_and] at hset
    have hlt : φ y < s₁.size := by omega
    have hplace : s₁.size = φ y + 1 := by omega
    have hgety : s₂.get (φ y) = s₁.get (φ y) := hget₂ _ hlt
    have hval : ∀ g, s₂.value? (φ y) g = none := fun g => by
      rw [ObjectStore.value?, hgety]
      exact hempty g
    obtain ⟨hvalue, hother, hcont, hrest⟩ :=
      s₂.set_contained (by omega) (Nat.ne_of_lt hlt) hfree₂ (hval "position")
    subst hset
    refine partial_nil ?_ (fun j hj => ?_) ?_ ?_ (fun name hname => ?_) ?_
    · rw [ObjectStore.size_set, hsize₂, hsize₁]
      simp [cost, hpos]
    · rw [hother j (by omega) (by omega), hget₂ j (by omega), hold j hj]
    · rw [(hrest _).1, hgety, hget₁]
      rfl
    · simp only [ShowsPosition, hpos, hvalue, and_self, if_true]
      refine ⟨by rw [hplace], ?_⟩
      rw [← hplace]
      exact hat.congr fun j h₁ _ => ⟨(hrest j).1, (hrest j).2 (by omega)⟩
    · rw [hvalue, if_neg fun h => hname h.2, hval]
    · rw [hcont, hgety, hget₁]
      rfl

/-- A node whose type is registered and whose slots fit it. -/
structure Ready (c : TypeCatalog) (package : String) (f : Forest) (y : NodeId) : Prop where
  registered : c.get? (f.get y).type.name = some (f.get y).type
  inPackage : (f.get y).type.name.package = package
  slots : ∀ name v, f.slot? y name = some v → ∃ p ∈ (f.get y).type.properties,
    p.name = name ∧ name ≠ "position" ∧ SlotFits c package p v

theorem Ready.position {y : NodeId} (hy : Ready c package f y) : f.slot? y "position" = none := by
  cases hs : f.slot? y "position" with
  | none => rfl
  | some v =>
    obtain ⟨p, -, -, hne, -⟩ := hy.slots _ v hs
    exact absurd rfl hne

theorem Ready.nodeFits (hc : c.WellKept) (hu : Derivation.Fresh package uri) {y : NodeId}
    (hy : Ready c package f y) {fs : List Feature}
    (h : (Derivation.model c package uri).features (classRef f uri y) = .ok fs) :
    NodeFits c package uri f y fs ∧ fs.any (·.name = "position") = true := by
  obtain ⟨hall, hroom⟩ := Derivation.find?_features_model hc hu hy.registered hy.inPackage h
  refine ⟨fun name v hv => ?_, hroom⟩
  obtain ⟨p, hp, hname, hne, hfits⟩ := hy.slots name v hv
  exact ⟨p, hname, hne, hall p hp, hfits⟩

theorem listing_children (k : Nat) (y : NodeId) : listing f.children (k + 1) y =
    y :: listings f.children k (inSlots (f.get y).slots.entries) := by
  simp [listing, listings, inSlots, Forest.children, Node.children, Table.values,
    List.flatMap_map]

theorem Partial.made {k : Nat} {y : NodeId} {st₀ st : State}
    (hp : Partial m f uri φ k y (f.get y).slots.entries st₀ st)
    (hfeatures : ∃ os, m.ownedFeatures (classRef f uri y) = .ok os) :
    Made m f uri φ (listing f.children (k + 1) y) st₀ st := by
  rw [listing_children]
  refine ⟨?_, hp.kept, fun z hz => ?_, fun z => ?_, ?_⟩
  · rw [hp.size, totalCost_cons, Nat.add_assoc]
  · rcases List.mem_cons.1 hz with rfl | hz
    · exact ⟨hp.type, hfeatures, hp.position, hp.values⟩
    · exact hp.shown z hz
  · simp only [hp.created, List.mem_cons]
  · obtain ⟨ps, hps, hmem⟩ := hp.pending
    refine ⟨ps, hps, fun q => ?_⟩
    rw [hmem]
    simp

/-- Every conversion that succeeds makes exactly the objects of the tree. -/
theorem converts (hc : c.WellKept) (hu : Derivation.Fresh package uri) {k : Nat} {y : NodeId}
    (hheight : HeightAtMost f.children k y)
    (hready : ∀ z ∈ listing f.children k y, Ready c package f z) :
    Converts (Derivation.model c package uri) f uri φ k y := by
  induction k generalizing y with
  | zero => exact hheight.elim
  | succ k ih =>
    intro st o st' hnum h
    have hy := hready y (self_mem_listing hheight)
    have hcs : ∀ d ∈ f.children y, HeightAtMost f.children k d ∧
        Converts (Derivation.model c package uri) f uri φ k d := fun d hd =>
      ⟨hheight d hd, ih (hheight d hd) fun z hz =>
        hready z (mem_listing_succ.2 (.inr ⟨d, hd, hz⟩))⟩
    rw [convert] at h
    obtain ⟨r, st₁, hlift₁, h₁⟩ := StatefulRuns.of_bind_ok h
    obtain ⟨hclass, rfl⟩ := lift_ok hlift₁
    have hr : r = classRef f uri y := by
      have hnamed := Derivation.classNamed?_model hc.toNamed hu hy.registered hy.inPackage
      rw [classOf, hy.inPackage, hnamed] at hclass
      exact (Except.ok.inj hclass).symm
    subst hr
    obtain ⟨fs, st₂, hlift₂, h₂⟩ := StatefulRuns.of_bind_ok h₁
    obtain ⟨hmapped, rfl⟩ := lift_ok hlift₂
    have hfeatures : (Derivation.model c package uri).features (classRef f uri y) = .ok fs := by
      cases he : (Derivation.model c package uri).features (classRef f uri y) with
      | error e => rw [he] at hmapped; cases hmapped
      | ok gs => rw [he] at hmapped; exact congrArg Except.ok (Except.ok.inj hmapped)
    obtain ⟨hfits, hroom⟩ := hy.nodeFits hc hu hfeatures
    rw [listing_children] at hnum
    obtain ⟨object, st₃, hnew, h₃⟩ := StatefulRuns.of_bind_ok h₂
    have hobject : object = φ y ∧
        st₃ = ⟨(st₂.store.newObject (classRef f uri y)).2, st₂.created, st₂.pending⟩ := by
      cases hnew
      exact ⟨hnum.1.symm, rfl⟩
    obtain ⟨rfl, rfl⟩ := hobject
    obtain ⟨_, st₄, hinsert, h₄⟩ := StatefulRuns.of_bind_ok h₃
    cases hinsert
    obtain ⟨_, st₅, hposition, h₅⟩ := StatefulRuns.of_bind_ok h₄
    obtain ⟨_, st₆, hslots, h₆⟩ := StatefulRuns.of_bind_ok h₅
    cases h₆
    have hstart : Partial (Derivation.model c package uri) f uri φ k y [] st₂ st₅ :=
      convertPosition_ok hroom hnum.1 hposition
    have hend := convertSlots_ok hc hfits hnum.1 hcs hnum.2 _ [] rfl hstart hslots
    obtain ⟨os, hos, -⟩ := Metamodel.features_eq_ok.1 hfeatures
    exact ⟨rfl, hend.made ⟨os, hos⟩, hend.free⟩

end Steps

/-- Where a conversion into `s` with the root `r` stands when the references in `rest` still wait. -/
structure Settling (m : Metamodel) (f : Forest) (uri : String) (φ : NodeId → Nat)
    (L : List NodeId) (s : ObjectStore) (r : ObjectId) (rest : List Pending) (st : State) :
    Prop where
  total : st.store.size = s.size + totalCost (cost f) L
  kept : ∀ j < s.size, st.store.get j = s.get j
  free : (st.store.get r).container = none
  created : ∀ y ∈ L, st.created.get? y = some (φ y)
  type : ∀ y ∈ L, (st.store.get (φ y)).type = classRef f uri y
  features : ∀ y ∈ L, ∃ os, m.ownedFeatures (classRef f uri y) = .ok os
  position : ∀ y ∈ L, ShowsPosition f φ st.store y
  values : ∀ y ∈ L, ∀ name, name ≠ "position" →
    st.store.value? (φ y) name = (f.slot? y name).bind (fullView φ) ∨
      st.store.value? (φ y) name = none ∧ ∃ v, f.slot? y name = some v ∧
        v.isReference = true ∧ openReference f uri φ y name v ∈ rest

theorem Settling.bounds {L : List NodeId} {s : ObjectStore} {r : ObjectId} {rest : List Pending}
    {st : State} (h : Settling m f uri φ L s r rest st) (hnum : Numbered φ (cost f) s.size L)
    {y : NodeId} (hy : y ∈ L) : s.size ≤ φ y ∧ φ y + cost f y ≤ st.store.size := by
  rw [h.total]
  exact hnum.bounds hy

theorem Made.settling {L : List NodeId} {s : ObjectStore} {r : ObjectId} {st : State}
    (h : Made m f uri φ L ⟨s, .empty, []⟩ st) (hfree : (st.store.get r).container = none) :
    Settling m f uri φ L s r st.pending st := by
  refine ⟨h.size, h.kept, hfree, fun y hy => by rw [h.created, if_pos hy],
    fun y hy => (h.shown y hy).type, fun y hy => (h.shown y hy).features,
    fun y hy => (h.shown y hy).position, fun y hy name hname => ?_⟩
  rw [(h.shown y hy).values name hname]
  cases hv : f.slot? y name with
  | none => exact .inl rfl
  | some v =>
    by_cases hr : v.isReference = true
    · right
      obtain ⟨ps, hps, hmem⟩ := h.pending
      refine ⟨by simp [firstView, hr], v, rfl, hr, ?_⟩
      rw [hps, List.nil_append, hmem]
      exact ⟨y, hy, name, v, Table.get?_eq_some_iff.1 hv, hr, rfl⟩
    · left
      simp [firstView, hr]

theorem referenceValue_eq {v : Value} (h : v.isReference = true) :
    (if v.isReferences then FeatureValue.references (v.targets.map φ)
      else ((v.targets.map φ).head?.map .reference).getD .null) = v.depict φ := by
  cases v with
  | reference id => rfl
  | references ids => rfl
  | _ => cases h

section Settling

variable {L : List NodeId} {s : ObjectStore} {r : ObjectId}

theorem Settling.settle {rest : List Pending} {st : State} {y : NodeId} {name : String} {v : Value}
    (h : Settling m f uri φ L s r (openReference f uri φ y name v :: rest) st)
    (hnum : Numbered φ (cost f) s.size L) (hy : y ∈ L) (hv : f.slot? y name = some v)
    (hr : v.isReference = true) (hname : name ≠ "position") (htargets : v.targets ⊆ L) :
    ∃ st', settle .default (openReference f uri φ y name v) st = .ok () st' ∧
      Settling m f uri φ L s r rest st' := by
  have hids : v.targets.filterMap st.created.get? = v.targets.map φ := by
    have hfound := Table.filterMap_get?_map (k := id) fun z hz => h.created z (htargets hz)
    rwa [List.map_id] at hfound
  refine ⟨⟨st.store.set (φ y) name (v.depict φ), st.created, st.pending⟩, ?_, ?_⟩
  · rw [← referenceValue_eq hr, ← hids]
    rfl
  have hbounds := h.bounds hnum hy
  have hpos := cost_pos (f := f) y
  have hsep : ∀ z ∈ L, z ≠ y → φ y < φ z ∨ φ z + cost f z ≤ φ y := by
    intro z hz hzy
    have hapart := hnum.separate hz hy hzy
    omega
  have hflat : (v.depict φ).children = [] := by
    rw [Value.children_depict, children_of_isReference hr]
    rfl
  have hn : (v.depict φ).children.Nodup := by rw [hflat]; exact List.nodup_nil
  have hfree : ∀ e ∈ (v.depict φ).children, (st.store.get e).container = none := by
    rw [hflat]
    simp
  have hfull : fullView φ v = some (v.depict φ) := by
    cases v <;> simp_all [fullView, Value.isNull, Value.isReference]
  have hnone : st.store.contentsIn (φ y) name = [] := by
    rcases h.values y hy name hname with hval | ⟨hval, -⟩
    · rw [hv, Option.bind_some, hfull] at hval
      rw [ObjectStore.contentsIn_eq hval, hflat]
    · exact ObjectStore.contentsIn_eq_nil hval
  have hset := ObjectStore.set_fresh hn hfree hnone
  have hvalue := ObjectStore.value?_set_fresh hn hfree hnone
  refine ⟨?_, fun j hj => ?_, ?_, h.created, fun z hz => ?_, h.features, fun z hz => ?_,
    fun z hz g hg => ?_⟩
  · rw [ObjectStore.size_set, h.total]
  · have hne : j ≠ φ y := by omega
    rw [ObjectStore.get_set_fresh hn hfree hnone hne (by simp [hflat]), h.kept j hj]
  · rw [(hset r).2.2, if_neg (by simp [hflat]), h.free]
  · rw [(hset _).1, h.type z hz]
  · refine (h.position z hz).congr ?_ fun j h₁ h₂ => ⟨(hset j).1, ?_⟩
    · rw [hvalue, if_neg fun e => hname e.2.1.symm]
    · rw [(hset j).2.1, if_neg]
      rintro ⟨rfl, -⟩
      by_cases hzy : z = y
      · rw [hzy] at h₁
        omega
      · have := hsep z hz hzy
        omega
  · rw [hvalue]
    by_cases hsame : φ z = φ y ∧ g = name ∧ φ y < st.store.size
    · have hzy : z = y := by
        by_contra hne
        have := hsep z hz hne
        have hpos := cost_pos (f := f) z
        have heq : φ z = φ y := hsame.1
        omega
      rw [if_pos hsame, hzy, hsame.2.1, hv, Option.bind_some, hfull]
      exact .inl rfl
    · rw [if_neg hsame]
      rcases h.values z hz g hg with hval | ⟨hval, w, hw, hwr, hmem⟩
      · exact .inl hval
      · refine .inr ⟨hval, w, hw, hwr, ?_⟩
        rcases List.mem_cons.1 hmem with he | hmem
        · simp only [openReference, Pending.mk.injEq] at he
          exact absurd ⟨he.1, he.2.2.1, by omega⟩ hsame
        · exact hmem

theorem Settling.settle_all (hnum : Numbered φ (cost f) s.size L)
    (ps : List Pending) (hps : ∀ q ∈ ps, ∃ y ∈ L, ∃ name v, f.slot? y name = some v ∧
      v.isReference = true ∧ name ≠ "position" ∧ v.targets ⊆ L ∧ q = openReference f uri φ y name v)
    {st : State} (h : Settling m f uri φ L s r ps st) :
    ∃ st', (ps.forM (ToObjects.settle .default) : Convert Unit) st = .ok () st' ∧
      Settling m f uri φ L s r [] st' := by
  induction ps generalizing st with
  | nil => exact ⟨st, rfl, h⟩
  | cons q ps ih =>
    obtain ⟨y, hy, name, v, hv, hr, hname, htargets, rfl⟩ := hps q (by simp)
    obtain ⟨st₁, hstep, h₁⟩ := h.settle hnum hy hv hr hname htargets
    obtain ⟨st₂, hrest, h₂⟩ := ih (fun q hq => hps q (by simp [hq])) h₁
    exact ⟨st₂, (StatefulRuns.forM_cons_ok hstep).trans hrest, h₂⟩

theorem Settling.shows {st : State} (h : Settling m f uri φ L s r [] st) {y : NodeId}
    (hy : y ∈ L) : Shows m f uri φ (fullView φ) st.store y := by
  refine ⟨h.type y hy, h.features y hy, h.position y hy, fun name hname => ?_⟩
  rcases h.values y hy name hname with hval | ⟨-, v, -, -, hmem⟩
  · exact hval
  · cases hmem

end Settling

theorem ready_of_convertible {c : TypeCatalog} {package : String} {n : NodeId} (hf : f.IsForest)
    (hn : Convertible c package f n) {y : NodeId} (hy : y ∈ f.walk n) : Ready c package f y := by
  refine ⟨(hn.registered y hy).1, (hn.registered y hy).2, fun name v hv => ?_⟩
  have hlt := Forest.lt_size_of_slot? hv
  have hkey : name ∈ (f.get y).slots.keys := Table.mem_keys_iff.2 ⟨v, hv⟩
  rw [hf.names y hlt] at hkey
  obtain ⟨p, hp, rfl⟩ := List.mem_map.1 hkey
  exact ⟨p, hp, rfl, hn.noPosition y hy p hp, hf.shapes y hlt p hp v hv, hn.enums y hy p hp,
    fun hk => hn.values y hy p hp hk v hv⟩

/-- The objects that a conversion leaves are numbered by the walk through the tree, beside those
that were there before, and no reference waits any more. -/
theorem settled_toObjects {c : TypeCatalog} {package : String} (hc : c.WellKept)
    (hu : Derivation.Fresh package uri) (hf : f.IsForest) {n : NodeId}
    (hn : Convertible c package f n) {s t : ObjectStore} {o : ObjectId}
    (h : f.toObjects n (Derivation.model c package uri) .default s = (.ok o, t)) :
    ∃ (φ : NodeId → Nat) (st : State), t = st.store ∧ o = φ n ∧
      Numbered φ (cost f) s.size (f.walk n) ∧
      Settling (Derivation.model c package uri) f uri φ (f.walk n) s (φ n) [] st := by
  have hheight := hf.heightAtMost hn.present
  have hwalk := hf.listing_succ_eq_walk hn.present
  obtain ⟨φ, hnum⟩ := exists_numbered (cost f) s.size (hf.nodup_walk n)
  have hconv := converts (φ := φ) hc hu (hheight.mono (Nat.le_succ _)) fun y hy =>
    ready_of_convertible hf hn (hwalk ▸ hy)
  have hrun : ∃ st, convertTree f (Derivation.model c package uri) .default n ⟨s, .empty, []⟩ =
      .ok o st ∧ t = st.store := by
    unfold Forest.toObjects at h
    split at h
    · rename_i root st hrun
      obtain ⟨h₁, h₂⟩ := Prod.mk.inj h
      rw [Except.ok.inj h₁] at hrun
      exact ⟨st, hrun, h₂.symm⟩
    · cases (Prod.mk.inj h).1
  obtain ⟨st, hrun, rfl⟩ := hrun
  obtain ⟨root, st₁, hfirst, hrun₁⟩ := StatefulRuns.of_bind_ok hrun
  obtain ⟨_, st₂, hget, hrun₂⟩ := StatefulRuns.of_bind_ok hrun₁
  cases hget
  obtain ⟨_, st₃, hsettle, hlast⟩ := StatefulRuns.of_bind_ok hrun₂
  cases hlast
  rw [← hwalk] at hnum
  obtain ⟨rfl, hmade, hfree⟩ := hconv ⟨s, .empty, []⟩ o st₁ hnum hfirst
  rw [hwalk] at hmade hnum
  have hps : ∀ q ∈ st₁.pending, ∃ y ∈ f.walk n, ∃ name v, f.slot? y name = some v ∧
      v.isReference = true ∧ name ≠ "position" ∧ v.targets ⊆ f.walk n ∧
      q = openReference f uri φ y name v := by
    obtain ⟨ps, hps, hmem⟩ := hmade.pending
    intro q hq
    rw [hps, List.nil_append, hmem] at hq
    obtain ⟨y, hy, name, v, hv, hr, rfl⟩ := hq
    have hslot : f.slot? y name = some v := Table.get?_eq_some_iff.2 hv
    obtain ⟨p, hp, hpn, hne, -⟩ := (ready_of_convertible hf hn hy).slots name v hslot
    exact ⟨y, hy, name, v, hslot, hr, hne, fun t ht => hn.references y hy name v hslot t ht, rfl⟩
  obtain ⟨st₄, hsettle', hdone⟩ := (hmade.settling hfree).settle_all hnum st₁.pending hps
  cases hsettle.symm.trans hsettle'
  exact ⟨φ, st, rfl, rfl, hnum, hdone⟩

/-- The objects that a conversion leaves can be read as the nodes of the tree. -/
theorem shows_toObjects {c : TypeCatalog} {package : String} (hc : c.WellKept)
    (hu : Derivation.Fresh package uri) (hf : f.IsForest) {n : NodeId}
    (hn : Convertible c package f n) {s t : ObjectStore} {o : ObjectId}
    (h : f.toObjects n (Derivation.model c package uri) .default s = (.ok o, t)) :
    ∃ φ : NodeId → Nat, o = φ n ∧ (∀ y ∈ f.walk n, ∀ z ∈ f.walk n, φ y = φ z → y = z) ∧
      (f.walk n).length ≤ t.size ∧
      ∀ y ∈ f.walk n, Pictures (Derivation.model c package uri) f uri φ t y := by
  obtain ⟨φ, st, rfl, rfl, hnum, hdone⟩ := settled_toObjects hc hu hf hn h
  have hnodup := hnum.nodup_map cost_pos
  refine ⟨φ, rfl, fun y hy z hz => List.inj_on_of_nodup_map hnodup hy hz, ?_,
    fun y hy => (hdone.shows hy).pictures⟩
  have hin : (f.walk n).map φ ⊆ List.range st.store.size := by
    intro e he
    obtain ⟨y, hy, rfl⟩ := List.mem_map.1 he
    have hbounds := hdone.bounds hnum hy
    have hpos := cost_pos (f := f) y
    exact List.mem_range.2 (by omega)
  have hle := List.Nodup.length_le_of_subset hnodup hin
  rwa [List.length_map, List.length_range] at hle

end TreeInterchange.ToObjects
