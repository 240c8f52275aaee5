import TreeInterchange.Proofs.ConversionToObjects
import TreeInterchange.Proofs.ForestAttachments

/-!
# The nodes that objects are converted to

Objects that show the nodes of a tree are converted without fail, into any forest. The new
nodes are numbered by the walk through the tree in the order in which the objects store their
values. At first the references of a node are empty and wait, as in the other direction.

A new node has no parent until it is complete, so nothing stands in the way of the edits that
fill it.
-/

namespace TreeInterchange.ToNodes

open ToObjects (Pictures SlotFits fullView classRef Ready)

variable (f : Forest) (t : ObjectStore) (φ ψ : NodeId → Nat)

/-- The children of a node, in the order in which its object stores its values. -/
def arranged (y : NodeId) : List NodeId :=
  (t.get (φ y)).values.keys.flatMap (f.childrenIn y)

/-- The value of a slot at first, while references wait. -/
def firstSlot : Value → Value
  | .reference _ => .null
  | .references _ => .references []
  | v => v.rename ψ

/-- The node `ψ y` has the type and position of `y`, and a view of its slots. -/
structure Mirrors (view : Value → Value) (g : Forest) (y : NodeId) : Prop where
  type : (g.get (ψ y)).type = (f.get y).type
  names : (g.get (ψ y)).slots.keys = (f.get y).slots.keys
  slots : ∀ name v, f.slot? y name = some v → g.slot? (ψ y) name = some (view v)
  position : (g.get (ψ y)).position = f.position y
  origin : (g.get (ψ y)).origin = none

/-- The entry for a reference that waits. -/
def openReference (y : NodeId) (name : String) (v : Value) : Pending :=
  ⟨ψ y, (f.get y).type, name, v.targets.map φ⟩

def IsOpen (names : List String) (y : NodeId) (q : Pending) : Prop :=
  ∃ name ∈ names, ∃ v, f.slot? y name = some v ∧ v.isReference = true ∧
    q = openReference f φ ψ y name v

def one (_ : NodeId) : Nat := 1

theorem totalCost_one (ys : List NodeId) : totalCost one ys = ys.length := by
  induction ys with
  | nil => rfl
  | cons y ys ih => rw [totalCost_cons, ih, List.length_cons, one, Nat.add_comm]

/-- From one state to another exactly the nodes for `L` were made; `W` is the whole tree. -/
structure Grown (W L : List NodeId) (st st' : State) : Prop where
  size : st'.forest.size = st.forest.size + totalCost one L
  kept : ∀ j < st.forest.size, st'.forest.get j = st.forest.get j
  mirrored : ∀ y ∈ L, Mirrors f ψ (firstSlot ψ) st'.forest y
  created : ∀ z ∈ W, st'.created.get? (φ z) = if z ∈ L then some (ψ z) else st.created.get? (φ z)
  pending : ∃ ps, st'.pending = st.pending ++ ps ∧ ps.Nodup ∧ ∀ q, q ∈ ps ↔
    ∃ y ∈ L, IsOpen f φ ψ (t.get (φ y)).values.keys y q

variable {f t φ ψ}

theorem Mirrors.congr {view : Value → Value} {g h : Forest} {y : NodeId}
    (hm : Mirrors f ψ view g y) (htype : (h.get (ψ y)).type = (g.get (ψ y)).type)
    (hslots : (h.get (ψ y)).slots = (g.get (ψ y)).slots)
    (hpos : (h.get (ψ y)).position = (g.get (ψ y)).position)
    (horigin : (h.get (ψ y)).origin = (g.get (ψ y)).origin) : Mirrors f ψ view h y := by
  refine ⟨htype.trans hm.type, by rw [hslots, hm.names], fun name v hv => ?_,
    hpos.trans hm.position, horigin.trans hm.origin⟩
  rw [Forest.slot?, hslots]
  exact hm.slots name v hv

theorem Grown.refl (W : List NodeId) (st : State) : Grown f t φ ψ W [] st st :=
  ⟨by simp [totalCost], fun _ _ => rfl, by simp, by simp, [], by simp, List.nodup_nil, by simp⟩

theorem IsOpen.node {names : List String} {y : NodeId} {q : Pending}
    (h : IsOpen f φ ψ names y q) : q.node = ψ y := by
  obtain ⟨name, -, v, -, -, rfl⟩ := h
  rfl

theorem Grown.trans {W L K : List NodeId} {st st₁ st₂ : State} (h : Grown f t φ ψ W L st st₁)
    (h' : Grown f t φ ψ W K st₁ st₂) (hL : Numbered ψ one st.forest.size L)
    (hK : Numbered ψ one st₁.forest.size K) : Grown f t φ ψ W (L ++ K) st st₂ := by
  obtain ⟨ps, hps, hn, hmem⟩ := h.pending
  obtain ⟨qs, hqs, hn', hmem'⟩ := h'.pending
  refine ⟨?_, fun j hj => ?_, fun y hy => ?_, fun z hz => ?_, ps ++ qs, ?_, ?_, fun q => ?_⟩
  · rw [h'.size, h.size, totalCost_append, Nat.add_assoc]
  · rw [h'.kept j (by have := h.size; omega), h.kept j hj]
  · rcases List.mem_append.1 hy with hy | hy
    · have hb := hL.bounds hy
      rw [← h.size] at hb
      have hsame := h'.kept (ψ y) (Nat.lt_of_succ_le hb.2)
      exact (h.mirrored y hy).congr (by rw [hsame]) (by rw [hsame]) (by rw [hsame]) (by rw [hsame])
    · exact h'.mirrored y hy
  · rw [h'.created z hz, h.created z hz]
    by_cases hK : z ∈ K <;> by_cases hL : z ∈ L <;> simp [hK, hL]
  · rw [hqs, hps, List.append_assoc]
  · refine List.nodup_append.2 ⟨hn, hn', fun q hq r hr hqr => ?_⟩
    subst hqr
    obtain ⟨y, hy, hopen⟩ := (hmem q).1 hq
    obtain ⟨z, hz, hopen'⟩ := (hmem' q).1 hr
    have hb := (hL.bounds hy).2
    have hb' := (hK.bounds hz).1
    rw [← h.size] at hb
    have hnode : ψ y = ψ z := hopen.node.symm.trans hopen'.node
    simp only [one] at hb
    omega
  · rw [List.mem_append, hmem, hmem']
    simp only [List.mem_append, or_and_right, exists_or]

/-- Converting the object of `y` makes exactly the nodes of its tree. -/
def Grows (m : Metamodel) (c : TypeCatalog) (f : Forest) (t : ObjectStore) (φ ψ : NodeId → Nat)
    (W : List NodeId) (k : Nat) (y : NodeId) : Prop :=
  ∀ st, Numbered ψ one st.forest.size (listing (arranged f t φ) k y) →
    ∃ st', convert t m c .default k (φ y) st = .ok (ψ y) st' ∧
      Grown f t φ ψ W (listing (arranged f t φ) k y) st st' ∧
      (st'.forest.get (ψ y)).holder = none

theorem mapM_convert {m : Metamodel} {c : TypeCatalog} {W : List NodeId} {k : Nat}
    (cs : List NodeId)
    (hcs : ∀ d ∈ cs, HeightAtMost (arranged f t φ) k d ∧ Grows m c f t φ ψ W k d) {st : State}
    (hnum : Numbered ψ one st.forest.size (listings (arranged f t φ) k cs)) :
    ∃ st', (cs.map φ).mapM (convert t m c .default k) st = .ok (cs.map ψ) st' ∧
      Grown f t φ ψ W (listings (arranged f t φ) k cs) st st' ∧
      ∀ d ∈ cs, (st'.forest.get (ψ d)).holder = none := by
  induction cs generalizing st with
  | nil => exact ⟨st, rfl, Grown.refl W st, by simp⟩
  | cons d cs ih =>
    rw [listings_cons, numbered_append] at hnum
    obtain ⟨hheight, hgrows⟩ := hcs d (by simp)
    obtain ⟨st₁, hrun, hgrown, hfree⟩ := hgrows st hnum.1
    rw [← hgrown.size] at hnum
    obtain ⟨st₂, hruns, hgrowns, hfrees⟩ := ih (fun e he => hcs e (by simp [he])) hnum.2
    refine ⟨st₂, StatefulRuns.mapM_cons_ok hrun hruns, ?_, fun e he => ?_⟩
    · rw [listings_cons]
      exact hgrown.trans hgrowns hnum.1 hnum.2
    · rcases List.mem_cons.1 he with rfl | he
      · have hb := (hnum.1.bounds (self_mem_listing hheight)).2
        rw [← hgrown.size] at hb
        rw [hgrowns.kept _ (Nat.lt_of_succ_le hb), hfree]
      · exact hfrees e he

def inSlots (f : Forest) (y : NodeId) (names : List String) : List NodeId :=
  names.flatMap (f.childrenIn y)

theorem inSlots_append (y : NodeId) (done : List String) (name : String) :
    inSlots f y (done ++ [name]) = inSlots f y done ++ f.childrenIn y name := by
  simp [inSlots]

/-- The values `done` of the object of `y` have been converted, and the trees that they hold. -/
structure Partial (f : Forest) (t : ObjectStore) (φ ψ : NodeId → Nat) (W : List NodeId) (k : Nat)
    (y : NodeId) (done : List String) (st₀ st : State) : Prop where
  size : st.forest.size =
    st₀.forest.size + 1 + totalCost one (listings (arranged f t φ) k (inSlots f y done))
  kept : ∀ j < st₀.forest.size, st.forest.get j = st₀.forest.get j
  type : (st.forest.get (ψ y)).type = (f.get y).type
  names : (st.forest.get (ψ y)).slots.keys = (f.get y).slots.keys
  slots : ∀ p ∈ (f.get y).type.properties, ∀ v, f.slot? y p.name = some v →
    st.forest.slot? (ψ y) p.name = some (if p.name ∈ done then firstSlot ψ v else p.emptySlot)
  position : (st.forest.get (ψ y)).position = if "position" ∈ done then f.position y else none
  origin : (st.forest.get (ψ y)).origin = none
  free : (st.forest.get (ψ y)).holder = none
  mirrored : ∀ z ∈ listings (arranged f t φ) k (inSlots f y done),
    Mirrors f ψ (firstSlot ψ) st.forest z
  created : ∀ z ∈ W, st.created.get? (φ z) =
    if z = y ∨ z ∈ listings (arranged f t φ) k (inSlots f y done) then some (ψ z)
    else st₀.created.get? (φ z)
  pending : ∃ ps, st.pending = st₀.pending ++ ps ∧ ps.Nodup ∧ ∀ q, q ∈ ps ↔
    IsOpen f φ ψ done y q ∨ ∃ z ∈ listings (arranged f t φ) k (inSlots f y done),
      IsOpen f φ ψ (t.get (φ z)).values.keys z q

theorem isOpen_append {done : List String} {name : String} {y : NodeId} {q : Pending} :
    IsOpen f φ ψ (done ++ [name]) y q ↔ IsOpen f φ ψ done y q ∨ ∃ v, f.slot? y name = some v ∧
      v.isReference = true ∧ q = openReference f φ ψ y name v := by
  simp only [IsOpen, List.mem_append, List.mem_singleton, or_and_right, exists_or, exists_eq_left]

theorem emptySlot_eq_firstSlot {p : Property} {v : Value} (ha : p.Admits v)
    (hr : v.isReference = true) : p.emptySlot = firstSlot ψ v := by
  have hnull : v.isNull = false := by cases v <;> simp_all [Value.isReference, Value.isNull]
  rcases ha.of_not_null hnull with
    ⟨-, hflat⟩ | ⟨-, ⟨-, d, rfl⟩ | ⟨-, ds, rfl⟩⟩ | ⟨hk, ⟨hm, d, rfl⟩ | ⟨hm, ds, rfl⟩⟩
  · rw [Value.isReference_eq_false hflat] at hr
    cases hr
  · cases hr
  · cases hr
  · simp [Property.emptySlot, hm, firstSlot]
  · simp [Property.emptySlot, hk, hm, firstSlot]

theorem childrenIn_of_isReference {y : NodeId} {name : String} {v : Value}
    (hv : f.slot? y name = some v) (hr : v.isReference = true) : f.childrenIn y name = [] := by
  rw [Forest.childrenIn_eq hv, ToObjects.children_of_isReference hr]

section Slots

variable {W : List NodeId} {k : Nat} {y : NodeId} {done : List String} {st₀ st : State}
  (hp : Partial f t φ ψ W k y done st₀ st)
include hp

theorem Partial.wait (hnodup : ((f.get y).type.properties.map (·.name)).Nodup) {p : Property}
    (hmem : p ∈ (f.get y).type.properties) (hname : p.name ≠ "position") (hnew : p.name ∉ done)
    {v : Value} (hv : f.slot? y p.name = some v) (ha : p.Admits v) (hr : v.isReference = true)
    (hnum : Numbered ψ one (st₀.forest.size + 1) (listings (arranged f t φ) k (inSlots f y done)))
    (hψ : ψ y = st₀.forest.size) :
    Partial f t φ ψ W k y (done ++ [p.name]) st₀
      { st with pending := st.pending ++ [openReference f φ ψ y p.name v] } := by
  have hsame : inSlots f y (done ++ [p.name]) = inSlots f y done := by
    rw [inSlots_append, childrenIn_of_isReference hv hr, List.append_nil]
  refine ⟨by rw [hsame]; exact hp.size, hp.kept, hp.type, hp.names, fun q hq w hw => ?_, ?_,
    hp.origin, hp.free, by rw [hsame]; exact hp.mirrored, by rw [hsame]; exact hp.created, ?_⟩
  · rw [hp.slots q hq w hw]
    by_cases hqd : q.name ∈ done
    · simp [hqd]
    · by_cases hqp : q.name = p.name
      · obtain rfl := Derivation.eq_of_name_eq hnodup hq hmem hqp
        rw [hv, Option.some.injEq] at hw
        simpa [hqd, ← hw] using emptySlot_eq_firstSlot ha hr
      · simp [hqd, hqp]
  · rw [hp.position]
    simp [Ne.symm hname]
  · obtain ⟨ps, hps, hn, hiff⟩ := hp.pending
    refine ⟨ps ++ [openReference f φ ψ y p.name v], ?_, ?_, fun q => ?_⟩
    · rw [hps, List.append_assoc]
    · refine List.nodup_append.2 ⟨hn, by simp, fun q hq r hr' hqr => ?_⟩
      subst hqr
      rw [List.mem_singleton] at hr'
      subst hr'
      rcases (hiff _).1 hq with ⟨g, hg, w, -, -, he⟩ | ⟨z, hz, hopen⟩
      · simp only [openReference, Pending.mk.injEq] at he
        exact hnew (he.2.2.1 ▸ hg)
      · have hb := (hnum.bounds hz).1
        have hnode : ψ y = ψ z := hopen.node
        omega
    · rw [List.mem_append, hiff, hsame, isOpen_append, hv, List.mem_singleton]
      simp only [Option.some.injEq, exists_eq_left', hr, true_and]
      exact or_right_comm

theorem Partial.place (hnone : f.slot? y "position" = none) (hψ : ψ y < st.forest.size)
    (hnum : Numbered ψ one (st₀.forest.size + 1) (listings (arranged f t φ) k (inSlots f y done)))
    (hψ₀ : ψ y = st₀.forest.size) :
    Partial f t φ ψ W k y (done ++ ["position"]) st₀
      { st with forest := st.forest.setPosition (ψ y) (f.position y) } := by
  have hget : ∀ j : Nat, (st.forest.setPosition (ψ y) (f.position y)).get j =
      if ψ y = j then { st.forest.get j with position := f.position y } else st.forest.get j := by
    intro j
    rw [Forest.setPosition, Forest.get_update]
    by_cases hj : ψ y = j
    · subst hj
      simp [hψ]
    · simp [hj]
  have hslot : ∀ g, (st.forest.setPosition (ψ y) (f.position y)).slot? (ψ y) g =
      st.forest.slot? (ψ y) g := fun g => by
    rw [Forest.slot?, hget, if_pos rfl]
    rfl
  have hsame : inSlots f y (done ++ ["position"]) = inSlots f y done := by
    rw [inSlots_append]
    simp [Forest.childrenIn, hnone]
  refine ⟨?_, fun j hj => ?_, ?_, ?_, fun p hpm v hv => ?_, ?_, ?_, ?_, fun z hz => ?_, ?_, ?_⟩
  · rw [hsame, Forest.setPosition, Forest.size_update]
    exact hp.size
  · rw [hget, if_neg (by omega), hp.kept j hj]
  · rw [hget, if_pos rfl]
    exact hp.type
  · rw [hget, if_pos rfl]
    exact hp.names
  · have hne : p.name ≠ "position" := by
      intro he
      rw [he, hnone] at hv
      cases hv
    rw [hslot, hp.slots p hpm v hv]
    simp [hne]
  · rw [hget, if_pos rfl]
    simp
  · rw [hget, if_pos rfl]
    exact hp.origin
  · rw [hget, if_pos rfl]
    exact hp.free
  · rw [hsame] at hz
    have hb := (hnum.bounds hz).1
    have hz' : (st.forest.setPosition (ψ y) (f.position y)).get (ψ z) = st.forest.get (ψ z) := by
      rw [hget, if_neg (by omega)]
    exact (hp.mirrored z hz).congr (by rw [hz']) (by rw [hz']) (by rw [hz']) (by rw [hz'])
  · rw [hsame]
    exact hp.created
  · obtain ⟨ps, hps, hn, hiff⟩ := hp.pending
    refine ⟨ps, hps, hn, fun q => ?_⟩
    rw [hiff, hsame, isOpen_append, hnone]
    simp

/-- What waits below a slot does not wait elsewhere. -/
theorem Partial.waits_apart {L : List NodeId} (hψ : ψ y = st₀.forest.size)
    (hnum : Numbered ψ one (st₀.forest.size + 1) (listings (arranged f t φ) k (inSlots f y done)))
    (hnum₁ : Numbered ψ one st.forest.size L) {q : Pending}
    (hq : IsOpen f φ ψ done y q ∨ ∃ z ∈ listings (arranged f t φ) k (inSlots f y done),
      IsOpen f φ ψ (t.get (φ z)).values.keys z q) :
    ¬ ∃ z ∈ L, IsOpen f φ ψ (t.get (φ z)).values.keys z q := by
  rintro ⟨z, hz, hopen⟩
  have hb := (hnum₁.bounds hz).1
  have hsize := hp.size
  rcases hq with hopen' | ⟨x, hx, hopen'⟩
  · have hnode : ψ y = ψ z := hopen'.node.symm.trans hopen.node
    omega
  · have hbx := (hnum.bounds hx).2
    have hnode : ψ x = ψ z := hopen'.node.symm.trans hopen.node
    simp only [one] at hbx
    omega

/-- Filling a slot, after the trees that it holds were converted in between. -/
theorem Partial.fill (hnodup : ((f.get y).type.properties.map (·.name)).Nodup) {p : Property}
    (hmem : p ∈ (f.get y).type.properties) (hname : p.name ≠ "position") {v : Value}
    (hv : f.slot? y p.name = some v) (hr : v.isReference = false) (hψ : ψ y = st₀.forest.size)
    {st₁ st₂ : State}
    (hnum : Numbered ψ one (st₀.forest.size + 1) (listings (arranged f t φ) k (inSlots f y done)))
    (hnum₁ : Numbered ψ one st.forest.size (listings (arranged f t φ) k v.children))
    (hgrown : Grown f t φ ψ W (listings (arranged f t φ) k v.children) st st₁)
    (hchildren : ∀ d ∈ v.children, st.forest.size ≤ ψ d)
    (hfilled : st₁.forest.Filled st₂.forest (ψ y) p.name (v.rename ψ))
    (hcreated : st₂.created = st₁.created) (hpend : st₂.pending = st₁.pending) :
    Partial f t φ ψ W k y (done ++ [p.name]) st₀ st₂ := by
  have hltx : ψ y < st.forest.size := by
    rw [hψ, hp.size]
    omega
  have hgety : st₁.forest.get (ψ y) = st.forest.get (ψ y) := hgrown.kept _ hltx
  have hnot : ∀ j : Nat, j < st.forest.size → j ∉ (v.rename ψ).children := by
    intro j hj hm
    rw [Value.children_rename] at hm
    obtain ⟨d, hd, rfl⟩ := List.mem_map.1 hm
    have := hchildren d hd
    omega
  have hin : f.childrenIn y p.name = v.children := Forest.childrenIn_eq hv
  have hsame : inSlots f y (done ++ [p.name]) = inSlots f y done ++ v.children := by
    rw [inSlots_append, hin]
  have hfirst : firstSlot ψ v = v.rename ψ := by
    cases v <;> simp_all [firstSlot, Value.isReference]
  -- what is below `y` keeps everything but holders
  have hkeep : ∀ z, ψ z ≠ ψ y → Mirrors f ψ (firstSlot ψ) st₁.forest z →
      Mirrors f ψ (firstSlot ψ) st₂.forest z := fun z hz hm =>
    hm.congr (hfilled.type _) (hfilled.slots_of_ne hz) (hfilled.position _) (hfilled.origin _)
  refine ⟨?_, fun j hj => ?_, ?_, ?_, fun q hq w hw => ?_, ?_, ?_, ?_, fun z hz => ?_,
    fun z hz => ?_, ?_⟩
  · rw [hfilled.size, hgrown.size, hp.size, hsame, listings_append, totalCost_append]
    omega
  · have hjs : j < st.forest.size := by
      rw [hp.size]
      omega
    have hjy : j ≠ ψ y := Nat.ne_of_lt (hψ ▸ hj)
    rw [hfilled.get_of_ne hjy (hnot j hjs), hgrown.kept j hjs, hp.kept j hj]
  · rw [hfilled.type, hgety, hp.type]
  · have hkey : p.name ∈ (st₁.forest.get (ψ y)).slots.keys := by
      rw [hgety, hp.names]
      exact Table.mem_keys_iff.2 ⟨v, hv⟩
    rw [hfilled.slots_self, Table.keys_insert_of_mem hkey, hgety, hp.names]
  · rw [hfilled.slot?]
    by_cases hqp : q.name = p.name
    · obtain rfl := Derivation.eq_of_name_eq hnodup hq hmem hqp
      rw [hv, Option.some.injEq] at hw
      simp [← hw, hfirst]
    · have hst : st₁.forest.slot? (ψ y) q.name = st.forest.slot? (ψ y) q.name := by
        rw [Forest.slot?, hgety]
        rfl
      rw [if_neg fun h => hqp h.2, hst, hp.slots q hq w hw]
      simp [hqp]
  · rw [hfilled.position, hgety, hp.position]
    simp [Ne.symm hname]
  · rw [hfilled.origin, hgety, hp.origin]
  · rw [hfilled.holder, if_neg (hnot _ hltx), hgety, hp.free]
  · rw [hsame, listings_append] at hz
    rcases List.mem_append.1 hz with hz | hz
    · have hb := hnum.bounds hz
      have hlt : ψ z < st.forest.size := by
        rw [hp.size]
        exact Nat.lt_of_succ_le hb.2
      have hz' := hgrown.kept _ hlt
      apply hkeep z (by omega)
      exact (hp.mirrored z hz).congr (by rw [hz']) (by rw [hz']) (by rw [hz']) (by rw [hz'])
    · have hb := hnum₁.bounds hz
      exact hkeep z (by omega) (hgrown.mirrored z hz)
  · rw [hcreated, hgrown.created z hz, hp.created z hz, hsame, listings_append, ite_mem_append]
  · obtain ⟨ps, hps, hn, hiff⟩ := hp.pending
    obtain ⟨qs, hqs, hn', hiff'⟩ := hgrown.pending
    refine ⟨ps ++ qs, ?_, ?_, fun q => ?_⟩
    · rw [hpend, hqs, hps, List.append_assoc]
    · refine List.nodup_append.2 ⟨hn, hn', fun q hq r hr' hqr => ?_⟩
      subst hqr
      exact hp.waits_apart hψ hnum hnum₁ ((hiff q).1 hq) ((hiff' q).1 hr')
    · rw [List.mem_append, hiff, hiff', isOpen_append, hsame, listings_append, hv]
      simp only [Option.some.injEq, exists_eq_left', hr, Bool.false_eq_true, false_and, or_false,
        List.mem_append, or_and_right, exists_or, or_assoc]

end Slots

theorem edit_ok {α : Type} {e : Edit α} {a : α} {st : State} {g : Forest}
    (h : e st.forest = .ok a g) : edit e st = .ok a { st with forest := g } := by
  simp only [edit, h]

theorem edit_error {α : Type} {e : Edit α} {err : ModelError} {st : State} {g : Forest}
    (h : e st.forest = .error err g) : edit e st = .error (.model err) { st with forest := g } := by
  simp only [edit, h]

theorem ends_lift {α : Type} {allowed : ConversionError → Prop} {x : Except ConversionError α}
    {result : α → Prop} (h : StatefulRuns.Gives allowed result x) (st : State) :
    StatefulRuns.Ends allowed (fun a st' => result a ∧ st' = st) (lift x) st := by
  cases x with
  | ok a => exact StatefulRuns.ends_ok rfl ⟨h, rfl⟩
  | error e => exact StatefulRuns.ends_error rfl h

section Steps

variable {c : TypeCatalog} {package uri : String} {W : List NodeId} {k : Nat} {y : NodeId}
  {done : List String} {st₀ st : State} (hp : Partial f t φ ψ W k y done st₀ st)
include hp

theorem setChildren_ok {p : Property} {v : Value}
    (hprop : (f.get y).type.property? p.name = some p)
    (hv : f.slot? y p.name = some v) (hk : p.kind = .child)
    (hshape : (p.multiple = false ∧ ∃ d, v = .node d) ∨ (p.multiple = true ∧ ∃ ds, v = .nodes ds))
    (hnew : p.name ∉ done) (hψ : ψ y = st₀.forest.size)
    {st₁ : State} (hgrown : Grown f t φ ψ W (listings (arranged f t φ) k v.children) st st₁)
    (hsub : v.children.Sublist (listings (arranged f t φ) k v.children))
    (hnum₁ : Numbered ψ one st.forest.size (listings (arranged f t φ) k v.children))
    (hfree : ∀ d ∈ v.children, (st₁.forest.get (ψ d)).holder = none) :
    ∃ g, setChildren (ψ y) p (v.children.map ψ) st₁ = .ok () { st₁ with forest := g } ∧
      st₁.forest.Filled g (ψ y) p.name (v.rename ψ) := by
  have hltx : ψ y < st.forest.size := by
    rw [hψ, hp.size]
    omega
  have hgety : st₁.forest.get (ψ y) = st.forest.get (ψ y) := hgrown.kept _ hltx
  have hprop₁ : (st₁.forest.get (ψ y)).type.property? p.name = some p := by
    rw [hgety, hp.type]
    exact hprop
  have hroot : (st₁.forest.get (ψ y)).holder = none := by rw [hgety, hp.free]
  have hempty : st₁.forest.childrenIn (ψ y) p.name = [] := by
    have hslot := hp.slots p (List.mem_of_find?_eq_some hprop) v hv
    rw [if_neg hnew] at hslot
    have hslot₁ : st₁.forest.slot? (ψ y) p.name = some p.emptySlot := by
      rw [Forest.slot?, hgety]
      exact hslot
    rw [Forest.childrenIn_eq hslot₁, Property.children_emptySlot]
  have hfresh : ∀ e ∈ v.children.map ψ, e ≠ ψ y ∧ e < st₁.forest.size ∧
      (st₁.forest.get e).holder = none := by
    intro e he
    obtain ⟨d, hd, rfl⟩ := List.mem_map.1 he
    have hb := hnum₁.bounds (hsub.subset hd)
    rw [← hgrown.size] at hb
    exact ⟨Nat.ne_of_gt (Nat.lt_of_lt_of_le hltx hb.1), Nat.lt_of_succ_le hb.2, hfree d hd⟩
  obtain ⟨hm, d, rfl⟩ | ⟨hm, ds, rfl⟩ := hshape
  · obtain ⟨hne, hlt, hd⟩ := hfresh (ψ d) (by simp [Value.children])
    obtain ⟨g, hrun, hfilled⟩ := Forest.setChild_fresh hprop₁ hk hm hroot hempty hne hlt hd
    refine ⟨g, ?_, hfilled⟩
    simp only [setChildren, hm, Bool.false_eq_true, if_false]
    exact edit_ok hrun
  · have hnodup : (ds.map ψ).Nodup :=
      (hsub.map ψ).nodup (hnum₁.nodup_map fun _ => Nat.one_pos)
    obtain ⟨g, hrun, hfilled⟩ := Forest.setChildren_fresh hprop₁ hk hm (ds.map ψ) hroot hempty
      hnodup hfresh
    refine ⟨g, ?_, hfilled⟩
    simp only [setChildren, hm, if_true]
    exact edit_ok hrun

theorem convertProperty_plain {p : Property}
    (hprop : (f.get y).type.property? p.name = some p) {v : Value} (hfits : SlotFits c package p v)
    (hk : p.kind = .value) (hnull : v.isNull = false) (child : ObjectId → Convert NodeId) :
    convertProperty c (f.get y).type (ψ y) p child (v.depict φ) st =
      .ok () { st with forest := st.forest.setSlot (ψ y) p.name v } := by
  have hfit := hfits.fits hk
  have hflat : v.holdsNodes = false := by simpa [Property.Admits, hk] using hfits.admits
  have hset : edit (Forest.setValue (ψ y) p.name v) st =
      .ok () { st with forest := st.forest.setSlot (ψ y) p.name v } :=
    edit_ok (Forest.setValue_ok (by rw [hp.type]; exact hprop) hk hflat)
  have hscalar : p.type.fits c v = true → v.depict φ = v.depictScalar →
      (∀ items, v.depictScalar ≠ .list items) →
      convertProperty c (f.get y).type (ψ y) p child (v.depict φ) st =
        .ok () { st with forest := st.forest.setSlot (ψ y) p.name v } := by
    intro hv hdepict hlist
    rw [hdepict]
    have hrun : convertProperty c (f.get y).type (ψ y) p child v.depictScalar =
        (lift (plainValue c (f.get y).type p v.depictScalar) >>= fun w =>
          edit (Forest.setValue (ψ y) p.name w)) := by
      cases hd : v.depictScalar <;> simp_all [convertProperty]
    rw [hrun, plainValue_depictScalar hv]
    exact hset
  cases v with
  | null => cases hnull
  | list items =>
    have hitems : ∀ i ∈ items, p.type.fits c i = true := List.all_eq_true.1 hfit
    simp only [Value.depict, convertProperty, hk, mapM_plainValue_depictScalar hitems]
    exact hset
  | string s => exact hscalar ((Bool.and_eq_true _ _).mp hfit).2 rfl (by simp [Value.depictScalar])
  | integer n => exact hscalar ((Bool.and_eq_true _ _).mp hfit).2 rfl (by simp [Value.depictScalar])
  | real x => exact hscalar ((Bool.and_eq_true _ _).mp hfit).2 rfl (by simp [Value.depictScalar])
  | boolean b => exact hscalar ((Bool.and_eq_true _ _).mp hfit).2 rfl (by simp [Value.depictScalar])
  | enumeration e =>
    exact hscalar ((Bool.and_eq_true _ _).mp hfit).2 rfl (by simp [Value.depictScalar])
  | _ => cases hflat

theorem convertProperty_ok (hnodup : ((f.get y).type.properties.map (·.name)).Nodup) {p : Property}
    (hprop : (f.get y).type.property? p.name = some p) {v : Value} (hv : f.slot? y p.name = some v)
    (hfits : SlotFits c package p v) (hnull : v.isNull = false) (hname : p.name ≠ "position")
    (hnew : p.name ∉ done) (hψ : ψ y = st₀.forest.size) {m : Metamodel}
    (hcs : ∀ d ∈ v.children, HeightAtMost (arranged f t φ) k d ∧ Grows m c f t φ ψ W k d)
    (hnum : Numbered ψ one (st₀.forest.size + 1) (listings (arranged f t φ) k (inSlots f y done)))
    (hnum₁ : Numbered ψ one st.forest.size (listings (arranged f t φ) k v.children)) :
    ∃ st', convertProperty c (f.get y).type (ψ y) p (convert t m c .default k) (v.depict φ) st =
        .ok () st' ∧ Partial f t φ ψ W k y (done ++ [p.name]) st₀ st' := by
  have hmem : p ∈ (f.get y).type.properties := List.mem_of_find?_eq_some hprop
  have hltx : ψ y < st.forest.size := by
    rw [hψ, hp.size]
    omega
  rcases hfits.admits.of_not_null hnull with ⟨hk, hflat⟩ | ⟨hk, hshape⟩ | ⟨hk, hshape⟩
  · have hnone : v.children = [] := Value.children_eq_nil hflat
    have hsame : v.rename ψ = v := by cases v <;> simp_all [Value.rename, Value.holdsNodes]
    refine ⟨_, convertProperty_plain hp hprop hfits hk hnull _, ?_⟩
    have hgrown : Grown f t φ ψ W (listings (arranged f t φ) k v.children) st st := by
      rw [hnone]
      exact Grown.refl W st
    refine hp.fill hnodup hmem hname hv (Value.isReference_eq_false hflat) hψ hnum hnum₁ hgrown
      (by simp [hnone]) ?_ rfl rfl
    rw [hsame]
    exact Forest.filled_setSlot hltx hnone
  · obtain ⟨st₁, hrun, hgrown, hfree⟩ := mapM_convert v.children hcs hnum₁
    have hsub := sublist_listings fun d hd => (hcs d hd).1
    obtain ⟨g, hset, hfilled⟩ := setChildren_ok hp hprop hv hk hshape hnew hψ hgrown hsub hnum₁
      hfree
    have hr : v.isReference = false := by
      obtain ⟨-, d, rfl⟩ | ⟨-, ds, rfl⟩ := hshape
      · rfl
      · rfl
    refine ⟨{ st₁ with forest := g }, ?_, hp.fill hnodup hmem hname hv hr hψ hnum hnum₁ hgrown
      (fun d hd => (hnum₁.bounds (hsub.subset hd)).1) hfilled rfl rfl⟩
    obtain ⟨-, d, rfl⟩ | ⟨-, ds, rfl⟩ := hshape
    · obtain ⟨e, u, es, hone, hnil, hes⟩ := StatefulRuns.of_mapM_cons_ok hrun
      cases hnil
      simp only [Value.depict, convertProperty, hk]
      rw [StatefulRuns.bind_ok hone, show e = ψ d from (List.cons.inj hes).1.symm]
      exact hset
    · simp only [Value.depict, convertProperty, hk]
      simp only [Value.children] at hrun
      rw [StatefulRuns.bind_ok hrun]
      exact hset
  · have hr : v.isReference = true := by
      obtain ⟨-, d, rfl⟩ | ⟨-, ds, rfl⟩ := hshape
      · rfl
      · rfl
    refine ⟨_, ?_, hp.wait hnodup hmem hname hnew hv hfits.admits hr hnum hψ⟩
    obtain ⟨-, d, rfl⟩ | ⟨-, ds, rfl⟩ := hshape
    · simp only [Value.depict, convertProperty, hk]
      rfl
    · simp only [Value.depict, convertProperty, hk]
      rfl

theorem convertValue_ok (hnodup : ((f.get y).type.properties.map (·.name)).Nodup)
    (hy : Ready c package f y) {m : Metamodel} (hshow : Pictures m f uri φ t y)
    {name : String} {w : FeatureValue} (hw : t.value? (φ y) name = some w)
    (hnew : name ∉ done) (hψ : ψ y = st₀.forest.size) (fs : List OwnedFeature)
    (hcs : ∀ d ∈ f.childrenIn y name,
      HeightAtMost (arranged f t φ) k d ∧ Grows m c f t φ ψ W k d)
    (hnum : Numbered ψ one (st₀.forest.size + 1)
      (listings (arranged f t φ) k (inSlots f y (done ++ [name])))) :
    ∃ st', convertValue t c .default (φ y) fs (f.get y).type (ψ y) (convert t m c .default k) name w
        st = .ok () st' ∧ Partial f t φ ψ W k y (done ++ [name]) st₀ st' := by
  rw [inSlots_append, listings_append, numbered_append, ← hp.size] at hnum
  by_cases hname : name = "position"
  · subst hname
    cases hpos : f.position y with
    | none =>
      rw [hshow.noPosition hpos] at hw
      cases hw
    | some q =>
      obtain ⟨⟨o, hcontained⟩, hread⟩ := hshow.position q hpos
      rw [hw, Option.some.injEq] at hcontained
      subst hcontained
      refine ⟨_, ?_, hp.place hy.position (by rw [hψ, hp.size]; omega) hnum.1 hψ⟩
      simp only [convertValue, FeatureValue.isNull, Bool.false_eq_true, if_true,
        ConversionOptions.default, hread, hpos]
      rfl
  · have hval := hshow.values name hname
    rw [hw] at hval
    obtain ⟨v, hv, hview⟩ := Option.bind_eq_some_iff.1 hval.symm
    have hnull : v.isNull = false := by
      cases hn : v.isNull with
      | false => rfl
      | true => simp [fullView, hn] at hview
    simp only [fullView, hnull, Bool.false_eq_true, if_false, Option.some.injEq] at hview
    subst hview
    obtain ⟨p, hmem, rfl, -, hfits⟩ := hy.slots name v hv
    have hprop := Derivation.property?_of_mem hnodup hmem
    have hin : f.childrenIn y p.name = v.children := Forest.childrenIn_eq hv
    rw [hin] at hcs hnum
    simp only [convertValue, Value.isNull_depict φ hnull, Bool.false_eq_true, if_false, hname,
      hprop]
    exact convertProperty_ok hp hnodup hprop hv hfits hnull hname hnew hψ hcs hnum.1 hnum.2

theorem convertValues_ok (hnodup : ((f.get y).type.properties.map (·.name)).Nodup)
    (hy : Ready c package f y) {m : Metamodel} (hshow : Pictures m f uri φ t y)
    (hψ : ψ y = st₀.forest.size) (fs : List OwnedFeature)
    (hcs : ∀ d ∈ arranged f t φ y, HeightAtMost (arranged f t φ) k d ∧ Grows m c f t φ ψ W k d)
    (hnum : Numbered ψ one (st₀.forest.size + 1) (listings (arranged f t φ) k (arranged f t φ y)))
    (rest : List (String × FeatureValue))
    (hall : (t.get (φ y)).values.keys = done ++ rest.map (·.1))
    (hrest : ∀ e ∈ rest, e ∈ (t.get (φ y)).values.entries) :
    ∃ st', (rest.forM fun (name, w) => convertValue t c .default (φ y) fs (f.get y).type (ψ y)
        (convert t m c .default k) name w : Convert Unit) st = .ok () st' ∧
      Partial f t φ ψ W k y (t.get (φ y)).values.keys st₀ st' := by
  induction rest generalizing done st with
  | nil =>
    rw [List.map_nil, List.append_nil] at hall
    exact ⟨st, rfl, hall ▸ hp⟩
  | cons e rest ih =>
    obtain ⟨name, w⟩ := e
    have hall' : (t.get (φ y)).values.keys = (done ++ [name]) ++ rest.map (·.1) := by
      rw [hall, List.map_cons, List.append_assoc, List.singleton_append]
    have hw : t.value? (φ y) name = some w := Table.get?_eq_some_iff.2 (hrest _ (by simp))
    have hnew : name ∉ done := by
      have hn : (t.get (φ y)).values.keys.Nodup := (t.get (φ y)).values.nodup
      rw [hall, List.nodup_append] at hn
      exact fun hm => hn.2.2 _ hm _ (by simp) rfl
    have hsplit : arranged f t φ y =
        inSlots f y (done ++ [name]) ++ inSlots f y (rest.map (·.1)) := by
      rw [arranged, hall', List.flatMap_append]
      rfl
    have hnum' : Numbered ψ one (st₀.forest.size + 1)
        (listings (arranged f t φ) k (inSlots f y (done ++ [name]))) := by
      rw [hsplit, listings_append, numbered_append] at hnum
      exact hnum.1
    have hcs' : ∀ d ∈ f.childrenIn y name,
        HeightAtMost (arranged f t φ) k d ∧ Grows m c f t φ ψ W k d := fun d hd =>
      hcs d (by rw [hsplit, inSlots_append]; simp [hd])
    obtain ⟨st₁, hstep, hp₁⟩ := convertValue_ok hp hnodup hy hshow hw hnew hψ fs hcs' hnum'
    obtain ⟨st₂, hrun, hp₂⟩ := ih hp₁ hall' fun e he => hrest e (by simp [he])
    refine ⟨st₂, (StatefulRuns.forM_cons_ok ?_).trans hrun, hp₂⟩
    exact hstep

end Steps

theorem partial_newNode {W : List NodeId} {k : Nat} {y : NodeId} {st₀ : State}
    (hf : f.IsForest) (hlt : y < f.size) (hψ : ψ y = st₀.forest.size)
    (hφ : ∀ z ∈ W, φ z = φ y → z = y) :
    Partial f t φ ψ W k y [] st₀ ⟨(st₀.forest.newNode (f.get y).type).2,
      st₀.created.insert (φ y) (ψ y), st₀.pending⟩ := by
  have hnodup := hf.names_nodup hlt
  have hnew : (st₀.forest.newNode (f.get y).type).2.get (ψ y) = .ofType (f.get y).type := by
    rw [hψ, Forest.get_newNode, if_pos rfl]
  have hkeys : (Node.ofType (f.get y).type).slots.keys = (f.get y).slots.keys := by
    rw [hf.names y hlt, Table.keys, Node.entries_ofType hnodup, List.map_map]
    rfl
  refine ⟨?_, fun j hj => ?_, by rw [hnew]; rfl, by rw [hnew, hkeys], fun p hp v hv => ?_,
    by rw [hnew]; rfl, by rw [hnew]; rfl, by rw [hnew]; rfl, by simp [listings, inSlots],
    fun z hz => ?_, [], by simp, by simp, by simp [IsOpen, listings, inSlots]⟩
  · simp [listings, inSlots, totalCost]
  · rw [Forest.get_newNode, if_neg (Nat.ne_of_lt hj)]
  · have hkey : p.name ∈ (Node.ofType (f.get y).type).slots.keys := by
      rw [hkeys]
      exact Table.mem_keys_iff.2 ⟨v, hv⟩
    obtain ⟨w, hw⟩ := Table.mem_keys_iff.1 hkey
    obtain ⟨q, hq, hqp, rfl⟩ := Node.slot_ofType hnodup hw
    rw [Forest.slot?, hnew, hw, Derivation.eq_of_name_eq hnodup hq hp hqp]
    simp
  · rw [Table.get?_insert]
    by_cases hzy : z = y
    · simp [hzy]
    · have hne : ¬ φ y = φ z := fun e => hzy (hφ z hz e.symm)
      simp [hzy, hne, listings, inSlots]

/-- When all values are converted, the node mirrors `y`: what the object does not store is null. -/
theorem Partial.grown {c : TypeCatalog} {package uri : String} {m : Metamodel} {W : List NodeId}
    {k : Nat} {y : NodeId} {st₀ st : State}
    (hp : Partial f t φ ψ W k y (t.get (φ y)).values.keys st₀ st) (hy : Ready c package f y)
    (hshow : Pictures m f uri φ t y) :
    Grown f t φ ψ W (listing (arranged f t φ) (k + 1) y) st₀ st := by
  have hlist : listing (arranged f t φ) (k + 1) y =
      y :: listings (arranged f t φ) k (inSlots f y (t.get (φ y)).values.keys) := rfl
  rw [hlist]
  refine ⟨?_, hp.kept, fun z hz => ?_, fun z hz => ?_, ?_⟩
  · rw [hp.size, totalCost_cons, Nat.add_assoc]
    rfl
  · rcases List.mem_cons.1 hz with rfl | hz
    · refine ⟨hp.type, hp.names, fun name v hv => ?_, ?_, hp.origin⟩
      · obtain ⟨p, hmem, rfl, hne, hfits⟩ := hy.slots name v hv
        rw [hp.slots p hmem v hv]
        by_cases hstored : p.name ∈ (t.get (φ z)).values.keys
        · rw [if_pos hstored]
        · have hnone : t.value? (φ z) p.name = none := Table.get?_eq_none_iff.2 hstored
          rw [hshow.values _ hne, hv, Option.bind_some] at hnone
          have hnull : v = .null := by
            cases v <;> simp_all [fullView, Value.isNull]
          subst hnull
          have hsingle : p.multiple = false := by
            have hadmits := hfits.admits
            cases hm : p.multiple with
            | false => rfl
            | true =>
              cases hk : p.kind with
              | value => simpa [Property.fits, hm] using hfits.fits hk
              | _ => simp [Property.Admits, hk, hm] at hadmits
          rw [if_neg hstored]
          simp [Property.emptySlot, hsingle, firstSlot, Value.rename]
      · rw [hp.position]
        by_cases hstored : "position" ∈ (t.get (φ z)).values.keys
        · rw [if_pos hstored]
        · have hnone : t.value? (φ z) "position" = none := Table.get?_eq_none_iff.2 hstored
          cases hpos : f.position z with
          | none => rw [if_neg hstored]
          | some q =>
            obtain ⟨⟨o, hcontained⟩, -⟩ := hshow.position q hpos
            rw [hnone] at hcontained
            cases hcontained
    · exact hp.mirrored z hz
  · simp only [hp.created z hz, List.mem_cons]
  · obtain ⟨ps, hps, hn, hmem⟩ := hp.pending
    refine ⟨ps, hps, hn, fun q => ?_⟩
    rw [hmem]
    simp

theorem typeOf_model {c : TypeCatalog} {package uri : String} {y : NodeId}
    (hy : Ready c package f y) :
    typeOf (Derivation.model c package uri) c (classRef f uri y) = .ok (f.get y).type := by
  have hname : (Derivation.model c package uri).qualifiedName ⟨uri, (f.get y).type.name.name⟩ =
      .ok (f.get y).type.name := Derivation.qualifiedName_model hy.inPackage
  simp only [typeOf, classRef, hname, Except.mapError, bind, Except.bind, hy.registered]
  rfl

/-- Converting an object makes exactly the nodes of its tree. -/
theorem grows {c : TypeCatalog} {package uri : String} {W : List NodeId} (hf : f.IsForest)
    (hφ : ∀ y ∈ W, ∀ z ∈ W, φ y = φ z → y = z)
    (hW : ∀ y ∈ W, y < f.size ∧ Ready c package f y ∧
      Pictures (Derivation.model c package uri) f uri φ t y)
    {k : Nat} {y : NodeId} (hheight : HeightAtMost (arranged f t φ) k y)
    (hin : ∀ z ∈ listing (arranged f t φ) k y, z ∈ W) :
    Grows (Derivation.model c package uri) c f t φ ψ W k y := by
  induction k generalizing y with
  | zero => exact hheight.elim
  | succ k ih =>
    intro st hnum
    have hyW := hin y (self_mem_listing hheight)
    obtain ⟨hlt, hy, hshow⟩ := hW y hyW
    have hcs : ∀ d ∈ arranged f t φ y, HeightAtMost (arranged f t φ) k d ∧
        Grows (Derivation.model c package uri) c f t φ ψ W k d := fun d hd =>
      ⟨hheight d hd, ih (hheight d hd) fun z hz =>
        hin z (mem_listing_succ.2 (.inr ⟨d, hd, hz⟩))⟩
    obtain ⟨os, hos⟩ := hshow.features
    have hψ : ψ y = st.forest.size := hnum.1
    have hstart := partial_newNode (t := t) (W := W) (k := k) hf hlt hψ fun z hz => hφ z hz y hyW
    obtain ⟨st', hrun, hend⟩ := convertValues_ok hstart (hf.names_nodup hlt) hy hshow hψ os hcs
      hnum.2 (t.get (φ y)).values.entries rfl fun _ he => he
    refine ⟨st', ?_, hend.grown hy hshow, hend.free⟩
    have hlift : ∀ {α : Type} (a : α) (u : State), lift (.ok a) u = .ok a u := fun _ _ => rfl
    have hnew : newNode (f.get y).type st =
        .ok (ψ y) { st with forest := (st.forest.newNode (f.get y).type).2 } := by
      rw [hψ]
      rfl
    rw [convert, hshow.type, typeOf_model hy, hos, StatefulRuns.bind_ok (hlift _ _)]
    simp only [Except.mapError]
    rw [StatefulRuns.bind_ok (hlift _ _), StatefulRuns.bind_ok hnew]
    exact StatefulRuns.bind_ok hrun

/-- Where a conversion stands when the references in `rest` still wait; `g` is the forest before
any of them was settled, and its first `n` nodes are none of the new ones. -/
structure Settling (f : Forest) (φ ψ : NodeId → Nat) (W : List NodeId) (n : Nat) (g : Forest)
    (rest : List Pending) (st : State) : Prop where
  created : ∀ y ∈ W, st.created.get? (φ y) = some (ψ y)
  size : st.forest.size = g.size
  kept : ∀ j < n, st.forest.get j = g.get j
  type : ∀ j, (st.forest.get j).type = (g.get j).type
  names : ∀ j, (st.forest.get j).slots.keys = (g.get j).slots.keys
  position : ∀ j, (st.forest.get j).position = (g.get j).position
  origin : ∀ j, (st.forest.get j).origin = (g.get j).origin
  waiting : ∀ y ∈ W, ∀ name v, f.slot? y name = some v → openReference f φ ψ y name v ∈ rest →
    st.forest.slot? (ψ y) name = some (firstSlot ψ v)
  settled : ∀ y ∈ W, ∀ name v, f.slot? y name = some v → openReference f φ ψ y name v ∉ rest →
    st.forest.slot? (ψ y) name = some (v.rename ψ)

theorem edit_forM {α : Type} {e : α → Edit Unit} (as : List α) {st : State} {g : Forest}
    (h : (as.forM e : Edit Unit) st.forest = .ok () g) :
    (as.forM fun a => edit (e a) : Convert Unit) st = .ok () { st with forest := g } := by
  induction as generalizing st with
  | nil =>
    cases h
    rfl
  | cons a as ih =>
    obtain ⟨f₁, hstep, hrest⟩ := StatefulRuns.of_forM_cons_ok h
    have hrun : (as.forM fun a => edit (e a) : Convert Unit) { st with forest := f₁ } =
        .ok () { st with forest := g } := ih hrest
    refine (StatefulRuns.forM_cons_ok ?_).trans hrun
    exact edit_ok hstep

theorem settle_ok {st : State} {y : NodeId} {p : Property} {v : Value}
    (hprop : (f.get y).type.property? p.name = some p) (ha : p.Admits v)
    (hr : v.isReference = true) (htype : (st.forest.get (ψ y)).type = (f.get y).type)
    (hslot : st.forest.slot? (ψ y) p.name = some (firstSlot ψ v))
    (hcreated : ∀ d ∈ v.targets, st.created.get? (φ d) = some (ψ d)) :
    ∃ g, settle .default (openReference f φ ψ y p.name v) st = .ok () { st with forest := g } ∧
      st.forest.Filled g (ψ y) p.name (v.rename ψ) := by
  have hids : found .default st.created (openReference f φ ψ y p.name v) =
      .ok (v.targets.map ψ) := by
    simp [found, ConversionOptions.default, openReference, Table.filterMap_get?_map hcreated]
  have hprop' : (st.forest.get (ψ y)).type.property? p.name = some p := by rw [htype, hprop]
  have hlt := Forest.lt_size_of_slot? hslot
  have hrun : settle .default (openReference f φ ψ y p.name v) st =
      (if p.multiple then (v.targets.map ψ).forM fun id =>
          edit (Forest.addReference (ψ y) p.name id)
        else edit (Forest.setReference (ψ y) p.name (v.targets.map ψ).head?) : Convert Unit)
          st := by
    have hget : (get : Convert State) st = .ok st st := rfl
    unfold settle
    rw [StatefulRuns.bind_ok hget, hids, StatefulRuns.bind_ok (show
      lift (.ok (v.targets.map ψ)) st = .ok (v.targets.map ψ) st from rfl)]
    have hmany : ((openReference f φ ψ y p.name v).type.property?
        (openReference f φ ψ y p.name v).name).any (·.multiple) = p.multiple := by
      simp only [openReference, hprop, Option.any_some]
    simp only [hmany]
    rfl
  cases v with
  | reference d =>
    have hkind : p.kind = .reference ∧ p.multiple = false := by
      cases hk : p.kind <;> cases hm : p.multiple <;>
        simp_all [Property.Admits, Value.holdsNodes]
    refine ⟨st.forest.setSlot (ψ y) p.name (.reference (ψ d)), ?_,
      Forest.filled_setSlot hlt rfl⟩
    rw [hrun, hkind.2]
    exact edit_ok (Forest.setReference_ok hprop' hkind.1 hkind.2)
  | references ds =>
    have hkind : p.kind = .reference ∧ p.multiple = true := by
      cases hk : p.kind <;> cases hm : p.multiple <;>
        simp_all [Property.Admits, Value.holdsNodes]
    obtain ⟨g, hadd, hfilled⟩ := Forest.addReferences_filled hprop' hkind.1 hkind.2 (ds.map ψ) []
      hslot
    refine ⟨g, ?_, hfilled⟩
    rw [hrun, hkind.2]
    exact edit_forM _ hadd
  | _ => cases hr

theorem openReference_inj {W : List NodeId} (hψ : ∀ y ∈ W, ∀ z ∈ W, ψ y = ψ z → y = z)
    {y z : NodeId} (hy : y ∈ W) (hz : z ∈ W) {name r : String} {v w : Value}
    (h : openReference f φ ψ y name v = openReference f φ ψ z r w) : y = z ∧ name = r := by
  simp only [openReference, Pending.mk.injEq] at h
  exact ⟨hψ y hy z hz h.1, h.2.2.1⟩

theorem Settling.settle {W : List NodeId} {n : Nat} {g : Forest} {rest : List Pending} {st : State}
    {y : NodeId} {p : Property} {v : Value}
    (h : Settling f φ ψ W n g (openReference f φ ψ y p.name v :: rest) st)
    (hψ : ∀ y ∈ W, ∀ z ∈ W, ψ y = ψ z → y = z) (hn : ∀ y ∈ W, n ≤ ψ y)
    (hnodup : (openReference f φ ψ y p.name v :: rest).Nodup) (hy : y ∈ W)
    (htype : (g.get (ψ y)).type = (f.get y).type)
    (hprop : (f.get y).type.property? p.name = some p) (hv : f.slot? y p.name = some v)
    (ha : p.Admits v) (hr : v.isReference = true) (htargets : v.targets ⊆ W) :
    ∃ st', ToNodes.settle .default (openReference f φ ψ y p.name v) st = .ok () st' ∧
      Settling f φ ψ W n g rest st' := by
  have hslot := h.waiting y hy p.name v hv (by simp)
  obtain ⟨g', hrun, hfilled⟩ := settle_ok hprop ha hr ((h.type _).trans htype) hslot
    fun d hd => h.created d (htargets hd)
  have hchildren : (v.rename ψ).children = [] := by
    rw [Value.children_rename, ToObjects.children_of_isReference hr, List.map_nil]
  -- the slots of other references are as they were
  have hother : ∀ z ∈ W, ∀ r, ¬ (z = y ∧ r = p.name) →
      g'.slot? (ψ z) r = st.forest.slot? (ψ z) r := by
    intro z hz r hne
    rw [hfilled.slot?, if_neg fun e => hne ⟨hψ z hz y hy e.1, e.2⟩]
  refine ⟨_, hrun, h.created, hfilled.size.trans h.size, fun j hj => ?_, fun j => ?_, fun j => ?_,
    fun j => ?_, fun j => ?_, fun z hz r w hw hmem => ?_, fun z hz r w hw hmem => ?_⟩
  · have hjy : j ≠ ψ y := Nat.ne_of_lt (Nat.lt_of_lt_of_le hj (hn y hy))
    exact (hfilled.get_of_ne hjy (by simp [hchildren])).trans (h.kept j hj)
  · exact (hfilled.type j).trans (h.type j)
  · rw [← h.names j]
    by_cases hj : j = ψ y
    · subst hj
      rw [hfilled.slots_self, Table.keys_insert_of_mem (Table.mem_keys_iff.2 ⟨_, hslot⟩)]
    · rw [hfilled.slots_of_ne hj]
  · exact (hfilled.position j).trans (h.position j)
  · exact (hfilled.origin j).trans (h.origin j)
  · have hne : ¬ (z = y ∧ r = p.name) := by
      rintro ⟨rfl, rfl⟩
      rw [hv, Option.some.injEq] at hw
      subst hw
      exact (List.nodup_cons.1 hnodup).1 hmem
    rw [hother z hz r hne]
    exact h.waiting z hz r w hw (by simp [hmem])
  · by_cases hsame : z = y ∧ r = p.name
    · obtain ⟨rfl, rfl⟩ := hsame
      rw [hv, Option.some.injEq] at hw
      subst hw
      rw [hfilled.slot?, if_pos ⟨rfl, rfl⟩]
    · rw [hother z hz r hsame]
      apply h.settled z hz r w hw
      intro hm
      rcases List.mem_cons.1 hm with he | hm
      · exact hsame (openReference_inj hψ hz hy he)
      · exact hmem hm

/-- What holds of every reference that waits. -/
def Waits (f : Forest) (φ ψ : NodeId → Nat) (W : List NodeId) (q : Pending) : Prop :=
  ∃ y ∈ W, ∃ p v, (f.get y).type.property? p.name = some p ∧ f.slot? y p.name = some v ∧
    p.Admits v ∧ v.isReference = true ∧ v.targets ⊆ W ∧ q = openReference f φ ψ y p.name v

theorem Settling.settle_all {W : List NodeId} {n : Nat} {g : Forest}
    (hψ : ∀ y ∈ W, ∀ z ∈ W, ψ y = ψ z → y = z) (hn : ∀ y ∈ W, n ≤ ψ y)
    (htype : ∀ y ∈ W, (g.get (ψ y)).type = (f.get y).type) (ps : List Pending) (hnodup : ps.Nodup)
    (hps : ∀ q ∈ ps, Waits f φ ψ W q) {st : State} (h : Settling f φ ψ W n g ps st) :
    ∃ st', (ps.forM (ToNodes.settle .default) : Convert Unit) st = .ok () st' ∧
      Settling f φ ψ W n g [] st' := by
  induction ps generalizing st with
  | nil => exact ⟨st, rfl, h⟩
  | cons q ps ih =>
    obtain ⟨y, hy, p, v, hprop, hv, ha, hr, htargets, rfl⟩ := hps q (by simp)
    obtain ⟨st₁, hstep, h₁⟩ := h.settle hψ hn hnodup hy (htype y hy) hprop hv ha hr htargets
    obtain ⟨st₂, hrest, h₂⟩ := ih (List.nodup_cons.1 hnodup).2 (fun q hq => hps q (by simp [hq])) h₁
    exact ⟨st₂, (StatefulRuns.forM_cons_ok hstep).trans hrest, h₂⟩

theorem Settling.mirrors {W : List NodeId} {n : Nat} {g : Forest} {st : State}
    (h : Settling f φ ψ W n g [] st) {y : NodeId} (hy : y ∈ W)
    (hm : Mirrors f ψ (firstSlot ψ) g y) : Mirrors f ψ (Value.rename ψ) st.forest y :=
  ⟨(h.type _).trans hm.type, (h.names _).trans hm.names,
    fun name v hv => h.settled y hy name v hv (by simp), (h.position _).trans hm.position,
    (h.origin _).trans hm.origin⟩

section Whole

variable {c : TypeCatalog} {package uri : String} {W L : List NodeId} {g : Forest} {st : State}
  (hgrown : Grown f t φ ψ W L ⟨g, .empty, []⟩ st) (hL : ∀ y, y ∈ L ↔ y ∈ W)
include hgrown hL

theorem Grown.settling {m : Metamodel} (hW : ∀ y ∈ W, Ready c package f y ∧
      Pictures m f uri φ t y) :
    Settling f φ ψ W g.size st.forest st.pending st := by
  refine ⟨fun y hy => ?_, rfl, fun _ _ => rfl, fun _ => rfl, fun _ => rfl, fun _ => rfl,
    fun _ => rfl, fun y hy name v hv _ => ?_, fun y hy name v hv hnot => ?_⟩
  · rw [hgrown.created y hy, if_pos ((hL y).2 hy)]
  · exact (hgrown.mirrored y ((hL y).2 hy)).slots name v hv
  · rw [(hgrown.mirrored y ((hL y).2 hy)).slots name v hv]
    cases hr : v.isReference with
    | false => cases v <;> simp_all [firstSlot, Value.isReference]
    | true =>
      obtain ⟨hready, hshow⟩ := hW y hy
      obtain ⟨p, -, -, hne, -⟩ := hready.slots name v hv
      have hstored : t.value? (φ y) name = some (v.depict φ) := by
        rw [hshow.values name hne, hv, Option.bind_some]
        cases v <;> simp_all [fullView, Value.isNull, Value.isReference]
      obtain ⟨ps, hps, -, hmem⟩ := hgrown.pending
      refine absurd ?_ hnot
      rw [hps, List.nil_append, hmem]
      exact ⟨y, (hL y).2 hy, name, Table.mem_keys_iff.2 ⟨_, hstored⟩, v, hv, hr, rfl⟩

theorem Grown.waits (hf : f.IsForest) (hW : ∀ y ∈ W, y < f.size ∧ Ready c package f y)
    (hrefs : ∀ y ∈ W, ∀ name v, f.slot? y name = some v → v.targets ⊆ W) :
    st.pending.Nodup ∧ ∀ q ∈ st.pending, Waits f φ ψ W q := by
  obtain ⟨ps, hps, hnodup, hmem⟩ := hgrown.pending
  rw [hps, List.nil_append]
  refine ⟨hnodup, fun q hq => ?_⟩
  obtain ⟨y, hy, name, -, v, hv, hr, rfl⟩ := (hmem q).1 hq
  have hyW := (hL y).1 hy
  obtain ⟨hlt, hready⟩ := hW y hyW
  obtain ⟨p, hp, rfl, -, hfits⟩ := hready.slots name v hv
  have hprop := Derivation.property?_of_mem (hf.names_nodup hlt) hp
  exact ⟨y, hyW, p, v, hprop, hv, hfits.admits, hr, hrefs y hyW _ v hv, rfl⟩

end Whole

/-- The order in which an object stores its values permutes the children of its node. -/
theorem arranged_perm {m : Metamodel} {uri : String} {y : NodeId}
    (hshow : Pictures m f uri φ t y) (hne : f.slot? y "position" = none) :
    (arranged f t φ y).Perm (f.children y) := by
  rw [arranged, Forest.children_eq]
  refine flatMap_perm_of_names _ (t.get (φ y)).values.nodup (f.get y).slots.nodup
    fun name hchildren => ?_
  obtain ⟨d, hd⟩ := List.exists_mem_of_ne_nil _ hchildren
  obtain ⟨v, hv, hdv⟩ := Forest.mem_childrenIn_iff.1 hd
  have hname : name ≠ "position" := by
    rintro rfl
    rw [hne] at hv
    cases hv
  have hstored : t.value? (φ y) name = some (v.depict φ) := by
    rw [hshow.values name hname, hv, Option.bind_some]
    cases v <;> simp_all [fullView, Value.isNull, Value.children]
  exact ⟨fun _ => Table.mem_keys_iff.2 ⟨v, hv⟩, fun _ => Table.mem_keys_iff.2 ⟨_, hstored⟩⟩

/-- Objects that show a tree are converted into nodes that mirror it, beside those of any forest. -/
theorem mirrors_toNodes {c : TypeCatalog} {package uri : String} (hf : f.IsForest) {n : NodeId}
    (hn : Convertible c package f n)
    (hφ : ∀ y ∈ f.walk n, ∀ z ∈ f.walk n, φ y = φ z → y = z)
    (hroom : (f.walk n).length ≤ t.size)
    (hshows : ∀ y ∈ f.walk n, Pictures (Derivation.model c package uri) f uri φ t y)
    (g : Forest) :
    ∃ (ψ : NodeId → Nat) (g' : Forest),
      t.toNodes (φ n) (Derivation.model c package uri) c .default g = (.ok (ψ n), g') ∧
      (∀ y ∈ f.walk n, ∀ z ∈ f.walk n, ψ y = ψ z → y = z) ∧
      g'.size = g.size + (f.walk n).length ∧ (∀ y ∈ f.walk n, g.size ≤ ψ y) ∧
      (∀ j < g.size, g'.get j = g.get j) ∧
      ∀ y ∈ f.walk n, Mirrors f ψ (Value.rename ψ) g' y := by
  have hheight := hf.heightAtMost hn.present
  have hwalk : f.walk n = listing f.children f.size n := f.walk_eq_listing n
  have hlt : ∀ y ∈ f.walk n, y < f.size := fun y hy =>
    hf.lt_size_of_mem_listing hn.present (hwalk ▸ hy)
  have hready : ∀ y ∈ f.walk n, Ready c package f y := fun y hy =>
    ToObjects.ready_of_convertible hf hn hy
  have hperm : ∀ y ∈ f.walk n, (arranged f t φ y).Perm (f.children y) := fun y hy =>
    arranged_perm (hshows y hy) (hready y hy).position
  -- the objects are at least as many as the levels of the tree
  have hdeep : HeightAtMost f.children (t.size + 1) n := by
    have hin : listing f.children ((f.walk n).length + 1) n ⊆ f.walk n := by
      rw [hwalk]
      exact listing_subset_of_height hheight _
    exact (heightAtMost_of_nodup (hf.nodup_listing _ n) hin).mono (Nat.le_succ_of_le hroom)
  have hsame : listing f.children (t.size + 1) n = f.walk n := by
    rw [hwalk, listing_unique hdeep hheight]
  have hlist : (listing (arranged f t φ) (t.size + 1) n).Perm (f.walk n) := by
    rw [← hsame]
    exact listing_perm fun y hy => hperm y (hsame ▸ hy)
  have hdeep' : HeightAtMost (arranged f t φ) (t.size + 1) n :=
    heightAtMost_congr (fun y hy => (hperm y (hsame ▸ hy)).subset) hdeep
  obtain ⟨ψ, hnum⟩ := exists_numbered one g.size (hlist.nodup_iff.2 (hf.nodup_walk n))
  have hinj : ∀ y ∈ f.walk n, ∀ z ∈ f.walk n, ψ y = ψ z → y = z := fun y hy z hz =>
    List.inj_on_of_nodup_map (hnum.nodup_map fun _ => Nat.one_pos) (hlist.mem_iff.2 hy)
      (hlist.mem_iff.2 hz)
  obtain ⟨st₁, hrun₁, hgrown, -⟩ := grows (ψ := ψ) hf hφ
    (fun y hy => ⟨hlt y hy, hready y hy, hshows y hy⟩) hdeep' (fun z hz => hlist.mem_iff.1 hz)
    ⟨g, .empty, []⟩ hnum
  have hmirrored : ∀ y ∈ f.walk n, Mirrors f ψ (firstSlot ψ) st₁.forest y := fun y hy =>
    hgrown.mirrored y (hlist.mem_iff.2 hy)
  have hbelow : ∀ y ∈ f.walk n, g.size ≤ ψ y := fun y hy =>
    (hnum.bounds (hlist.mem_iff.2 hy)).1
  obtain ⟨hnodup, hwaits⟩ := hgrown.waits (fun _ => hlist.mem_iff) hf
    (fun y hy => ⟨hlt y hy, hready y hy⟩)
    fun y hy name v hv d hd => hn.references y hy name v hv d hd
  have hstart := hgrown.settling (fun _ => hlist.mem_iff) fun y hy => ⟨hready y hy, hshows y hy⟩
  obtain ⟨st₂, hrun₂, hend⟩ := hstart.settle_all hinj hbelow (fun y hy => (hmirrored y hy).type)
    st₁.pending hnodup hwaits
  refine ⟨ψ, st₂.forest, ?_, hinj, ?_, hbelow, fun j hj => ?_, fun y hy => hend.mirrors hy
    (hmirrored y hy)⟩
  · have hrun : convertTree t (Derivation.model c package uri) c .default (φ n) ⟨g, .empty, []⟩ =
        .ok (ψ n) st₂ := by
      have hget : (get : Convert State) st₁ = .ok st₁ st₁ := rfl
      unfold convertTree
      rw [StatefulRuns.bind_ok hrun₁, StatefulRuns.bind_ok hget, StatefulRuns.bind_ok hrun₂]
      rfl
    simp only [ObjectStore.toNodes, hrun]
  · rw [hend.size, hgrown.size, totalCost_one, hlist.length_eq]
  · rw [hend.kept j hj, hgrown.kept j hj]

end TreeInterchange.ToNodes
