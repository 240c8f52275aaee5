import TreeInterchange.Forest.Editing
import TreeInterchange.Proofs.OrderedTables
import TreeInterchange.Proofs.StatefulRuns

/-!
# What edits change

A forest is observed through its size and, for each place, the type, the slot names, the
slots and the holder of the node. The elementary changes of which all edits consist are
described here by what they do to each observation, and every edit by the test that comes
first and the one change it then makes. Nothing later unfolds an edit.
-/

namespace TreeInterchange

namespace Edit

theorem check_ok {α : Type} {test : Forest → Except ModelError α} {f : Forest} {a : α}
    (h : test f = .ok a) : Edit.check test f = .ok a f := by
  simp only [Edit.check, h]

theorem check_error {α : Type} {test : Forest → Except ModelError α} {f : Forest} {e : ModelError}
    (h : test f = .error e) : Edit.check test f = .error e f := by
  simp only [Edit.check, h]

end Edit

namespace Forest

variable {f : Forest} {id : NodeId} {name : String}

theorem get_of_size_le (h : f.size ≤ id) : f.get id = default := by
  simp only [get, Array.getD_eq_getD_getElem?]
  rw [Array.getElem?_eq_none (by simpa [size] using h)]
  rfl

@[simp] theorem slots_default : (default : Node).slots = Table.empty := rfl

@[simp] theorem holder_default : (default : Node).holder = none := rfl

theorem lt_size_of_slot? {v : Value} (h : f.slot? id name = some v) : id < f.size := by
  by_contra hn
  rw [slot?, get_of_size_le (Nat.le_of_not_lt hn)] at h
  simp at h

theorem lt_size_of_holder {h : Holder} (hh : (f.get id).holder = some h) : id < f.size := by
  by_contra hn
  rw [get_of_size_le (Nat.le_of_not_lt hn)] at hh
  simp at hh

theorem lt_size_of_property? {p : Property} (h : (f.get id).type.property? name = some p) :
    id < f.size := by
  by_contra hn
  rw [get_of_size_le (Nat.le_of_not_lt hn)] at h
  exact absurd h (by simp [NodeType.property?, default, instInhabitedNode.default,
    instInhabitedNodeType.default])

theorem mem_childrenIn_iff {c : NodeId} :
    c ∈ f.childrenIn id name ↔ ∃ v, f.slot? id name = some v ∧ c ∈ v.children := by
  unfold childrenIn
  cases f.slot? id name <;> simp

theorem childrenIn_eq {v : Value} (h : f.slot? id name = some v) :
    f.childrenIn id name = v.children := by
  simp [childrenIn, h]

theorem mem_children_iff {c : NodeId} : c ∈ f.children id ↔ ∃ name, c ∈ f.childrenIn id name := by
  simp only [children, Node.children, List.mem_flatMap, Table.mem_values_iff, mem_childrenIn_iff,
    slot?]
  constructor
  · rintro ⟨v, ⟨name, hv⟩, hc⟩
    exact ⟨name, v, hv, hc⟩
  · rintro ⟨name, v, hv, hc⟩
    exact ⟨v, ⟨name, hv⟩, hc⟩

@[simp] theorem size_setSlot (v : Value) : (f.setSlot id name v).size = f.size := by
  simp [setSlot]

@[simp] theorem type_setSlot (v : Value) (j : NodeId) :
    ((f.setSlot id name v).get j).type = (f.get j).type := by
  rw [setSlot, get_update]; split <;> rfl

@[simp] theorem holder_setSlot (v : Value) (j : NodeId) :
    ((f.setSlot id name v).get j).holder = (f.get j).holder := by
  rw [setSlot, get_update]; split <;> rfl

theorem slot?_setSlot (v : Value) (j : NodeId) (r : String) :
    (f.setSlot id name v).slot? j r =
      if j = id ∧ r = name ∧ id < f.size then some v else f.slot? j r := by
  simp only [slot?, setSlot, get_update]
  by_cases hj : id = j
  · subst hj
    by_cases hs : id < f.size
    · by_cases hr : r = name
      · subst hr; simp [hs]
      · have hr' : ¬ name = r := fun e => hr e.symm
        simp [hs, hr, hr', Table.get?_insert]
    · simp [hs]
  · have hj' : ¬ j = id := fun e => hj e.symm
    simp [hj, hj']

theorem keys_setSlot {v : Value} (h : name ∈ (f.get id).slots.keys) (j : NodeId) :
    ((f.setSlot id name v).get j).slots.keys = (f.get j).slots.keys := by
  rw [setSlot, get_update]
  split
  · rename_i hj
    obtain ⟨rfl, -⟩ := hj
    exact Table.keys_insert_of_mem h v
  · rfl

@[simp] theorem size_setHolder (h : Option Holder) : (f.setHolder id h).size = f.size := by
  simp [setHolder]

@[simp] theorem type_setHolder (h : Option Holder) (j : NodeId) :
    ((f.setHolder id h).get j).type = (f.get j).type := by
  rw [setHolder, get_update]; split <;> rfl

@[simp] theorem slots_setHolder (h : Option Holder) (j : NodeId) :
    ((f.setHolder id h).get j).slots = (f.get j).slots := by
  rw [setHolder, get_update]; split <;> rfl

@[simp] theorem slot?_setHolder (h : Option Holder) (j : NodeId) (r : String) :
    (f.setHolder id h).slot? j r = f.slot? j r := by
  simp [slot?]

theorem holder_setHolder (h : Option Holder) (j : NodeId) :
    ((f.setHolder id h).get j).holder =
      if j = id ∧ id < f.size then h else (f.get j).holder := by
  rw [setHolder, get_update]
  by_cases hj : id = j
  · subst hj; by_cases hs : id < f.size <;> simp [hs]
  · have hj' : ¬ j = id := fun e => hj e.symm
    simp [hj, hj']

theorem detach_of_holder_none (h : (f.get id).holder = none) : f.detach id = f := by
  simp [detach, h]

@[simp] theorem size_detach : (f.detach id).size = f.size := by
  unfold detach; split <;> simp

@[simp] theorem type_detach (j : NodeId) : ((f.detach id).get j).type = (f.get j).type := by
  unfold detach
  split
  · rw [get_update]; split <;> simp
  · rfl

@[simp] theorem keys_detach (j : NodeId) :
    ((f.detach id).get j).slots.keys = (f.get j).slots.keys := by
  unfold detach
  split
  · rw [get_update]; split <;> simp
  · rfl

theorem holder_detach (j : NodeId) :
    ((f.detach id).get j).holder = if j = id then none else (f.get j).holder := by
  unfold detach
  split
  · rename_i h hh
    have hs : id < f.size := lt_size_of_holder hh
    rw [get_update]
    split <;> simp [holder_setHolder, hs]
  · rename_i hh
    split
    · rename_i hj; rw [hj, hh]
    · rfl

theorem slot?_detach {h : Holder} (hh : (f.get id).holder = some h) (j : NodeId) (r : String) :
    (f.detach id).slot? j r =
      if j = h.parent ∧ r = h.role then (f.slot? j r).map (Value.without id) else f.slot? j r := by
  simp only [slot?, detach, hh, get_update, size_setHolder]
  by_cases hj : h.parent = j
  · subst hj
    by_cases hs : h.parent < f.size
    · by_cases hr : h.role = r
      · simp [hs, hr, Table.get?_adjust]
      · have hr' : ¬ r = h.role := fun e => hr e.symm
        simp [hs, hr, hr', Table.get?_adjust]
    · have hd : f.get h.parent = default := get_of_size_le (Nat.le_of_not_lt hs)
      simp [hs, hd]
  · have hj' : ¬ j = h.parent := fun e => hj e.symm
    simp [hj, hj']

theorem children_without (c : NodeId) (v : Value) :
    (v.without c).children = v.children.filter (· ≠ c) := by
  cases v with
  | node d => by_cases h : d = c <;> simp [Value.without, Value.children, h]
  | _ => rfl

theorem get_setHolder_none (j : NodeId) : (f.setHolder id none).get j =
    { f.get j with holder := if j = id then none else (f.get j).holder } := by
  rw [setHolder, get_update]
  by_cases hj : id = j
  · subst hj
    by_cases hs : id < f.size
    · simp [hs]
    · rw [get_of_size_le (Nat.le_of_not_lt hs)]
      simp only [hs, and_false, if_false, if_true]
      rfl
  · have hj' : ¬ j = id := fun e => hj e.symm
    simp [hj, hj']

/-- Nodes that lose their holder keep everything else. -/
theorem release_all (olds : List NodeId) (g : Forest) :
    let g' := olds.foldl (fun g old => g.setHolder old none) g
    g'.size = g.size ∧
      ∀ j, g'.get j = { g.get j with holder := if j ∈ olds then none else (g.get j).holder } := by
  induction olds generalizing g with
  | nil => simp
  | cons old olds ih =>
    obtain ⟨hs, hg⟩ := ih (g.setHolder old none)
    refine ⟨by simpa using hs, fun j => ?_⟩
    rw [List.foldl_cons, hg, get_setHolder_none]
    by_cases hm : j ∈ olds <;> by_cases hj : j = old <;> simp [hm, hj]

/-- Emptying a slot changes the slot and the holders of those who were in it. -/
theorem get_evict (v : Value) (j : NodeId) : (f.evict id name v).get j =
    { (f.setSlot id name v).get j with
      holder := if j ∈ f.childrenIn id name then none else (f.get j).holder } := by
  rw [evict, (release_all (f.childrenIn id name) (f.setSlot id name v)).2 j, holder_setSlot]

@[simp] theorem size_evict (v : Value) : (f.evict id name v).size = f.size := by
  simpa [evict] using (release_all (f.childrenIn id name) (f.setSlot id name v)).1

@[simp] theorem type_evict (v : Value) (j : NodeId) :
    ((f.evict id name v).get j).type = (f.get j).type := by
  rw [get_evict]
  exact type_setSlot v j

theorem slots_evict (v : Value) (j : NodeId) :
    ((f.evict id name v).get j).slots = ((f.setSlot id name v).get j).slots := by
  rw [get_evict]

theorem slot?_evict (v : Value) (j : NodeId) (r : String) :
    (f.evict id name v).slot? j r =
      if j = id ∧ r = name ∧ id < f.size then some v else f.slot? j r := by
  rw [← slot?_setSlot, slot?, slot?, slots_evict]

theorem holder_evict (v : Value) (j : NodeId) :
    ((f.evict id name v).get j).holder =
      if j ∈ f.childrenIn id name then none else (f.get j).holder := by
  rw [get_evict]

theorem evict_of_childrenIn_nil (h : f.childrenIn id name = []) (v : Value) :
    f.evict id name v = f.setSlot id name v := by
  simp [evict, h]

theorem property_eq_ok {p : Property} :
    f.property id name = .ok p ↔ (f.get id).type.property? name = some p := by
  unfold property
  cases (f.get id).type.property? name <;> simp

theorem propertyOf_eq_ok {kind : PropertyKind} {multiple : Bool} {expected : Expectation}
    {p : Property} : f.propertyOf id name kind multiple expected = .ok p ↔
      (f.get id).type.property? name = some p ∧ p.kind = kind ∧ p.multiple = multiple := by
  unfold propertyOf property
  cases (f.get id).type.property? name with
  | none => simp [bind, Except.bind]
  | some q =>
    simp only [bind, Except.bind, Option.some.injEq]
    split
    · rename_i h
      simp only [pure, Except.pure, Except.ok.injEq]
      constructor
      · rintro rfl; exact ⟨rfl, h⟩
      · exact fun hq => hq.1
    · rename_i h
      simp only [throw, throwThe, MonadExceptOf.throw, reduceCtorEq, false_iff]
      rintro ⟨rfl, hq⟩
      exact h hq

theorem attachable_eq_ok {c : NodeId} :
    f.attachable id c = .ok () ↔ c ≠ id ∧ c ∉ f.ancestors id := by
  unfold attachable
  split
  · rename_i h
    simp only [reduceCtorEq, false_iff, not_and_or, not_not]
    exact h
  · rename_i h
    simpa [not_or] using h

theorem property?_name {t : NodeType} {p : Property} (h : t.property? name = some p) :
    p.name = name := by
  simpa using List.find?_some h

variable {p : Property} (hp : (f.get id).type.property? name = some p)
include hp

theorem setChild_none_ok (hk : p.kind = .child) (hm : p.multiple = false) :
    setChild id name none f = .ok () (f.evict id name .null) := by
  unfold setChild
  rw [StatefulRuns.bind_ok (Edit.check_ok (propertyOf_eq_ok.2 ⟨hp, hk, hm⟩))]
  rfl

theorem setChild_some_ok {c : NodeId} (hk : p.kind = .child) (hm : p.multiple = false)
    (ha : f.attachable id c = .ok ()) : setChild id name (some c) f =
      .ok () (((f.evict id name .null).adopt id name c).setSlot id name (.node c)) := by
  unfold setChild
  rw [StatefulRuns.bind_ok (Edit.check_ok (propertyOf_eq_ok.2 ⟨hp, hk, hm⟩))]
  dsimp only
  rw [StatefulRuns.bind_ok (Edit.check_ok ha), property?_name hp]
  rfl

theorem addChild_ok {c : NodeId} (hk : p.kind = .child) (hm : p.multiple = true)
    (ha : f.attachable id c = .ok ()) :
    addChild id name c f = .ok () ((f.adopt id name c).pushChild id name c) := by
  unfold addChild
  rw [StatefulRuns.bind_ok (Edit.check_ok (propertyOf_eq_ok.2 ⟨hp, hk, hm⟩))]
  rw [StatefulRuns.bind_ok (Edit.check_ok ha), property?_name hp]
  rfl

theorem setChildren_ok {cs : List NodeId} (hk : p.kind = .child) (hm : p.multiple = true)
    (ha : ∀ c ∈ cs, f.attachable id c = .ok ()) :
    setChildren id name cs f = cs.forM (addChild id name) (f.evict id name (.nodes [])) := by
  unfold setChildren
  rw [StatefulRuns.bind_ok (Edit.check_ok (propertyOf_eq_ok.2 ⟨hp, hk, hm⟩))]
  rw [StatefulRuns.bind_ok (Edit.check_ok (StatefulRuns.forM_tests_ok ha))]
  rfl

theorem setValue_ok {v : Value} (hk : p.kind = .value) (hv : v.holdsNodes = false) :
    setValue id name v f = .ok () (f.setSlot id name v) := by
  unfold setValue
  rw [StatefulRuns.bind_ok (Edit.check_ok (a := ()) (by
    simp [property_eq_ok.2 hp, bind, Except.bind, hk, hv, pure, Except.pure]))]
  rfl

theorem setReference_ok {target : Option NodeId} (hk : p.kind = .reference)
    (hm : p.multiple = false) : setReference id name target f =
      .ok () (f.setSlot id name ((target.map .reference).getD .null)) := by
  unfold setReference
  rw [StatefulRuns.bind_ok (Edit.check_ok (propertyOf_eq_ok.2 ⟨hp, hk, hm⟩))]
  rfl

theorem addReference_ok {target : NodeId} (hk : p.kind = .reference) (hm : p.multiple = true) :
    addReference id name target f = .ok () (f.pushReference id name target) := by
  unfold addReference
  rw [StatefulRuns.bind_ok (Edit.check_ok (propertyOf_eq_ok.2 ⟨hp, hk, hm⟩))]
  rfl

theorem setReferences_ok {targets : List NodeId} (hk : p.kind = .reference)
    (hm : p.multiple = true) :
    setReferences id name targets f = .ok () (f.setSlot id name (.references targets)) := by
  unfold setReferences
  rw [StatefulRuns.bind_ok (Edit.check_ok (propertyOf_eq_ok.2 ⟨hp, hk, hm⟩))]
  rfl

omit hp

/-- An edit that tests for a kind of property first is refused without a change, or the type has
such a property. -/
theorem propertyOf_cases {α : Type} (f : Forest) (id : NodeId) (name : String)
    (kind : PropertyKind) (multiple : Bool) (expected : Expectation) (k : Property → Edit α) :
    (∃ e, (Edit.check (·.propertyOf id name kind multiple expected) >>= k) f = .error e f) ∨
      ∃ p, (f.get id).type.property? name = some p ∧ p.kind = kind ∧ p.multiple = multiple := by
  cases h : f.propertyOf id name kind multiple expected with
  | error e => exact .inl ⟨e, StatefulRuns.bind_error (Edit.check_error h)⟩
  | ok p => exact .inr ⟨p, propertyOf_eq_ok.1 h⟩

theorem setChild_cases (f : Forest) (id : NodeId) (name : String) (child : Option NodeId) :
    (∃ e, setChild id name child f = .error e f) ∨
      ∃ p, (f.get id).type.property? name = some p ∧ p.kind = .child ∧ p.multiple = false ∧
        ∀ c ∈ child, f.attachable id c = .ok () := by
  cases h : f.propertyOf id name .child false .singleChild with
  | error e => exact .inl ⟨e, StatefulRuns.bind_error (Edit.check_error h)⟩
  | ok p =>
    obtain ⟨hp, hk, hm⟩ := propertyOf_eq_ok.1 h
    cases child with
    | none => exact .inr ⟨p, hp, hk, hm, by simp⟩
    | some c =>
      cases ha : f.attachable id c with
      | ok u => exact .inr ⟨p, hp, hk, hm, by simpa using ha⟩
      | error e =>
        refine .inl ⟨e, ?_⟩
        unfold setChild
        rw [StatefulRuns.bind_ok (Edit.check_ok h)]
        exact StatefulRuns.bind_error (Edit.check_error ha)

theorem addChild_cases (f : Forest) (id : NodeId) (name : String) (c : NodeId) :
    (∃ e, addChild id name c f = .error e f) ∨
      ∃ p, (f.get id).type.property? name = some p ∧ p.kind = .child ∧ p.multiple = true ∧
        f.attachable id c = .ok () := by
  obtain h | ⟨p, hp, hk, hm⟩ := propertyOf_cases f id name .child true
    .childCollection fun p => do
      Edit.check (·.attachable id c)
      modify fun f => (f.adopt id p.name c).pushChild id name c
  · exact .inl h
  cases ha : f.attachable id c with
  | ok _ => exact .inr ⟨p, hp, hk, hm, rfl⟩
  | error e =>
    refine .inl ⟨e, ?_⟩
    unfold addChild
    rw [StatefulRuns.bind_ok (Edit.check_ok (propertyOf_eq_ok.2 ⟨hp, hk, hm⟩))]
    exact StatefulRuns.bind_error (Edit.check_error ha)

theorem setChildren_cases (f : Forest) (id : NodeId) (name : String) (cs : List NodeId) :
    (∃ e, setChildren id name cs f = .error e f) ∨
      ∃ p, (f.get id).type.property? name = some p ∧ p.kind = .child ∧ p.multiple = true ∧
        ∀ c ∈ cs, f.attachable id c = .ok () := by
  obtain h | ⟨p, hp, hk, hm⟩ := propertyOf_cases f id name .child true
    .childCollection fun _ => do
      Edit.check fun f => cs.forM (f.attachable id)
      modify (·.evict id name (.nodes []))
      cs.forM (addChild id name)
  · exact .inl h
  cases ha : cs.forM (f.attachable id) with
  | ok u =>
    exact .inr ⟨p, hp, hk, hm, StatefulRuns.of_forM_tests_ok ha⟩
  | error e =>
    refine .inl ⟨e, ?_⟩
    unfold setChildren
    rw [StatefulRuns.bind_ok (Edit.check_ok (propertyOf_eq_ok.2 ⟨hp, hk, hm⟩))]
    exact StatefulRuns.bind_error (Edit.check_error ha)

theorem setValue_cases (f : Forest) (id : NodeId) (name : String) (v : Value) :
    (∃ e, setValue id name v f = .error e f) ∨
      ∃ p, (f.get id).type.property? name = some p ∧ p.kind = .value ∧ v.holdsNodes = false := by
  cases h : f.property id name with
  | error e =>
    refine .inl ⟨e, StatefulRuns.bind_error (Edit.check_error ?_)⟩
    simp [h, bind, Except.bind]
  | ok p =>
    by_cases hbad : p.kind ≠ .value ∨ v.holdsNodes
    · refine .inl ⟨.wrongKind (f.get id).type.name name .plainValue,
        StatefulRuns.bind_error (Edit.check_error ?_)⟩
      simp [h, bind, Except.bind, hbad, throw, throwThe, MonadExceptOf.throw]
    · simp only [not_or, not_not, Bool.not_eq_true] at hbad
      exact .inr ⟨p, property_eq_ok.1 h, hbad⟩

end Forest

end TreeInterchange
