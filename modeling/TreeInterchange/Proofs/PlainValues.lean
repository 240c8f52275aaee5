import TreeInterchange.Proofs.ForestRuns

/-!
# Nodes in plain values

A property for plain values takes no value that itself names nodes, but the items of a list are
not looked at, so a list may carry nodes into a plain slot. It is the only way: edits of children
and references never put a list into a slot, and a new node has empty lists. Along a run the plain
slots are free of nodes, at every depth, just when the values that are accepted for them are.
-/

namespace TreeInterchange

namespace Value

/-- `w` is the value, or one of its items at some depth. -/
inductive Within (w : Value) : Value → Prop
  | self : Within w w
  | item {v : Value} {items : List Value} (hv : v ∈ items) (h : Within w v) :
      Within w (.list items)

/-- Nothing in the value names nodes, lists within lists included. -/
def IsPlain (v : Value) : Prop := ∀ w, Within w v → w.holdsNodes = false

variable {v : Value} {items : List Value}

theorem isPlain_list_iff : (list items).IsPlain ↔ ∀ v ∈ items, v.IsPlain := by
  constructor
  · intro h v hv w hw
    exact h w (.item hv hw)
  · intro h w hw
    cases hw with
    | self => rfl
    | item hv hw => exact h _ hv w hw

theorem isPlain_of_ne_list (hv : v.holdsNodes = false) (hne : ∀ items, v ≠ list items) :
    v.IsPlain := by
  intro w hw
  cases hw with
  | self => exact hv
  | item _ _ => exact absurd rfl (hne _)

end Value

namespace Forest

variable {f g : Forest} {id : NodeId} {name : String}

/-- Every list that stands in a slot has stood there before. -/
def NoNewLists (f g : Forest) : Prop :=
  ∀ id name items, g.slot? id name = some (.list items) → f.slot? id name = some (.list items)

theorem NoNewLists.refl (f : Forest) : f.NoNewLists f := fun _ _ _ h => h

theorem NoNewLists.trans {k : Forest} (hfg : f.NoNewLists g) (hgk : g.NoNewLists k) :
    f.NoNewLists k := fun id name items h => hfg id name items (hgk id name items h)

theorem noNewLists_of_slot? (h : ∀ id name, g.slot? id name = f.slot? id name) :
    f.NoNewLists g := fun id name _ hg => h id name ▸ hg

theorem noNewLists_update (f : Forest) (id : NodeId) {change : Node → Node}
    (h : ∀ n, (change n).slots = n.slots) : f.NoNewLists (f.update id change) := by
  refine noNewLists_of_slot? fun j r => ?_
  rw [slot?, slot?, get_update]
  split
  · rw [h]
  · rfl

theorem noNewLists_setSlot (f : Forest) (id : NodeId) (name : String) {v : Value}
    (hv : ∀ items, v ≠ .list items) : f.NoNewLists (f.setSlot id name v) := by
  intro j r items h
  rw [slot?_setSlot] at h
  split at h
  · exact absurd (Option.some.inj h) (hv items)
  · exact h

theorem noNewLists_evict (f : Forest) (id : NodeId) (name : String) {v : Value}
    (hv : ∀ items, v ≠ .list items) : f.NoNewLists (f.evict id name v) := by
  intro j r items h
  rw [slot?_evict, ← slot?_setSlot] at h
  exact noNewLists_setSlot f id name hv j r items h

theorem noNewLists_detach (f : Forest) (c : NodeId) : f.NoNewLists (f.detach c) := by
  cases hh : (f.get c).holder with
  | none =>
    rw [detach_of_holder_none hh]
    exact .refl f
  | some holder =>
    intro j r items h
    rw [slot?_detach hh] at h
    split at h
    · obtain ⟨v, hv, hw⟩ := Option.map_eq_some_iff.1 h
      have hsame : v = .list items := by
        cases v with
        | node d =>
          rw [Value.without] at hw
          split at hw <;> cases hw
        | _ => simp_all [Value.without]
      rw [hv, hsame]
    · exact h

theorem noNewLists_adopt (f : Forest) (id : NodeId) (name : String) (c : NodeId) :
    f.NoNewLists (f.adopt id name c) :=
  (noNewLists_detach f c).trans (noNewLists_of_slot? fun _ _ => slot?_setHolder _ _ _)

theorem noNewLists_pushChild (f : Forest) (id : NodeId) (name : String) (c : NodeId) :
    f.NoNewLists (f.pushChild id name c) := by
  unfold pushChild
  split <;> exact noNewLists_setSlot f id name (by simp)

theorem noNewLists_pushReference (f : Forest) (id : NodeId) (name : String) (target : NodeId) :
    f.NoNewLists (f.pushReference id name target) := by
  unfold pushReference
  split <;> exact noNewLists_setSlot f id name (by simp)

theorem noNewLists_setChild (f : Forest) (id : NodeId) (name : String) (child : Option NodeId) :
    f.NoNewLists ((setChild id name child).stateAfter f) := by
  obtain ⟨e, h⟩ | ⟨p, hp, hk, hm, ha⟩ := setChild_cases f id name child
  · rw [stateAfter_error h]
    exact .refl f
  have hnull : f.NoNewLists (f.evict id name .null) := noNewLists_evict f id name (by simp)
  cases child with
  | none => rwa [stateAfter_ok (setChild_none_ok hp hk hm)]
  | some c =>
    rw [stateAfter_ok (setChild_some_ok hp hk hm (ha c rfl))]
    exact (hnull.trans (noNewLists_adopt _ _ _ _)).trans (noNewLists_setSlot _ _ _ (by simp))

theorem noNewLists_addChild (f : Forest) (id : NodeId) (name : String) (c : NodeId) :
    f.NoNewLists ((addChild id name c).stateAfter f) := by
  obtain ⟨e, h⟩ | ⟨p, hp, hk, hm, ha⟩ := addChild_cases f id name c
  · rw [stateAfter_error h]
    exact .refl f
  · rw [stateAfter_ok (addChild_ok hp hk hm ha)]
    exact (noNewLists_adopt f id name c).trans (noNewLists_pushChild _ _ _ _)

theorem noNewLists_addChildren (f : Forest) (id : NodeId) (name : String) (cs : List NodeId) :
    f.NoNewLists ((cs.forM (addChild id name)).stateAfter f) := by
  induction cs generalizing f with
  | nil => exact .refl f
  | cons c cs ih =>
    have hstep := noNewLists_addChild f id name c
    cases hc : addChild id name c f with
    | error e g =>
      have hrun : ((c :: cs).forM (addChild id name)) f = .error e g := StatefulRuns.bind_error hc
      simpa only [Edit.stateAfter, hc, hrun] using hstep
    | ok u g =>
      rw [stateAfter_ok hc] at hstep
      rw [show ((c :: cs).forM (addChild id name)).stateAfter f = _ from
        stateAfter_seq (fun _ => cs.forM (addChild id name)) hc]
      exact hstep.trans (ih g)

theorem noNewLists_setChildren (f : Forest) (id : NodeId) (name : String) (cs : List NodeId) :
    f.NoNewLists ((setChildren id name cs).stateAfter f) := by
  obtain ⟨e, h⟩ | ⟨p, hp, hk, hm, ha⟩ := setChildren_cases f id name cs
  · rw [stateAfter_error h]
    exact .refl f
  have hnil : f.NoNewLists (f.evict id name (.nodes [])) := noNewLists_evict f id name (by simp)
  have hloop := noNewLists_addChildren (f.evict id name (.nodes [])) id name cs
  simp only [Edit.stateAfter, setChildren_ok hp hk hm ha]
  exact hnil.trans hloop

/-- An edit that tests for a kind of property and then makes one change. -/
theorem noNewLists_test (id : NodeId) (name : String) (kind : PropertyKind) (multiple : Bool)
    (expected : Expectation) {change : Forest → Forest} (hchange : f.NoNewLists (change f)) :
    f.NoNewLists (Edit.stateAfter (do
      let _ ← Edit.check (·.propertyOf id name kind multiple expected)
      modify change) f) := by
  cases h : f.propertyOf id name kind multiple expected with
  | error e =>
    rw [stateAfter_error (StatefulRuns.bind_error (Edit.check_error h))]
    exact .refl f
  | ok p =>
    rw [stateAfter_check h]
    exact hchange

theorem noNewLists_setReference (f : Forest) (id : NodeId) (name : String)
    (target : Option NodeId) : f.NoNewLists ((setReference id name target).stateAfter f) := by
  refine noNewLists_test id name _ _ _ (noNewLists_setSlot f id name ?_)
  cases target <;> simp

theorem noNewLists_addReference (f : Forest) (id : NodeId) (name : String) (target : NodeId) :
    f.NoNewLists ((addReference id name target).stateAfter f) :=
  noNewLists_test id name _ _ _ (noNewLists_pushReference f id name target)

theorem noNewLists_setReferences (f : Forest) (id : NodeId) (name : String)
    (targets : List NodeId) : f.NoNewLists ((setReferences id name targets).stateAfter f) :=
  noNewLists_test id name _ _ _ (noNewLists_setSlot f id name (by simp))

/-- The value that a plain property of the node takes when it is asked to store `v`. -/
def taken? (f : Forest) (id : NodeId) (name : String) (v : Value) : Option Value :=
  match (f.get id).type.property? name with
  | some p => if p.kind = .value ∧ v.holdsNodes = false then some v else none
  | none => none

theorem taken?_eq_some {v w : Value} : f.taken? id name v = some w ↔
    w = v ∧ ∃ p, (f.get id).type.property? name = some p ∧ p.kind = .value ∧
      v.holdsNodes = false := by
  unfold taken?
  cases (f.get id).type.property? name with
  | none => simp
  | some p =>
    simp only [Option.some.injEq, exists_eq_left']
    split
    · rename_i hp
      simp [hp, eq_comm]
    · rename_i hp
      simp [hp]

/-- The value that an operation puts into a plain slot, if it does so. -/
def Operation.stored? (f : Forest) : Operation → Option Value
  | .setValue id name v => f.taken? id name v
  | .setProperty id name v => f.taken? id name v
  | _ => none

theorem setValue_of_taken? {v w : Value} (h : f.taken? id name v = some w) :
    (setValue id name v).stateAfter f = f.setSlot id name w := by
  obtain ⟨rfl, p, hp, hk, hv⟩ := taken?_eq_some.1 h
  rw [stateAfter_ok (setValue_ok hp hk hv)]

theorem setValue_of_not_taken {v : Value} (h : f.taken? id name v = none) :
    (setValue id name v).stateAfter f = f := by
  obtain ⟨e, he⟩ | ⟨p, hp, hk, hv⟩ := setValue_cases f id name v
  · exact stateAfter_error he
  · rw [taken?_eq_some.2 ⟨rfl, p, hp, hk, hv⟩] at h
    cases h

theorem setProperty_of_taken? {v w : Value} (h : f.taken? id name v = some w) :
    (setProperty id name v).stateAfter f = f.setSlot id name w := by
  rw [← setValue_of_taken? h]
  obtain ⟨-, p, hp, hk, -⟩ := taken?_eq_some.1 h
  rw [show (setProperty id name v).stateAfter f = _ from stateAfter_check (property_eq_ok.2 hp)]
  simp only [hk]

theorem noNewLists_setProperty {v : Value} (h : f.taken? id name v = none) :
    f.NoNewLists ((setProperty id name v).stateAfter f) := by
  cases hp : f.property id name with
  | error e =>
    rw [stateAfter_error (e := setProperty id name v)
      (StatefulRuns.bind_error (Edit.check_error hp))]
    exact .refl f
  | ok p =>
    rw [show (setProperty id name v).stateAfter f = _ from stateAfter_check hp]
    split
    · exact noNewLists_setChild f id name _
    · exact noNewLists_setChild f id name none
    · exact noNewLists_setChildren f id name _
    · exact noNewLists_setChildren f id name []
    · exact noNewLists_setReference f id name _
    · exact noNewLists_setReference f id name none
    · exact noNewLists_setReferences f id name _
    · exact noNewLists_setReferences f id name []
    · rw [setValue_of_not_taken h]
      exact .refl f
    · exact .refl f

theorem exists_setSlot_of_stored? {op : Operation} {v : Value} (h : op.stored? f = some v) :
    ∃ id name, id < f.size ∧ v.holdsNodes = false ∧
      op.edit.stateAfter f = f.setSlot id name v := by
  have hin : ∀ {id name u}, f.taken? id name u = some v → id < f.size ∧ v.holdsNodes = false := by
    intro id name u hu
    obtain ⟨rfl, p, hp, -, hv⟩ := taken?_eq_some.1 hu
    exact ⟨lt_size_of_property? hp, hv⟩
  cases op with
  | setValue id name u => exact ⟨id, name, (hin h).1, (hin h).2, setValue_of_taken? h⟩
  | setProperty id name u => exact ⟨id, name, (hin h).1, (hin h).2, setProperty_of_taken? h⟩
  | _ => cases h

/-- The lists in the slots name no nodes at any depth. -/
def ListsPlain (f : Forest) : Prop :=
  ∀ id name items, f.slot? id name = some (.list items) → (Value.list items).IsPlain

theorem ListsPlain.of_noNewLists (h : f.ListsPlain) (hg : f.NoNewLists g) : g.ListsPlain :=
  fun id name items hi => h id name items (hg id name items hi)

theorem ListsPlain.newNode (h : f.ListsPlain) {t : NodeType} (ht : t.validate = .ok ()) :
    (f.newNode t).2.ListsPlain := by
  intro j r items hi
  rw [slot?, get_newNode] at hi
  split at hi
  · obtain ⟨p, -, -, hp⟩ := Node.slot_ofType (NodeType.names_nodup_of_validate ht) hi
    have hnil : items = [] := by
      unfold Property.emptySlot at hp
      split at hp
      · cases hk : p.kind <;> simp_all
      · cases hp
    subst hnil
    exact Value.isPlain_list_iff.2 (by simp)
  · exact h j r items hi

theorem ListsPlain.setSlot_iff (h : f.ListsPlain) (hid : id < f.size) {v : Value}
    (hv : v.holdsNodes = false) : (f.setSlot id name v).ListsPlain ↔ v.IsPlain := by
  constructor
  · intro hall
    by_cases hlist : ∃ items, v = .list items
    · obtain ⟨items, rfl⟩ := hlist
      exact hall id name items (by rw [slot?_setSlot, if_pos ⟨rfl, rfl, hid⟩])
    · exact Value.isPlain_of_ne_list hv fun items he => hlist ⟨items, he⟩
  · intro hplain j r items hi
    rw [slot?_setSlot] at hi
    split at hi
    · exact Option.some.inj hi ▸ hplain
    · exact h j r items hi

theorem ListsPlain.step_iff (h : f.ListsPlain) {op : Operation} (ha : op.Admissible f) :
    (op.edit.stateAfter f).ListsPlain ↔ ∀ v ∈ op.stored? f, v.IsPlain := by
  cases hs : op.stored? f with
  | some v =>
    obtain ⟨id, name, hid, hv, hafter⟩ := exists_setSlot_of_stored? hs
    rw [hafter, h.setSlot_iff hid hv]
    simp
  | none =>
    refine iff_of_true ?_ (by simp)
    cases op with
    | newNode t => exact h.newNode (ha.1 t rfl)
    | setChild id name child => exact h.of_noNewLists (noNewLists_setChild f id name child)
    | addChild id name c => exact h.of_noNewLists (noNewLists_addChild f id name c)
    | setChildren id name cs => exact h.of_noNewLists (noNewLists_setChildren f id name cs)
    | setValue id name v =>
      rw [show (Operation.setValue id name v).edit.stateAfter f = f from setValue_of_not_taken hs]
      exact h
    | setReference id name t => exact h.of_noNewLists (noNewLists_setReference f id name t)
    | addReference id name t => exact h.of_noNewLists (noNewLists_addReference f id name t)
    | setProperty id name v => exact h.of_noNewLists (noNewLists_setProperty hs)
    | detach id => exact h.of_noNewLists (noNewLists_detach f id)
    | setPosition id p => exact h.of_noNewLists (noNewLists_update f id fun _ => rfl)
    | setOrigin id o => exact h.of_noNewLists (noNewLists_update f id fun _ => rfl)

/-- No value that is put into a plain slot along the way names nodes at any depth. -/
def StoresPlain (f : Forest) : List Operation → Prop
  | [] => True
  | op :: ops => (∀ v ∈ op.stored? f, v.IsPlain) ∧ (op.edit.stateAfter f).StoresPlain ops

theorem IsForest.after (hf : f.IsForest) {ops : List Operation} (ha : f.AdmitsAll ops) :
    (f.after ops).IsForest := by
  induction ops generalizing f with
  | nil => exact hf
  | cons op ops ih => exact ih (hf.step ha.1) ha.2

theorem AdmitsAll.take {ops : List Operation} (ha : f.AdmitsAll ops) (k : Nat) :
    f.AdmitsAll (ops.take k) := by
  induction ops generalizing f k with
  | nil => simpa using ha
  | cons op ops ih =>
    cases k with
    | zero => trivial
    | succ k => exact ⟨ha.1, ih ha.2 k⟩

/-- The lists stay free of nodes all along a run just when what is stored is. -/
theorem ListsPlain.after_iff (h : f.ListsPlain) {ops : List Operation} (ha : f.AdmitsAll ops) :
    (∀ k, (f.after (ops.take k)).ListsPlain) ↔ f.StoresPlain ops := by
  induction ops generalizing f with
  | nil => simpa [Forest.after, StoresPlain] using h
  | cons op ops ih =>
    have hstep := h.step_iff ha.1
    constructor
    · intro hall
      have hnext : (op.edit.stateAfter f).ListsPlain := hall 1
      exact ⟨hstep.1 hnext, (ih hnext ha.2).1 fun k => hall (k + 1)⟩
    · rintro ⟨hthis, hothers⟩ k
      cases k with
      | zero => exact h
      | succ k => exact (ih (hstep.2 hthis) ha.2).2 hothers k

/-- The slots of plain properties name no nodes at any depth. -/
def PlainSlots (f : Forest) : Prop :=
  ∀ id, ∀ p ∈ (f.get id).type.properties, p.kind = .value →
    ∀ v, f.slot? id p.name = some v → v.IsPlain

theorem IsForest.plainSlots_iff (hf : f.IsForest) : f.PlainSlots ↔ f.ListsPlain := by
  constructor
  · intro h id name items hi
    have hid := lt_size_of_slot? hi
    have hname : name ∈ (f.get id).slots.keys := Table.mem_keys_iff.2 ⟨_, hi⟩
    rw [hf.names id hid] at hname
    obtain ⟨p, hp, rfl⟩ := List.mem_map.1 hname
    refine h id p hp ?_ _ hi
    have hadmits := hf.shapes id hid p hp _ hi
    unfold Property.Admits at hadmits
    split at hadmits <;> simp_all
  · intro h id p hp hk v hv
    have hadmits := hf.shapes id (lt_size_of_slot? hv) p hp v hv
    have hplain : v.holdsNodes = false := by simpa [Property.Admits, hk] using hadmits
    by_cases hlist : ∃ items, v = .list items
    · obtain ⟨items, rfl⟩ := hlist
      exact h id p.name items hv
    · exact Value.isPlain_of_ne_list hplain fun items he => hlist ⟨items, he⟩

/-- Along a run no plain slot ever holds nodes itself, and none ever holds nodes at any depth just
when no value that is accepted for a plain property does. -/
theorem plain_slots_iff_stored {ops : List Operation} (ha : Forest.empty.AdmitsAll ops) :
    (∀ k id, ∀ p ∈ ((Forest.empty.after (ops.take k)).get id).type.properties, p.kind = .value →
      ∀ v, (Forest.empty.after (ops.take k)).slot? id p.name = some v → v.holdsNodes = false) ∧
    ((∀ k, (Forest.empty.after (ops.take k)).PlainSlots) ↔ Forest.empty.StoresPlain ops) := by
  have hforest : ∀ k, (Forest.empty.after (ops.take k)).IsForest := fun k =>
    isForest_empty.after (ha.take k)
  constructor
  · intro k id p hp hk v hv
    have hadmits := (hforest k).shapes id (lt_size_of_slot? hv) p hp v hv
    simpa [Property.Admits, hk] using hadmits
  · have hempty : Forest.empty.ListsPlain := by
      intro id name items hi
      exact absurd (lt_size_of_slot? hi) (Nat.not_lt_zero id)
    rw [← hempty.after_iff ha]
    exact forall_congr' fun k => (hforest k).plainSlots_iff

def stickerType : NodeType where
  name := ⟨"sample", "Sticker"⟩
  isAbstract := false
  supertype := none
  tags := []
  properties := [⟨"words", .value, .any, true, none⟩]

/-- A node takes words in lists of two depths, and refuses to take itself. -/
def stickerRun : List Operation :=
  [.newNode stickerType, .setValue 0 "words" (.list [.string "red", .list [.integer 3, .null]]),
    .setValue 0 "words" (.node 0), .setProperty 0 "words" (.list [.string "blue"])]

theorem plain_slots_stickers : Forest.empty.AdmitsAll stickerRun ∧
    Forest.empty.StoresPlain stickerRun ∧
    (∀ k, (Forest.empty.after (stickerRun.take k)).PlainSlots) ∧
    (Forest.empty.after stickerRun).slot? 0 "words" = some (.list [.string "blue"]) := by
  have hrun : Forest.empty.AdmitsAll stickerRun := by
    refine ⟨⟨fun t ht => ?_, by simp [Operation.nodes]⟩, ⟨by simp, by decide⟩, ⟨by simp, by decide⟩,
      ⟨by simp, by decide⟩, trivial⟩
    cases ht
    rfl
  have hflat : ∀ v : Value, v.holdsNodes = false → (∀ items, v ≠ .list items) → v.IsPlain :=
    fun _ => Value.isPlain_of_ne_list
  have hred := hflat (.string "red") rfl (by simp)
  have hthree := hflat (.integer 3) rfl (by simp)
  have hnull := hflat .null rfl (by simp)
  have hblue := hflat (.string "blue") rfl (by simp)
  have hstored : Forest.empty.StoresPlain stickerRun := by
    refine ⟨by simp [Operation.stored?], fun v hv => ?_, fun v hv => ?_, fun v hv => ?_, trivial⟩
    · cases hv
      simp [Value.isPlain_list_iff, hred, hthree, hnull]
    · cases hv
    · cases hv
      simp [Value.isPlain_list_iff, hblue]
  exact ⟨hrun, hstored, (plain_slots_iff_stored hrun).2.2 hstored, rfl⟩

/-- A node that takes itself as a word, in a list. -/
def hidingRun : List Operation :=
  [.newNode stickerType, .setValue 0 "words" (.list [.list [.node 0]])]

/-- The list is accepted, and the plain slot holds the node. -/
theorem not_plain_slots_hiding : Forest.empty.AdmitsAll hidingRun ∧
    (Forest.empty.after hidingRun).slot? 0 "words" = some (.list [.list [.node 0]]) ∧
    ¬ (Forest.empty.after hidingRun).PlainSlots := by
  have hslot : (Forest.empty.after hidingRun).slot? 0 "words" =
      some (.list [.list [.node 0]]) := rfl
  refine ⟨⟨⟨fun t ht => ?_, by simp [Operation.nodes]⟩, ⟨by simp, by decide⟩, trivial⟩, hslot, ?_⟩
  · cases ht
    rfl
  · intro hplain
    have hwords := hplain 0 ⟨"words", .value, .any, true, none⟩ (by decide) rfl _ hslot
    have hnode : (Value.node 0).holdsNodes = false :=
      hwords (.node 0) (.item (List.mem_singleton.2 rfl) (.item (List.mem_singleton.2 rfl) .self))
    cases hnode

end Forest

end TreeInterchange
