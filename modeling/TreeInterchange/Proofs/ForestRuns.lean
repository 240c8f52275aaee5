import TreeInterchange.Proofs.ForestStructure

/-!
# Runs of operations on a forest

A run starts from the empty forest and applies operations in any order, refused ones
included, to nodes that exist. One step keeps the structure of a forest, hence every run
does.
-/

namespace TreeInterchange

theorem NodeType.validateAfter_nodup {type : QualifiedName} {earlier ps : List Property}
    (hn : (earlier.map (·.name)).Nodup) (h : validateAfter type earlier ps = .ok ()) :
    ((earlier ++ ps).map (·.name)).Nodup := by
  induction ps generalizing earlier with
  | nil => simpa using hn
  | cons p ps ih =>
    unfold validateAfter at h
    split at h
    · cases h
    split at h
    · cases h
    rename_i hnew _
    rw [← List.singleton_append, ← List.append_assoc]
    refine ih ?_ h
    rw [List.map_append, List.nodup_append]
    refine ⟨hn, by simp, ?_⟩
    rintro a ha b hb rfl
    obtain ⟨q, hq, rfl⟩ := List.mem_map.1 ha
    simp only [List.map_cons, List.map_nil, List.mem_singleton] at hb
    exact hnew (List.any_eq_true.2 ⟨q, hq, by simpa using hb⟩)

theorem NodeType.names_nodup_of_validate {t : NodeType} (h : t.validate = .ok ()) :
    (t.properties.map (·.name)).Nodup := by
  simpa using validateAfter_nodup (by simp) h

theorem Property.admits_emptySlot (p : Property) : p.Admits p.emptySlot := by
  cases hm : p.multiple <;> cases hk : p.kind <;>
    simp [Property.Admits, Property.emptySlot, hm, hk, Value.holdsNodes]

theorem Property.children_emptySlot (p : Property) : p.emptySlot.children = [] := by
  cases hm : p.multiple <;> cases hk : p.kind <;>
    simp [Property.emptySlot, hm, hk, Value.children]

theorem Node.entries_ofType {t : NodeType} (h : (t.properties.map (·.name)).Nodup) :
    (Node.ofType t).slots.entries = t.properties.map fun p => (p.name, p.emptySlot) :=
  Table.entries_ofList (by simpa [List.map_map, Function.comp_def] using h)

theorem Node.slot_ofType {t : NodeType} (h : (t.properties.map (·.name)).Nodup) {name : String}
    {v : Value} (hv : (Node.ofType t).slots.get? name = some v) :
    ∃ p ∈ t.properties, p.name = name ∧ v = p.emptySlot := by
  rw [Table.get?_eq_some_iff, Node.entries_ofType h, List.mem_map] at hv
  obtain ⟨p, hp, he⟩ := hv
  simp only [Prod.mk.injEq] at he
  exact ⟨p, hp, he.1, he.2.symm⟩

namespace Forest

/-- Everything that can be done to a forest. -/
inductive Operation where
  | newNode (type : NodeType)
  | setChild (id : NodeId) (name : String) (child : Option NodeId)
  | addChild (id : NodeId) (name : String) (child : NodeId)
  | setChildren (id : NodeId) (name : String) (children : List NodeId)
  | setValue (id : NodeId) (name : String) (v : Value)
  | setReference (id : NodeId) (name : String) (target : Option NodeId)
  | addReference (id : NodeId) (name : String) (target : NodeId)
  | setProperty (id : NodeId) (name : String) (v : Value)
  | detach (id : NodeId)
  | setPosition (id : NodeId) (position : Option Position)
  | setOrigin (id : NodeId) (origin : Option Origin)

namespace Operation

def edit : Operation → Edit Unit
  | .newNode t => modify fun f => (f.newNode t).2
  | .setChild id name child => Forest.setChild id name child
  | .addChild id name child => Forest.addChild id name child
  | .setChildren id name children => Forest.setChildren id name children
  | .setValue id name v => Forest.setValue id name v
  | .setReference id name target => Forest.setReference id name target
  | .addReference id name target => Forest.addReference id name target
  | .setProperty id name v => Forest.setProperty id name v
  | .detach id => modify (·.detach id)
  | .setPosition id p => modify (·.setPosition id p)
  | .setOrigin id o => modify (·.setOrigin id o)

def nodes : Operation → List NodeId
  | .newNode _ => []
  | .setChild id _ child => id :: child.toList
  | .addChild id _ child => [id, child]
  | .setChildren id _ children => id :: children
  | .setValue id _ v => id :: (v.children ++ v.targets)
  | .setReference id _ target => id :: target.toList
  | .addReference id _ target => [id, target]
  | .setProperty id _ v => id :: (v.children ++ v.targets)
  | .detach id => [id]
  | .setPosition id _ => [id]
  | .setOrigin id (some (.node o)) => [id, o]
  | .setOrigin id _ => [id]

/-- New nodes have a valid type, and operations name nodes that exist. -/
def Admissible (f : Forest) (op : Operation) : Prop :=
  (∀ t, op = .newNode t → t.validate = .ok ()) ∧ ∀ id ∈ op.nodes, id < f.size

instance (op : Operation) : Decidable (∀ t, op = .newNode t → t.validate = .ok ()) :=
  match op with
  | .newNode t =>
    match h : t.validate with
    | .ok () => .isTrue fun _ ht => by cases ht; exact h
    | .error _ => .isFalse fun hall => by rw [hall t rfl] at h; cases h
  | .setChild .. | .addChild .. | .setChildren .. | .setValue .. | .setReference ..
  | .addReference .. | .setProperty .. | .detach .. | .setPosition .. | .setOrigin .. =>
    .isTrue fun _ ht => by cases ht

instance (f : Forest) (op : Operation) : Decidable (op.Admissible f) :=
  inferInstanceAs (Decidable (_ ∧ _))

end Operation

end Forest

/-- The state that an edit leaves, made or refused. -/
def Edit.stateAfter (e : Edit Unit) (f : Forest) : Forest :=
  match e f with
  | .ok _ g => g
  | .error _ g => g

namespace Forest

/-- What runs of admissible operations lead to, as long as there is room: the number of nodes is a
32-bit number like all their places. -/
inductive Reachable : Forest → Prop
  | empty : Reachable Forest.empty
  | step {f : Forest} (op : Operation) (h : Reachable f) (ha : op.Admissible f)
      (hroom : (op.edit.stateAfter f).size < arenaRoom) : Reachable (op.edit.stateAfter f)

/-- The forest that a list of operations leaves, refused ones included. -/
def after (f : Forest) (ops : List Operation) : Forest :=
  ops.foldl (fun f op => op.edit.stateAfter f) f

/-- Each operation is admissible in the forest that those before it have left. -/
def AdmitsAll (f : Forest) : List Operation → Prop
  | [] => True
  | op :: ops => op.Admissible f ∧ (op.edit.stateAfter f).AdmitsAll ops

def decideAdmitsAll (f : Forest) : (ops : List Operation) → Decidable (f.AdmitsAll ops)
  | [] => inferInstanceAs (Decidable True)
  | op :: ops =>
    have := decideAdmitsAll (op.edit.stateAfter f) ops
    inferInstanceAs (Decidable (_ ∧ _))

instance (f : Forest) (ops : List Operation) : Decidable (f.AdmitsAll ops) := decideAdmitsAll f ops

variable {f : Forest} {id : NodeId} {name : String}

theorem Reachable.after (h : Reachable f) (ops : List Operation) (ha : f.AdmitsAll ops)
    (hroom : ∀ k < ops.length, (f.after (ops.take (k + 1))).size < arenaRoom) :
    Reachable (f.after ops) := by
  induction ops generalizing f with
  | nil => exact h
  | cons op ops ih =>
    refine ih (h.step op ha.1 (hroom 0 (Nat.succ_pos _))) ha.2 fun k hk => ?_
    exact hroom (k + 1) (Nat.succ_lt_succ hk)

theorem stateAfter_error {e : Edit Unit} {err : ModelError} (h : e f = .error err f) :
    e.stateAfter f = f := by
  simp [Edit.stateAfter, h]

theorem stateAfter_ok {e : Edit Unit} {g : Forest} (h : e f = .ok () g) : e.stateAfter f = g := by
  simp [Edit.stateAfter, h]

theorem stateAfter_check {α : Type} {test : Forest → Except ModelError α} {k : α → Edit Unit}
    {a : α} (h : test f = .ok a) :
    (Edit.check test >>= k : Edit Unit).stateAfter f = (k a).stateAfter f := by
  simp only [Edit.stateAfter, StatefulRuns.bind_ok (Edit.check_ok h)]

theorem stateAfter_seq {e : Edit Unit} {g : Forest} (k : Unit → Edit Unit) (h : e f = .ok () g) :
    (e >>= k : Edit Unit).stateAfter f = (k ()).stateAfter g := by
  simp only [Edit.stateAfter, StatefulRuns.bind_ok h]

theorem isForest_empty : Forest.empty.IsForest := by
  have hget : ∀ j, Forest.empty.get j = default := fun j => get_of_size_le (Nat.zero_le j)
  have hin : ∀ p r, Forest.empty.childrenIn p r = [] := fun p r => by simp [childrenIn, slot?, hget]
  constructor
  · intro j hj
    exact absurd hj (Nat.not_lt_zero j)
  · intro j hj
    exact absurd hj (Nat.not_lt_zero j)
  · intro p r c
    simp [hin, hget]
  · intro p r
    simp [hin]
  · intro c hc
    obtain ⟨b, -, hb⟩ := Relation.TransGen.tail'_iff.1 hc
    simp [IsParent, hget, Node.parent?] at hb

namespace IsForest

variable (hf : f.IsForest)
include hf

theorem newNode {t : NodeType} (ht : t.validate = .ok ()) : (f.newNode t).2.IsForest := by
  have hn := NodeType.names_nodup_of_validate ht
  have hold : ∀ j, j ≠ f.size → (f.newNode t).2.get j = f.get j := fun j hj => by
    rw [get_newNode, if_neg hj]
  have hnew : (f.newNode t).2.get f.size = .ofType t := by rw [get_newNode, if_pos rfl]
  have hin : ∀ p r, (f.newNode t).2.childrenIn p r = f.childrenIn p r := by
    intro p r
    by_cases hp : p = f.size
    · subst hp
      have h1 : f.childrenIn f.size r = [] := by
        simp [childrenIn, slot?, get_of_size_le (Nat.le_refl f.size)]
      rw [h1, childrenIn, slot?, hnew]
      cases hv : (Node.ofType t).slots.get? r with
      | none => rfl
      | some v =>
        obtain ⟨q, -, -, rfl⟩ := Node.slot_ofType hn hv
        exact q.children_emptySlot
    · simp [childrenIn, slot?, hold p hp]
  have hhold : ∀ j, ((f.newNode t).2.get j).holder = (f.get j).holder := by
    intro j
    by_cases hj : j = f.size
    · subst hj
      rw [hnew, get_of_size_le (Nat.le_refl f.size)]
      rfl
    · rw [hold j hj]
  constructor
  · intro j hj
    by_cases hs : j = f.size
    · subst hs
      rw [hnew, Table.keys, Node.entries_ofType hn, List.map_map]
      rfl
    · rw [hold j hs]
      exact hf.names j (by simp at hj; omega)
  · intro j hj p hp v hv
    by_cases hs : j = f.size
    · subst hs
      rw [hnew] at hp
      rw [slot?, hnew] at hv
      obtain ⟨q, hq, he, rfl⟩ := Node.slot_ofType hn hv
      have hpq : q = p := List.inj_on_of_nodup_map hn hq hp he
      exact hpq ▸ q.admits_emptySlot
    · rw [hold j hs] at hp
      rw [slot?, hold j hs] at hv
      exact hf.shapes j (by simp at hj; omega) p hp v hv
  · intro p r c
    rw [hin, hhold]
    exact hf.held p r c
  · intro p r
    rw [hin]
    exact hf.once p r
  · exact hf.acyclic_of_holder fun j => .inr (hhold j)

theorem update_content (j : NodeId) {g : Node → Node}
    (hg : ∀ n, (g n).type = n.type ∧ (g n).slots = n.slots ∧ (g n).holder = n.holder) :
    (f.update j g).IsForest := by
  apply hf.of_same (by simp)
  intro i
  rw [get_update]
  split
  · exact hg _
  · exact ⟨rfl, rfl, rfl⟩

theorem childrenIn_eq_nil {p : Property} (hp : (f.get id).type.property? name = some p)
    (hk : p.kind ≠ .child) : f.childrenIn id name = [] := by
  obtain ⟨v, hv, ha⟩ := hf.exists_slot hp
  rw [childrenIn_eq hv]
  unfold Property.Admits at ha
  split at ha
  · exact absurd ‹_› hk
  · exact absurd ‹_› hk
  · rcases ha with rfl | ⟨t, rfl⟩ <;> rfl
  · obtain ⟨ts, rfl⟩ := ha
    rfl
  · cases v <;> simp_all [Value.holdsNodes, Value.children]

theorem store {p : Property} (hp : (f.get id).type.property? name = some p) (hk : p.kind ≠ .child)
    {v : Value} (hv : p.Admits v) (hc : v.children = []) : (f.setSlot id name v).IsForest := by
  rw [← evict_of_childrenIn_nil (hf.childrenIn_eq_nil hp hk)]
  exact hf.evict hp hv hc

/-- A root that moves below a node, where the slot so far holds `v` and will hold `w`. -/
theorem adopt {p : Property} (hp : (f.get id).type.property? name = some p) {c : NodeId}
    (hcs : c < f.size) (hnot : ¬ Relation.ReflTransGen f.IsParent c id) {w : Value}
    (hw : p.Admits w) (hc : w.children = (f.detach c).childrenIn id name ++ [c]) :
    ((f.adopt id name c).setSlot id name w).IsForest := by
  refine (hf.detach c).attach (by simpa using hp) (by simpa using hcs) (by simp [holder_detach])
    (fun h => hnot (Relation.ReflTransGen.mono (isParent_of_holder_eq fun j => ?_) _ _ h)) hw hc
  rw [holder_detach]
  split
  · exact .inl rfl
  · exact .inr rfl

theorem setChild (child : Option NodeId) (hc : ∀ c ∈ child, c < f.size) :
    ((Forest.setChild id name child).stateAfter f).IsForest := by
  obtain ⟨e, h⟩ | ⟨p, hp, hk, hm, ha⟩ := setChild_cases f id name child
  · rwa [stateAfter_error h]
  have hnull : (f.evict id name .null).IsForest :=
    hf.evict hp (by simp [Property.Admits, hk, hm]) rfl
  cases child with
  | none => rwa [stateAfter_ok (setChild_none_ok hp hk hm)]
  | some c =>
    rw [stateAfter_ok (setChild_some_ok hp hk hm (ha c rfl))]
    have hid := lt_size_of_property? hp
    refine hnull.adopt (by simpa using hp) (by simpa using hc c rfl) (fun h => ?_)
      (by simp [Property.Admits, hk, hm]) ?_
    · refine hf.not_above_of_attachable hid (ha c rfl)
        (Relation.ReflTransGen.mono (isParent_of_holder_eq fun j => ?_) _ _ h)
      rw [holder_evict]
      split
      · exact .inl rfl
      · exact .inr rfl
    · have hnil : (f.evict id name .null).childrenIn id name = [] := by
        simp [childrenIn, slot?_evict, hid, Value.children]
      simp [hnull.childrenIn_detach, hnil, Value.children]

theorem addChild (id : NodeId) (name : String) {c : NodeId} (hc : c < f.size) :
    ((Forest.addChild id name c).stateAfter f).IsForest := by
  obtain ⟨e, h⟩ | ⟨p, hp, hk, hm, ha⟩ := addChild_cases f id name c
  · rwa [stateAfter_error h]
  rw [stateAfter_ok (addChild_ok hp hk hm ha)]
  have hp' : ((f.detach c).get id).type.property? name = some p := by simpa using hp
  obtain ⟨v, hv, hadm⟩ := (hf.detach c).exists_slot hp'
  simp only [Property.Admits, hk, hm] at hadm
  obtain ⟨cs, rfl⟩ := hadm
  have hpush : (f.adopt id name c).pushChild id name c =
      (f.adopt id name c).setSlot id name (.nodes (cs ++ [c])) := by
    simp [pushChild, Forest.adopt, hv]
  rw [hpush]
  refine hf.adopt hp hc (hf.not_above_of_attachable (lt_size_of_property? hp) ha)
    (by simp [Property.Admits, hk, hm]) ?_
  rw [childrenIn_eq hv]
  rfl

theorem addChildren (id : NodeId) (name : String) (cs : List NodeId) (hc : ∀ c ∈ cs, c < f.size) :
    ((cs.forM (Forest.addChild id name)).stateAfter f).IsForest := by
  induction cs generalizing f with
  | nil => exact hf
  | cons c cs ih =>
    have hstep := hf.addChild id name (hc c (by simp))
    obtain ⟨e, h⟩ | ⟨p, hp, hk, hm, ha⟩ := addChild_cases f id name c
    · have hrun : ((c :: cs).forM (Forest.addChild id name)) f = .error e f :=
        StatefulRuns.bind_error h
      rwa [stateAfter_error hrun]
    · have hadd := addChild_ok hp hk hm ha
      rw [stateAfter_ok hadd] at hstep
      rw [show ((c :: cs).forM (Forest.addChild id name)).stateAfter f = _ from
        stateAfter_seq (fun _ => cs.forM (Forest.addChild id name)) hadd]
      apply ih hstep
      intro d hd
      have hsize : ((f.adopt id name c).pushChild id name c).size = f.size := by
        unfold pushChild
        split <;> simp [Forest.adopt]
      rw [hsize]
      exact hc d (by simp [hd])

theorem setChildren (cs : List NodeId) (hc : ∀ c ∈ cs, c < f.size) :
    ((Forest.setChildren id name cs).stateAfter f).IsForest := by
  obtain ⟨e, h⟩ | ⟨p, hp, hk, hm, ha⟩ := setChildren_cases f id name cs
  · rwa [stateAfter_error h]
  have hnil : (f.evict id name (.nodes [])).IsForest :=
    hf.evict hp (by simp [Property.Admits, hk, hm]) rfl
  have hrun := setChildren_ok hp hk hm ha
  have hloop := hnil.addChildren id name cs (by simpa using hc)
  simpa only [Edit.stateAfter, hrun] using hloop

theorem setValue (v : Value) : ((Forest.setValue id name v).stateAfter f).IsForest := by
  obtain ⟨e, h⟩ | ⟨p, hp, hk, hv⟩ := setValue_cases f id name v
  · rwa [stateAfter_error h]
  rw [stateAfter_ok (setValue_ok hp hk hv)]
  apply hf.store hp (by simp [hk]) (by simpa [Property.Admits, hk] using hv)
  cases v <;> simp_all [Value.holdsNodes, Value.children]

theorem setReference (target : Option NodeId) :
    ((Forest.setReference id name target).stateAfter f).IsForest := by
  obtain ⟨e, h⟩ | ⟨p, hp, hk, hm⟩ := propertyOf_cases f id name .reference false .singleReference
    fun _ => modify (·.setSlot id name ((target.map .reference).getD .null))
  · rwa [stateAfter_error (e := Forest.setReference id name target) h]
  rw [stateAfter_ok (setReference_ok hp hk hm)]
  refine hf.store hp (by simp [hk]) ?_ ?_ <;>
    cases target <;> simp [Property.Admits, hk, hm, Value.children]

theorem addReference (target : NodeId) :
    ((Forest.addReference id name target).stateAfter f).IsForest := by
  obtain ⟨e, h⟩ | ⟨p, hp, hk, hm⟩ := propertyOf_cases f id name .reference true .referenceCollection
    fun _ => modify (·.pushReference id name target)
  · rwa [stateAfter_error (e := Forest.addReference id name target) h]
  rw [stateAfter_ok (addReference_ok hp hk hm)]
  have hstore : ∀ ts, (f.setSlot id name (.references ts)).IsForest := fun ts =>
    hf.store hp (by simp [hk]) (by simp [Property.Admits, hk, hm]) rfl
  unfold pushReference
  split
  · exact hstore _
  · exact hstore _

theorem setReferences (targets : List NodeId) :
    ((Forest.setReferences id name targets).stateAfter f).IsForest := by
  obtain ⟨e, h⟩ | ⟨p, hp, hk, hm⟩ := propertyOf_cases f id name .reference true .referenceCollection
    fun _ => modify (·.setSlot id name (.references targets))
  · rwa [stateAfter_error (e := Forest.setReferences id name targets) h]
  rw [stateAfter_ok (setReferences_ok hp hk hm)]
  exact hf.store hp (by simp [hk]) (by simp [Property.Admits, hk, hm]) rfl

theorem setProperty (v : Value) (hv : ∀ c ∈ v.children, c < f.size) :
    ((Forest.setProperty id name v).stateAfter f).IsForest := by
  cases hp : f.property id name with
  | error e =>
    rwa [stateAfter_error (e := Forest.setProperty id name v)
      (StatefulRuns.bind_error (Edit.check_error hp))]
  | ok p =>
    rw [show (Forest.setProperty id name v).stateAfter f = _ from stateAfter_check hp]
    split
    · exact hf.setChild _ (by simpa [Value.children] using hv)
    · exact hf.setChild _ (by simp)
    · exact hf.setChildren _ (by simpa [Value.children] using hv)
    · exact hf.setChildren _ (by simp)
    · exact hf.setReference _
    · exact hf.setReference _
    · exact hf.setReferences _
    · exact hf.setReferences _
    · exact hf.setValue _
    · exact hf

/-- One step of a run. -/
theorem step {op : Operation} (ha : op.Admissible f) : (op.edit.stateAfter f).IsForest := by
  obtain ⟨ht, hids⟩ := ha
  cases op with
  | newNode t => exact hf.newNode (ht t rfl)
  | setChild id name child =>
    exact hf.setChild child fun c hc => hids c (by simp_all [Operation.nodes])
  | addChild id name c => exact hf.addChild id name (hids c (by simp [Operation.nodes]))
  | setChildren id name cs =>
    exact hf.setChildren cs fun c hc => hids c (by simp [Operation.nodes, hc])
  | setValue id name v => exact hf.setValue v
  | setReference id name t => exact hf.setReference t
  | addReference id name t => exact hf.addReference t
  | setProperty id name v =>
    exact hf.setProperty v fun c hc => hids c (by simp [Operation.nodes, hc])
  | detach id => exact hf.detach id
  | setPosition id p => exact hf.update_content id fun n => ⟨rfl, rfl, rfl⟩
  | setOrigin id o => exact hf.update_content id fun n => ⟨rfl, rfl, rfl⟩

theorem hasValidParents (root : NodeId) : f.hasValidParents root = true := by
  simp only [Forest.hasValidParents, List.all_eq_true, beq_iff_eq]
  intro n _ c hc
  obtain ⟨r, hr⟩ := mem_children_iff.1 hc
  exact isParent_iff.2 ⟨r, (hf.held n r c).1 hr⟩

end IsForest

theorem Reachable.isForest (h : Reachable f) : f.IsForest := by
  induction h with
  | empty => exact isForest_empty
  | step op _ ha _ ih => exact ih.step ha

/-- Every run leaves a forest: slots are named and filled as the types declare, a node stands in a
slot exactly when it names the slot as its holder, it stands there once and nowhere else, and
no node is above itself. Hence the check of parents succeeds everywhere. -/
theorem wellFormed_of_reachable (h : Reachable f) :
    (∀ id < f.size, (f.get id).slots.keys = (f.get id).type.properties.map (·.name) ∧
      ∀ p ∈ (f.get id).type.properties, ∃ v, f.slot? id p.name = some v ∧ p.Admits v) ∧
    (∀ p r c, (c ∈ f.childrenIn p r ↔
        (f.get c).parent? = some p ∧ (f.get c).role? = some r) ∧
      (c ∈ f.childrenIn p r → (f.childrenIn p r).count c = 1 ∧
        ∀ q s, c ∈ f.childrenIn q s → q = p ∧ s = r)) ∧
    (∀ c, ¬ f.Above c c) ∧
    ∀ n, f.hasValidParents n = true := by
  have hf := h.isForest
  refine ⟨fun id hid => ⟨hf.names id hid, fun p hp => ?_⟩, fun p r c => ⟨?_, fun hc => ⟨?_, ?_⟩⟩,
    hf.acyclic, hf.hasValidParents⟩
  · have hmem : p.name ∈ (f.get id).slots.keys := by
      rw [hf.names id hid]
      exact List.mem_map_of_mem hp
    obtain ⟨v, hv⟩ := Table.mem_keys_iff.1 hmem
    exact ⟨v, hv, hf.shapes id hid p hp v hv⟩
  · rw [hf.held, Node.parent?, Node.role?]
    cases (f.get c).holder with
    | none => simp
    | some k => cases k; simp
  · exact List.count_eq_one_of_mem (hf.once p r) hc
  · intro q s hq
    have hsame := ((hf.held p r c).1 hc).symm.trans ((hf.held q s c).1 hq)
    simp only [Option.some.injEq, Holder.mk.injEq] at hsame
    exact ⟨hsame.1.symm, hsame.2.symm⟩

/-- A type with a single child and a collection, for a run that moves a child between them. -/
def boxType : NodeType where
  name := ⟨"sample", "Box"⟩
  isAbstract := false
  supertype := none
  tags := []
  properties := [⟨"lid", .child, .any, false, none⟩, ⟨"items", .child, .any, true, none⟩]

/-- Three boxes; the second leaves the collection for the single slot and comes back twice. -/
def boxRun : List Operation :=
  [.newNode boxType, .newNode boxType, .newNode boxType, .addChild 0 "items" 1,
    .setChild 0 "lid" (some 1), .addChild 1 "items" 0, .setChildren 0 "items" [1, 2, 1]]

def boxes : Forest := boxRun.foldl (fun f op => op.edit.stateAfter f) Forest.empty

theorem reachable_boxes : Reachable boxes :=
  Reachable.empty.after boxRun (by decide) (by decide)

theorem wellFormed_boxes : Reachable boxes ∧ boxes.childrenIn 0 "items" = [2, 1] ∧
    ((boxes.get 1).parent? = some 0 ∧ (boxes.get 1).role? = some "items") ∧
    1 ∉ boxes.childrenIn 0 "lid" ∧ boxes.hasValidParents 0 = true := by
  have hitems : boxes.childrenIn 0 "items" = [2, 1] := by decide
  have hmem : 1 ∈ boxes.childrenIn 0 "items" := by rw [hitems]; decide
  obtain ⟨-, hplace, -, hvalid⟩ := wellFormed_of_reachable reachable_boxes
  refine ⟨reachable_boxes, hitems, (hplace 0 "items" 1).1.1 hmem, fun hlid => ?_, hvalid 0⟩
  exact absurd (((hplace 0 "items" 1).2 hmem).2 0 "lid" hlid).2 (by decide)

end Forest

end TreeInterchange
