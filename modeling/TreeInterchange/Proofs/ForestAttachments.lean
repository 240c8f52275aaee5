import TreeInterchange.Proofs.ForestEdits

/-!
# Filling the slots of a new node

Where a node without a parent gets values and children that have no parent either, an edit
is never refused. Children that were in the slot before lose their holder first; beyond that
all that changes is the one slot and the holders of the new children.
-/

namespace TreeInterchange

attribute [ext] Node

namespace Forest

variable {f g : Forest} {a : NodeId} {name : String} {v : Value}

/-- One forest begins with the nodes of another. -/
structure Extends (f g : Forest) : Prop where
  size : f.size ≤ g.size
  kept : ∀ j < f.size, g.get j = f.get j

theorem Extends.refl (f : Forest) : f.Extends f := ⟨Nat.le_refl _, fun _ _ => rfl⟩

theorem Extends.trans {h : Forest} (hfg : f.Extends g) (hgh : g.Extends h) : f.Extends h :=
  ⟨Nat.le_trans hfg.size hgh.size, fun j hj => by
    rw [hgh.kept j (Nat.lt_of_lt_of_le hj hfg.size), hfg.kept j hj]⟩

theorem get_push (f : Forest) (n : Node) (j : NodeId) :
    (Forest.mk (f.nodes.push n)).get j = if j = f.size then n else f.get j := by
  simp only [get, size, Array.getD_eq_getD_getElem?, Array.getElem?_push]
  split <;> simp_all

theorem size_push (f : Forest) (n : Node) : (Forest.mk (f.nodes.push n)).size = f.size + 1 := by
  simp [size]

theorem extends_push (f : Forest) (n : Node) : f.Extends ⟨f.nodes.push n⟩ := by
  refine ⟨by rw [size_push]; exact Nat.le_succ _, fun j hj => ?_⟩
  rw [get_push, if_neg (Nat.ne_of_lt hj)]

/-- One forest has, beyond another, `v` in the slot `name` of `a`, which holds its children. -/
structure Filled (f g : Forest) (a : NodeId) (name : String) (v : Value) : Prop where
  size : g.size = f.size
  get : ∀ j, g.get j = { f.get j with
    slots := if j = a then (f.get j).slots.insert name v else (f.get j).slots
    holder := if j ∈ v.children then some ⟨a, name⟩ else (f.get j).holder }

namespace Filled

theorem type (h : f.Filled g a name v) (j : NodeId) : (g.get j).type = (f.get j).type := by
  rw [h.get]

theorem position (h : f.Filled g a name v) (j : NodeId) :
    (g.get j).position = (f.get j).position := by
  rw [h.get]

theorem origin (h : f.Filled g a name v) (j : NodeId) : (g.get j).origin = (f.get j).origin := by
  rw [h.get]

theorem holder (h : f.Filled g a name v) (j : NodeId) :
    (g.get j).holder = if j ∈ v.children then some ⟨a, name⟩ else (f.get j).holder := by
  rw [h.get]

theorem slots_of_ne (h : f.Filled g a name v) {j : NodeId} (hj : j ≠ a) :
    (g.get j).slots = (f.get j).slots := by
  rw [h.get]
  simp [hj]

theorem slots_self (h : f.Filled g a name v) :
    (g.get a).slots = (f.get a).slots.insert name v := by
  rw [h.get]
  simp

theorem slot? (h : f.Filled g a name v) (j : NodeId) (r : String) :
    g.slot? j r = if j = a ∧ r = name then some v else f.slot? j r := by
  by_cases hj : j = a
  · subst hj
    rw [Forest.slot?, h.slots_self, Table.get?_insert]
    by_cases hr : r = name
    · simp [hr]
    · have hr' : ¬ name = r := fun e => hr e.symm
      simp [hr, hr', Forest.slot?]
  · rw [Forest.slot?, h.slots_of_ne hj]
    simp [hj, Forest.slot?]

theorem get_of_ne (h : f.Filled g a name v) {j : NodeId} (hj : j ≠ a) (hc : j ∉ v.children) :
    g.get j = f.get j := by
  rw [h.get]
  simp [hj, hc]

end Filled

theorem get_setSlot (v : Value) (j : NodeId) (ha : a < f.size) :
    (f.setSlot a name v).get j = { f.get j with
      slots := if j = a then (f.get j).slots.insert name v else (f.get j).slots } := by
  rw [setSlot, get_update]
  by_cases hj : a = j
  · subst hj
    simp [ha]
  · have hj' : ¬ j = a := fun e => hj e.symm
    simp [hj, hj']

theorem get_setHolder (h : Option Holder) (j : NodeId) (ha : a < f.size) :
    (f.setHolder a h).get j = { f.get j with holder := if j = a then h else (f.get j).holder } := by
  rw [setHolder, get_update]
  by_cases hj : a = j
  · subst hj
    simp [ha]
  · have hj' : ¬ j = a := fun e => hj e.symm
    simp [hj, hj']

theorem filled_setSlot (ha : a < f.size) (hv : v.children = []) :
    f.Filled (f.setSlot a name v) a name v :=
  ⟨by simp, fun j => by rw [get_setSlot v j ha]; simp [hv]⟩

theorem filled_self (h : f.slot? a name = some v) (hv : v.children = []) :
    f.Filled f a name v := by
  refine ⟨rfl, fun j => ?_⟩
  by_cases hj : j = a
  · subst hj
    simp [Table.insert_self h, hv]
  · simp [hj, hv]

/-- Where the slot was empty, emptying it first makes no difference. -/
theorem Filled.of_evict {w : Value} (h : (f.evict a name w).Filled g a name v) (ha : a < f.size)
    (hempty : f.childrenIn a name = []) : f.Filled g a name v := by
  rw [evict_of_childrenIn_nil hempty] at h
  refine ⟨by rw [h.size, size_setSlot], fun j => ?_⟩
  rw [h.get, get_setSlot _ _ ha]
  by_cases hj : j = a <;> simp [hj]

theorem ancestors_eq_nil (h : (f.get a).holder = none) : f.ancestors a = [] := by
  unfold ancestors
  cases f.size with
  | zero => rfl
  | succ k => simp [parentChain, Node.parent?, h]

theorem attachable_of_root {c : NodeId} (h : (f.get a).holder = none) (hc : c ≠ a) :
    f.attachable a c = .ok () :=
  attachable_eq_ok.2 ⟨hc, by rw [ancestors_eq_nil h]; simp⟩

variable {p : Property} (hp : (f.get a).type.property? name = some p)
include hp

theorem setChild_filled {c : NodeId} (hk : p.kind = .child) (hm : p.multiple = false)
    (ha : (f.get a).holder = none) (hc : c ≠ a) (hcs : c < f.size)
    (hfree : (f.get c).holder = none) : ∃ g, setChild a name (some c) f = .ok () g ∧
      (f.evict a name .null).Filled g a name (.node c) := by
  have has : a < f.size := lt_size_of_property? hp
  refine ⟨_, setChild_some_ok hp hk hm (attachable_of_root ha hc), ?_⟩
  obtain ⟨f₁, hf₁⟩ : ∃ f₁, f₁ = f.evict a name .null := ⟨_, rfl⟩
  have hsize : f₁.size = f.size := by simp [hf₁]
  have hfree₁ : (f₁.get c).holder = none := by
    rw [hf₁, holder_evict, hfree, ite_self]
  rw [← hf₁, adopt, detach_of_holder_none hfree₁]
  refine ⟨by simp, fun j => ?_⟩
  rw [get_setSlot _ _ (by simpa [hsize] using has), get_setHolder _ _ (by simpa [hsize] using hcs)]
  by_cases hj : j = a <;> by_cases hjc : j = c <;> simp [hj, hjc, Value.children]

theorem setChild_fresh {c : NodeId} (hk : p.kind = .child) (hm : p.multiple = false)
    (ha : (f.get a).holder = none) (hempty : f.childrenIn a name = []) (hc : c ≠ a)
    (hcs : c < f.size) (hfree : (f.get c).holder = none) :
    ∃ g, setChild a name (some c) f = .ok () g ∧ f.Filled g a name (.node c) := by
  obtain ⟨g, hrun, hfilled⟩ := setChild_filled hp hk hm ha hc hcs hfree
  exact ⟨g, hrun, hfilled.of_evict (lt_size_of_property? hp) hempty⟩

theorem addChildren_fresh (hk : p.kind = .child) (hm : p.multiple = true) (cs ds : List NodeId)
    (ha : (f.get a).holder = none) (hslot : f.slot? a name = some (.nodes ds))
    (hn : cs.Nodup) (hc : ∀ c ∈ cs, c ≠ a ∧ c < f.size ∧ (f.get c).holder = none) :
    ∃ g, (cs.forM (addChild a name) : Edit Unit) f = .ok () g ∧ g.size = f.size ∧
      ∀ j, g.get j = { f.get j with
        slots := if j = a then (f.get j).slots.insert name (.nodes (ds ++ cs)) else (f.get j).slots
        holder := if j ∈ cs then some ⟨a, name⟩ else (f.get j).holder } := by
  induction cs generalizing f ds with
  | nil =>
    refine ⟨f, rfl, rfl, fun j => ?_⟩
    by_cases hj : j = a
    · subst hj
      simp [Table.insert_self hslot]
    · simp [hj]
  | cons c cs ih =>
    obtain ⟨hca, hcs, hfree⟩ := hc c (by simp)
    rw [List.nodup_cons] at hn
    have has : a < f.size := lt_size_of_property? hp
    obtain ⟨f₁, hf₁⟩ : ∃ f₁, f₁ = (f.adopt a name c).pushChild a name c := ⟨_, rfl⟩
    have hget₁ : ∀ j, f₁.get j = { f.get j with
        slots := if j = a then (f.get j).slots.insert name (.nodes (ds ++ [c])) else (f.get j).slots
        holder := if j = c then some ⟨a, name⟩ else (f.get j).holder } := by
      intro j
      have hslot' : (f.adopt a name c).slot? a name = some (.nodes ds) := by
        rw [adopt, detach_of_holder_none hfree, slot?_setHolder, hslot]
      rw [hf₁, pushChild, hslot']
      rw [get_setSlot _ _ (by simpa [adopt] using has), adopt, detach_of_holder_none hfree,
        get_setHolder _ _ hcs]
    have hsize₁ : f₁.size = f.size := by
      rw [hf₁, pushChild]
      split <;> simp [adopt]
    obtain ⟨g, hrun, hsize, hget⟩ := ih (f := f₁) (by rw [hget₁]; exact hp) (ds ++ [c])
      (by rw [hget₁]; simpa [Ne.symm hca] using ha)
      (by rw [slot?, hget₁]; simp) hn.2 (fun d hd => by
        obtain ⟨hda, hds, hdfree⟩ := hc d (by simp [hd])
        have hdc : d ≠ c := fun e => hn.1 (e ▸ hd)
        refine ⟨hda, by rw [hsize₁]; exact hds, ?_⟩
        rw [hget₁]
        simpa [hdc] using hdfree)
    refine ⟨g, ?_, hsize.trans hsize₁, fun j => ?_⟩
    · refine (StatefulRuns.forM_cons_ok ?_).trans hrun
      rw [addChild_ok hp hk hm (attachable_of_root ha hca), hf₁]
    · rw [hget, hget₁]
      by_cases hj : j = a
      · subst hj
        by_cases hjcs : j ∈ cs <;> simp [hjcs, Ne.symm hca]
      · by_cases hjc : j = c
        · subst hjc
          simp [hj, hn.1]
        · by_cases hjcs : j ∈ cs <;> simp [hj, hjc, hjcs]

theorem setChildren_filled (hk : p.kind = .child) (hm : p.multiple = true) (cs : List NodeId)
    (ha : (f.get a).holder = none) (hn : cs.Nodup)
    (hc : ∀ c ∈ cs, c ≠ a ∧ c < f.size ∧ (f.get c).holder = none) :
    ∃ g, setChildren a name cs f = .ok () g ∧
      (f.evict a name (.nodes [])).Filled g a name (.nodes cs) := by
  have has : a < f.size := lt_size_of_property? hp
  obtain ⟨f₁, hf₁⟩ : ∃ f₁, f₁ = f.evict a name (.nodes []) := ⟨_, rfl⟩
  have hfree₁ : ∀ j, (f.get j).holder = none → (f₁.get j).holder = none := fun j hj => by
    rw [hf₁, holder_evict, hj, ite_self]
  obtain ⟨g, hrun, hsize, hget⟩ := addChildren_fresh (f := f₁)
    (by rw [hf₁, type_evict]; exact hp) hk hm cs [] (hfree₁ a ha)
    (by rw [hf₁, slot?_evict]; simp [has]) hn (fun c hcc => by
      obtain ⟨hca, hcs, hfree⟩ := hc c hcc
      exact ⟨hca, by rw [hf₁, size_evict]; exact hcs, hfree₁ c hfree⟩)
  refine ⟨g, ?_, ?_⟩
  · rw [setChildren_ok hp hk hm fun c hcc => attachable_of_root ha (hc c hcc).1, ← hf₁]
    exact hrun
  · rw [← hf₁]
    exact ⟨hsize, hget⟩

theorem setChildren_fresh (hk : p.kind = .child) (hm : p.multiple = true) (cs : List NodeId)
    (ha : (f.get a).holder = none) (hempty : f.childrenIn a name = []) (hn : cs.Nodup)
    (hc : ∀ c ∈ cs, c ≠ a ∧ c < f.size ∧ (f.get c).holder = none) :
    ∃ g, setChildren a name cs f = .ok () g ∧ f.Filled g a name (.nodes cs) := by
  obtain ⟨g, hrun, hfilled⟩ := setChildren_filled hp hk hm cs ha hn hc
  exact ⟨g, hrun, hfilled.of_evict (lt_size_of_property? hp) hempty⟩

theorem addReferences_filled (hk : p.kind = .reference) (hm : p.multiple = true)
    (ids ds : List NodeId) (hslot : f.slot? a name = some (.references ds)) :
    ∃ g, (ids.forM (addReference a name) : Edit Unit) f = .ok () g ∧
      f.Filled g a name (.references (ds ++ ids)) := by
  induction ids generalizing f ds with
  | nil => exact ⟨f, rfl, filled_self (by rw [List.append_nil]; exact hslot) rfl⟩
  | cons id ids ih =>
    have has : a < f.size := lt_size_of_property? hp
    have hstep : addReference a name id f =
        .ok () (f.setSlot a name (.references (ds ++ [id]))) := by
      rw [addReference_ok hp hk hm, pushReference, hslot]
    have hget : ∀ j, (f.setSlot a name (.references (ds ++ [id]))).get j = _ :=
      fun j => get_setSlot (.references (ds ++ [id])) j has
    obtain ⟨g, hrun, hfilled⟩ := ih (f := f.setSlot a name (.references (ds ++ [id])))
      (by rw [hget]; exact hp) (ds ++ [id]) (by rw [slot?, hget]; simp)
    refine ⟨g, (StatefulRuns.forM_cons_ok hstep).trans hrun, ?_, fun j => ?_⟩
    · rw [hfilled.size, size_setSlot]
    · rw [hfilled.get, hget]
      by_cases hj : j = a <;> simp [hj, Value.children]

end Forest

end TreeInterchange
