import Mathlib.Logic.Relation
import TreeInterchange.Proofs.ForestEdits

/-!
# The structure of a forest

The arena holds trees when slots have the names and shapes that the types declare, when child
slots and recorded holders say the same, and when nobody stands above himself. The changes
that edits make keep all of this: emptying a slot and detaching only remove links, and
attaching adds one link, from a node that is neither the child nor below it.
-/

namespace TreeInterchange

/-- The values that a slot of a property may hold. -/
def Property.Admits (p : Property) (v : Value) : Prop :=
  match p.kind, p.multiple with
  | .child, false => v = .null ∨ ∃ c, v = .node c
  | .child, true => ∃ cs, v = .nodes cs
  | .reference, false => v = .null ∨ ∃ t, v = .reference t
  | .reference, true => ∃ ts, v = .references ts
  | .value, _ => v.holdsNodes = false

theorem Property.Admits.without {p : Property} {v : Value} (hv : p.Admits v) (c : NodeId) :
    p.Admits (v.without c) := by
  unfold Property.Admits at hv ⊢
  split at hv
  · rcases hv with rfl | ⟨d, rfl⟩
    · exact .inl rfl
    · by_cases h : d = c <;> simp [Value.without, h]
  · obtain ⟨cs, rfl⟩ := hv
    exact ⟨_, rfl⟩
  · rcases hv with rfl | ⟨t, rfl⟩
    · exact .inl rfl
    · exact .inr ⟨t, rfl⟩
  · obtain ⟨ts, rfl⟩ := hv
    exact ⟨_, rfl⟩
  · cases v <;> simp_all [Value.without, Value.holdsNodes]

theorem Property.Admits.of_not_null {p : Property} {v : Value} (hv : p.Admits v)
    (hnull : v.isNull = false) :
    (p.kind = .value ∧ v.holdsNodes = false) ∨
    (p.kind = .child ∧ ((p.multiple = false ∧ ∃ c, v = .node c) ∨
      (p.multiple = true ∧ ∃ cs, v = .nodes cs))) ∨
    (p.kind = .reference ∧ ((p.multiple = false ∧ ∃ t, v = .reference t) ∨
      (p.multiple = true ∧ ∃ ts, v = .references ts))) := by
  unfold Property.Admits at hv
  cases hk : p.kind with
  | value => exact .inl ⟨rfl, by simpa [hk] using hv⟩
  | child =>
    refine .inr (.inl ⟨rfl, ?_⟩)
    cases hm : p.multiple with
    | true => exact .inr ⟨rfl, by simpa [hk, hm] using hv⟩
    | false =>
      simp only [hk, hm] at hv
      rcases hv with rfl | hc
      · cases hnull
      · exact .inl ⟨rfl, hc⟩
  | reference =>
    refine .inr (.inr ⟨rfl, ?_⟩)
    cases hm : p.multiple with
    | true => exact .inr ⟨rfl, by simpa [hk, hm] using hv⟩
    | false =>
      simp only [hk, hm] at hv
      rcases hv with rfl | ht
      · cases hnull
      · exact .inl ⟨rfl, ht⟩

namespace Forest

/-- One link of the way up. -/
def IsParent (f : Forest) (p c : NodeId) : Prop := (f.get c).parent? = some p

/-- `a` is the parent of `b`, or the parent of that, and so on. -/
def Above (f : Forest) : NodeId → NodeId → Prop := Relation.TransGen f.IsParent

structure IsForest (f : Forest) : Prop where
  /-- Slots are named as the type declares, in that order. -/
  names : ∀ id < f.size, (f.get id).slots.keys = (f.get id).type.properties.map (·.name)
  /-- Slots hold what the kind and multiplicity of the property ask for. -/
  shapes : ∀ id < f.size, ∀ p ∈ (f.get id).type.properties, ∀ v,
    f.slot? id p.name = some v → p.Admits v
  /-- A node stands in exactly the slot that it names as its holder. -/
  held : ∀ p r c, c ∈ f.childrenIn p r ↔ (f.get c).holder = some ⟨p, r⟩
  once : ∀ p r, (f.childrenIn p r).Nodup
  acyclic : ∀ c, ¬ f.Above c c

variable {f g : Forest} {id c : NodeId} {name : String}

theorem isParent_iff {p : NodeId} :
    f.IsParent p c ↔ ∃ r, (f.get c).holder = some ⟨p, r⟩ := by
  unfold IsParent Node.parent?
  cases (f.get c).holder with
  | none => simp
  | some h =>
    simp only [Option.map_some, Option.some.injEq]
    constructor
    · rintro rfl; exact ⟨h.role, rfl⟩
    · rintro ⟨r, rfl⟩; rfl

/-- Links that are all there already make no new way up. -/
theorem above_mono (h : ∀ p c, g.IsParent p c → f.IsParent p c) {a b : NodeId} (hab : g.Above a b) :
    f.Above a b := Relation.TransGen.mono h a b hab

theorem isParent_of_holder_eq
    (h : ∀ j, (g.get j).holder = none ∨ (g.get j).holder = (f.get j).holder) (p c : NodeId)
    (hg : g.IsParent p c) : f.IsParent p c := by
  rw [isParent_iff] at hg ⊢
  obtain ⟨r, hr⟩ := hg
  rcases h c with hn | he
  · rw [hn] at hr; cases hr
  · exact ⟨r, he ▸ hr⟩

theorem above_of_mem_parentChain {a : NodeId} {k : Nat} (h : a ∈ f.parentChain k id) :
    f.Above a id := by
  induction k generalizing id with
  | zero => simp [parentChain] at h
  | succ k ih =>
    unfold parentChain at h
    split at h
    · rename_i p hp
      rcases List.mem_cons.1 h with rfl | h
      · exact .single hp
      · exact .tail (ih h) hp
    · simp at h

theorem mem_parentChain_of_above {a : NodeId} {k : Nat} (h : f.Above a id)
    (hk : (f.parentChain k id).length < k) : a ∈ f.parentChain k id := by
  induction k generalizing id with
  | zero => simp at hk
  | succ k ih =>
    obtain ⟨p, hap, hp⟩ := Relation.TransGen.tail'_iff.1 h
    have hp' : (f.get id).parent? = some p := hp
    simp only [parentChain, hp', List.length_cons] at hk ⊢
    rcases Relation.reflTransGen_iff_eq_or_transGen.1 hap with rfl | hap
    · simp
    · exact List.mem_cons_of_mem _ (ih hap (by omega))

namespace IsForest

variable (hf : f.IsForest)
include hf

theorem parent_lt_size {p : NodeId} (h : f.IsParent p c) : p < f.size := by
  obtain ⟨r, hr⟩ := isParent_iff.1 h
  obtain ⟨v, hv, -⟩ := mem_childrenIn_iff.1 ((hf.held p r c).2 hr)
  exact lt_size_of_slot? hv

theorem nodup_chain (k : Nat) (id : NodeId) : (id :: f.parentChain k id).Nodup := by
  refine List.nodup_cons.2 ⟨fun h => hf.acyclic id (above_of_mem_parentChain h), ?_⟩
  induction k generalizing id with
  | zero => simp [parentChain]
  | succ k ih =>
    unfold parentChain
    split
    · rename_i p hp
      exact List.nodup_cons.2 ⟨fun h => hf.acyclic p (above_of_mem_parentChain h), ih p⟩
    · simp

theorem lt_size_of_above {a : NodeId} (h : f.Above a id) : a < f.size := by
  obtain ⟨b, hab, -⟩ := Relation.TransGen.head'_iff.1 h
  exact hf.parent_lt_size hab

theorem length_parentChain_lt (hid : id < f.size) (k : Nat) :
    (f.parentChain k id).length < f.size := by
  have hsub : (id :: f.parentChain k id) ⊆ List.range f.size := by
    intro a ha
    rw [List.mem_range]
    rcases List.mem_cons.1 ha with rfl | ha
    · exact hid
    · exact hf.lt_size_of_above (above_of_mem_parentChain ha)
  have hlen := List.Nodup.length_le_of_subset (hf.nodup_chain k id) hsub
  simp only [List.length_cons, List.length_range] at hlen
  omega

theorem mem_ancestors_iff {a : NodeId} (hid : id < f.size) : a ∈ f.ancestors id ↔ f.Above a id :=
  ⟨above_of_mem_parentChain, fun h =>
    mem_parentChain_of_above h (hf.length_parentChain_lt hid f.size)⟩

theorem not_above_of_attachable (hid : id < f.size) (h : f.attachable id c = .ok ()) :
    ¬ Relation.ReflTransGen f.IsParent c id := by
  rw [attachable_eq_ok, hf.mem_ancestors_iff hid] at h
  rw [Relation.reflTransGen_iff_eq_or_transGen]
  rintro (rfl | ha)
  · exact h.1 rfl
  · exact h.2 ha

theorem names_nodup (hid : id < f.size) : ((f.get id).type.properties.map (·.name)).Nodup := by
  rw [← hf.names id hid]
  exact (f.get id).slots.nodup

theorem mem_keys {p : Property} (hp : (f.get id).type.property? name = some p) :
    name ∈ (f.get id).slots.keys := by
  rw [hf.names id (lt_size_of_property? hp)]
  exact List.mem_map.2 ⟨p, List.mem_of_find?_eq_some hp, property?_name hp⟩

theorem exists_slot {p : Property} (hp : (f.get id).type.property? name = some p) :
    ∃ v, f.slot? id name = some v ∧ p.Admits v := by
  obtain ⟨v, hv⟩ := Table.mem_keys_iff.1 (hf.mem_keys hp)
  refine ⟨v, hv, hf.shapes id (lt_size_of_property? hp) p (List.mem_of_find?_eq_some hp) v ?_⟩
  rw [property?_name hp]
  exact hv

theorem shapes_of_store {p : Property} (hp : (f.get id).type.property? name = some p) {v : Value}
    (hv : p.Admits v) (htype : ∀ j, (g.get j).type = (f.get j).type) (hsize : g.size = f.size)
    (hslot : ∀ j r w, g.slot? j r = some w → (j = id ∧ r = name ∧ w = v) ∨ f.slot? j r = some w) :
    ∀ j < g.size, ∀ q ∈ (g.get j).type.properties, ∀ w, g.slot? j q.name = some w → q.Admits w := by
  intro j hj q hq w hw
  rw [htype] at hq
  rw [hsize] at hj
  rcases hslot j q.name w hw with ⟨rfl, hn, rfl⟩ | hw
  · have hpq : q = p := by
      have hpn := property?_name hp
      exact List.inj_on_of_nodup_map (hf.names_nodup hj) hq (List.mem_of_find?_eq_some hp)
        (hn.trans hpn.symm)
    exact hpq ▸ hv
  · exact hf.shapes j hj q hq w hw

theorem acyclic_of_holder (h : ∀ j, (g.get j).holder = none ∨ (g.get j).holder = (f.get j).holder)
    (c : NodeId) : ¬ g.Above c c :=
  fun hc => hf.acyclic c (above_mono (isParent_of_holder_eq h) hc)

theorem of_same (hsize : g.size = f.size) (hnode : ∀ j, (g.get j).type = (f.get j).type ∧
    (g.get j).slots = (f.get j).slots ∧ (g.get j).holder = (f.get j).holder) : g.IsForest := by
  have hslot : ∀ j r, g.slot? j r = f.slot? j r := fun j r => by simp [slot?, (hnode j).2.1]
  have hin : ∀ j r, g.childrenIn j r = f.childrenIn j r := fun j r => by simp [childrenIn, hslot]
  constructor
  · intro j hj
    rw [(hnode j).1, (hnode j).2.1]
    exact hf.names j (hsize ▸ hj)
  · intro j hj p hp v hv
    rw [(hnode j).1] at hp
    rw [hslot] at hv
    exact hf.shapes j (hsize ▸ hj) p hp v hv
  · intro p r c
    rw [hin, (hnode c).2.2]
    exact hf.held p r c
  · intro p r
    rw [hin]
    exact hf.once p r
  · exact hf.acyclic_of_holder fun j => .inr (hnode j).2.2

theorem evict {p : Property} (hp : (f.get id).type.property? name = some p) {v : Value}
    (hv : p.Admits v) (hc : v.children = []) : (f.evict id name v).IsForest := by
  have hid : id < f.size := lt_size_of_property? hp
  have hin : ∀ q r, (f.evict id name v).childrenIn q r =
      if q = id ∧ r = name then [] else f.childrenIn q r := by
    intro q r
    unfold childrenIn
    rw [slot?_evict]
    by_cases h : q = id ∧ r = name
    · simp [h, hid, hc]
    · have h' : ¬ (q = id ∧ r = name ∧ id < f.size) := fun e => h ⟨e.1, e.2.1⟩
      simp [h, h']
  constructor
  · intro j hj
    rw [slots_evict, keys_setSlot (hf.mem_keys hp), type_evict]
    exact hf.names j (by simpa using hj)
  · apply hf.shapes_of_store hp hv (by simp) (by simp)
    intro j r w hw
    rw [slot?_evict] at hw
    split at hw
    · rename_i h
      exact .inl ⟨h.1, h.2.1, (Option.some.inj hw).symm⟩
    · exact .inr hw
  · intro q r c
    rw [hin, holder_evict]
    by_cases h : q = id ∧ r = name
    · obtain ⟨rfl, rfl⟩ := h
      by_cases hm : c ∈ f.childrenIn q r
      · simp [hm]
      · simp [hm, ← hf.held]
    · rw [if_neg h]
      by_cases hm : c ∈ f.childrenIn id name
      · have hhold := (hf.held id name c).1 hm
        rw [if_pos hm, hf.held, hhold]
        simp only [Option.some.injEq, Holder.mk.injEq, reduceCtorEq, iff_false]
        exact fun e => h ⟨e.1.symm, e.2.symm⟩
      · rw [if_neg hm]
        exact hf.held q r c
  · intro q r
    rw [hin]
    split
    · simp
    · exact hf.once q r
  · apply hf.acyclic_of_holder
    intro j
    rw [holder_evict]
    split
    · exact .inl rfl
    · exact .inr rfl

theorem childrenIn_detach (c q : NodeId) (r : String) :
    (f.detach c).childrenIn q r = (f.childrenIn q r).filter (· ≠ c) := by
  cases hh : (f.get c).holder with
  | none =>
    rw [detach_of_holder_none hh, List.filter_eq_self.2]
    intro d hd
    have hd' := (hf.held q r d).1 hd
    simp only [decide_eq_true_eq]
    rintro rfl
    rw [hh] at hd'
    cases hd'
  | some h =>
    unfold childrenIn
    rw [slot?_detach hh]
    by_cases hq : q = h.parent ∧ r = h.role
    · rw [if_pos hq]
      cases f.slot? q r with
      | none => simp
      | some v => simp [children_without]
    · rw [if_neg hq]
      refine (List.filter_eq_self.2 fun d hd => ?_).symm
      have hd' := (hf.held q r d).1 hd
      simp only [decide_eq_true_eq]
      rintro rfl
      rw [hh, Option.some.injEq] at hd'
      exact hq ⟨by rw [hd'], by rw [hd']⟩

theorem detach (c : NodeId) : (f.detach c).IsForest := by
  constructor
  · intro j hj
    rw [keys_detach, type_detach]
    exact hf.names j (by simpa using hj)
  · intro j hj p hp v hv
    rw [type_detach] at hp
    rw [size_detach] at hj
    cases hh : (f.get c).holder with
    | none =>
      rw [detach_of_holder_none hh] at hv
      exact hf.shapes j hj p hp v hv
    | some h =>
      rw [slot?_detach hh] at hv
      split at hv
      · obtain ⟨w, hw, rfl⟩ := Option.map_eq_some_iff.1 hv
        exact (hf.shapes j hj p hp w hw).without c
      · exact hf.shapes j hj p hp v hv
  · intro q r d
    rw [hf.childrenIn_detach, holder_detach, List.mem_filter, hf.held]
    by_cases hd : d = c <;> simp [hd]
  · intro q r
    rw [hf.childrenIn_detach]
    exact (hf.once q r).filter _
  · apply hf.acyclic_of_holder
    intro j
    rw [holder_detach]
    split
    · exact .inl rfl
    · exact .inr rfl

/-- A link from a node that is not below the child closes no circle: a new way up either was
there before or passes the new link once. -/
theorem acyclic_attach (hnot : ¬ Relation.ReflTransGen f.IsParent c id)
    (hlink : ∀ p d, g.IsParent p d → (d = c ∧ p = id) ∨ f.IsParent p d) (d : NodeId) :
    ¬ g.Above d d := by
  have key : ∀ a b, g.Above a b → f.Above a b ∨
      (Relation.ReflTransGen f.IsParent a id ∧ Relation.ReflTransGen f.IsParent c b) := by
    intro a b hab
    induction hab with
    | single h =>
      rcases hlink _ _ h with ⟨rfl, rfl⟩ | h
      · exact .inr ⟨.refl, .refl⟩
      · exact .inl (.single h)
    | tail _ h ih =>
      rcases hlink _ _ h with ⟨rfl, rfl⟩ | h
      · rcases ih with ih | ih
        · exact .inr ⟨ih.to_reflTransGen, .refl⟩
        · exact .inr ⟨ih.1, .refl⟩
      · rcases ih with ih | ih
        · exact .inl (.tail ih h)
        · exact .inr ⟨ih.1, ih.2.tail h⟩
  intro hd
  rcases key d d hd with h | ⟨h1, h2⟩
  · exact hf.acyclic d h
  · exact hnot (h2.trans h1)

/-- Attaching a root: the child records the holder, and the slot gets the child at its end. -/
theorem attach {p : Property} (hp : (f.get id).type.property? name = some p) (hcs : c < f.size)
    (hroot : (f.get c).holder = none) (hnot : ¬ Relation.ReflTransGen f.IsParent c id) {v : Value}
    (hv : p.Admits v) (hc : v.children = f.childrenIn id name ++ [c]) :
    ((f.setHolder c (some ⟨id, name⟩)).setSlot id name v).IsForest := by
  have hid : id < f.size := lt_size_of_property? hp
  have hfresh : ∀ q r, c ∉ f.childrenIn q r := fun q r h => by
    rw [hf.held, hroot] at h
    cases h
  have hslot : ∀ q r, ((f.setHolder c (some ⟨id, name⟩)).setSlot id name v).slot? q r =
      if q = id ∧ r = name then some v else f.slot? q r := by
    intro q r
    simp [slot?_setSlot, hid]
  have hin : ∀ q r, ((f.setHolder c (some ⟨id, name⟩)).setSlot id name v).childrenIn q r =
      if q = id ∧ r = name then f.childrenIn id name ++ [c] else f.childrenIn q r := by
    intro q r
    unfold childrenIn
    rw [hslot]
    split
    · simp [hc, childrenIn]
    · rfl
  have hhold : ∀ d, (((f.setHolder c (some ⟨id, name⟩)).setSlot id name v).get d).holder =
      if d = c then some ⟨id, name⟩ else (f.get d).holder := by
    intro d
    simp [holder_setHolder, hcs]
  constructor
  · intro j hj
    rw [keys_setSlot (by simpa using hf.mem_keys hp)]
    simpa using hf.names j (by simpa using hj)
  · apply hf.shapes_of_store hp hv (by simp) (by simp)
    intro j r w hw
    rw [hslot] at hw
    split at hw
    · rename_i h
      exact .inl ⟨h.1, h.2, (Option.some.inj hw).symm⟩
    · exact .inr hw
  · intro q r d
    rw [hin, hhold]
    by_cases hd : d = c
    · subst hd
      by_cases h : q = id ∧ r = name
      · simp [h]
      · have h' : ¬ (id = q ∧ name = r) := fun e => h ⟨e.1.symm, e.2.symm⟩
        simp [h, h', hfresh]
    · rw [if_neg hd, ← hf.held]
      split
      · rename_i h
        simp [h.1, h.2, hd]
      · rfl
  · intro q r
    rw [hin]
    split
    · refine List.nodup_append.2 ⟨hf.once id name, by simp, ?_⟩
      rintro a ha b hb rfl
      rw [List.mem_singleton] at hb
      exact hfresh id name (hb ▸ ha)
    · exact hf.once q r
  · apply hf.acyclic_attach hnot
    intro q d h
    rw [isParent_iff] at h ⊢
    obtain ⟨r, hr⟩ := h
    rw [hhold] at hr
    split at hr
    · rename_i hd
      simp only [Option.some.injEq, Holder.mk.injEq] at hr
      exact .inl ⟨hd, hr.1.symm⟩
    · exact .inr ⟨r, hr⟩

end IsForest

end Forest

end TreeInterchange
