import Mathlib.Data.List.Dedup
import TreeInterchange.Proofs.ForestRuns

/-!
# What child edits do and what they leave alone

Every edit of children replaces the value of one slot. Afterwards the children of the new value
stand there and nowhere else, those that were there before and are not among them are roots, and
nothing else is touched. Two such replacements in the same slot, of which the second keeps the
children of the first, are one. So replacing a collection, which empties it and then adds the
children one by one, comes to a single replacement as well: a child that is listed again is taken
out of its former place, wherever that was, and of all entries for it the last one stays.
-/

namespace TreeInterchange

namespace Value

/-- The value without any of the given children; the others keep their order. -/
def withoutAll (cs : List NodeId) : Value → Value
  | .node id => if id ∈ cs then .null else .node id
  | .nodes ids => .nodes (ids.filter (· ∉ cs))
  | v => v

theorem children_withoutAll (cs : List NodeId) (v : Value) :
    (v.withoutAll cs).children = v.children.filter (· ∉ cs) := by
  cases v with
  | node id => by_cases h : id ∈ cs <;> simp [withoutAll, children, h]
  | _ => rfl

theorem without_eq_withoutAll (c : NodeId) (v : Value) : v.without c = v.withoutAll [c] := by
  cases v with
  | node id => simp [without, withoutAll]
  | nodes ids => simp [without, withoutAll]
  | _ => rfl

theorem withoutAll_congr {v : Value} {cs ds : List NodeId}
    (h : ∀ c ∈ v.children, c ∈ cs ↔ c ∈ ds) : v.withoutAll cs = v.withoutAll ds := by
  cases v with
  | node id => simp [withoutAll, h id (by simp [children])]
  | nodes ids =>
    simp only [withoutAll, nodes.injEq]
    exact List.filter_congr fun c hc => by simp [h c hc]
  | _ => rfl

theorem withoutAll_eq_self {v : Value} {cs : List NodeId} (h : ∀ c ∈ v.children, c ∉ cs) :
    v.withoutAll cs = v := by
  calc v.withoutAll cs = v.withoutAll [] := withoutAll_congr (by simpa using h)
    _ = v := by cases v <;> simp [withoutAll]

theorem map_withoutAll_eq_self {x : Option Value} {cs : List NodeId}
    (h : ∀ v, x = some v → ∀ c ∈ v.children, c ∉ cs) : x.map (withoutAll cs) = x := by
  cases x with
  | none => rfl
  | some v => rw [Option.map_some, withoutAll_eq_self (h v rfl)]

theorem withoutAll_withoutAll {cs ds : List NodeId} (h : cs ⊆ ds) (v : Value) :
    (v.withoutAll cs).withoutAll ds = v.withoutAll ds := by
  cases v with
  | node id =>
    by_cases hc : id ∈ cs
    · simp [withoutAll, hc, h hc]
    · simp [withoutAll, hc]
  | nodes ids =>
    simp only [withoutAll, List.filter_filter, nodes.injEq]
    refine List.filter_congr fun c _ => ?_
    by_cases hc : c ∈ cs
    · simp [hc, h hc]
    · simp [hc]
  | _ => rfl

end Value

namespace Forest

variable {f g h : Forest} {id c : NodeId} {name : String} {v w : Value}

/-- Nodes differ at most in what their slots hold and in who holds them. -/
structure SameFrame (f g : Forest) : Prop where
  size : g.size = f.size
  type : ∀ j, (g.get j).type = (f.get j).type
  position : ∀ j, (g.get j).position = (f.get j).position
  origin : ∀ j, (g.get j).origin = (f.get j).origin
  keys : ∀ j, (g.get j).slots.keys = (f.get j).slots.keys

namespace SameFrame

theorem refl (f : Forest) : f.SameFrame f :=
  ⟨rfl, fun _ => rfl, fun _ => rfl, fun _ => rfl, fun _ => rfl⟩

theorem trans (hfg : f.SameFrame g) (hgh : g.SameFrame h) : f.SameFrame h where
  size := hgh.size.trans hfg.size
  type j := (hgh.type j).trans (hfg.type j)
  position j := (hgh.position j).trans (hfg.position j)
  origin j := (hgh.origin j).trans (hfg.origin j)
  keys j := (hgh.keys j).trans (hfg.keys j)

end SameFrame

theorem sameFrame_update {k : Node → Node}
    (hk : ∀ n, (k n).type = n.type ∧ (k n).position = n.position ∧ (k n).origin = n.origin)
    (hkeys : (k (f.get id)).slots.keys = (f.get id).slots.keys) : f.SameFrame (f.update id k) := by
  have hnode : ∀ j, ((f.update id k).get j).type = (f.get j).type ∧
      ((f.update id k).get j).position = (f.get j).position ∧
      ((f.update id k).get j).origin = (f.get j).origin ∧
      ((f.update id k).get j).slots.keys = (f.get j).slots.keys := by
    intro j
    rw [get_update]
    split
    · rename_i hj
      obtain ⟨rfl, -⟩ := hj
      obtain ⟨htype, hposition, horigin⟩ := hk (f.get id)
      exact ⟨htype, hposition, horigin, hkeys⟩
    · exact ⟨rfl, rfl, rfl, rfl⟩
  exact ⟨size_update f id k, fun j => (hnode j).1, fun j => (hnode j).2.1,
    fun j => (hnode j).2.2.1, fun j => (hnode j).2.2.2⟩

theorem sameFrame_setSlot (hname : name ∈ (f.get id).slots.keys) (v : Value) :
    f.SameFrame (f.setSlot id name v) :=
  sameFrame_update (fun _ => ⟨rfl, rfl, rfl⟩) (Table.keys_insert_of_mem hname v)

theorem sameFrame_setHolder (f : Forest) (c : NodeId) (h : Option Holder) :
    f.SameFrame (f.setHolder c h) :=
  sameFrame_update (fun _ => ⟨rfl, rfl, rfl⟩) rfl

theorem sameFrame_detach (f : Forest) (c : NodeId) : f.SameFrame (f.detach c) := by
  unfold detach
  split
  · refine (sameFrame_setHolder f c none).trans (sameFrame_update (fun _ => ⟨rfl, rfl, rfl⟩) ?_)
    exact Table.keys_adjust _ _ _
  · exact .refl f

theorem sameFrame_evict (hname : name ∈ (f.get id).slots.keys) (v : Value) :
    f.SameFrame (f.evict id name v) := by
  refine (sameFrame_setSlot hname v).trans ⟨by simp, ?_, ?_, ?_, ?_⟩ <;> intro j <;> rw [get_evict]

/-- `g` is `f` with `v` in the slot `name` of `id`: the children of `v` have left all other slots,
and those that only the old value had are roots. -/
structure Replaced (f g : Forest) (id : NodeId) (name : String) (v : Value) : Prop where
  frame : f.SameFrame g
  slot? : ∀ j r, g.slot? j r =
    if j = id ∧ r = name then some v else (f.slot? j r).map (Value.withoutAll v.children)
  holder : ∀ j, (g.get j).holder =
    if j ∈ v.children then some ⟨id, name⟩
    else if j ∈ f.childrenIn id name then none else (f.get j).holder

namespace Replaced

theorem slot?_self (hr : f.Replaced g id name v) : g.slot? id name = some v := by
  rw [hr.slot?, if_pos ⟨rfl, rfl⟩]

theorem childrenIn_self (hr : f.Replaced g id name v) : g.childrenIn id name = v.children :=
  childrenIn_eq hr.slot?_self

/-- Of two replacements in the same slot the second counts, if it keeps what the first has put
there. -/
theorem trans (hfg : f.Replaced g id name v) (hgh : g.Replaced h id name w)
    (hsub : v.children ⊆ w.children) : f.Replaced h id name w where
  frame := hfg.frame.trans hgh.frame
  slot? j r := by
    rw [hgh.slot?, hfg.slot?]
    split
    · rfl
    · rw [Option.map_map]
      congr 1
      exact funext fun u => Value.withoutAll_withoutAll hsub u
  holder j := by
    rw [hgh.holder, hfg.holder, hfg.childrenIn_self]
    by_cases hw : j ∈ w.children
    · simp [hw]
    · have hv : j ∉ v.children := fun hj => hw (hsub hj)
      simp [hw, hv]

end Replaced

/-- Moving each of the children to the end leaves them there in the order of their last entries. -/
theorem filter_append_dedup (ds cs : List NodeId) (c : NodeId) :
    (ds.filter (· ≠ c) ++ [c]).filter (· ∉ cs) ++ cs.dedup =
      ds.filter (· ∉ c :: cs) ++ (c :: cs).dedup := by
  have hds : (ds.filter (· ≠ c)).filter (· ∉ cs) = ds.filter (· ∉ c :: cs) := by
    rw [List.filter_filter]
    exact List.filter_congr fun d _ => by simp [Bool.and_comm]
  rw [List.filter_append, hds, List.append_assoc]
  by_cases hc : c ∈ cs
  · simp [hc, List.dedup_cons_of_mem hc]
  · simp [hc, List.dedup_cons_of_notMem hc]

namespace IsForest

variable (hf : f.IsForest)
include hf

theorem not_mem_children {j : NodeId} {r : String} (hslot : f.slot? j r = some v)
    (hc : c ∈ f.childrenIn id name) (hne : ¬ (j = id ∧ r = name)) : c ∉ v.children := by
  intro hmem
  have hthere := (hf.held j r c).1 (mem_childrenIn_iff.2 ⟨v, hslot, hmem⟩)
  have hhere := (hf.held id name c).1 hc
  rw [hhere, Option.some.injEq, Holder.mk.injEq] at hthere
  exact hne ⟨hthere.1.symm, hthere.2.symm⟩

theorem replaced_self (hslot : f.slot? id name = some v) : f.Replaced f id name v where
  frame := .refl f
  slot? j r := by
    split
    · rename_i h
      rw [h.1, h.2, hslot]
    · rename_i hne
      refine (Value.map_withoutAll_eq_self fun u hu c hc hv => ?_).symm
      exact hf.not_mem_children hu (mem_childrenIn_iff.2 ⟨v, hslot, hv⟩) hne hc
  holder j := by
    rw [childrenIn_eq hslot]
    split
    · rename_i hj
      exact (hf.held id name j).1 (mem_childrenIn_iff.2 ⟨v, hslot, hj⟩)
    · rfl

theorem replaced_evict {p : Property} (hp : (f.get id).type.property? name = some p)
    (hv : v.children = []) : f.Replaced (f.evict id name v) id name v where
  frame := sameFrame_evict (hf.mem_keys hp) v
  slot? j r := by
    have hid := lt_size_of_property? hp
    rw [slot?_evict]
    by_cases h : j = id ∧ r = name
    · simp [h, hid]
    · have h' : ¬ (j = id ∧ r = name ∧ id < f.size) := fun e => h ⟨e.1, e.2.1⟩
      rw [if_neg h', if_neg h, hv, Value.map_withoutAll_eq_self (by simp)]
  holder j := by
    rw [holder_evict, hv]
    simp

theorem slot?_detach (c j : NodeId) (r : String) :
    (f.detach c).slot? j r = (f.slot? j r).map (Value.withoutAll [c]) := by
  cases hh : (f.get c).holder with
  | none =>
    rw [detach_of_holder_none hh]
    refine (Value.map_withoutAll_eq_self fun u hu d hd hdc => ?_).symm
    have hheld := (hf.held j r d).1 (mem_childrenIn_iff.2 ⟨u, hu, hd⟩)
    rw [List.mem_singleton.1 hdc, hh] at hheld
    cases hheld
  | some k =>
    rw [Forest.slot?_detach hh]
    split
    · congr 1
      exact funext (Value.without_eq_withoutAll c)
    · rename_i hne
      refine (Value.map_withoutAll_eq_self fun u hu d hd hdc => ?_).symm
      rw [List.mem_singleton] at hdc
      exact hf.not_mem_children hu ((hf.held k.parent k.role d).2 (hdc ▸ hh)) hne hd

theorem replaced_adopt {p : Property} (hp : (f.get id).type.property? name = some p)
    (hc : c < f.size) (hw : w.children = (f.childrenIn id name).filter (· ≠ c) ++ [c]) :
    f.Replaced ((f.adopt id name c).setSlot id name w) id name w := by
  have hid := lt_size_of_property? hp
  have hkeys : name ∈ ((f.adopt id name c).get id).slots.keys := by
    simpa [Forest.adopt] using hf.mem_keys hp
  have hmem : ∀ d, d ∈ w.children ↔ d = c ∨ d ∈ f.childrenIn id name := by
    intro d
    rw [hw]
    by_cases hd : d = c <;> simp [hd]
  constructor
  · exact ((sameFrame_detach f c).trans (sameFrame_setHolder _ c _)).trans
      (sameFrame_setSlot hkeys w)
  · intro j r
    rw [slot?_setSlot]
    by_cases h : j = id ∧ r = name
    · simp [h, Forest.adopt, hid]
    · have h' : ¬ (j = id ∧ r = name ∧ id < (f.adopt id name c).size) := fun e => h ⟨e.1, e.2.1⟩
      rw [if_neg h', if_neg h, Forest.adopt, slot?_setHolder, hf.slot?_detach]
      cases hu : f.slot? j r with
      | none => rfl
      | some u =>
        rw [Option.map_some, Option.map_some]
        congr 1
        -- The other children of the slot are in no other slot.
        refine Value.withoutAll_congr fun d hd => ?_
        rw [hmem, List.mem_singleton]
        exact ⟨.inl, fun hdw => hdw.resolve_right fun hin => hf.not_mem_children hu hin h hd⟩
  · intro j
    rw [holder_setSlot, Forest.adopt, holder_setHolder, holder_detach, size_detach]
    by_cases hj : j = c
    · simp [hj, hc, hmem]
    · by_cases hin : j ∈ f.childrenIn id name
      · simp [hj, hmem, hin, (hf.held id name j).1 hin]
      · simp [hj, hmem, hin]

theorem replaced_setChild {child : Option NodeId} (hc : ∀ c ∈ child, c < f.size)
    (hrun : Forest.setChild id name child f = .ok () g) :
    f.Replaced g id name ((child.map .node).getD .null) := by
  obtain ⟨e, he⟩ | ⟨p, hp, hk, hm, ha⟩ := setChild_cases f id name child
  · cases he.symm.trans hrun
  have hnull := hf.replaced_evict (v := .null) hp rfl
  cases child with
  | none =>
    obtain ⟨-, rfl⟩ := EStateM.Result.ok.inj ((setChild_none_ok hp hk hm).symm.trans hrun)
    exact hnull
  | some c =>
    have hok := setChild_some_ok hp hk hm (ha c rfl)
    obtain ⟨-, rfl⟩ := EStateM.Result.ok.inj (hok.symm.trans hrun)
    have hforest : (f.evict id name .null).IsForest :=
      hf.evict hp (by simp [Property.Admits, hk, hm]) rfl
    refine hnull.trans (hforest.replaced_adopt (by simpa using hp) (by simpa using hc c rfl) ?_)
      (List.nil_subset _)
    rw [hnull.childrenIn_self]
    rfl

theorem replaced_addChild (hc : c < f.size) (hrun : Forest.addChild id name c f = .ok () g) :
    f.Replaced g id name (.nodes ((f.childrenIn id name).filter (· ≠ c) ++ [c])) := by
  obtain ⟨e, he⟩ | ⟨p, hp, hk, hm, ha⟩ := addChild_cases f id name c
  · cases he.symm.trans hrun
  obtain ⟨-, rfl⟩ := EStateM.Result.ok.inj ((addChild_ok hp hk hm ha).symm.trans hrun)
  obtain ⟨u, hu, hadmits⟩ := hf.exists_slot hp
  simp only [Property.Admits, hk, hm] at hadmits
  obtain ⟨ds, rfl⟩ := hadmits
  have hslot : (f.adopt id name c).slot? id name = some (.nodes (ds.filter (· ≠ c))) := by
    rw [Forest.adopt, slot?_setHolder, hf.slot?_detach, hu, Option.map_some,
      ← Value.without_eq_withoutAll]
    rfl
  rw [pushChild, hslot, childrenIn_eq hu]
  exact hf.replaced_adopt hp hc (by rw [childrenIn_eq hu]; rfl)

theorem replaced_addChildren {cs ds : List NodeId} (hslot : f.slot? id name = some (.nodes ds))
    (hcs : ∀ c ∈ cs, c < f.size) (hrun : cs.forM (Forest.addChild id name) f = .ok () g) :
    f.Replaced g id name (.nodes (ds.filter (· ∉ cs) ++ cs.dedup)) := by
  induction cs generalizing f ds with
  | nil =>
    cases hrun
    simpa using hf.replaced_self hslot
  | cons c cs ih =>
    obtain ⟨mid, hstep, hrest⟩ := StatefulRuns.of_forM_cons_ok hrun
    have hc := hcs c List.mem_cons_self
    have hfirst := hf.replaced_addChild hc hstep
    rw [childrenIn_eq hslot] at hfirst
    have hforest : mid.IsForest := stateAfter_ok hstep ▸ hf.addChild id name hc
    have hothers := ih hforest hfirst.slot?_self
      (fun d hd => by rw [hfirst.frame.size]; exact hcs d (List.mem_cons_of_mem c hd)) hrest
    rw [← filter_append_dedup]
    refine hfirst.trans hothers fun d hd => ?_
    -- What the slot holds by now stays there or is listed again.
    by_cases hdc : d ∈ cs
    · exact List.mem_append_right _ (List.mem_dedup.2 hdc)
    · exact List.mem_append_left _ (List.mem_filter.2 ⟨hd, by simpa using hdc⟩)

theorem replaced_setChildren {cs : List NodeId} (hcs : ∀ c ∈ cs, c < f.size)
    (hrun : Forest.setChildren id name cs f = .ok () g) :
    f.Replaced g id name (.nodes cs.dedup) := by
  obtain ⟨e, he⟩ | ⟨p, hp, hk, hm, ha⟩ := setChildren_cases f id name cs
  · cases he.symm.trans hrun
  rw [setChildren_ok hp hk hm ha] at hrun
  have hempty := hf.replaced_evict (v := .nodes []) hp rfl
  have hforest : (f.evict id name (.nodes [])).IsForest :=
    hf.evict hp (by simp [Property.Admits, hk, hm]) rfl
  have hadded := hforest.replaced_addChildren hempty.slot?_self (by simpa using hcs) hrun
  exact hempty.trans hadded (List.nil_subset _)

end IsForest

/-- The edits of the children in a slot, each with the value that the slot is to hold. -/
inductive ChildEdit (f : Forest) (id : NodeId) (name : String) : Edit Unit → Value → Prop
  | setChild (child : Option NodeId) (h : ∀ c ∈ child, c < f.size) :
      ChildEdit f id name (Forest.setChild id name child) ((child.map .node).getD .null)
  | addChild (c : NodeId) (h : c < f.size) :
      ChildEdit f id name (Forest.addChild id name c)
        (.nodes ((f.childrenIn id name).filter (· ≠ c) ++ [c]))
  | setChildren (cs : List NodeId) (h : ∀ c ∈ cs, c < f.size) :
      ChildEdit f id name (Forest.setChildren id name cs) (.nodes cs.dedup)

theorem ChildEdit.replaced {edit : Edit Unit} (he : f.ChildEdit id name edit v)
    (hf : f.IsForest) (hrun : edit f = .ok () g) : f.Replaced g id name v := by
  cases he with
  | setChild child h => exact hf.replaced_setChild h hrun
  | addChild c h => exact hf.replaced_addChild h hrun
  | setChildren cs h => exact hf.replaced_setChildren h hrun

/-- After an edit of children the slot holds exactly its new value. Whoever stands in it has the
slot as parent and role and stands in no other slot, whoever left it is a root, and all else is as
it was: other slots lose the children that moved and nothing more. -/
theorem childEdit_exact (hf : Reachable f) {edit : Edit Unit} (he : f.ChildEdit id name edit v)
    (hrun : edit f = .ok () g) :
    g.slot? id name = some v ∧
    (∀ c ∈ v.children, (g.get c).parent? = some id ∧ (g.get c).role? = some name ∧
      ∀ j r, c ∈ g.childrenIn j r → j = id ∧ r = name) ∧
    (∀ c ∈ f.childrenIn id name, c ∉ v.children →
      (g.get c).parent? = none ∧ (g.get c).role? = none) ∧
    (∀ c, c ∉ v.children → c ∉ f.childrenIn id name →
      (g.get c).parent? = (f.get c).parent? ∧ (g.get c).role? = (f.get c).role?) ∧
    (∀ j r, ¬ (j = id ∧ r = name) →
      g.slot? j r = (f.slot? j r).map (Value.withoutAll v.children)) ∧
    g.size = f.size ∧
    ∀ j, (g.get j).slots.keys = (f.get j).slots.keys ∧ (g.get j).type = (f.get j).type ∧
      (g.get j).position = (f.get j).position ∧ (g.get j).origin = (f.get j).origin := by
  have hr := he.replaced hf.isForest hrun
  have hframe := hr.frame
  refine ⟨hr.slot?_self, fun c hc => ?_, fun c hc hnot => ?_, fun c hnot hnew => ?_,
    fun j r hne => ?_, hframe.size, fun j => ?_⟩
  · refine ⟨by simp [Node.parent?, hr.holder, hc], by simp [Node.role?, hr.holder, hc], ?_⟩
    intro j r hin
    by_contra hne
    obtain ⟨u, hu, hcu⟩ := mem_childrenIn_iff.1 hin
    rw [hr.slot?, if_neg hne] at hu
    obtain ⟨old, -, rfl⟩ := Option.map_eq_some_iff.1 hu
    rw [Value.children_withoutAll, List.mem_filter] at hcu
    exact absurd hc (by simpa using hcu.2)
  · simp [Node.parent?, Node.role?, hr.holder, hc, hnot]
  · simp [Node.parent?, Node.role?, hr.holder, hnew, hnot]
  · rw [hr.slot?, if_neg hne]
  · exact ⟨hframe.keys j, hframe.type j, hframe.position j, hframe.origin j⟩

/-- The second of the three boxes takes the third from the first, which keeps the second. -/
theorem childEdit_exact_boxes : Reachable boxes ∧
    ∃ g, setChildren 1 "items" [2, 2] boxes = .ok () g ∧
      g.slot? 1 "items" = some (.nodes [2]) ∧ (g.get 2).parent? = some 1 ∧
      g.slot? 0 "items" = some (.nodes [1]) ∧
      (g.get 1).parent? = (boxes.get 1).parent? := by
  have hedit : boxes.ChildEdit 1 "items" (setChildren 1 "items" [2, 2]) (.nodes [2]) :=
    .setChildren [2, 2] (by decide)
  obtain ⟨g, hrun⟩ : ∃ g, setChildren 1 "items" [2, 2] boxes = .ok () g := ⟨_, rfl⟩
  obtain ⟨hslot, hheld, -, hkept, hothers, -⟩ := childEdit_exact reachable_boxes hedit hrun
  refine ⟨reachable_boxes, g, hrun, hslot, (hheld 2 (by simp [Value.children])).1, ?_, ?_⟩
  · exact (hothers 0 "items" (by decide)).trans rfl
  · exact (hkept 1 (by simp [Value.children]) (by decide)).1

end Forest

end TreeInterchange
