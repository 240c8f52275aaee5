import TreeInterchange.Proofs.ForestAttachments
import TreeInterchange.Proofs.ForestOrigins
import TreeInterchange.Proofs.SourceDescriptions

/-!
# Transformers do as described

A transformer works on one forest and one list of issues, but what it leaves is what the
description of the source tree says: the tree read from the node it returns, and the issues
in their order. Nodes that were in the forest before are not touched.

The induction is on the depth. While the properties of a node are filled, the invariant is that
the tree read from the node is the description so far.
-/

namespace TreeInterchange

namespace Forest

variable {f g : Forest} {a : NodeId}

theorem update_push (f : Forest) (n : Node) (h : Node → Node) :
    (Forest.mk (f.nodes.push n)).update f.size h = ⟨f.nodes.push (h n)⟩ := by
  simp only [Forest.update, Forest.mk.injEq]
  apply Array.ext (by simp)
  intro i h₁ h₂
  rw [Array.getElem_modify, Array.getElem_push, Array.getElem_push]
  by_cases hi : i < f.nodes.size
  · simp [hi, size, Nat.ne_of_gt hi]
  · have hi' : f.size = i := by
      rw [Array.size_push] at h₂
      simp only [size]
      omega
    simp [hi, hi']

theorem extends_append (f : Forest) (extra : Array Node) : f.Extends ⟨f.nodes ++ extra⟩ := by
  refine ⟨by simp [size], fun j hj => ?_⟩
  have hj' : j < f.nodes.size := hj
  simp [get, Array.getD_eq_getD_getElem?, Array.getElem?_append, hj']

/-- `a` has no parent, and the tree read from it, at least `k` levels deep, is `u`. -/
structure Drawn (f : Forest) (k : Nat) (a : NodeId) (u : NodeTree) : Prop where
  root : (f.get a).holder = none
  ascends : f.Ascends a
  tree : ∀ l ≥ k, f.treeWithin l a = u

variable {k : Nat} {u : NodeTree}

theorem Drawn.mono (h : f.Drawn k a u) (hfg : f.Extends g) : g.Drawn k a u := by
  obtain ⟨hasc, htree⟩ := h.ascends.congr hfg.size fun j _ hj => .of_get (hfg.kept j hj)
  refine ⟨?_, hasc, fun l hl => by rw [htree, h.tree l hl]⟩
  rw [hfg.kept a (ascends_iff.1 h.ascends).1, h.root]

theorem Drawn.eq_ofNode (h : f.Drawn (k + 1) a u) : u = .ofNode (f.get a) (f.treeWithin k) :=
  (h.tree (k + 1) (Nat.le_refl _)).symm

theorem drawn_leaf (ha : a < f.size) (hroot : (f.get a).holder = none)
    (hchildren : (f.get a).children = []) : f.Drawn (k + 1) a (.leaf (f.get a)) := by
  refine ⟨hroot, ascends_iff.2 ⟨ha, fun c hc => ?_⟩, fun l hl => ?_⟩
  · rw [Forest.children, hchildren] at hc
    cases hc
  · obtain ⟨l, rfl⟩ : ∃ m, l = m + 1 := ⟨l - 1, by omega⟩
    exact NodeTree.ofNode_congr fun c hc => by simp [hchildren] at hc

theorem Filled.get_of_evict {name : String} {w v : Value}
    (h : (f.evict a name w).Filled g a name v) (ha : a < f.size) (j : NodeId) :
    g.get j = { f.get j with
      slots := if j = a then (f.get j).slots.insert name v else (f.get j).slots
      holder := if j ∈ v.children then some ⟨a, name⟩
        else if j ∈ f.childrenIn a name then none else (f.get j).holder } := by
  rw [h.get, get_evict, get_setSlot _ _ ha]
  by_cases hj : j = a <;> simp [hj]

/-- Putting children into a slot replaces the slot in the tree. -/
theorem Drawn.filled {name : String} {w v : Value} {s : TreeSlot NodeTree}
    (h : f.Drawn (k + 1) a u) (hfilled : (f.evict a name w).Filled g a name v)
    (hc : ∀ c ∈ v.children, a < c ∧ f.Ascends c) (hs : ∀ l ≥ k, v.toSlot (f.treeWithin l) = s) :
    g.Drawn (k + 1) a (u.put name s) ∧ g.size = f.size ∧ ∀ j < a, g.get j = f.get j := by
  obtain ⟨ha, hup⟩ := ascends_iff.1 h.ascends
  have hsize : g.size = f.size := by rw [hfilled.size, size_evict]
  have hget := hfilled.get_of_evict ha
  have hother : ∀ j, j ≠ a → f.SameContent g j := fun j hj => ⟨_, by rw [hget, if_neg hj]⟩
  have hnot : a ∉ v.children := fun hm => Nat.lt_irrefl a (hc a hm).1
  have hself : g.get a = { f.get a with slots := (f.get a).slots.insert name v } := by
    have hholder : (if a ∈ f.childrenIn a name then none else (f.get a).holder) =
        (f.get a).holder := by rw [h.root, ite_self]
    rw [hget, if_pos rfl, if_neg hnot, hholder]
  -- the children of the node are those that it had and the new ones
  have hbelow : ∀ c ∈ g.children a, a < c ∧ f.Ascends c := by
    intro c hcm
    rw [Forest.children, hself] at hcm
    obtain ⟨x, hx, hcx⟩ := List.mem_flatMap.1 hcm
    obtain ⟨r, hr⟩ := Table.mem_values_iff.1 hx
    rw [Table.get?_insert] at hr
    split at hr
    · rw [Option.some.injEq] at hr
      exact hc c (hr ▸ hcx)
    · exact hup c (mem_children_iff.2 ⟨r, mem_childrenIn_iff.2 ⟨x, hr, hcx⟩⟩)
  have hframe : ∀ c, a < c → f.Ascends c →
      g.Ascends c ∧ ∀ l, g.treeWithin l c = f.treeWithin l c := fun c hac hasc =>
    hasc.congr (Nat.le_of_eq hsize.symm) fun j hj _ =>
      hother j (Nat.ne_of_gt (Nat.lt_of_lt_of_le hac hj))
  refine ⟨⟨?_, ascends_iff.2 ⟨?_, fun c hcm => ?_⟩, fun l hl => ?_⟩, hsize, fun j hj => ?_⟩
  · rw [hself, h.root]
  · rw [hsize]
    exact ha
  · obtain ⟨hac, hasc⟩ := hbelow c hcm
    exact ⟨hac, (hframe c hac hasc).1⟩
  · obtain ⟨l, rfl⟩ : ∃ m, l = m + 1 := ⟨l - 1, by omega⟩
    have hold : NodeTree.ofNode (f.get a) (g.treeWithin l) = u := by
      rw [← h.tree (l + 1) hl, treeWithin]
      exact NodeTree.ofNode_congr fun c hcm =>
        (hframe c (hup c hcm).1 (hup c hcm).2).2 l
    have hnew : v.toSlot (g.treeWithin l) = s := by
      rw [← hs l (by omega)]
      exact Value.toSlot_congr fun c hcm => (hframe c (hc c hcm).1 (hc c hcm).2).2 l
    rw [treeWithin, hself, NodeTree.ofNode_insert, hold, hnew]
  · have hjv : j ∉ v.children := fun hm => Nat.lt_asymm hj (hc j hm).1
    have hjin : j ∉ f.childrenIn a name := fun hm =>
      Nat.lt_asymm hj (hup j (mem_children_iff.2 ⟨name, hm⟩)).1
    rw [hget, if_neg hjv, if_neg hjin, if_neg (Nat.ne_of_lt hj)]

theorem Drawn.setOrigin (h : f.Drawn (k + 1) a u) (o : Option Origin) :
    (f.setOrigin a o).Drawn (k + 1) a (u.withOrigin o) ∧ (f.setOrigin a o).size = f.size ∧
      ∀ j < a, (f.setOrigin a o).get j = f.get j := by
  obtain ⟨ha, hup⟩ := ascends_iff.1 h.ascends
  have hsize : (f.setOrigin a o).size = f.size := size_update _ _ _
  have hself : (f.setOrigin a o).get a = { f.get a with origin := o } := by
    rw [Forest.setOrigin, get_update, if_pos ⟨rfl, ha⟩]
  have hother : ∀ j, j ≠ a → (f.setOrigin a o).get j = f.get j := fun j hj => by
    rw [Forest.setOrigin, get_update, if_neg fun e => hj e.1.symm]
  have hframe : ∀ c ∈ f.children a, (f.setOrigin a o).Ascends c ∧
      ∀ l, (f.setOrigin a o).treeWithin l c = f.treeWithin l c := fun c hc =>
    (hup c hc).2.congr (Nat.le_of_eq hsize.symm) fun j hj _ =>
      .of_get (hother j (Nat.ne_of_gt (Nat.lt_of_lt_of_le (hup c hc).1 hj)))
  refine ⟨⟨?_, ascends_iff.2 ⟨by rw [hsize]; exact ha, fun c hc => ?_⟩, fun l hl => ?_⟩, hsize,
    fun j hj => hother j (Nat.ne_of_lt hj)⟩
  · rw [hself]
    exact h.root
  · rw [Forest.children, hself] at hc
    exact ⟨(hup c hc).1, (hframe c hc).1⟩
  · obtain ⟨l, rfl⟩ : ∃ m, l = m + 1 := ⟨l - 1, by omega⟩
    rw [treeWithin, hself, ← h.tree (l + 1) hl, treeWithin,
      ← NodeTree.ofNode_congr fun c hc => (hframe c hc).2 l]
    rfl

/-- The position of a drawn node, where its origin leads to a node of `f₀` if to any. -/
theorem Drawn.position_eq {f₀ : Forest} (h : f.Drawn (k + 1) a u) (hknown : f₀.OriginsKnown)
    (hext : f₀.Extends f) (ha : f₀.size ≤ a)
    (ho : ∀ j, u.origin = some (.node j) → j < f₀.size) : f.position a = u.place f₀.position := by
  have hlt : f₀.size < f.size := Nat.lt_of_le_of_lt ha (ascends_iff.1 h.ascends).1
  have hp : u.position = (f.get a).position := by rw [h.eq_ofNode]; rfl
  have hu : u.origin = (f.get a).origin := by rw [h.eq_ofNode]; rfl
  rw [position, positionWithin, NodeTree.place, hp, hu]
  cases (f.get a).position with
  | some p => rfl
  | none =>
    cases hor : (f.get a).origin with
    | none => rfl
    | some o =>
      cases o with
      | node j => exact positionWithin_of_kept hknown hext.kept hlt (ho j (hu.trans hor))
      | _ => rfl

end Forest

/-- A node with plain values at most: no children, nobody who holds it, no position, no origin. -/
structure Node.Bare (n : Node) : Prop where
  children : n.children = []
  holder : n.holder = none
  position : n.position = none
  origin : n.origin = none

namespace Transformer

open Forest

variable {t : Transformer}

theorem attach_ok {a : NodeId} {name : String} {rs : List NodeId} {st : State} {g : Forest}
    (h : attachEdit a name rs st.forest = .ok () g) :
    t.attach a name none rs st = ((), { st with forest := g }) := by
  simp only [attach, bind, StateT.bind, tryEdit, h]
  rfl

theorem report_eq (message : String) (position : Option Position) (st : State) :
    t.report message position st =
      ((), { st with issues := st.issues ++ t.noted message position }) := by
  show ((), _) = ((), _)
  cases hr : t.options.recordIssues <;> simp [noted, hr]

theorem attach_error {a : NodeId} {name : String} {rs : List NodeId} {st : State} {e : ModelError}
    (h : attachEdit a name rs st.forest = .error e st.forest) :
    t.attach a name none rs st =
      ((), { st with issues := st.issues ++ t.noted e.message (st.forest.position a) }) := by
  rw [← report_eq]
  simp only [attach, bind, StateT.bind, tryEdit, h]
  rfl

theorem attachEdit_error {f : Forest} {a : NodeId} {name : String} {rs : List NodeId}
    {e : ModelError} (h : f.property a name = .error e) : attachEdit a name rs f = .error e f :=
  StatefulRuns.bind_error (Edit.check_error h)

theorem attachEdit_eq {f : Forest} {a : NodeId} {name : String} {p : Property}
    (hp : (f.get a).type.property? name = some p) (rs : List NodeId) :
    attachEdit a name rs f = (if p.multiple then Forest.setChildren a name rs
      else match rs with
        | [] => pure ()
        | c :: _ => Forest.setChild a name (some c) : Edit Unit) f := by
  apply (StatefulRuns.bind_ok (Edit.check_ok (property_eq_ok.2 hp))).trans
  cases rs <;> rfl

theorem propertyOf_error {f : Forest} {a : NodeId} {name : String} {p : Property}
    {kind : PropertyKind} {multiple : Bool} {expected : Expectation}
    (hp : (f.get a).type.property? name = some p) (hk : p.kind ≠ kind) :
    f.propertyOf a name kind multiple expected =
      .error (.wrongKind (f.get a).type.name p.name expected) := by
  simp [propertyOf, property_eq_ok.2 hp, bind, Except.bind, hk, throw, throwThe,
    MonadExceptOf.throw]

theorem map_treeWithin {f : Forest} {a : NodeId} {k l : Nat} (hl : k ≤ l) {rs : List NodeId}
    {us : List NodeTree} (h : List.Forall₂ (fun r u => a < r ∧ f.Drawn k r u) rs us) :
    rs.map (f.treeWithin l) = us := by
  induction h with
  | nil => rfl
  | cons hr _ ih => rw [List.map_cons, hr.2.tree l hl, ih]

/-- What an edit that attaches drawn nodes does is what happens to the tree. -/
theorem attachEdit_drawn {f : Forest} {k : Nat} {a : NodeId} {u : NodeTree} (name : String)
    {rs : List NodeId} {us : List NodeTree} (hu : f.Drawn (k + 1) a u)
    (hrs : List.Forall₂ (fun r u => a < r ∧ f.Drawn k r u) rs us) (hn : rs.Nodup) :
    match u.attach name us with
    | .ok v => ∃ g, attachEdit a name rs f = .ok () g ∧ g.Drawn (k + 1) a v ∧ g.size = f.size ∧
        ∀ j < a, g.get j = f.get j
    | .error e => attachEdit a name rs f = .error e f := by
  have htype : u.type = (f.get a).type := by rw [hu.eq_ofNode]; rfl
  have hall : ∀ r ∈ rs, a < r ∧ (f.get r).holder = none ∧ f.Ascends r :=
    ((List.forall₂_and_left _ _).1
      (hrs.imp fun r u h => ⟨⟨h.1, h.2.root, h.2.ascends⟩, h.2⟩)).1
  have hfresh : ∀ r ∈ rs, r ≠ a ∧ r < f.size ∧ (f.get r).holder = none := fun r hr =>
    ⟨Nat.ne_of_gt (hall r hr).1, (ascends_iff.1 (hall r hr).2.2).1, (hall r hr).2.1⟩
  unfold NodeTree.attach
  rw [htype]
  cases hp : (f.get a).type.property? name with
  | none => exact attachEdit_error (by simp [property, hp])
  | some p =>
    have hrun := attachEdit_eq hp rs
    cases hm : p.multiple with
    | true =>
      simp only [hm, if_true] at hrun ⊢
      by_cases hk : p.kind = .child
      · simp only [hk, if_true]
        obtain ⟨g, hset, hfilled⟩ := setChildren_filled hp hk hm rs hu.root hn hfresh
        refine ⟨g, hrun.trans hset, hu.filled hfilled (fun c hc => ?_) fun l hl => ?_⟩
        · exact ⟨(hall c hc).1, (hall c hc).2.2⟩
        · rw [Value.toSlot, map_treeWithin hl hrs]
      · simp only [hk, if_false]
        exact hrun.trans (StatefulRuns.bind_error (Edit.check_error (propertyOf_error hp hk)))
    | false =>
      simp only [hm, Bool.false_eq_true, if_false] at hrun ⊢
      cases hrs with
      | nil => exact ⟨f, hrun, hu, rfl, fun _ _ => rfl⟩
      | cons hr hrest =>
        rename_i r v rs us
        by_cases hk : p.kind = .child
        · simp only [hk, if_true]
          obtain ⟨hra, hrs, hrfree⟩ := hfresh r (by simp)
          obtain ⟨g, hset, hfilled⟩ := setChild_filled hp hk hm hu.root hra hrs hrfree
          refine ⟨g, hrun.trans hset, hu.filled hfilled (fun c hc => ?_) fun l hl => ?_⟩
          · rw [Value.children, List.mem_singleton] at hc
            subst hc
            exact ⟨hr.1, hr.2.ascends⟩
          · rw [Value.toSlot, hr.2.tree l hl]
        · simp only [hk, if_false]
          exact hrun.trans (StatefulRuns.bind_error (Edit.check_error (propertyOf_error hp hk)))

/-- Transforming `c` with `child` leaves what `d` says: a new node from which the tree can be read,
and the issues. -/
def Becomes (f₀ : Forest) (k : Nat) (child : SourceTree → Step (Option NodeId))
    (d : NodeTree × List Issue) (c : SourceTree) : Prop :=
  ∀ st : State, f₀.Extends st.forest → ∃ r g, child c st = (some r, ⟨g, st.issues ++ d.2⟩) ∧
    st.forest.Extends g ∧ st.forest.size ≤ r ∧ g.Drawn k r d.1

theorem mapM_becomes {f₀ : Forest} {k : Nat} {child : SourceTree → Step (Option NodeId)}
    {D : SourceTree → NodeTree × List Issue} (cs : List SourceTree)
    (h : ∀ c ∈ cs, Becomes f₀ k child (D c) c) (st : State) (hst : f₀.Extends st.forest) :
    ∃ rs g, cs.mapM child st = (rs.map some, ⟨g, st.issues ++ (cs.map D).flatMap (·.2)⟩) ∧
      st.forest.Extends g ∧ rs.Nodup ∧
      List.Forall₂ (fun r d => st.forest.size ≤ r ∧ g.Drawn k r d.1) rs (cs.map D) := by
  induction cs generalizing st with
  | nil =>
    refine ⟨[], st.forest, ?_, .refl _, List.nodup_nil, .nil⟩
    rw [List.mapM_nil, List.map_nil, List.map_nil, List.flatMap_nil, List.append_nil]
    rfl
  | cons c cs ih =>
    obtain ⟨r, g, hrun, hgrown, hnew, hdrawn⟩ := h c (by simp) st hst
    obtain ⟨rs, g', hruns, hgrowns, hn, hrs⟩ := ih (fun d hd => h d (by simp [hd]))
      ⟨g, st.issues ++ (D c).2⟩ (hst.trans hgrown)
    have hlt : r < g.size := (ascends_iff.1 hdrawn.ascends).1
    refine ⟨r :: rs, g', ?_, hgrown.trans hgrowns, List.nodup_cons.2 ⟨fun hm => ?_, hn⟩,
      .cons ⟨hnew, hdrawn.mono hgrowns⟩ (hrs.imp fun _ _ hd => ⟨?_, hd.2⟩)⟩
    · rw [List.mapM_cons]
      simp only [bind, StateT.bind, hrun, hruns]
      rw [List.map_cons, List.map_cons, List.flatMap_cons, List.append_assoc]
      rfl
    · -- what comes later stands at later places
      exact Nat.not_lt_of_le (((List.forall₂_and_left _ _).1 hrs).1 r hm) hlt
    · exact Nat.le_trans hgrown.size hd.1

theorem origin_attach {u v : NodeTree} {name : String} {cs : List NodeTree}
    (h : u.attach name cs = .ok v) : v.origin = u.origin := by
  unfold NodeTree.attach at h
  split at h
  · cases h
  · split at h
    · split at h
      · cases h; rfl
      · cases h
    · split at h
      · cases h; rfl
      · split at h
        · cases h; rfl
        · cases h

theorem origin_fill (look : NodeId → Option Position) (acc : NodeTree × List Issue)
    (e : String × List (NodeTree × List Issue)) :
    (t.fill look acc e).1.origin = acc.1.origin := by
  unfold fill
  cases h : acc.1.attach e.1 (e.2.map (·.1)) with
  | ok v => exact origin_attach h
  | error err => rfl

section Filling

variable {f₀ f : Forest} {k : Nat} {a : NodeId} {acc : NodeTree × List Issue}
  (hknown : f₀.OriginsKnown) (hext : f₀.Extends f) (ha : f₀.size ≤ a)
  (ho : ∀ j, acc.1.origin = some (.node j) → j < f₀.size) (hu : f.Drawn (k + 1) a acc.1)
include hknown hext ha ho hu

theorem attach_drawn (name : String) {rs : List NodeId} {ds : List (NodeTree × List Issue)}
    (hrs : List.Forall₂ (fun r d => a < r ∧ f.Drawn k r d.1) rs ds) (hn : rs.Nodup)
    (before : List Issue) : ∃ g,
      t.attach a name none rs ⟨f, before ++ (acc.2 ++ ds.flatMap (·.2))⟩ =
        ((), ⟨g, before ++ (t.fill f₀.position acc (name, ds)).2⟩) ∧
      g.Drawn (k + 1) a (t.fill f₀.position acc (name, ds)).1 ∧ g.size = f.size ∧
      ∀ j < a, g.get j = f.get j := by
  have hrs' : List.Forall₂ (fun r u => a < r ∧ f.Drawn k r u) rs (ds.map (·.1)) :=
    List.forall₂_map_right_iff.2 hrs
  have hedit := attachEdit_drawn name hu hrs' hn
  unfold fill
  cases h : acc.1.attach name (ds.map (·.1)) with
  | ok v =>
    rw [h] at hedit
    obtain ⟨g, hrun, hdrawn, hsize, hkept⟩ := hedit
    exact ⟨g, attach_ok hrun, hdrawn, hsize, hkept⟩
  | error e =>
    rw [h] at hedit
    refine ⟨f, ?_, hu, rfl, fun _ _ => rfl⟩
    have hrun : t.attach a name none rs ⟨f, before ++ (acc.2 ++ ds.flatMap (·.2))⟩ = _ :=
      attach_error hedit
    rw [hu.position_eq hknown hext ha ho] at hrun
    rw [hrun, List.append_assoc]

theorem applyRule_drawn {s : SourceTree} {child : SourceTree → Step (Option NodeId)}
    {D : SourceTree → NodeTree × List Issue} {rule : ChildRule} (hset : rule.setter = none)
    (hchild : ∀ c ∈ (rule.select s).toList, Becomes f₀ k child (D c) c) (before : List Issue) :
    ∃ g, t.applyRule s a child rule ⟨f, before ++ acc.2⟩ = ((), ⟨g, before ++
        (t.fill f₀.position acc (rule.property, (rule.select s).toList.map D)).2⟩) ∧
      g.Drawn (k + 1) a
        (t.fill f₀.position acc (rule.property, (rule.select s).toList.map D)).1 ∧
      f.size ≤ g.size ∧ ∀ j < a, g.get j = f.get j := by
  obtain ⟨rs, g, hrun, hgrown, hn, hrs⟩ := mapM_becomes _ hchild ⟨f, before ++ acc.2⟩ hext
  have hlt : a < f.size := (ascends_iff.1 hu.ascends).1
  have hrs' : List.Forall₂ (fun r d => a < r ∧ g.Drawn k r d.1) rs
      ((rule.select s).toList.map D) :=
    hrs.imp fun r d h => ⟨Nat.lt_of_lt_of_le hlt h.1, h.2⟩
  obtain ⟨g', hattach, hdrawn, hsize, hkept⟩ := attach_drawn (t := t) hknown (hext.trans hgrown) ha
    ho (hu.mono hgrown) rule.property hrs' hn before
  refine ⟨g', ?_, hdrawn, ?_, fun j hj => ?_⟩
  · simp only [applyRule, bind, StateT.bind, hrun, hset]
    rw [List.filterMap_map, Function.id_comp, List.filterMap_some, List.append_assoc]
    exact hattach
  · rw [hsize]
    exact hgrown.size
  · rw [hkept j hj, hgrown.kept j (Nat.lt_trans hj hlt)]

end Filling

theorem applyRules_drawn {f₀ : Forest} (hknown : f₀.OriginsKnown) {k : Nat} {a : NodeId}
    (ha : f₀.size ≤ a) {s : SourceTree} {child : SourceTree → Step (Option NodeId)}
    {D : SourceTree → NodeTree × List Issue} (rules : List ChildRule)
    (hset : ∀ r ∈ rules, r.setter = none)
    (hchild : ∀ r ∈ rules, ∀ c ∈ (r.select s).toList, Becomes f₀ k child (D c) c)
    {acc : NodeTree × List Issue} (ho : ∀ j, acc.1.origin = some (.node j) → j < f₀.size)
    {f : Forest} (hext : f₀.Extends f) (hu : f.Drawn (k + 1) a acc.1) (before : List Issue) :
    ∃ g, (rules.forM (t.applyRule s a child) : Step Unit) ⟨f, before ++ acc.2⟩ = ((), ⟨g, before ++
        ((rules.map fun r => (r.property, (r.select s).toList.map D)).foldl
          (t.fill f₀.position) acc).2⟩) ∧
      g.Drawn (k + 1) a ((rules.map fun r => (r.property, (r.select s).toList.map D)).foldl
        (t.fill f₀.position) acc).1 ∧
      f.size ≤ g.size ∧ ∀ j < a, g.get j = f.get j := by
  induction rules generalizing acc f with
  | nil => exact ⟨f, rfl, hu, Nat.le_refl _, fun _ _ => rfl⟩
  | cons r rules ih =>
    obtain ⟨g, hstep, hdrawn, hsize, hkept⟩ := applyRule_drawn (t := t) hknown hext ha ho hu
      (hset r (by simp)) (hchild r (by simp)) before
    have hext' : f₀.Extends g := by
      refine ⟨Nat.le_trans hext.size hsize, fun j hj => ?_⟩
      rw [hkept j (Nat.lt_of_lt_of_le hj ha), hext.kept j hj]
    obtain ⟨g', hrest, hdrawn', hsize', hkept'⟩ := ih (fun r hr => hset r (by simp [hr]))
      (fun r hr => hchild r (by simp [hr])) (by rw [origin_fill]; exact ho) hext' hdrawn
    refine ⟨g', ?_, hdrawn', Nat.le_trans hsize hsize', fun j hj => ?_⟩
    · show (t.applyRule s a child r >>= fun _ => rules.forM (t.applyRule s a child)) _ = _
      simp only [bind, StateT.bind, hstep]
      exact hrest
    · rw [hkept' j hj, hkept j hj]

theorem map_rules (s : SourceTree) (type : NodeType) :
    ((if t.options.defaultMapping then defaultRules s type (t.rulesFor s.kind) else []) ++
      t.rulesFor s.kind).map (fun r => (r.property, (r.select s).toList)) = t.fills s type := by
  have hnamed : ∀ ps : List Property,
      ((ps.filter fun p => !(t.rulesFor s.kind).any (·.property = p.name) &&
        !(s.field p.source).isNone).map fun p => Factory.fieldRule p.name p.source).map
          (fun r => (r.property, (r.select s).toList)) =
      ps.filterMap fun p =>
        if (t.rulesFor s.kind).any (·.property = p.name) || (s.field p.source).isNone then none
        else some (p.name, (s.field p.source).toList) := by
    intro ps
    induction ps with
    | nil => rfl
    | cons p ps ih =>
      by_cases hp : (t.rulesFor s.kind).any (·.property = p.name) || (s.field p.source).isNone
      · rw [List.filterMap_cons_none (by simp [hp]), ← ih, List.filter_cons_of_neg]
        rw [← Bool.not_or, hp]
        exact Bool.false_ne_true
      · rw [List.filterMap_cons_some (by rw [if_neg hp]), ← ih, List.filter_cons_of_pos]
        · rfl
        · simpa [Bool.or_eq_true] using hp
  rw [List.map_append, fills]
  congr 1
  split
  · exact hnamed _
  · rfl

theorem rules_ok (h : t.SelectsBelow) (s : SourceTree) (type : NodeType) :
    ∀ r ∈ (if t.options.defaultMapping then defaultRules s type (t.rulesFor s.kind) else []) ++
      t.rulesFor s.kind, r.setter = none := by
  intro r hr
  rcases List.mem_append.1 hr with hr | hr
  · split at hr
    · obtain ⟨p, -, rfl⟩ := List.mem_map.1 hr
      rfl
    · cases hr
  · exact h.setterless r hr

theorem applyAll_drawn (b : t.Blueprint) {f₀ : Forest} (hknown : f₀.OriginsKnown) {k : Nat}
    {a : NodeId} (ha : f₀.size ≤ a) {s : SourceTree} {child : SourceTree → Step (Option NodeId)}
    {D : SourceTree → NodeTree × List Issue}
    (hchild : ∀ c : SourceTree, c.height < s.height → Becomes f₀ k child (D c) c)
    (type : NodeType) {acc : NodeTree × List Issue}
    (ho : ∀ j, acc.1.origin = some (.node j) → j < f₀.size) {f : Forest} (hext : f₀.Extends f)
    (hu : f.Drawn (k + 1) a acc.1) (before : List Issue) {filled : NodeTree × List Issue}
    (hfilled : filled = ((t.fills s type).map fun e => (e.1, e.2.map D)).foldl
      (t.fill f₀.position) acc) :
    ∃ g, (((if t.options.defaultMapping then defaultRules s type (t.rulesFor s.kind) else []) ++
        t.rulesFor s.kind).forM (t.applyRule s a child) : Step Unit) ⟨f, before ++ acc.2⟩ =
          ((), ⟨g, before ++ filled.2⟩) ∧
      g.Drawn (k + 1) a filled.1 ∧ f.size ≤ g.size ∧ ∀ j < a, g.get j = f.get j := by
  obtain ⟨rules, hrules⟩ : ∃ rules, rules = (if t.options.defaultMapping then
      defaultRules s type (t.rulesFor s.kind) else []) ++ t.rulesFor s.kind := ⟨_, rfl⟩
  have hfills : (rules.map fun r => (r.property, (r.select s).toList)) = t.fills s type :=
    hrules ▸ map_rules s type
  have hlow : ∀ r ∈ rules, ∀ c ∈ (r.select s).toList, c.height < s.height := by
    intro r hr c hc
    have hmem : (r.property, (r.select s).toList) ∈ t.fills s type :=
      hfills ▸ List.mem_map_of_mem hr
    exact fills_below b hmem hc
  have hmap : (rules.map fun r => (r.property, (r.select s).toList.map D)) =
      (t.fills s type).map fun e => (e.1, e.2.map D) := by
    rw [← hfills, List.map_map]
    rfl
  rw [← hrules, hfilled, ← hmap]
  exact applyRules_drawn hknown ha rules (hrules ▸ rules_ok b.selectsBelow s type)
    (fun r hr c hc => hchild c (hlow r hr c hc)) ho hext hu before

theorem assignOrigin_drawn {f : Forest} {k : Nat} {a : NodeId} {u : NodeTree}
    (hu : f.Drawn (k + 1) a u) (s : SourceTree) (issues : List Issue) :
    ∃ g, t.assignOrigin s a ⟨f, issues⟩ = ((), ⟨g, issues⟩) ∧
      g.Drawn (k + 1) a (t.originated s u) ∧ g.size = f.size ∧ ∀ j < a, g.get j = f.get j := by
  have horigin : u.origin = (f.get a).origin := by rw [hu.eq_ofNode]; rfl
  have hrun : ∀ st : State, t.assignOrigin s a st = ((), _) := fun _ => rfl
  rw [hrun, originated, horigin]
  by_cases hk : t.keepsOrigin (f.get a).origin = true
  · simp only [hk, if_true]
    exact ⟨f, rfl, hu, rfl, fun _ _ => rfl⟩
  · simp only [hk]
    cases t.originOf s with
    | none => exact ⟨f, rfl, hu, rfl, fun _ _ => rfl⟩
    | some o => exact ⟨_, rfl, hu.setOrigin (some o)⟩

theorem children_ofType (type : NodeType) : (Node.ofType type).children = [] := by
  apply List.flatMap_eq_nil_iff.2
  intro v hv
  have hin := Table.mem_values_ofList hv
  rw [List.map_map, List.mem_map] at hin
  obtain ⟨p, -, rfl⟩ := hin
  exact p.children_emptySlot

theorem bare_ofType (type : NodeType) : (Node.ofType type).Bare :=
  ⟨children_ofType type, rfl, rfl, rfl⟩

theorem drawn_push (f : Forest) {n : Node} (hchildren : n.children = []) (hroot : n.holder = none)
    (k : Nat) : (Forest.mk (f.nodes.push n)).Drawn (k + 1) f.size (.leaf n) := by
  have hget : (Forest.mk (f.nodes.push n)).get f.size = n := by rw [get_push, if_pos rfl]
  have hlt : f.size < (Forest.mk (f.nodes.push n)).size := by
    rw [size_push]
    exact Nat.lt_succ_self _
  have hleaf := drawn_leaf (k := k) hlt (by rw [hget, hroot]) (by rw [hget, hchildren])
  rwa [hget] at hleaf

theorem makeNode_ok (b : t.Blueprint) {s : SourceTree} {n : Node} (h : b.draft s = .ok n)
    (parent : Option NodeId) (st : State) :
    t.makeNode s parent st = (.ok st.forest.size, { st with forest := ⟨st.forest.nodes.push n⟩ }) ∧
      n.children = [] ∧ n.holder = none := by
  unfold Blueprint.draft at h
  unfold makeNode
  cases hf : t.factories.get? s.kind with
  | some factory =>
    simp only [hf] at h ⊢
    simp only [b.made hf h]
    exact ⟨trivial, b.childless h⟩
  | none =>
    simp only [hf, Except.ok.injEq] at h ⊢
    subst h
    exact ⟨rfl, children_ofType _, rfl⟩

theorem makeNode_error (b : t.Blueprint) {s : SourceTree} {e : FactoryError}
    (h : b.draft s = .error e) (parent : Option NodeId) (st : State) :
    ∃ extra, t.makeNode s parent st =
      (.error e, { st with forest := ⟨st.forest.nodes ++ extra⟩ }) := by
  unfold Blueprint.draft at h
  unfold makeNode
  cases hf : t.factories.get? s.kind with
  | some factory =>
    simp only [hf] at h ⊢
    obtain ⟨extra, hbuild⟩ := b.failed hf h parent st.forest
    exact ⟨extra, by simp only [hbuild]⟩
  | none => simp [hf] at h

/-- The node that takes the place of one that could not be made, with the message where its type
has a property for it. -/
def errorDraft (t : Transformer) (e : FactoryError) : Node :=
  let n := Node.ofType t.genericError
  if (t.genericError.property? "message").any (·.kind = .value) then
    { n with slots := n.slots.insert "message" (.string e.render) }
  else n

theorem bare_errorDraft (t : Transformer) (e : FactoryError) : (t.errorDraft e).Bare := by
  have hbare := bare_ofType t.genericError
  unfold errorDraft
  dsimp only
  split
  · refine ⟨List.flatMap_eq_nil_iff.2 fun v hv => ?_, hbare.holder, hbare.position, hbare.origin⟩
    obtain ⟨name, hname⟩ := Table.mem_values_iff.1 hv
    rw [Table.get?_insert] at hname
    split at hname
    · rw [Option.some.injEq] at hname
      rw [← hname]
      rfl
    · exact List.flatMap_eq_nil_iff.1 hbare.children v (Table.mem_values_iff.2 ⟨name, hname⟩)
  · exact hbare

theorem leaf_errorDraft (e : FactoryError) : NodeTree.leaf (t.errorDraft e) = t.errorLeaf e := by
  unfold errorDraft errorLeaf
  dsimp only
  split
  · exact NodeTree.ofNode_insert _ _ _ _
  · rfl

theorem errorNode_eq (s : SourceTree) (e : FactoryError) (st : State) :
    t.errorNode s e st = (st.forest.size, ⟨⟨st.forest.nodes.push (t.errorDraft e)⟩,
      st.issues ++ t.noted e.render s.info.position⟩) := by
  obtain ⟨f₁, hf₁⟩ : ∃ f₁, f₁ = Forest.mk (st.forest.nodes.push (.ofType t.genericError)) :=
    ⟨_, rfl⟩
  have hget : f₁.get st.forest.size = .ofType t.genericError := by
    rw [hf₁, get_push, if_pos rfl]
  have htype : (f₁.get st.forest.size).type = t.genericError := by rw [hget]; rfl
  have hrun : ∀ r g, tryEdit (Forest.setValue st.forest.size "message" (.string e.render))
      { st with forest := f₁ } = (r, { st with forest := g }) → t.errorNode s e st =
        (st.forest.size, ⟨g, st.issues ++ t.noted e.render s.info.position⟩) := by
    intro r g h
    have hnew : (st.forest.newNode t.genericError) = (st.forest.size, f₁) := by rw [hf₁]; rfl
    simp only [errorNode, bind, StateT.bind, modifyGet, MonadStateOf.modifyGet, StateT.modifyGet,
      pure, hnew, h, report_eq]
    rfl
  unfold errorDraft
  rcases setValue_cases f₁ st.forest.size "message" (.string e.render) with
    ⟨err, hset⟩ | ⟨p, hp, hk, hv⟩
  · -- a type with such a property would have taken the message
    have hnone : (t.genericError.property? "message").any (·.kind = .value) ≠ true := by
      intro hany
      obtain ⟨p, hp, hk⟩ := (Option.any_eq_true _ _).1 hany
      have hok : Forest.setValue st.forest.size "message" (.string e.render) f₁ = .ok () _ :=
        setValue_ok (by rw [htype]; exact hp) (by simpa using hk) rfl
      rw [hset] at hok
      cases hok
    rw [if_neg hnone, ← hf₁]
    exact hrun (some err) f₁ (by simp only [tryEdit, hset])
  · have hset := setValue_ok (v := .string e.render) hp hk rfl
    have hsome : (t.genericError.property? "message").any (·.kind = .value) = true := by
      rw [← htype, hp]
      simp [hk]
    have hslot : f₁.setSlot st.forest.size "message" (.string e.render) =
        ⟨st.forest.nodes.push { Node.ofType t.genericError with
          slots := (Node.ofType t.genericError).slots.insert "message" (.string e.render) }⟩ := by
      rw [hf₁]
      exact update_push _ _ _
    rw [if_pos hsome, ← hslot]
    exact hrun none _ (by simp only [tryEdit, hset])

theorem errorNode_drawn (s : SourceTree) (e : FactoryError) (st : State) (k : Nat) :
    ∃ g, t.errorNode s e st =
        (st.forest.size, ⟨g, st.issues ++ t.noted e.render s.info.position⟩) ∧
      st.forest.Extends g ∧ g.Drawn (k + 1) st.forest.size (t.errorLeaf e) := by
  have hbare := bare_errorDraft t e
  refine ⟨_, errorNode_eq s e st, extends_push _ _, ?_⟩
  rw [← leaf_errorDraft]
  exact drawn_push st.forest hbare.children hbare.holder k

/-- Origins that factories give to their nodes lead to nodes of the forest. -/
def Blueprint.OriginsIn (b : t.Blueprint) (f₀ : Forest) : Prop :=
  ∀ s n, b.outcome s = .ok n → ∀ j, n.origin = some (.node j) → j < f₀.size

theorem Blueprint.OriginsIn.draft {b : t.Blueprint} {f₀ : Forest} (hb : b.OriginsIn f₀)
    {s : SourceTree} {n : Node} (h : b.draft s = .ok n) (j : NodeId)
    (hj : n.origin = some (.node j)) : j < f₀.size := by
  unfold Blueprint.draft at h
  split at h
  · exact hb s n h j hj
  · cases h
    cases hj

/-- An element becomes what is described, if the depth is enough for it. -/
theorem transformWithin_becomes (b : t.Blueprint) {f₀ : Forest} (hknown : f₀.OriginsKnown)
    (hb : b.OriginsIn f₀) {depth : Nat} {s : SourceTree} (hs : s.height ≤ depth)
    (parent : Option NodeId) :
    Becomes f₀ depth (fun c => t.transformWithin depth c parent) (b.describe f₀.position s) s := by
  induction depth generalizing s parent with
  | zero =>
    cases s
    simp [SourceTree.height] at hs
  | succ depth ih =>
    intro st hst
    rw [b.describe_eq]
    cases hd : b.draft s with
    | error e =>
      obtain ⟨extra, hmake⟩ := makeNode_error b hd parent st
      have hextra := extends_append st.forest extra
      obtain ⟨g, herror, hext, hdrawn⟩ :=
        errorNode_drawn (t := t) s e ⟨⟨st.forest.nodes ++ extra⟩, st.issues⟩ depth
      obtain ⟨g', horigin, hdrawn', hsize, hkept⟩ := assignOrigin_drawn hdrawn s
        (st.issues ++ t.noted e.render s.info.position)
      refine ⟨_, g', ?_, ?_, hextra.size, hdrawn'⟩
      · simp only [transformWithin, bind, StateT.bind, hmake, herror, horigin]
        rfl
      · have hall := hextra.trans hext
        refine ⟨by rw [hsize]; exact hall.size, fun j hj => ?_⟩
        rw [hkept j (Nat.lt_of_lt_of_le hj hextra.size), hall.kept j hj]
    | ok n =>
      obtain ⟨hmake, hchildren, hroot⟩ := makeNode_ok b hd parent st
      have hpush := extends_push st.forest n
      have hget : (Forest.mk (st.forest.nodes.push n)).get st.forest.size = n := by
        rw [get_push, if_pos rfl]
      obtain ⟨filled, hfilled⟩ : ∃ filled, filled = ((t.fills s n.type).map fun e =>
          (e.1, e.2.map (b.describe f₀.position))).foldl (t.fill f₀.position) (.leaf n, []) :=
        ⟨_, rfl⟩
      have hchild : ∀ c : SourceTree, c.height < s.height → Becomes f₀ depth
          (fun c => t.transformWithin depth c (some st.forest.size)) (b.describe f₀.position c) c :=
        fun c hc => ih (Nat.le_of_lt_succ (Nat.lt_of_lt_of_le hc hs)) _
      have horigins : ∀ j, (NodeTree.leaf n).origin = some (.node j) → j < f₀.size := hb.draft hd
      obtain ⟨g, hrun, hdrawn, hsize, hkept⟩ := applyAll_drawn b hknown hst.size hchild n.type
        horigins (hst.trans hpush) (drawn_push st.forest hchildren hroot depth) st.issues hfilled
      obtain ⟨g', horigin, hdrawn', hsize', hkept'⟩ := assignOrigin_drawn (t := t) hdrawn s
        (st.issues ++ filled.2)
      simp only [← hfilled]
      refine ⟨st.forest.size, g', ?_, ⟨?_, fun j hj => ?_⟩, Nat.le_refl _, hdrawn'⟩
      · rw [List.append_nil] at hrun
        simp only [transformWithin, bind, StateT.bind, hmake, MonadState.get, getThe,
          MonadStateOf.get, StateT.get, pure, hget, hrun, horigin]
        rfl
      · rw [hsize']
        exact Nat.le_trans hpush.size hsize
      · rw [hkept' j hj, hkept j hj, hpush.kept j hj]

/-- Transforming a source tree into a forest leaves the nodes that were there as they are, and adds
a root from which the described tree is read; the issues are those of the description. -/
theorem transform_eq_describe {f : Forest} (hf : f.Reachable) (b : t.Blueprint)
    (hb : b.OriginsIn f) (s : SourceTree) :
    ∃ root g, t.transform (some s) f = (⟨some root, (b.describe f.position s).2⟩, g) ∧
      g.tree root = (b.describe f.position s).1 ∧ (g.get root).holder = none ∧ f.size ≤ root ∧
      ∀ j < f.size, g.get j = f.get j := by
  obtain ⟨root, g, hrun, hext, hnew, hdrawn⟩ :=
    transformWithin_becomes b hf.originsKnown hb (Nat.le_refl s.height) none ⟨f, []⟩ (.refl f)
  refine ⟨root, g, ?_, hdrawn.ascends.tree_eq hdrawn.tree, hdrawn.root, hnew, hext.kept⟩
  simp only [transform, transformUnder, hrun, List.nil_append]

def blockType : NodeType :=
  { NodeType.ofName ⟨"sample", "Block"⟩ with
    properties := [⟨"head", .child, .any, false, none⟩, ⟨"item", .child, .any, true, none⟩] }

/-- Items are found by name, the head by a rule, and a second rule has no property to fill. -/
def blockFactory : Factory where
  type := blockType
  build input := do
    let id ← Build.newNode input.type
    modify (·.setPosition id input.source.info.position)
    return id
  rules := [Factory.fieldRule "head" "broken", Factory.fieldRule "tail" "item"]

def brokenFactory : Factory where
  type := blockType
  build input := do
    let _ ← Build.newNode input.type
    throw (.message "cannot be built")
  rules := []

def blockTransformer : Transformer where
  factories := .ofList [("block", blockFactory), ("broken", brokenFactory)]
  options := .default
  policy := .parseTree
  generic := TypeCatalog.genericType
  genericError := TypeCatalog.genericErrorType
  genericRule := TypeCatalog.genericRuleType

theorem factories_blockTransformer {kind : String} {factory : Factory}
    (h : blockTransformer.factories.get? kind = some factory) :
    kind = "block" ∧ factory = blockFactory ∨ kind = "broken" ∧ factory = brokenFactory := by
  have hmem := Table.get?_eq_some_iff.1 h
  rw [blockTransformer, Table.entries_ofList (by decide)] at hmem
  simpa using hmem

theorem rulesFor_blockTransformer {kind : String} {rule : ChildRule}
    (h : rule ∈ blockTransformer.rulesFor kind) :
    ∃ property field, rule = Factory.fieldRule property field := by
  unfold rulesFor at h
  cases hf : blockTransformer.factories.get? kind with
  | none => simp [hf] at h
  | some factory =>
    rw [hf] at h
    rcases factories_blockTransformer hf with ⟨-, rfl⟩ | ⟨-, rfl⟩
    · simp only [blockFactory, Option.map_some, Option.getD_some, List.mem_cons,
        List.not_mem_nil, or_false] at h
      rcases h with rfl | rfl
      · exact ⟨_, _, rfl⟩
      · exact ⟨_, _, rfl⟩
    · cases h

def blockBlueprint : blockTransformer.Blueprint where
  outcome s :=
    if s.kind = "block" then .ok { Node.ofType blockType with position := s.info.position }
    else .error (.message "cannot be built")
  made := by
    intro s factory n hf hn parent f
    rcases factories_blockTransformer hf with ⟨hk, rfl⟩ | ⟨hk, rfl⟩
    · rw [if_pos hk, Except.ok.injEq] at hn
      subst hn
      have hset := update_push f (.ofType blockType) fun n =>
        { n with position := s.info.position }
      exact congrArg (EStateM.Result.ok f.size) hset
    · rw [if_neg (by rw [hk]; decide)] at hn
      cases hn
  failed := by
    intro s factory e hf he parent f
    rcases factories_blockTransformer hf with ⟨hk, rfl⟩ | ⟨hk, rfl⟩
    · rw [if_pos hk] at he
      cases he
    · rw [if_neg (by rw [hk]; decide), Except.error.injEq] at he
      subst he
      refine ⟨#[.ofType blockType], ?_⟩
      rw [Array.append_singleton]
      rfl
  childless := by
    intro s n hn
    split at hn
    · cases hn
      exact ⟨children_ofType blockType, rfl⟩
    · cases hn
  setterless := by
    intro kind rule hr
    obtain ⟨property, field, rfl⟩ := rulesFor_blockTransformer hr
    rfl
  below := by
    intro kind rule hr s c hc
    obtain ⟨property, field, rfl⟩ := rulesFor_blockTransformer hr
    exact SourceTree.mem_walkAll_of_mem (SourceTree.mem_children_of_mem_field hc)

def blockSource : SourceTree :=
  let element := fun kind line =>
    ({ kind, isRule := true, position := some ⟨⟨line, 0⟩, ⟨line, 9⟩⟩, text := none
       hasError := false, origin := none } : SourceInfo)
  .mk (element "block" 1)
    [.mk (element "item" 2) [], .mk (element "broken" 3) [.mk (element "item" 4) []],
      .mk (element "item" 5) []]

/-- The part that fails costs an issue, the rule without a property another. -/
theorem transform_blockSource : boxes.Reachable ∧ blockBlueprint.OriginsIn boxes ∧
    (blockTransformer.transform (some blockSource) boxes).1.issues.length = 2 ∧
    ∃ root g, blockTransformer.transform (some blockSource) boxes =
        (⟨some root, (blockBlueprint.describe boxes.position blockSource).2⟩, g) ∧
      g.tree root = (blockBlueprint.describe boxes.position blockSource).1 ∧
      (g.get root).holder = none ∧ boxes.size ≤ root ∧ ∀ j < boxes.size, g.get j = boxes.get j := by
  have horigins : blockBlueprint.OriginsIn boxes := by
    intro s n hn j hj
    simp only [blockBlueprint] at hn
    split at hn
    · cases hn
      cases hj
    · cases hn
  exact ⟨reachable_boxes, horigins, by decide +kernel,
    transform_eq_describe reachable_boxes blockBlueprint horigins blockSource⟩

end Transformer

end TreeInterchange
