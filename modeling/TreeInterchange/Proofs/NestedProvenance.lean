import TreeInterchange.Proofs.IssuePositions

/-!
# Origins keep ranges nested

Under the policy that records parse trees, a node whose factory leaves the position to the origin
stands where its source element stands. Rules may skip levels, but they only look down, so where
the ranges of the source elements are nested, those of the nodes are nested too; a node for a
failure is no exception.

The induction is on the depth. What is known of a finished node is said of all nodes below it as
well, and filling an earlier node disturbs neither what they hold nor who holds them.
-/

namespace TreeInterchange

namespace SourceTree

variable {s c d : SourceTree}

theorem mem_walk_iff : d ∈ s.walk ↔ d = s ∨ d ∈ s.descendants := by
  cases s
  rw [walk, List.mem_cons]
  rfl

theorem mem_walkAll_iff {ts : List SourceTree} : d ∈ walkAll ts ↔ ∃ c ∈ ts, d ∈ c.walk := by
  induction ts with
  | nil => simp [walkAll]
  | cons c ts ih => simp [walkAll, ih]

theorem children_induction {motive : SourceTree → Prop}
    (h : ∀ s, (∀ c ∈ s.children, motive c) → motive s) (s : SourceTree) : motive s :=
  h s fun c hc =>
    have : c.height < s.height := height_lt_of_mem_descendants (mem_walkAll_of_mem hc)
    children_induction h c
termination_by s.height

theorem walk_subset (h : d ∈ s.walk) : d.walk ⊆ s.walk := by
  induction s using children_induction with
  | h s ih =>
    rcases mem_walk_iff.1 h with rfl | hbelow
    · exact List.Subset.refl _
    · obtain ⟨c, hc, hd⟩ := mem_walkAll_iff.1 hbelow
      intro x hx
      exact mem_walk_iff.2 (.inr (mem_walkAll_iff.2 ⟨c, hc, ih c hc hd hx⟩))

/-- Every element has a valid position, and it contains those of the children. -/
def WellPlaced (s : SourceTree) : Prop :=
  ∀ d ∈ s.walk, ∃ p, d.info.position = some p ∧ p.isValid = true ∧
    ∀ c ∈ d.children, ∃ q, c.info.position = some q ∧ p.contains q = true

instance (s : SourceTree) : Decidable s.WellPlaced :=
  decidable_of_iff (s.walk.all fun d => d.info.position.any fun p => p.isValid &&
    d.children.all fun c => c.info.position.any p.contains) (by
      simp only [List.all_eq_true, Option.any_eq_true, Bool.and_eq_true, WellPlaced])

theorem WellPlaced.of_mem (hs : s.WellPlaced) (hd : d ∈ s.walk) : d.WellPlaced :=
  fun x hx => hs x (walk_subset hd hx)

/-- Ranges are nested across any number of levels. -/
theorem WellPlaced.contains (hs : s.WellPlaced) (hd : d ∈ s.descendants) :
    ∃ p q, s.info.position = some p ∧ d.info.position = some q ∧ p.contains q = true := by
  induction s using children_induction with
  | h s ih =>
    obtain ⟨c, hc, hdc⟩ := mem_walkAll_iff.1 hd
    obtain ⟨p, hp, -, hchildren⟩ := hs s (mem_walk_iff.2 (.inl rfl))
    obtain ⟨q, hq, hpq⟩ := hchildren c hc
    rcases mem_walk_iff.1 hdc with rfl | hbelow
    · exact ⟨p, q, hp, hq, hpq⟩
    · have hcs : c.WellPlaced := hs.of_mem (mem_walk_iff.2 (.inr (mem_walkAll_of_mem hc)))
      obtain ⟨q', r, hq', hr, hqr⟩ := ih c hc hcs hbelow
      obtain rfl : q = q' := Option.some.inj (hq.symm.trans hq')
      exact ⟨p, r, hp, hr, Position.contains_trans hpq hqr⟩

end SourceTree

namespace Forest

variable {f g : Forest} {a : NodeId}

/-- From `a` on, nodes have the same content in a later forest, and hold what they held. -/
structure KeepsFrom (f g : Forest) (a : NodeId) : Prop where
  size_le : f.size ≤ g.size
  content : ∀ j, a ≤ j → j < f.size → f.SameContent g j
  held : ∀ {j h}, (f.get j).holder = some h → a ≤ h.parent → (g.get j).holder = some h

theorem KeepsFrom.mono {b : NodeId} (h : f.KeepsFrom g a) (hab : a ≤ b) : f.KeepsFrom g b :=
  ⟨h.size_le, fun j hj => h.content j (Nat.le_trans hab hj), fun hj hp =>
    h.held hj (Nat.le_trans hab hp)⟩

theorem Extends.keepsFrom (h : f.Extends g) (a : NodeId) : f.KeepsFrom g a :=
  ⟨h.size, fun j _ hj => .of_get (h.kept j hj), fun hj _ => by
    rw [h.kept _ (lt_size_of_holder hj), hj]⟩

theorem SameContent.childrenIn (h : f.SameContent g a) (name : String) :
    g.childrenIn a name = f.childrenIn a name := by
  obtain ⟨p, hp⟩ := h
  rw [Forest.childrenIn, slot?, hp]
  rfl

theorem childrenIn_of_bare (h : (f.get a).children = []) (name : String) :
    f.childrenIn a name = [] := by
  apply List.eq_nil_iff_forall_not_mem.2
  intro c hc
  have hin : c ∈ f.children a := mem_children_iff.2 ⟨name, hc⟩
  rw [Forest.children, h] at hin
  cases hin

theorem childrenIn_filled {name : String} {w v : Value}
    (h : (f.evict a name w).Filled g a name v) (r : String) :
    g.childrenIn a r = if r = name then v.children else f.childrenIn a r := by
  rw [Forest.childrenIn, h.slot?, slot?_evict]
  by_cases hr : r = name
  · simp [hr]
  · simp [hr, Forest.childrenIn]

end Forest

namespace Transformer

open Forest

variable {t : Transformer} {f g : Forest} {k : Nat} {a : NodeId} {s : SourceTree}

/-- Only its origin tells where a node stands, and it is the record of an element. -/
structure Records (f : Forest) (a : NodeId) (s : SourceTree) : Prop where
  position : (f.get a).position = none
  origin : (f.get a).origin = some (.parseTree ⟨s.kind, s.info.position, s.info.text⟩)

/-- The children of a node come after it, know who holds them, and were made from the elements
that are selected for their slots, each from the one in the same place. -/
structure Holds (t : Transformer) (f : Forest) (below : NodeId → SourceTree → Prop) (a : NodeId)
    (s : SourceTree) : Prop where
  lt : a < f.size
  child : ∀ {name} {i : Nat} {c}, (f.childrenIn a name)[i]? = some c →
    a < c ∧ (f.get c).holder = some ⟨a, name⟩ ∧
      ∃ cs d, (name, cs) ∈ t.fills s (f.get a).type ∧ cs[i]? = some d ∧ below c d

/-- A node and those below it, `k` levels at most, record the elements they were made from. -/
def Shows (t : Transformer) (f : Forest) : Nat → NodeId → SourceTree → Prop
  | 0, _, _ => False
  | k + 1, a, s => Records f a s ∧ t.Holds f (t.Shows f k) a s

theorem Shows.lt (h : t.Shows f k a s) : a < f.size := by
  cases k with
  | zero => exact h.elim
  | succ k => exact h.2.lt

theorem Shows.records (h : t.Shows f k a s) : Records f a s := by
  cases k with
  | zero => exact h.elim
  | succ k => exact h.1

theorem Holds.congr {below below' : NodeId → SourceTree → Prop} (h : t.Holds f below a s)
    (hfg : f.KeepsFrom g a) (himp : ∀ c d, a < c → below c d → below' c d) :
    t.Holds g below' a s := by
  have hsame := hfg.content a (Nat.le_refl _) h.lt
  have hchildren := hsame.childrenIn
  obtain ⟨p, hp⟩ := hsame
  refine ⟨Nat.lt_of_lt_of_le h.lt hfg.size_le, fun {name i c} hc => ?_⟩
  rw [hchildren] at hc
  obtain ⟨hac, hheld, cs, d, hmem, hd, hbelow⟩ := h.child hc
  exact ⟨hac, hfg.held hheld (Nat.le_refl _), cs, d, by rw [hp]; exact hmem, hd,
    himp c d hac hbelow⟩

/-- What happens before `a`, or to those whom nobody from `a` on holds, makes no difference. -/
theorem Shows.congr (h : t.Shows f k a s) (hfg : f.KeepsFrom g a) : t.Shows g k a s := by
  induction k generalizing a s with
  | zero => exact h.elim
  | succ k ih =>
    obtain ⟨p, hp⟩ := hfg.content a (Nat.le_refl _) h.lt
    refine ⟨⟨by rw [hp]; exact h.1.position, by rw [hp]; exact h.1.origin⟩, ?_⟩
    exact h.2.congr hfg fun c d hac hbelow => ih hbelow (hfg.mono (Nat.le_of_lt hac))

theorem attachEdit_filled (name : String) {rs : List NodeId} (hroot : (f.get a).holder = none)
    (hn : rs.Nodup) (hrs : ∀ r ∈ rs, r ≠ a ∧ r < f.size ∧ (f.get r).holder = none) :
    (attachEdit a name rs).stateAfter f = f ∨ ∃ v w, v.children <+: rs ∧
      (f.evict a name w).Filled ((attachEdit a name rs).stateAfter f) a name v := by
  unfold Edit.stateAfter
  cases hp : (f.get a).type.property? name with
  | none =>
    have hprop : f.property a name = .error (.unknownProperty (f.get a).type.name name) := by
      rw [property, hp]
    rw [attachEdit_error hprop]
    exact .inl rfl
  | some p =>
    rw [attachEdit_eq hp]
    by_cases hk : p.kind = .child
    · cases hm : p.multiple with
      | true =>
        obtain ⟨g, hset, hfilled⟩ := setChildren_filled hp hk hm rs hroot hn hrs
        simp only [if_true, hset]
        exact .inr ⟨_, _, List.prefix_refl _, hfilled⟩
      | false =>
        cases rs with
        | nil => exact .inl rfl
        | cons r rs =>
          obtain ⟨hra, hrs, hrfree⟩ := hrs r (by simp)
          obtain ⟨g, hset, hfilled⟩ := setChild_filled hp hk hm hroot hra hrs hrfree
          simp only [Bool.false_eq_true, if_false, hset]
          exact .inr ⟨_, _, ⟨rs, rfl⟩, hfilled⟩
    · cases hm : p.multiple with
      | true =>
        have hset : Forest.setChildren a name rs f = .error _ f :=
          StatefulRuns.bind_error (Edit.check_error (propertyOf_error hp hk))
        simp only [if_true, hset]
        exact .inl trivial
      | false =>
        cases rs with
        | nil => exact .inl rfl
        | cons r rs =>
          have hset : Forest.setChild a name (some r) f = .error _ f :=
            StatefulRuns.bind_error (Edit.check_error (propertyOf_error hp hk))
          simp only [Bool.false_eq_true, if_false, hset]
          exact .inl trivial

/-- A node that is being filled: a root that does not say yet where it stands. -/
structure Open (t : Transformer) (f : Forest) (k : Nat) (a : NodeId) (s : SourceTree) : Prop where
  root : (f.get a).holder = none
  position : (f.get a).position = none
  origin : (f.get a).origin = none
  holds : t.Holds f (t.Shows f k) a s

/-- Nothing before `a` has changed, `a` is of the same type, and no node is gone. -/
structure Grows (f g : Forest) (a : NodeId) : Prop where
  size_le : f.size ≤ g.size
  type : (g.get a).type = (f.get a).type
  kept : ∀ j < a, g.get j = f.get j

theorem Grows.refl (f : Forest) (a : NodeId) : Grows f f a := ⟨Nat.le_refl _, rfl, fun _ _ => rfl⟩

theorem Grows.trans {h : Forest} (hfg : Grows f g a) (hgh : Grows g h a) : Grows f h a :=
  ⟨Nat.le_trans hfg.size_le hgh.size_le, by rw [hgh.type, hfg.type], fun j hj => by
    rw [hgh.kept j hj, hfg.kept j hj]⟩

theorem Open.mono (h : t.Open f k a s) (hfg : f.Extends g) : t.Open g k a s ∧ Grows f g a := by
  have hget := hfg.kept a h.holds.lt
  refine ⟨⟨by rw [hget, h.root], by rw [hget, h.position], by rw [hget, h.origin], ?_⟩,
    hfg.size, by rw [hget], fun j hj => hfg.kept j (Nat.lt_trans hj h.holds.lt)⟩
  exact h.holds.congr (hfg.keepsFrom a) fun c d _ hc => hc.congr (hfg.keepsFrom c)

theorem open_push {n : Node} (hn : n.Bare) (f : Forest) (k : Nat) (s : SourceTree) :
    t.Open ⟨f.nodes.push n⟩ k f.size s := by
  have hget : (Forest.mk (f.nodes.push n)).get f.size = n := by rw [get_push, if_pos rfl]
  refine ⟨by rw [hget, hn.holder], by rw [hget, hn.position], by rw [hget, hn.origin], ?_, ?_⟩
  · rw [size_push]
    exact Nat.lt_succ_self _
  · intro name i c hc
    rw [childrenIn_of_bare (by rw [hget, hn.children])] at hc
    cases hc

section Filling

variable {name : String} {w v : Value} (h : t.Open f k a s)
  (hfilled : (f.evict a name w).Filled g a name v)
include h hfilled

theorem Open.held (hv : ∀ c ∈ v.children, (f.get c).holder = none) {j : NodeId} {p : Holder}
    (hj : (f.get j).holder = some p) (hp : p ≠ ⟨a, name⟩) : (g.get j).holder = some p := by
  have hnew : j ∉ v.children := fun hm => by
    rw [hv j hm] at hj
    cases hj
  have hold : j ∉ f.childrenIn a name := fun hm => by
    obtain ⟨i, hi⟩ := List.mem_iff_getElem?.1 hm
    have hheld := (h.holds.child hi).2.1
    rw [hj, Option.some.injEq] at hheld
    exact hp hheld
  rw [hfilled.get_of_evict h.holds.lt, if_neg hnew, if_neg hold]
  exact hj

theorem Open.keepsFrom (hv : ∀ c ∈ v.children, (f.get c).holder = none) :
    f.KeepsFrom g (a + 1) := by
  refine ⟨by rw [hfilled.size, size_evict], fun j hj _ => ?_, fun {j p} hj hp => ?_⟩
  · exact ⟨_, by rw [hfilled.get_of_evict h.holds.lt, if_neg (Nat.ne_of_gt hj)]⟩
  · refine h.held hfilled hv hj fun e => ?_
    rw [e] at hp
    exact Nat.not_succ_le_self a hp

theorem Open.filled {cs : List SourceTree} (hmem : (name, cs) ∈ t.fills s (f.get a).type)
    (hv : ∀ {i : Nat} {c}, v.children[i]? = some c → a < c ∧ (f.get c).holder = none ∧
      ∃ d, cs[i]? = some d ∧ t.Shows f k c d) : t.Open g k a s ∧ Grows f g a := by
  have hin : ∀ c ∈ v.children, a < c ∧ (f.get c).holder = none := fun c hc => by
    obtain ⟨i, hi⟩ := List.mem_iff_getElem?.1 hc
    exact ⟨(hv hi).1, (hv hi).2.1⟩
  have hold : ∀ c ∈ f.childrenIn a name, a < c := fun c hc => by
    obtain ⟨i, hi⟩ := List.mem_iff_getElem?.1 hc
    exact (h.holds.child hi).1
  have hget := hfilled.get_of_evict h.holds.lt
  have hkeeps := h.keepsFrom hfilled fun c hc => (hin c hc).2
  have hshows : ∀ c d, a < c → t.Shows f k c d → t.Shows g k c d := fun c d hac hc =>
    hc.congr (hkeeps.mono hac)
  have hlow : ∀ j ≤ a, j ∉ v.children ∧ j ∉ f.childrenIn a name := fun j hj =>
    ⟨fun hm => Nat.not_lt_of_le hj (hin j hm).1, fun hm => Nat.not_lt_of_le hj (hold j hm)⟩
  have htype : (g.get a).type = (f.get a).type := by rw [hget]
  refine ⟨⟨?_, by rw [hget]; exact h.position, by rw [hget]; exact h.origin, ?_, ?_⟩,
    hkeeps.size_le, htype, fun j hj => ?_⟩
  · rw [hget, if_neg (hlow a (Nat.le_refl _)).1, if_neg (hlow a (Nat.le_refl _)).2]
    exact h.root
  · exact Nat.lt_of_lt_of_le h.holds.lt hkeeps.size_le
  · intro r i c hc
    rw [childrenIn_filled hfilled] at hc
    rw [htype]
    split at hc
    · obtain ⟨hac, -, d, hd, hbelow⟩ := hv hc
      subst r
      refine ⟨hac, ?_, cs, d, hmem, hd, hshows c d hac hbelow⟩
      rw [hget, if_pos (List.mem_of_getElem? hc)]
    · obtain ⟨hac, hheld, cs', d, hmem', hd, hbelow⟩ := h.holds.child hc
      refine ⟨hac, h.held hfilled (fun c hc => (hin c hc).2) hheld fun e => ?_, cs', d, hmem', hd,
        hshows c d hac hbelow⟩
      cases e
      contradiction
  · rw [hget, if_neg (hlow j (Nat.le_of_lt hj)).1, if_neg (hlow j (Nat.le_of_lt hj)).2,
      if_neg (Nat.ne_of_lt hj)]

end Filling

theorem Open.attachEdit {name : String} {cs : List SourceTree} {rs : List NodeId}
    (h : t.Open f k a s) (hmem : (name, cs) ∈ t.fills s (f.get a).type) (hn : rs.Nodup)
    (hrs : List.Forall₂ (fun r c => a < r ∧ (f.get r).holder = none ∧ t.Shows f k r c) rs cs) :
    t.Open ((Transformer.attachEdit a name rs).stateAfter f) k a s ∧
      Grows f ((Transformer.attachEdit a name rs).stateAfter f) a := by
  have hall : ∀ r ∈ rs, r ≠ a ∧ r < f.size ∧ (f.get r).holder = none :=
    ((List.forall₂_and_left _ _).1 (hrs.imp fun r c hr =>
      ⟨⟨Nat.ne_of_gt hr.1, hr.2.2.lt, hr.2.1⟩, hr⟩)).1
  rcases attachEdit_filled name h.root hn hall with hsame | ⟨v, w, hpre, hfilled⟩
  · rw [hsame]
    exact ⟨h, .refl f a⟩
  · refine h.filled hfilled hmem fun {i c} hc => ?_
    obtain ⟨hi, rfl⟩ := List.getElem?_eq_some_iff.1 hc
    have hlt : i < rs.length := Nat.lt_of_lt_of_le hi hpre.length_le
    obtain ⟨hlen, hget⟩ := List.forall₂_iff_get.1 hrs
    obtain ⟨hac, hroot, hbelow⟩ := hget i hlt (hlen ▸ hlt)
    rw [List.get_eq_getElem, ← hpre.getElem hi] at hac hroot hbelow
    exact ⟨hac, hroot, _, List.getElem?_eq_getElem (hlen ▸ hlt), hbelow⟩

/-- Transforming `c` with `child` leaves a new root that records it, and so do the nodes below. -/
def Yields (t : Transformer) (k : Nat) (child : SourceTree → Step (Option NodeId))
    (c : SourceTree) : Prop :=
  ∀ st : State, ∃ r st', child c st = (some r, st') ∧ st.forest.Extends st'.forest ∧
    st.forest.size ≤ r ∧ (st'.forest.get r).holder = none ∧ t.Shows st'.forest k r c

section Steps

variable {child : SourceTree → Step (Option NodeId)}

theorem mapM_yields (cs : List SourceTree) (h : ∀ c ∈ cs, t.Yields k child c) (st : State) :
    ∃ rs st', cs.mapM child st = (rs.map some, st') ∧ st.forest.Extends st'.forest ∧ rs.Nodup ∧
      List.Forall₂ (fun r c => st.forest.size ≤ r ∧ (st'.forest.get r).holder = none ∧
        t.Shows st'.forest k r c) rs cs := by
  induction cs generalizing st with
  | nil => exact ⟨[], st, rfl, .refl _, List.nodup_nil, .nil⟩
  | cons c cs ih =>
    obtain ⟨r, st₁, hrun, hext, hnew, hroot, hshows⟩ := h c (by simp) st
    obtain ⟨rs, st₂, hruns, hexts, hn, hrs⟩ := ih (fun d hd => h d (by simp [hd])) st₁
    have hkept := hexts.kept r hshows.lt
    refine ⟨r :: rs, st₂, ?_, hext.trans hexts, List.nodup_cons.2 ⟨fun hm => ?_, hn⟩,
      .cons ⟨hnew, by rw [hkept, hroot], hshows.congr (hexts.keepsFrom r)⟩
        (hrs.imp fun _ _ hd => ⟨Nat.le_trans hext.size hd.1, hd.2⟩)⟩
    · rw [List.mapM_cons]
      simp only [bind, StateT.bind, hrun, hruns]
      rfl
    · -- what comes later stands at later places
      have hle : ∀ q ∈ rs, st₁.forest.size ≤ q :=
        ((List.forall₂_and_left _ _).1 (hrs.imp fun _ _ hd => ⟨hd.1, hd.2⟩)).1
      exact Nat.not_lt_of_le (hle r hm) hshows.lt

theorem Open.applyRule {rule : ChildRule} (hset : rule.setter = none)
    (hchild : ∀ c ∈ (rule.select s).toList, t.Yields k child c) {st : State}
    (h : t.Open st.forest k a s)
    (hmem : (rule.property, (rule.select s).toList) ∈ t.fills s (st.forest.get a).type) :
    t.Open (t.applyRule s a child rule st).2.forest k a s ∧
      Grows st.forest (t.applyRule s a child rule st).2.forest a := by
  obtain ⟨rs, st', hrun, hext, hn, hrs⟩ := mapM_yields _ hchild st
  obtain ⟨hopen, hgrows⟩ := h.mono hext
  have hforest : (t.applyRule s a child rule st).2.forest =
      (Transformer.attachEdit a rule.property rs).stateAfter st'.forest := by
    have hattach : (t.applyRule s a child rule st).2 =
        (t.attach a rule.property rule.setter rs st').2 := by
      simp only [Transformer.applyRule, bind, StateT.bind, hrun]
      rw [List.filterMap_map, Function.id_comp, List.filterMap_some]
    have hedit : rule.edit a rs = Transformer.attachEdit a rule.property rs := by
      rw [ChildRule.edit, hset]
    rw [hattach, ← hedit, Edit.stateAfter]
    cases he : rule.edit a rs st'.forest with
    | ok u g => rw [attach_of_ok he]
    | error e g => rw [attach_of_error he]
  have hold := h.holds.lt
  obtain ⟨hopen', hgrows'⟩ := hopen.attachEdit (by rw [hext.kept a hold]; exact hmem) hn
    (hrs.imp fun r c hr => ⟨Nat.lt_of_lt_of_le hold hr.1, hr.2⟩)
  rw [hforest]
  exact ⟨hopen', hgrows.trans hgrows'⟩

theorem Open.applyRules (rules : List ChildRule) (hset : ∀ r ∈ rules, r.setter = none)
    (hchild : ∀ r ∈ rules, ∀ c ∈ (r.select s).toList, t.Yields k child c) {st : State}
    (h : t.Open st.forest k a s) (hmem : ∀ r ∈ rules,
      (r.property, (r.select s).toList) ∈ t.fills s (st.forest.get a).type) :
    t.Open ((rules.forM (t.applyRule s a child) : Step Unit) st).2.forest k a s ∧
      Grows st.forest ((rules.forM (t.applyRule s a child) : Step Unit) st).2.forest a := by
  induction rules generalizing st with
  | nil => exact ⟨h, .refl _ a⟩
  | cons r rules ih =>
    obtain ⟨hopen, hgrows⟩ := h.applyRule (hset r (by simp)) (hchild r (by simp))
      (hmem r (by simp))
    obtain ⟨hopen', hgrows'⟩ := ih (fun r hr => hset r (by simp [hr]))
      (fun r hr => hchild r (by simp [hr])) hopen
      (fun r hr => by rw [hgrows.type]; exact hmem r (by simp [hr]))
    exact ⟨hopen', hgrows.trans hgrows'⟩

end Steps

theorem Open.close (h : t.Open f k a s) {o : Option Origin}
    (ho : o = some (.parseTree ⟨s.kind, s.info.position, s.info.text⟩)) :
    t.Shows (f.setOrigin a o) (k + 1) a s ∧ ((f.setOrigin a o).get a).holder = none ∧
      Grows f (f.setOrigin a o) a := by
  obtain ⟨g, hg⟩ : ∃ g, g = f.setOrigin a o := ⟨_, rfl⟩
  have hsize : f.size = g.size := by rw [hg, Forest.setOrigin, size_update]
  have hself : g.get a = { f.get a with origin := o } := by
    rw [hg, Forest.setOrigin, get_update, if_pos ⟨rfl, h.holds.lt⟩]
  have hother : ∀ j, j ≠ a → g.get j = f.get j := fun j hj => by
    rw [hg, Forest.setOrigin, get_update, if_neg fun e => hj e.1.symm]
  have hkeeps : f.KeepsFrom g (a + 1) := by
    refine ⟨Nat.le_of_eq hsize, fun j hj _ => .of_get (hother j (Nat.ne_of_gt hj)), ?_⟩
    intro j p hj _
    have hja : j ≠ a := fun e => by
      rw [e, h.root] at hj
      cases hj
    rw [hother j hja, hj]
  rw [← hg]
  refine ⟨⟨⟨by rw [hself, h.position], by rw [hself, ho]⟩, hsize ▸ h.holds.lt, ?_⟩,
    by rw [hself, h.root], Nat.le_of_eq hsize, by rw [hself], fun j hj =>
      hother j (Nat.ne_of_lt hj)⟩
  intro name i c hc
  have hchildren : g.childrenIn a name = f.childrenIn a name := by
    rw [Forest.childrenIn, slot?, hself]
    rfl
  rw [hchildren] at hc
  obtain ⟨hac, hheld, cs, d, hmem, hd, hbelow⟩ := h.holds.child hc
  exact ⟨hac, by rw [hother c (Nat.ne_of_gt hac), hheld], cs, d, by rw [hself]; exact hmem, hd,
    hbelow.congr (hkeeps.mono hac)⟩

theorem Open.assignOrigin (hp : t.policy = .parseTree) {st : State}
    (h : t.Open st.forest k a s) : ∃ st', t.assignOrigin s a st = ((), st') ∧
      t.Shows st'.forest (k + 1) a s ∧ (st'.forest.get a).holder = none ∧
      Grows st.forest st'.forest a := by
  have hrun : ∀ st : State, t.assignOrigin s a st = ((), _) := fun _ => rfl
  rw [hrun, h.origin, originOf, hp]
  exact ⟨_, rfl, h.close rfl⟩

/-- An element becomes a node that records it, if the depth is enough for it. -/
theorem transformWithin_yields (hp : t.policy = .parseTree) (ht : t.MakesBareNodes)
    (hr : t.SelectsBelow) {depth : Nat} (hs : s.height ≤ depth) (parent : Option NodeId) :
    t.Yields depth (fun c => t.transformWithin depth c parent) s := by
  induction depth generalizing s parent with
  | zero =>
    cases s
    simp [SourceTree.height] at hs
  | succ depth ih =>
    intro st
    rcases makeNode_cases ht s parent st with
      ⟨n, hn, hmake⟩ | ⟨factory, e, g, hf, hbuild, hext, hmake⟩
    · obtain ⟨st₁, hst₁⟩ : ∃ st₁ : State, st₁ = { st with forest := ⟨st.forest.nodes.push n⟩ } :=
        ⟨_, rfl⟩
      have hget : st₁.forest.get st.forest.size = n := by rw [hst₁, get_push, if_pos rfl]
      have hpush : st.forest.Extends st₁.forest := hst₁ ▸ extends_push st.forest n
      have hopen : t.Open st₁.forest depth st.forest.size s := hst₁ ▸ open_push hn st.forest depth s
      have hmem : ∀ r ∈ t.rulesOf s n.type,
          (r.property, (r.select s).toList) ∈ t.fills s (st₁.forest.get st.forest.size).type := by
        intro r hr
        rw [hget, ← map_rules]
        exact List.mem_map_of_mem hr
      have hchild : ∀ r ∈ t.rulesOf s n.type, ∀ c ∈ (r.select s).toList, t.Yields depth
          (fun c => t.transformWithin depth c (some st.forest.size)) c := by
        intro r hr' c hc
        have hlt := SourceTree.height_lt_of_mem_descendants (hr.mem_descendants (hmem r hr') hc)
        exact ih (Nat.le_of_lt_succ (Nat.lt_of_lt_of_le hlt hs)) _
      obtain ⟨hfilled, hgrows⟩ := hopen.applyRules (t.rulesOf s n.type) (rules_ok hr s n.type)
        hchild hmem
      obtain ⟨st', horigin, hshows, hroot, hgrows'⟩ := hfilled.assignOrigin hp
      have hall := hgrows.trans hgrows'
      refine ⟨st.forest.size, st', ?_, ⟨?_, fun j hj => ?_⟩, Nat.le_refl _, hroot, hshows⟩
      · exact (transformWithin_of_made hmake depth).trans (by rw [← hst₁, horigin])
      · exact Nat.le_trans hpush.size hall.size_le
      · rw [hall.kept j hj, hpush.kept j hj]
    · obtain ⟨st₁, hst₁⟩ : ∃ st₁ : State, st₁ = ⟨⟨g.nodes.push (t.errorDraft e)⟩,
        st.issues ++ t.noted e.render s.info.position⟩ := ⟨_, rfl⟩
      have hpush : st.forest.Extends st₁.forest := hst₁ ▸ hext.trans (extends_push g _)
      have hopen : t.Open st₁.forest depth g.size s :=
        hst₁ ▸ open_push (bare_errorDraft t e) g depth s
      obtain ⟨st', horigin, hshows, hroot, hgrows⟩ := hopen.assignOrigin hp
      refine ⟨g.size, st', ?_, ⟨?_, fun j hj => ?_⟩, hext.size, hroot, hshows⟩
      · exact (transformWithin_of_failed hmake depth).trans (by rw [← hst₁, horigin])
      · exact Nat.le_trans hpush.size hgrows.size_le
      · rw [hgrows.kept j (Nat.lt_of_lt_of_le hj hext.size), hpush.kept j hj]

/-- The element that a node was made from, in the tree that was made from `s` with the root `r`: a
child comes from what is selected for its slot, and stands in the same place there. -/
inductive Stems (t : Transformer) (g : Forest) (r : NodeId) (s : SourceTree) :
    NodeId → SourceTree → Prop
  | root : Stems t g r s r s
  | child {a c name b cs d} {i : Nat} : Stems t g r s a b → (name, cs) ∈ t.fills b (g.get a).type →
      cs[i]? = some d → (g.childrenIn a name)[i]? = some c → Stems t g r s c d

theorem Stems.mem_walk {r : NodeId} {d : SourceTree} (hr : t.SelectsBelow)
    (h : t.Stems g r s a d) : d ∈ s.walk := by
  induction h with
  | root => exact SourceTree.mem_walk_iff.2 (.inl rfl)
  | child _ hmem hd _ ih =>
    have hbelow := hr.mem_descendants hmem (List.mem_of_getElem? hd)
    exact SourceTree.walk_subset ih (SourceTree.mem_walk_iff.2 (.inr hbelow))

theorem Records.position_eq (h : Records f a s) : f.position a = s.info.position := by
  rw [Forest.position, positionWithin]
  simp only [h.position, h.origin]

theorem Shows.ascends (h : t.Shows f k a s) : f.Ascends a := by
  induction k generalizing a s with
  | zero => exact h.elim
  | succ k ih =>
    refine ascends_iff.2 ⟨h.lt, fun c hc => ?_⟩
    obtain ⟨name, hname⟩ := mem_children_iff.1 hc
    obtain ⟨i, hi⟩ := List.mem_iff_getElem?.1 hname
    obtain ⟨hac, -, cs, d, -, -, hbelow⟩ := h.2.child hi
    exact ⟨hac, ih hbelow⟩

theorem Shows.child {c : NodeId} (h : t.Shows f k a s) (hc : c ∈ f.children a) :
    ∃ name cs, ∃ i : Nat, ∃ d k', (f.get c).holder = some ⟨a, name⟩ ∧
      (name, cs) ∈ t.fills s (f.get a).type ∧ cs[i]? = some d ∧
        (f.childrenIn a name)[i]? = some c ∧ t.Shows f k' c d := by
  cases k with
  | zero => exact h.elim
  | succ k =>
    obtain ⟨name, hname⟩ := mem_children_iff.1 hc
    obtain ⟨i, hi⟩ := List.mem_iff_getElem?.1 hname
    obtain ⟨-, hheld, cs, d, hmem, hd, hbelow⟩ := h.2.child hi
    exact ⟨name, cs, i, d, k, hheld, hmem, hd, hi, hbelow⟩

theorem Shows.of_mem {r n : NodeId} {b : SourceTree} {l : Nat} (h : t.Shows f k a b)
    (hstems : t.Stems f r s a b) (hn : n ∈ listing f.children l a) :
    ∃ k' d, t.Stems f r s n d ∧ t.Shows f k' n d := by
  induction l generalizing a b k with
  | zero => simp [listing] at hn
  | succ l ih =>
    rcases mem_listing_succ.1 hn with rfl | ⟨c, hc, hn⟩
    · exact ⟨k, b, hstems, h⟩
    · obtain ⟨name, cs, i, d, k', -, hmem, hd, hi, hbelow⟩ := h.child hc
      exact ih hbelow (hstems.child hmem hd hi) hn

/-- A node is not misplaced if the element it was made from is the root, or is below the one that
the node above it was made from. -/
theorem Shows.isMisplaced_eq {r n : NodeId} (hr : t.SelectsBelow) (hs : s.WellPlaced)
    (hroot : (f.get r).holder = none) (h : t.Shows f k r s) (hn : n ∈ f.walk r) :
    f.isMisplaced n = false := by
  rw [walk_eq_listing] at hn
  by_cases hnr : n = r
  · subst hnr
    obtain ⟨p, hp, hvalid, -⟩ := hs s (SourceTree.mem_walk_iff.2 (.inl rfl))
    have hparent : (f.get n).parent? = none := by rw [Node.parent?, hroot]; rfl
    simp only [isMisplaced, h.records.position_eq, hp, hvalid, hparent]
    rfl
  · obtain ⟨a, ha, hna⟩ := exists_next_of_mem hn hnr
    obtain ⟨k', b, hstems, hshows⟩ := h.of_mem .root ha
    obtain ⟨name, cs, i, d, l, hheld, hmem, hd, -, hbelow⟩ := hshows.child hna
    have hb := hstems.mem_walk hr
    have hdb : d ∈ b.descendants := hr.mem_descendants hmem (List.mem_of_getElem? hd)
    obtain ⟨p, q, hp, hq, hpq⟩ := (hs.of_mem hb).contains hdb
    obtain ⟨q', hq', hvalid, -⟩ := hs d (SourceTree.walk_subset hb
      (SourceTree.mem_walk_iff.2 (.inr hdb)))
    obtain rfl : q = q' := Option.some.inj (hq.symm.trans hq')
    have hparent : (f.get n).parent? = some a := by rw [Node.parent?, hheld]; rfl
    simp only [isMisplaced, hbelow.records.position_eq, hq, hvalid, hparent, Option.bind_some,
      hshows.records.position_eq, hp, hpq]
    rfl

/-- A transformation of a source tree with nested ranges leaves a tree with nested ranges: each
node records the element it was made from, stands where the element stands, is held by the node
above it and stands within it, whichever factories fail. -/
theorem transform_nested (hp : t.policy = .parseTree) (ht : t.MakesBareNodes)
    (hr : t.SelectsBelow) (hs : s.WellPlaced) (f : Forest) :
    ∃ r issues g, t.transform (some s) f = (⟨some r, issues⟩, g) ∧ r ∈ g.walk r ∧
      (∀ n ∈ g.walk r, ∃ d ∈ s.walk, t.Stems g r s n d ∧
        (g.get n).origin = some (.parseTree ⟨d.kind, d.info.position, d.info.text⟩) ∧
        g.position n = d.info.position) ∧
      g.hasValidParents r = true ∧ g.invalidPositions r = [] := by
  obtain ⟨r, ⟨g, issues⟩, hrun, -, -, hroot, hshows⟩ :=
    transformWithin_yields hp ht hr (Nat.le_refl s.height) none ⟨f, []⟩
  have hall : ∀ n ∈ g.walk r, ∃ k d, d ∈ s.walk ∧ t.Stems g r s n d ∧ t.Shows g k n d := by
    intro n hn
    rw [walk_eq_listing] at hn
    obtain ⟨k, d, hstems, hshows⟩ := hshows.of_mem .root hn
    exact ⟨k, d, hstems.mem_walk hr, hstems, hshows⟩
  refine ⟨r, issues, g, ?_, ?_, fun n hn => ?_, ?_, ?_⟩
  · simp only [transform, transformUnder, hrun]
  · rw [walk_eq_listing]
    exact self_mem_listing hshows.ascends.heightAtMost
  · obtain ⟨k, d, hd, hstems, hshows⟩ := hall n hn
    exact ⟨d, hd, hstems, hshows.records.origin, hshows.records.position_eq⟩
  · simp only [hasValidParents, List.all_eq_true, beq_iff_eq]
    intro n hn c hc
    obtain ⟨k, d, -, -, hshows⟩ := hall n hn
    obtain ⟨name, -, -, -, -, hheld, -⟩ := hshows.child hc
    rw [Node.parent?, hheld]
    rfl
  · refine List.filter_eq_nil_iff.2 fun n hn => ?_
    rw [hshows.isMisplaced_eq hr hs hroot hn]
    exact Bool.false_ne_true

theorem selectsBelow_bareTransformer : bareTransformer.SelectsBelow where
  setterless := by
    intro kind rule hr
    obtain ⟨property, field, rfl⟩ := setterless_bareTransformer hr
    rfl
  below := by
    intro kind rule hr s c hc
    obtain ⟨property, field, rfl⟩ := setterless_bareTransformer hr
    exact SourceTree.mem_walkAll_of_mem (SourceTree.mem_children_of_mem_field hc)

/-- A block of ten lines, around an item, a part that cannot be built, and another block. -/
def nestedSource : SourceTree :=
  let element := fun kind first last =>
    ({ kind, isRule := true, position := some ⟨⟨first, 0⟩, ⟨last, 9⟩⟩, text := some kind
       hasError := false, origin := none } : SourceInfo)
  .mk (element "block" 1 10)
    [.mk (element "item" 2 2) [], .mk (element "broken" 3 5) [.mk (element "item" 4 4) []],
      .mk (element "block" 6 9) [.mk (element "item" 7 8) []]]

theorem transform_nested_block : bareTransformer.policy = .parseTree ∧
    bareTransformer.MakesBareNodes ∧ bareTransformer.SelectsBelow ∧ nestedSource.WellPlaced ∧
    (bareTransformer.transform (some nestedSource) .empty).1.issues ≠ [] ∧
    ∃ r issues g, bareTransformer.transform (some nestedSource) .empty = (⟨some r, issues⟩, g) ∧
      r ∈ g.walk r ∧
      (∀ n ∈ g.walk r, ∃ d ∈ nestedSource.walk, bareTransformer.Stems g r nestedSource n d ∧
        (g.get n).origin = some (.parseTree ⟨d.kind, d.info.position, d.info.text⟩) ∧
        g.position n = d.info.position) ∧
      g.hasValidParents r = true ∧ g.invalidPositions r = [] := by
  have hplaced : nestedSource.WellPlaced := by decide
  exact ⟨rfl, makesBareNodes_bareTransformer, selectsBelow_bareTransformer, hplaced,
    by decide +kernel, transform_nested rfl makesBareNodes_bareTransformer
      selectsBelow_bareTransformer hplaced .empty⟩

end Transformer

end TreeInterchange
