import TreeInterchange.Proofs.TransformerRefinement

/-!
# Where issues are located

A transformation raises issues at two points. Where a factory fails, the issue has the position of
the source element. Where children cannot be attached, it has the position of the node that should
have got them; but a node without a position of its own gets its origin only after its children, so
at that point it has none, and neither has the issue.

What carries the induction is that no step changes the position or the origin of a node that was
there before.
-/

namespace TreeInterchange

namespace Forest

variable {f g h : Forest} {a : NodeId}

/-- In a later forest the nodes of an earlier one have kept their positions and origins. -/
structure KeepsPlaces (f g : Forest) : Prop where
  size_le : f.size ≤ g.size
  position : ∀ j < f.size, (g.get j).position = (f.get j).position
  origin : ∀ j < f.size, (g.get j).origin = (f.get j).origin

theorem KeepsPlaces.refl (f : Forest) : f.KeepsPlaces f :=
  ⟨Nat.le_refl _, fun _ _ => rfl, fun _ _ => rfl⟩

theorem KeepsPlaces.trans (hfg : f.KeepsPlaces g) (hgh : g.KeepsPlaces h) : f.KeepsPlaces h := by
  have hlt : ∀ j < f.size, j < g.size := fun j hj => Nat.lt_of_lt_of_le hj hfg.size_le
  refine ⟨Nat.le_trans hfg.size_le hgh.size_le, fun j hj => ?_, fun j hj => ?_⟩
  · rw [hgh.position j (hlt j hj), hfg.position j hj]
  · rw [hgh.origin j (hlt j hj), hfg.origin j hj]

theorem SamePlaces.keepsPlaces (hfg : f.SamePlaces g) : f.KeepsPlaces g :=
  ⟨Nat.le_of_eq hfg.size.symm, fun j _ => hfg.position j, fun j _ => hfg.origin j⟩

theorem Extends.keepsPlaces (hfg : f.Extends g) : f.KeepsPlaces g :=
  ⟨hfg.size, fun j hj => by rw [hfg.kept j hj], fun j hj => by rw [hfg.kept j hj]⟩

theorem KeepsPlaces.setOrigin (hfg : f.KeepsPlaces g) (ha : f.size ≤ a) (o : Option Origin) :
    f.KeepsPlaces (g.setOrigin a o) := by
  have hget : ∀ j < f.size, (g.setOrigin a o).get j = g.get j := fun j hj => by
    have hne : ¬ (a = j ∧ j < g.size) := fun e => Nat.not_lt_of_le ha (e.1 ▸ hj)
    rw [Forest.setOrigin, get_update, if_neg hne]
  refine ⟨?_, fun j hj => by rw [hget j hj, hfg.position j hj], fun j hj => ?_⟩
  · rw [Forest.setOrigin, size_update]
    exact hfg.size_le
  · rw [hget j hj, hfg.origin j hj]

theorem position_eq_none (hp : (f.get a).position = none) (ho : (f.get a).origin = none) :
    f.position a = none := by
  rw [position, positionWithin]
  simp only [hp, ho]

end Forest

/-- The edit by which a rule puts children into its property. -/
def ChildRule.edit (rule : ChildRule) (node : NodeId) (children : List NodeId) : Edit Unit :=
  match rule.setter with
  | some g => g node children
  | none => Transformer.attachEdit node rule.property children

namespace Transformer

open Forest

variable {t : Transformer} {s c : SourceTree}

/-- Factories make one bare node each, or fail without a change to what was there before. -/
structure MakesBareNodes (t : Transformer) : Prop where
  made : ∀ {s factory parent f a g}, t.factories.get? s.kind = some factory →
    factory.build ⟨s, parent, factory.type⟩ f = .ok a g →
      ∃ n : Node, n.Bare ∧ a = f.size ∧ g = ⟨f.nodes.push n⟩
  failed : ∀ {s factory parent f e g}, t.factories.get? s.kind = some factory →
    factory.build ⟨s, parent, factory.type⟩ f = .error e g → f.Extends g

/-- Setters leave positions and origins alone, whether or not they succeed. -/
def SettersKeepPlaces (t : Transformer) : Prop :=
  ∀ kind, ∀ rule ∈ t.rulesFor kind, ∀ setter, rule.setter = some setter → ∀ node children,
    ∀ f : Forest, f.KeepsPlaces ((setter node children).stateAfter f)

/-- The rules that fill a node of a type made from an element. -/
def rulesOf (t : Transformer) (s : SourceTree) (type : NodeType) : List ChildRule :=
  (if t.options.defaultMapping then defaultRules s type (t.rulesFor s.kind) else []) ++
    t.rulesFor s.kind

/-- A rule for an element selects another one. -/
def Selects (t : Transformer) (s c : SourceTree) : Prop :=
  ∃ type, ∃ rule ∈ t.rulesOf s type, c ∈ (rule.select s).toList

/-- The elements that a transformation comes to. -/
def Visits (t : Transformer) : SourceTree → SourceTree → Prop := Relation.ReflTransGen t.Selects

/-- An issue that says why the factory for an element failed. -/
def ReportsFailure (t : Transformer) (s : SourceTree) (i : Issue) : Prop :=
  ∃ factory parent f e g, t.factories.get? s.kind = some factory ∧
    factory.build ⟨s, parent, factory.type⟩ f = .error e g ∧ i.message = e.render

/-- An issue that says why children were not attached to the node for an element. -/
def ReportsRefusal (t : Transformer) (s : SourceTree) (i : Issue) : Prop :=
  ∃ type, ∃ rule ∈ t.rulesOf s type, ∃ node children f err g,
    rule.edit node children f = .error err g ∧ i.message = err.message

/-- An issue as it arises at an element: a failure has its position, a refusal none. -/
def Raises (t : Transformer) (s : SourceTree) (i : Issue) : Prop :=
  t.ReportsFailure s i ∧ i.position = s.info.position ∨
    t.ReportsRefusal s i ∧ i.position = none

/-- A step that keeps positions and origins and adds issues of one sort. -/
structure Adds (sort : Issue → Prop) (st st' : State) : Prop where
  places : st.forest.KeepsPlaces st'.forest
  issues : ∃ new, st'.issues = st.issues ++ new ∧ ∀ i ∈ new, sort i

namespace Adds

variable {sort sort' : Issue → Prop} {st st₁ st₂ : State}

theorem refl (st : State) : Adds sort st st := ⟨.refl _, [], by simp, by simp⟩

theorem trans (h : Adds sort st st₁) (h' : Adds sort st₁ st₂) : Adds sort st st₂ := by
  obtain ⟨new, hnew, hsort⟩ := h.issues
  obtain ⟨new', hnew', hsort'⟩ := h'.issues
  refine ⟨h.places.trans h'.places, new ++ new', by rw [hnew', hnew, List.append_assoc], ?_⟩
  intro i hi
  exact (List.mem_append.1 hi).elim (hsort i) (hsort' i)

theorem imp (h : Adds sort st st₁) (himp : ∀ i, sort i → sort' i) : Adds sort' st st₁ := by
  obtain ⟨new, hnew, hsort⟩ := h.issues
  exact ⟨h.places, new, hnew, fun i hi => himp i (hsort i hi)⟩

end Adds

theorem adds_of_places {sort : Issue → Prop} {st : State} {g : Forest}
    (h : st.forest.KeepsPlaces g) : Adds sort st { st with forest := g } :=
  ⟨h, [], by simp, by simp⟩

theorem adds_noted {sort : Issue → Prop} {st : State} {g : Forest} {message : String}
    {position : Option Position} (h : st.forest.KeepsPlaces g)
    (hsort : sort ⟨.transformation, .error, message, position⟩) :
    Adds sort st ⟨g, st.issues ++ t.noted message position⟩ := by
  refine ⟨h, _, rfl, fun i hi => ?_⟩
  unfold noted at hi
  split at hi
  · rw [List.mem_singleton.1 hi]
    exact hsort
  · cases hi

/-- A new bare node is made, or the factory has failed. -/
theorem makeNode_cases (ht : t.MakesBareNodes) (s : SourceTree) (parent : Option NodeId)
    (st : State) :
    (∃ n : Node, n.Bare ∧ t.makeNode s parent st =
      (.ok st.forest.size, { st with forest := ⟨st.forest.nodes.push n⟩ })) ∨
    ∃ factory e g, t.factories.get? s.kind = some factory ∧
      factory.build ⟨s, parent, factory.type⟩ st.forest = .error e g ∧ st.forest.Extends g ∧
      t.makeNode s parent st = (.error e, { st with forest := g }) := by
  unfold makeNode
  cases hf : t.factories.get? s.kind with
  | none => exact .inl ⟨_, bare_ofType _, rfl⟩
  | some factory =>
    cases hb : factory.build ⟨s, parent, factory.type⟩ st.forest with
    | ok a g =>
      obtain ⟨n, hn, rfl, rfl⟩ := ht.made hf hb
      exact .inl ⟨n, hn, by simp only [hb]⟩
    | error e g => exact .inr ⟨factory, e, g, rfl, hb, ht.failed hf hb, by simp only [hb]⟩

theorem places_assignOrigin {f₀ : Forest} {a : NodeId} {st : State} (s : SourceTree)
    (h : f₀.KeepsPlaces st.forest) (ha : f₀.size ≤ a) :
    f₀.KeepsPlaces (t.assignOrigin s a st).2.forest ∧
      (t.assignOrigin s a st).2.issues = st.issues := by
  have hrun : ∀ st : State, t.assignOrigin s a st = ((), _) := fun _ => rfl
  rw [hrun]
  by_cases hk : t.keepsOrigin (st.forest.get a).origin = true
  · simp only [hk, if_true]
    exact ⟨h, trivial⟩
  · simp only [hk]
    cases t.originOf s with
    | none => exact ⟨h, rfl⟩
    | some o => exact ⟨h.setOrigin ha _, rfl⟩

theorem attach_eq (t : Transformer) (a : NodeId) (rule : ChildRule) (children : List NodeId)
    (st : State) : t.attach a rule.property rule.setter children st =
      (tryEdit (rule.edit a children) >>= fun err? => (err?.elim (pure ()) fun err =>
        get >>= fun st => t.report err.message (st.forest.position a)) : Step Unit) st := by
  have hrun : t.attach a rule.property rule.setter children st =
      (tryEdit (rule.edit a children) >>= _ : Step Unit) st := rfl
  rw [hrun]
  cases h : tryEdit (rule.edit a children) st with
  | mk err? st' => cases err? <;> simp only [bind, StateT.bind, h] <;> rfl

theorem attach_of_ok {t : Transformer} {a : NodeId} {rule : ChildRule} {children : List NodeId}
    {st : State} {u : Unit} {g : Forest} (h : rule.edit a children st.forest = .ok u g) :
    (t.attach a rule.property rule.setter children st).2 = { st with forest := g } := by
  rw [attach_eq]
  simp only [bind, StateT.bind, tryEdit, h]
  rfl

theorem attach_of_error {t : Transformer} {a : NodeId} {rule : ChildRule} {children : List NodeId}
    {st : State} {e : ModelError} {g : Forest} (h : rule.edit a children st.forest = .error e g) :
    (t.attach a rule.property rule.setter children st).2 =
      ⟨g, st.issues ++ t.noted e.message (g.position a)⟩ := by
  rw [attach_eq]
  simp only [bind, StateT.bind, tryEdit, h]
  exact congrArg Prod.snd (report_eq e.message (g.position a) { st with forest := g })

theorem keepsPlaces_attachEdit (a : NodeId) (name : String) (children : List NodeId) :
    (attachEdit a name children).KeepsPlaces := by
  apply (Edit.keepsPlaces_check _).bind
  intro p
  split
  · exact Edit.keepsPlaces_setChildren _ _ _
  · split
    · exact fun f => .refl f
    · exact Edit.keepsPlaces_setChild _ _ _

theorem places_edit (hset : t.SettersKeepPlaces) {type : NodeType} {rule : ChildRule}
    (hrule : rule ∈ t.rulesOf s type) (a : NodeId) (children : List NodeId) (f : Forest) :
    f.KeepsPlaces ((rule.edit a children).stateAfter f) := by
  unfold ChildRule.edit
  cases h : rule.setter with
  | none => exact ((keepsPlaces_attachEdit a rule.property children).stateAfter f).keepsPlaces
  | some setter =>
    rcases List.mem_append.1 hrule with hrule | hrule
    · split at hrule
      · obtain ⟨p, -, rfl⟩ := List.mem_map.1 hrule
        cases h
      · cases hrule
    · exact hset s.kind rule hrule setter h a children f

/-- A refusal is reported without a position, as long as the node has no origin. -/
theorem adds_attach (hset : t.SettersKeepPlaces) {type : NodeType} {rule : ChildRule}
    (hrule : rule ∈ t.rulesOf s type) {a : NodeId} (children : List NodeId) {st : State}
    (ha : a < st.forest.size) (hp : (st.forest.get a).position = none)
    (ho : (st.forest.get a).origin = none) :
    Adds (t.Raises s) st (t.attach a rule.property rule.setter children st).2 := by
  have hkeeps := places_edit hset hrule a children st.forest
  unfold Edit.stateAfter at hkeeps
  cases h : rule.edit a children st.forest with
  | ok u g =>
    rw [h] at hkeeps
    rw [attach_of_ok h]
    exact adds_of_places hkeeps
  | error e g =>
    rw [h] at hkeeps
    rw [attach_of_error h]
    have hnone : g.position a = none :=
      position_eq_none (by rw [hkeeps.position a ha, hp]) (by rw [hkeeps.origin a ha, ho])
    refine adds_noted hkeeps (.inr ⟨⟨type, rule, hrule, a, children, _, e, g, h, rfl⟩, hnone⟩)

section Steps

variable {child : SourceTree → Step (Option NodeId)} {sort : Issue → Prop}

theorem adds_mapM (cs : List SourceTree) (h : ∀ c ∈ cs, ∀ st, Adds sort st (child c st).2)
    (st : State) : Adds sort st (cs.mapM child st).2 := by
  induction cs generalizing st with
  | nil => exact .refl st
  | cons c cs ih =>
    have hrun : ((c :: cs).mapM child st).2 = (cs.mapM child (child c st).2).2 := by
      rw [List.mapM_cons]
      rfl
    rw [hrun]
    exact (h c (by simp) st).trans (ih (fun d hd => h d (by simp [hd])) _)

theorem adds_applyRule (hset : t.SettersKeepPlaces) {type : NodeType} {rule : ChildRule}
    (hrule : rule ∈ t.rulesOf s type) (hsort : ∀ i, t.Raises s i → sort i)
    (hchild : ∀ c ∈ (rule.select s).toList, ∀ st, Adds sort st (child c st).2) {a : NodeId}
    {st : State} (ha : a < st.forest.size) (hp : (st.forest.get a).position = none)
    (ho : (st.forest.get a).origin = none) : Adds sort st (t.applyRule s a child rule st).2 := by
  have hrun : (t.applyRule s a child rule st).2 = (t.attach a rule.property rule.setter
      (((rule.select s).toList.mapM child st).1.filterMap id)
      ((rule.select s).toList.mapM child st).2).2 := rfl
  have hmade := adds_mapM _ hchild st
  rw [hrun]
  refine hmade.trans ((adds_attach hset hrule _ ?_ ?_ ?_).imp hsort)
  · exact Nat.lt_of_lt_of_le ha hmade.places.size_le
  · rw [hmade.places.position a ha, hp]
  · rw [hmade.places.origin a ha, ho]

theorem adds_applyRules (hset : t.SettersKeepPlaces) {type : NodeType} (rules : List ChildRule)
    (hrules : ∀ rule ∈ rules, rule ∈ t.rulesOf s type) (hsort : ∀ i, t.Raises s i → sort i)
    (hchild : ∀ rule ∈ rules, ∀ c ∈ (rule.select s).toList, ∀ st, Adds sort st (child c st).2)
    {a : NodeId} {st : State} (ha : a < st.forest.size) (hp : (st.forest.get a).position = none)
    (ho : (st.forest.get a).origin = none) :
    Adds sort st ((rules.forM (t.applyRule s a child) : Step Unit) st).2 := by
  induction rules generalizing st with
  | nil => exact .refl st
  | cons rule rules ih =>
    have hstep := adds_applyRule hset (hrules rule (by simp)) hsort (hchild rule (by simp)) ha hp ho
    refine hstep.trans (ih (fun r hr => hrules r (by simp [hr]))
      (fun r hr => hchild r (by simp [hr])) ?_ ?_ ?_)
    · exact Nat.lt_of_lt_of_le ha hstep.places.size_le
    · rw [hstep.places.position a ha, hp]
    · rw [hstep.places.origin a ha, ho]

end Steps

theorem transformWithin_of_ok {parent : Option NodeId} {st st₁ : State} {a : NodeId}
    (h : t.makeNode s parent st = (.ok a, st₁)) (depth : Nat) :
    t.transformWithin (depth + 1) s parent st = (some a, (t.assignOrigin s a
      (((t.rulesOf s (st₁.forest.get a).type).forM
        (t.applyRule s a fun c => t.transformWithin depth c (some a)) : Step Unit) st₁).2).2) := by
  simp only [transformWithin, bind, StateT.bind, h, MonadState.get, getThe, MonadStateOf.get,
    StateT.get, pure]
  rfl

theorem transformWithin_of_made {parent : Option NodeId} {st : State} {n : Node}
    (h : t.makeNode s parent st =
      (.ok st.forest.size, { st with forest := ⟨st.forest.nodes.push n⟩ })) (depth : Nat) :
    t.transformWithin (depth + 1) s parent st = (some st.forest.size,
      (t.assignOrigin s st.forest.size (((t.rulesOf s n.type).forM
        (t.applyRule s st.forest.size fun c => t.transformWithin depth c (some st.forest.size)) :
          Step Unit) { st with forest := ⟨st.forest.nodes.push n⟩ }).2).2) := by
  have hget : (Forest.mk (st.forest.nodes.push n)).get st.forest.size = n := by
    rw [get_push, if_pos rfl]
  rw [transformWithin_of_ok h, hget]

theorem transformWithin_of_failed {parent : Option NodeId} {st : State} {e : FactoryError}
    {g : Forest} (h : t.makeNode s parent st = (.error e, { st with forest := g })) (depth : Nat) :
    t.transformWithin (depth + 1) s parent st = (some g.size, (t.assignOrigin s g.size
      ⟨⟨g.nodes.push (t.errorDraft e)⟩, st.issues ++ t.noted e.render s.info.position⟩).2) := by
  simp only [transformWithin, bind, StateT.bind, h, errorNode_eq]
  rfl

/-- All issues arise at elements that the transformation comes to. -/
theorem transformWithin_adds (ht : t.MakesBareNodes) (hset : t.SettersKeepPlaces) (depth : Nat)
    (s : SourceTree) (parent : Option NodeId) (st : State) :
    Adds (fun i => ∃ c, t.Visits s c ∧ t.Raises c i) st
      (t.transformWithin depth s parent st).2 := by
  induction depth generalizing s parent st with
  | zero => exact .refl st
  | succ depth ih =>
    have hself : ∀ i, t.Raises s i → ∃ c, t.Visits s c ∧ t.Raises c i := fun i hi => ⟨s, .refl, hi⟩
    rcases makeNode_cases ht s parent st with
      ⟨n, hn, hmake⟩ | ⟨factory, e, g, hf, hbuild, hext, hmake⟩
    · obtain ⟨st₁, hst₁⟩ : ∃ st₁ : State, st₁ = { st with forest := ⟨st.forest.nodes.push n⟩ } :=
        ⟨_, rfl⟩
      have hget : st₁.forest.get st.forest.size = n := by rw [hst₁, get_push, if_pos rfl]
      have hlt : st.forest.size < st₁.forest.size := by
        rw [hst₁, size_push]
        exact Nat.lt_succ_self _
      have hpush : Adds (fun i => ∃ c, t.Visits s c ∧ t.Raises c i) st st₁ :=
        hst₁ ▸ adds_of_places (extends_push st.forest n).keepsPlaces
      have hchild : ∀ rule ∈ t.rulesOf s n.type, ∀ c ∈ (rule.select s).toList, ∀ st',
          Adds (fun i => ∃ c, t.Visits s c ∧ t.Raises c i) st'
            (t.transformWithin depth c (some st.forest.size) st').2 := fun rule hr c hc st' =>
        (ih c _ st').imp fun i ⟨d, hd, hi⟩ => ⟨d, .head ⟨n.type, rule, hr, hc⟩ hd, hi⟩
      have hall := hpush.trans (adds_applyRules hset _ (fun _ hr => hr) hself hchild hlt
        (by rw [hget, hn.position]) (by rw [hget, hn.origin]))
      obtain ⟨hplaces, hissues⟩ := places_assignOrigin (t := t) s hall.places (Nat.le_refl _)
      rw [transformWithin_of_made hmake, ← hst₁]
      exact ⟨hplaces, by rw [hissues]; exact hall.issues⟩
    · have hall : Adds (t.Raises s) st ⟨⟨g.nodes.push (t.errorDraft e)⟩,
          st.issues ++ t.noted e.render s.info.position⟩ :=
        adds_noted (hext.trans (extends_push g _)).keepsPlaces
          (.inl ⟨⟨factory, parent, _, e, g, hf, hbuild, rfl⟩, rfl⟩)
      obtain ⟨hplaces, hissues⟩ := places_assignOrigin (t := t) s hall.places hext.size
      rw [transformWithin_of_failed hmake]
      exact ⟨hplaces, by rw [hissues]; exact (hall.imp hself).issues⟩

/-- Every issue arises at an element that the transformation comes to. If its factory has failed,
the issue is located at the element; if children could not be attached to its node, the issue has
no position. -/
theorem issues_located_or_refused (ht : t.MakesBareNodes) (hset : t.SettersKeepPlaces)
    (s : SourceTree) (f : Forest) :
    ∀ i ∈ (t.transform (some s) f).1.issues, ∃ c, t.Visits s c ∧
      (t.ReportsFailure c i ∧ i.position = c.info.position ∨
        t.ReportsRefusal c i ∧ i.position = none) := by
  obtain ⟨new, hnew, hraised⟩ := (transformWithin_adds ht hset s.height s none ⟨f, []⟩).issues
  intro i hi
  have hissues : (t.transform (some s) f).1.issues = new := by
    rw [← List.nil_append new, ← hnew]
    rfl
  exact hraised i (hissues ▸ hi)

/-- Like the factory of blocks, but leaves the position to the origin. -/
def bareBlockFactory : Factory := { Factory.ofType blockType with rules := blockFactory.rules }

def bareTransformer : Transformer :=
  { blockTransformer with
    factories := .ofList [("block", bareBlockFactory), ("broken", brokenFactory)] }

theorem factories_bareTransformer {kind : String} {factory : Factory}
    (h : bareTransformer.factories.get? kind = some factory) :
    factory = bareBlockFactory ∨ factory = brokenFactory := by
  have hmem := Table.get?_eq_some_iff.1 h
  rw [bareTransformer, Table.entries_ofList (by decide)] at hmem
  simp only [List.mem_cons, Prod.mk.injEq, List.not_mem_nil, or_false] at hmem
  exact hmem.imp And.right And.right

theorem makesBareNodes_bareTransformer : bareTransformer.MakesBareNodes where
  made := by
    intro s factory parent f a g hf h
    rcases factories_bareTransformer hf with rfl | rfl
    · cases h
      exact ⟨_, bare_ofType blockType, rfl, rfl⟩
    · cases h
  failed := by
    intro s factory parent f e g hf h
    rcases factories_bareTransformer hf with rfl | rfl
    · cases h
    · cases h
      exact extends_push f _

theorem setterless_bareTransformer {kind : String} {rule : ChildRule}
    (h : rule ∈ bareTransformer.rulesFor kind) : ∃ property field,
      rule = Factory.fieldRule property field := by
  unfold rulesFor at h
  cases hf : bareTransformer.factories.get? kind with
  | none => simp [hf] at h
  | some factory =>
    rw [hf] at h
    rcases factories_bareTransformer hf with rfl | rfl
    · simp only [bareBlockFactory, blockFactory, Option.map_some, Option.getD_some, List.mem_cons,
        List.not_mem_nil, or_false] at h
      rcases h with rfl | rfl
      · exact ⟨_, _, rfl⟩
      · exact ⟨_, _, rfl⟩
    · cases h

theorem settersKeepPlaces_bareTransformer : bareTransformer.SettersKeepPlaces := by
  intro kind rule hrule setter hsetter
  obtain ⟨property, field, rfl⟩ := setterless_bareTransformer hrule
  cases hsetter

/-- The part that cannot be built is located in its line. -/
theorem issues_located_or_refused_block : bareTransformer.MakesBareNodes ∧
    bareTransformer.SettersKeepPlaces ∧
    ∃ i ∈ (bareTransformer.transform (some blockSource) .empty).1.issues,
      i.position = some ⟨⟨3, 0⟩, ⟨3, 9⟩⟩ ∧ ∃ c, bareTransformer.Visits blockSource c ∧
        (bareTransformer.ReportsFailure c i ∧ i.position = c.info.position ∨
          bareTransformer.ReportsRefusal c i ∧ i.position = none) := by
  have hmem : (⟨.transformation, .error, "cannot be built", some ⟨⟨3, 0⟩, ⟨3, 9⟩⟩⟩ : Issue) ∈
      (bareTransformer.transform (some blockSource) .empty).1.issues := by decide +kernel
  exact ⟨makesBareNodes_bareTransformer, settersKeepPlaces_bareTransformer, _, hmem, rfl,
    issues_located_or_refused makesBareNodes_bareTransformer settersKeepPlaces_bareTransformer
      blockSource .empty _ hmem⟩

/-- All elements have positions, origins record them and issues are recorded; yet the issue for the
rule without a property has no position. -/
theorem refusal_without_position : bareTransformer.policy = .parseTree ∧
    bareTransformer.options.recordIssues = true ∧ bareTransformer.MakesBareNodes ∧
    (blockSource.walk.all fun c => c.info.position.isSome) = true ∧
    ∃ i ∈ (bareTransformer.transform (some blockSource) .empty).1.issues, i.position = none :=
  ⟨rfl, rfl, makesBareNodes_bareTransformer, by decide,
    ⟨.transformation, .error, "sample.Block has no property 'tail'", none⟩, by decide +kernel, rfl⟩

end Transformer

end TreeInterchange
