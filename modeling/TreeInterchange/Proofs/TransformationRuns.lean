import TreeInterchange.Proofs.IssuePositions
import TreeInterchange.Proofs.NodeConversionRuns

/-!
# Transformations as runs of the forest

A transformation makes nodes, puts them into slots and records their origins. Where its factories
and setters are runs of operations on the forest and nodes that it records as origins exist, it is
such a run as a whole. It then leads from a forest that edits have built to another one, as long
as there is room for the nodes that it makes.
-/

namespace TreeInterchange

namespace Transformer

open Forest

variable {t : Transformer} {s : SourceTree} {f : Forest} {a : NodeId} {st : State} {k : Nat}

/-- Factories and setters make runs of the forest, and the types of all other nodes are valid. -/
structure MakesRuns (t : Transformer) : Prop where
  generic : t.generic.validate = .ok ()
  genericError : t.genericError.validate = .ok ()
  genericRule : t.genericRule.validate = .ok ()
  made : ∀ {s factory parent f a g}, t.factories.get? s.kind = some factory →
    (∀ p ∈ parent, p < f.size) → factory.build ⟨s, parent, factory.type⟩ f = .ok a g →
      f.RunsTo g ∧ a < g.size
  failed : ∀ {s factory parent f e g}, t.factories.get? s.kind = some factory →
    (∀ p ∈ parent, p < f.size) → factory.build ⟨s, parent, factory.type⟩ f = .error e g →
      f.RunsTo g
  set : ∀ {kind rule setter}, rule ∈ t.rulesFor kind → rule.setter = some setter →
    ∀ {f : Forest} {a : NodeId} {cs : List NodeId}, a < f.size → (∀ c ∈ cs, c < f.size) →
      f.RunsTo ((setter a cs).stateAfter f)

/-- Nodes that are given as origins to what is made from an element, or from any element that its
transformation comes to, stand before the place `k`. -/
def OriginsBelow (t : Transformer) (k : Nat) (s : SourceTree) : Prop :=
  ∀ c, t.Visits s c → ∀ n, t.originOf c = some (.node n) → n < k

theorem runsTo_attachEdit (ha : a < f.size) {cs : List NodeId} (hcs : ∀ c ∈ cs, c < f.size)
    (name : String) : f.RunsTo ((attachEdit a name cs).stateAfter f) := by
  cases hp : f.property a name with
  | error e =>
    rw [stateAfter_error (attachEdit_error hp)]
    exact .refl
  | ok p =>
    have hedit := attachEdit_eq (property_eq_ok.1 hp) cs
    cases hm : p.multiple with
    | true =>
      rw [hm, if_pos rfl] at hedit
      rw [Edit.stateAfter, hedit]
      exact .step .refl (.setChildren a name cs)
        (Operation.admissible_of_nodes (by simp) (List.forall_mem_cons.2 ⟨ha, hcs⟩))
    | false =>
      rw [hm, if_neg Bool.false_ne_true] at hedit
      rw [Edit.stateAfter, hedit]
      cases cs with
      | nil => exact .refl
      | cons c cs =>
        refine .step .refl (.setChild a name (some c)) (Operation.admissible_of_nodes (by simp) ?_)
        exact List.forall_mem_cons.2 ⟨ha, by simpa using hcs c⟩

theorem runsTo_ruleEdit (ht : t.MakesRuns) {type : NodeType} {rule : ChildRule}
    (hrule : rule ∈ t.rulesOf s type) (ha : a < f.size) {cs : List NodeId}
    (hcs : ∀ c ∈ cs, c < f.size) : f.RunsTo ((rule.edit a cs).stateAfter f) := by
  unfold ChildRule.edit
  cases h : rule.setter with
  | none => exact runsTo_attachEdit ha hcs rule.property
  | some setter =>
    rcases List.mem_append.1 hrule with hrule | hrule
    · split at hrule
      · obtain ⟨p, -, rfl⟩ := List.mem_map.1 hrule
        cases h
      · cases hrule
    · exact ht.set hrule h ha hcs

theorem runsTo_attach (ht : t.MakesRuns) {type : NodeType} {rule : ChildRule}
    (hrule : rule ∈ t.rulesOf s type) (ha : a < st.forest.size) {cs : List NodeId}
    (hcs : ∀ c ∈ cs, c < st.forest.size) :
    st.forest.RunsTo (t.attach a rule.property rule.setter cs st).2.forest := by
  have hrun := runsTo_ruleEdit ht hrule ha hcs
  unfold Edit.stateAfter at hrun
  cases h : rule.edit a cs st.forest with
  | ok u g =>
    rw [h] at hrun
    rwa [attach_of_ok h]
  | error e g =>
    rw [h] at hrun
    rwa [attach_of_error h]

theorem runsTo_assignOrigin (st : State) (ha : a < st.forest.size)
    (ho : ∀ n, t.originOf s = some (.node n) → n < st.forest.size) :
    st.forest.RunsTo (t.assignOrigin s a st).2.forest := by
  have hrun : t.assignOrigin s a st = ((), _) := rfl
  rw [hrun]
  by_cases hk : t.keepsOrigin (st.forest.get a).origin = true
  · simp only [hk, if_true]
    exact .refl
  · simp only [hk]
    cases horigin : t.originOf s with
    | none => exact .refl
    | some o =>
      refine .step .refl (.setOrigin a (some o)) (Operation.admissible_of_nodes (by simp) ?_)
      cases o with
      | node n => simpa [Operation.nodes] using ⟨ha, ho n horigin⟩
      | _ => simpa [Operation.nodes] using ha

/-- The message of a failure is stored into the new node, or refused without a change. -/
theorem runsTo_errorDraft (ht : t.MakesRuns) (s : SourceTree) (e : FactoryError) (g : Forest) :
    g.RunsTo ⟨g.nodes.push (t.errorDraft e)⟩ := by
  have hforest : (t.errorNode s e ⟨g, []⟩).2.forest =
      (Forest.setValue g.size "message" (.string e.render)).stateAfter
        (g.newNode t.genericError).2 := by
    obtain ⟨g₁, hnew⟩ : ∃ g₁, g.newNode t.genericError = (g.size, g₁) := ⟨_, rfl⟩
    simp only [errorNode, bind, StateT.bind, modifyGet, MonadStateOf.modifyGet, StateT.modifyGet,
      pure, hnew, tryEdit, report_eq, Edit.stateAfter]
    cases Forest.setValue g.size "message" (.string e.render) g₁ <;> rfl
  rw [errorNode_eq] at hforest
  dsimp only at hforest
  rw [hforest]
  refine (runsTo_newNode ht.genericError).step (.setValue g.size "message" (.string e.render))
    (Operation.admissible_of_nodes (by simp) ?_)
  simp [Operation.nodes, Value.children, Value.targets]

/-- The node of an element is made by a run, or its factory has failed after one. -/
theorem makeNode_runs (ht : t.MakesRuns) (s : SourceTree) {parent : Option NodeId}
    (hparent : ∀ p ∈ parent, p < st.forest.size) :
    (∃ a st₁, t.makeNode s parent st = (.ok a, st₁) ∧ st.forest.RunsTo st₁.forest ∧
      a < st₁.forest.size) ∨
    ∃ e g, t.makeNode s parent st = (.error e, { st with forest := g }) ∧ st.forest.RunsTo g := by
  unfold makeNode
  cases hf : t.factories.get? s.kind with
  | none =>
    refine .inl ⟨_, _, rfl, runsTo_newNode ?_, ?_⟩
    · split
      · exact ht.genericRule
      · exact ht.generic
    · exact (st.forest.size_newNode _).symm ▸ Nat.lt_succ_self st.forest.size
  | some factory =>
    cases hb : factory.build ⟨s, parent, factory.type⟩ st.forest with
    | ok a g =>
      obtain ⟨hrun, ha⟩ := ht.made hf hparent hb
      exact .inl ⟨a, { st with forest := g }, by simp only [hb], hrun, ha⟩
    | error e g => exact .inr ⟨e, g, by simp only [hb], ht.failed hf hparent hb⟩

/-- Transforming an element makes a run of any forest with `k` nodes or more, and the node of the
element is in it. -/
def RunsFrom (k : Nat) (child : SourceTree → Step (Option NodeId)) (c : SourceTree) : Prop :=
  ∀ st : State, k ≤ st.forest.size → st.forest.RunsTo (child c st).2.forest ∧
    ∀ n ∈ (child c st).1, n < (child c st).2.forest.size

variable {child : SourceTree → Step (Option NodeId)}

theorem runsTo_mapM {cs : List SourceTree} (hchild : ∀ c ∈ cs, RunsFrom k child c)
    (hk : k ≤ st.forest.size) : st.forest.RunsTo (cs.mapM child st).2.forest ∧
      ∀ n ∈ (cs.mapM child st).1.filterMap id, n < (cs.mapM child st).2.forest.size := by
  induction cs generalizing st with
  | nil => exact ⟨.refl, List.forall_mem_nil _⟩
  | cons c cs ih =>
    obtain ⟨hc, hn⟩ := hchild c (by simp) st hk
    obtain ⟨hcs, hns⟩ := ih (fun d hd => hchild d (by simp [hd])) (Nat.le_trans hk hc.size_le)
    have hrun : (c :: cs).mapM child st =
        ((child c st).1 :: (cs.mapM child (child c st).2).1,
          (cs.mapM child (child c st).2).2) := by
      rw [List.mapM_cons]
      rfl
    rw [hrun]
    refine ⟨hc.trans hcs, fun n hmem => ?_⟩
    obtain ⟨n?, hmem, hsome⟩ := List.mem_filterMap.1 hmem
    rcases List.mem_cons.1 hmem with rfl | hmem
    · exact Nat.lt_of_lt_of_le (hn n hsome) hcs.size_le
    · exact hns n (List.mem_filterMap.2 ⟨n?, hmem, hsome⟩)

theorem runsTo_applyRule (ht : t.MakesRuns) {type : NodeType} {rule : ChildRule}
    (hrule : rule ∈ t.rulesOf s type)
    (hchild : ∀ c ∈ (rule.select s).toList, RunsFrom k child c) (hk : k ≤ st.forest.size)
    (ha : a < k) : st.forest.RunsTo (t.applyRule s a child rule st).2.forest := by
  obtain ⟨hmade, hns⟩ := runsTo_mapM hchild hk
  refine hmade.trans (runsTo_attach ht hrule ?_ hns)
  exact Nat.lt_of_lt_of_le ha (Nat.le_trans hk hmade.size_le)

theorem runsTo_applyRules (ht : t.MakesRuns) {type : NodeType} {rules : List ChildRule}
    (hrules : ∀ rule ∈ rules, rule ∈ t.rulesOf s type)
    (hchild : ∀ rule ∈ rules, ∀ c ∈ (rule.select s).toList, RunsFrom k child c)
    (hk : k ≤ st.forest.size) (ha : a < k) :
    st.forest.RunsTo ((rules.forM (t.applyRule s a child) : Step Unit) st).2.forest := by
  induction rules generalizing st with
  | nil => exact .refl
  | cons rule rules ih =>
    have hstep := runsTo_applyRule ht (hrules rule (by simp)) (hchild rule (by simp)) hk ha
    exact hstep.trans (ih (fun r hr => hrules r (by simp [hr]))
      (fun r hr => hchild r (by simp [hr])) (Nat.le_trans hk hstep.size_le))

theorem transformWithin_runs (ht : t.MakesRuns) {depth : Nat} {s : SourceTree} {k : Nat}
    (ho : t.OriginsBelow k s) (parent : Option NodeId) (hparent : ∀ p ∈ parent, p < k) :
    RunsFrom k (fun c => t.transformWithin depth c parent) s := by
  induction depth generalizing s k parent with
  | zero =>
    refine fun st _ => ⟨.refl, fun n hn => ?_⟩
    cases hn
  | succ depth ih =>
    intro st hk
    have hself : ∀ n, t.originOf s = some (.node n) → n < k := ho s .refl
    rcases makeNode_runs ht s fun p hp => Nat.lt_of_lt_of_le (hparent p hp) hk with
      ⟨a, st₁, hmake, hmade, ha⟩ | ⟨e, g, hmake, hfailed⟩
    · have hk₁ := Nat.le_trans hk hmade.size_le
      -- what is below the element is transformed into the forest that has the node already
      have hchild : ∀ rule ∈ t.rulesOf s (st₁.forest.get a).type, ∀ c ∈ (rule.select s).toList,
          RunsFrom st₁.forest.size (fun c => t.transformWithin depth c (some a)) c := by
        intro rule hr c hc
        refine ih (fun d hd n hn => ?_) (some a) fun p hp => Option.some.inj hp ▸ ha
        exact Nat.lt_of_lt_of_le (ho d (.head ⟨_, rule, hr, hc⟩ hd) n hn) hk₁
      have hfilled := runsTo_applyRules ht (fun _ hr => hr) hchild (Nat.le_refl _) ha
      have ha' := Nat.lt_of_lt_of_le ha hfilled.size_le
      have horigin := runsTo_assignOrigin (t := t) _ ha' fun n hn =>
        Nat.lt_of_lt_of_le (hself n hn) (Nat.le_trans hk₁ hfilled.size_le)
      beta_reduce
      rw [transformWithin_of_ok hmake]
      refine ⟨(hmade.trans hfilled).trans horigin, fun n hn => ?_⟩
      exact Option.some.inj hn ▸ Nat.lt_of_lt_of_le ha' horigin.size_le
    · have hdraft := runsTo_errorDraft ht s e g
      have hlt : g.size < (Forest.mk (g.nodes.push (t.errorDraft e))).size := by
        rw [size_push]
        exact Nat.lt_succ_self _
      have horigin := runsTo_assignOrigin (t := t) (s := s)
        ⟨⟨g.nodes.push (t.errorDraft e)⟩, st.issues ++ t.noted e.render s.info.position⟩ hlt
        fun n hn => Nat.lt_of_lt_of_le (hself n hn)
          (Nat.le_trans hk (Nat.le_trans hfailed.size_le hdraft.size_le))
      beta_reduce
      rw [transformWithin_of_failed hmake]
      refine ⟨(hfailed.trans hdraft).trans horigin, fun n hn => ?_⟩
      exact Option.some.inj hn ▸ Nat.lt_of_lt_of_le hlt horigin.size_le

/-- A transformation makes a run of the forest. -/
theorem runsTo_transform (ht : t.MakesRuns) {f : Forest} (ho : t.OriginsBelow f.size s) :
    f.RunsTo (t.transform (some s) f).2 ∧
      ∀ n, (t.transform (some s) f).1.root = some n → n < (t.transform (some s) f).2.size :=
  transformWithin_runs ht ho none (by simp) ⟨f, []⟩ (Nat.le_refl f.size)

end Transformer

/-- As long as there is room, transforming a source tree into a forest that edits have built leaves
such a forest. -/
theorem Forest.Reachable.transform {f : Forest} (hf : f.Reachable) {t : Transformer}
    (ht : t.MakesRuns) {s : SourceTree} (ho : t.OriginsBelow f.size s)
    (hroom : (t.transform (some s) f).2.size < arenaRoom) :
    (t.transform (some s) f).2.Reachable :=
  (Transformer.runsTo_transform ht ho).1.reachable hf hroom

namespace Transformer

open Forest

theorem makesRuns_bareTransformer : bareTransformer.MakesRuns where
  generic := by decide
  genericError := by decide
  genericRule := by decide
  made := by
    intro s factory parent f a g hf _ h
    rcases factories_bareTransformer hf with rfl | rfl
    · cases h
      refine ⟨runsTo_newNode (t := blockType) (by decide), ?_⟩
      rw [size_push]
      exact Nat.lt_succ_self _
    · cases h
  failed := by
    intro s factory parent f e g hf _ h
    rcases factories_bareTransformer hf with rfl | rfl
    · cases h
    · cases h
      exact runsTo_newNode (t := brokenFactory.type) (by decide)
  set := by
    intro kind rule setter hrule hsetter
    obtain ⟨property, field, rfl⟩ := setterless_bareTransformer hrule
    cases hsetter

theorem reachable_transform_block :
    (bareTransformer.transform (some blockSource) .empty).2.Reachable :=
  Reachable.empty.transform makesRuns_bareTransformer
    (by simp [OriginsBelow, originOf, bareTransformer, blockTransformer]) (by decide +kernel)

end Transformer

end TreeInterchange
