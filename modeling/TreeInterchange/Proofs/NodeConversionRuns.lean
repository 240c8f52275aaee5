import TreeInterchange.Conversion.Nodes
import TreeInterchange.Proofs.DerivedPackages
import TreeInterchange.Proofs.ForestOrigins

/-!
# Conversions to nodes as runs of the forest

A conversion to nodes changes the forest only by operations on nodes that exist, up to the place
where it fails if it does. It therefore leads from a forest that edits have built to another one,
as long as there is room for the nodes that it makes.
-/

namespace TreeInterchange

namespace Forest

variable {f g h : Forest}

/-- What runs of admissible operations lead to from a forest. -/
inductive RunsTo (f : Forest) : Forest → Prop
  | refl : RunsTo f f
  | step {g : Forest} (h : RunsTo f g) (op : Operation) (ha : op.Admissible g) :
      RunsTo f (op.edit.stateAfter g)

theorem RunsTo.trans (hfg : f.RunsTo g) (hgh : g.RunsTo h) : f.RunsTo h := by
  induction hgh with
  | refl => exact hfg
  | step _ op ha ih => exact ih.step op ha

theorem RunsTo.size_le (h : f.RunsTo g) : f.size ≤ g.size := by
  induction h with
  | refl => exact Nat.le_refl _
  | step _ op _ ih => exact Nat.le_trans ih (size_le_stateAfter op _)

/-- A run that stays within the room of a forest makes reachable forests of reachable ones. -/
theorem RunsTo.reachable (h : f.RunsTo g) (hf : f.Reachable) (hg : g.size < arenaRoom) :
    g.Reachable := by
  induction h with
  | refl => exact hf
  | step _ op ha ih =>
    exact .step op (ih (Nat.lt_of_le_of_lt (size_le_stateAfter op _) hg)) ha hg

theorem runsTo_newNode {t : NodeType} (ht : t.validate = .ok ()) : f.RunsTo (f.newNode t).2 := by
  refine .step .refl (.newNode t) ⟨fun u hu => ?_, by simp [Operation.nodes]⟩
  cases hu
  exact ht

theorem Operation.admissible_of_nodes {op : Operation} (hnew : ∀ t, op ≠ .newNode t)
    (h : ∀ id ∈ op.nodes, id < f.size) : op.Admissible f :=
  ⟨fun t ht => absurd ht (hnew t), h⟩

end Forest

namespace ToNodes

open Forest StatefulRuns

variable {α β : Type} {s : ObjectStore} {m : Metamodel} {catalog : TypeCatalog}
  {options : ConversionOptions} {t : NodeType} {p : Property} {node : NodeId} {st : State}
  {post : α → State → Prop} {post' : β → State → Prop}

/-- Images and the nodes at which references wait are in the forest. -/
structure Sound (st : State) : Prop where
  created : ∀ x n, st.created.get? x = some n → n < st.forest.size
  pending : ∀ q ∈ st.pending, q.node < st.forest.size

/-- A step from one state to another that makes a run of the forest. -/
structure Runs (st st' : State) : Prop where
  runs : st.forest.RunsTo st'.forest
  sound : Sound st → Sound st'

theorem Runs.refl (st : State) : Runs st st := ⟨.refl, id⟩

theorem Runs.trans {st₁ st₂ : State} (h : Runs st st₁) (h' : Runs st₁ st₂) : Runs st st₂ :=
  ⟨h.runs.trans h'.runs, h'.sound ∘ h.sound⟩

theorem Runs.size_le {st' : State} (h : Runs st st') : st.forest.size ≤ st'.forest.size :=
  h.runs.size_le

theorem runs_of_forest {g : Forest} (h : st.forest.RunsTo g) : Runs st { st with forest := g } :=
  ⟨h, fun hst => ⟨fun x n hx => Nat.lt_of_lt_of_le (hst.created x n hx) h.size_le,
    fun q hq => Nat.lt_of_lt_of_le (hst.pending q hq) h.size_le⟩⟩

/-- A conversion that makes a run of the forest, even if it fails. -/
def MakesRun (post : α → State → Prop) (x : Convert α) (st : State) : Prop :=
  match x st with
  | .ok a st' => Runs st st' ∧ post a st'
  | .error _ st' => st.forest.RunsTo st'.forest

theorem makesRun_ok {x : Convert α} {a : α} {st' : State} (h : x st = .ok a st')
    (hruns : Runs st st') (hp : post a st') : MakesRun post x st := by
  rw [MakesRun, h]
  exact ⟨hruns, hp⟩

theorem makesRun_error {x : Convert α} {e : ConversionError} (h : x st = .error e st) :
    MakesRun post x st := by
  rw [MakesRun, h]
  exact .refl

theorem MakesRun.bind {x : Convert α} {k : α → Convert β} (h : MakesRun post x st)
    (hk : ∀ a st', Runs st st' → post a st' → MakesRun post' (k a) st') :
    MakesRun post' (x >>= k) st := by
  unfold MakesRun at h
  split at h
  · rename_i a st₁ hx
    have hrest := hk a st₁ h.1 h.2
    unfold MakesRun at hrest ⊢
    rw [bind_ok hx]
    split at hrest
    · exact ⟨h.1.trans hrest.1, hrest.2⟩
    · exact h.1.runs.trans hrest
  · rename_i e st₁ hx
    rw [MakesRun, bind_error hx]
    exact h

theorem MakesRun.imp {post₁ : α → State → Prop} {x : Convert α} (h : MakesRun post x st)
    (himp : ∀ a st', Runs st st' → post a st' → post₁ a st') : MakesRun post₁ x st := by
  unfold MakesRun at h ⊢
  split at h
  · exact ⟨h.1, himp _ _ h.1 h.2⟩
  · exact h

theorem makesRun_forM {as : List α} {step : α → Convert Unit}
    (hstep : ∀ a ∈ as, ∀ st', Runs st st' → MakesRun (fun _ _ => True) (step a) st') :
    MakesRun (fun _ _ => True) (as.forM step) st := by
  induction as generalizing st with
  | nil => exact makesRun_ok rfl (.refl st) trivial
  | cons a as ih =>
    refine (hstep a (by simp) st (.refl st)).bind fun _ st₁ h₁ _ => ?_
    exact ih fun b hb st' h' => hstep b (by simp [hb]) st' (h₁.trans h')

theorem makesRun_mapM {as : List α} {step : α → Convert NodeId}
    (hstep : ∀ a ∈ as, ∀ st, MakesRun (fun n st' => n < st'.forest.size) (step a) st) :
    MakesRun (fun ns st' => ∀ n ∈ ns, n < st'.forest.size) (as.mapM step) st := by
  induction as generalizing st with
  | nil => exact makesRun_ok rfl (.refl st) (by simp)
  | cons a as ih =>
    rw [List.mapM_cons]
    refine (hstep a (by simp) st).bind fun n st₁ _ hn => ?_
    refine (ih fun b hb => hstep b (by simp [hb])).bind fun ns st₂ h₂ hns => ?_
    refine makesRun_ok rfl (.refl st₂) fun k hk => ?_
    rcases List.mem_cons.1 hk with rfl | hk
    · exact Nat.lt_of_lt_of_le hn h₂.size_le
    · exact hns k hk

theorem makesRun_lift (e : Except ConversionError α) (st : State) :
    MakesRun (fun a st' => e = .ok a ∧ st' = st) (lift e) st := by
  cases e with
  | ok a => exact makesRun_ok rfl (.refl st) ⟨rfl, rfl⟩
  | error e => exact makesRun_error rfl

theorem makesRun_edit (op : Operation) (ha : op.Admissible st.forest) :
    MakesRun (fun _ _ => True) (edit op.edit) st := by
  have hrun := RunsTo.step .refl op ha
  unfold MakesRun edit
  unfold Edit.stateAfter at hrun
  cases hop : op.edit st.forest with
  | ok u g =>
    rw [hop] at hrun
    exact ⟨runs_of_forest hrun, trivial⟩
  | error e g =>
    rw [hop] at hrun
    exact hrun

theorem makesRun_setChildren (hnode : node < st.forest.size) {ids : List NodeId}
    (hids : ∀ n ∈ ids, n < st.forest.size) :
    MakesRun (fun _ _ => True) (setChildren node p ids) st := by
  unfold setChildren
  split
  · exact makesRun_edit (.setChildren node p.name ids)
      (Operation.admissible_of_nodes (by simp) (List.forall_mem_cons.2 ⟨hnode, hids⟩))
  · refine makesRun_edit (.setChild node p.name ids.head?)
      (Operation.admissible_of_nodes (by simp) (List.forall_mem_cons.2 ⟨hnode, fun n hn => ?_⟩))
    exact hids n (List.mem_of_mem_head? (Option.mem_toList.1 hn))

theorem makesRun_setValue (hnode : node < st.forest.size) {v : Value}
    (hv : v.holdsNodes = false) :
    MakesRun (fun _ _ => True) (edit (Forest.setValue node p.name v)) st := by
  refine makesRun_edit (.setValue node p.name v)
    (Operation.admissible_of_nodes (by simp) (List.forall_mem_cons.2 ⟨hnode, fun n hn => ?_⟩))
  have hnone : v.children ++ v.targets = [] := by
    cases v <;> first | rfl | cases hv
  rw [hnone] at hn
  cases hn

theorem makesRun_wait (hnode : node < st.forest.size) (name : String) (targets : List ObjectId) :
    MakesRun (fun _ _ => True) (wait node t name targets) st := by
  refine makesRun_ok rfl ⟨.refl, fun hst => ⟨hst.created, fun q hq => ?_⟩⟩ trivial
  rcases List.mem_append.1 hq with hq | hq
  · exact hst.pending q hq
  · rw [List.mem_singleton.1 hq]
    exact hnode

theorem holdsNodes_plainValue {v : FeatureValue} {w : Value}
    (h : plainValue catalog t p v = .ok w) : w.holdsNodes = false := by
  unfold plainValue at h
  split at h
  case h_3 =>
    cases h
    split <;> rfl
  case h_6 =>
    split at h
    · split at h <;> cases h
      rfl
    · cases h
  all_goals
    cases h
    try rfl

theorem get?_of_typeOf {c : ClassifierRef} (h : typeOf m catalog c = .ok t) :
    ∃ name, catalog.get? name = some t := by
  obtain ⟨name, -, h⟩ := of_except_bind_ok h
  cases hget : catalog.get? name with
  | some u =>
    simp only [hget] at h
    cases h
    exact ⟨name, hget⟩
  | none =>
    simp only [hget] at h
    cases h

/-- Converting an object makes a run, and the node is in the forest. -/
def ConvertsWell (child : ObjectId → Convert NodeId) : Prop :=
  ∀ y st, MakesRun (fun n st' => n < st'.forest.size) (child y) st

variable {child : ObjectId → Convert NodeId}

theorem makesRun_convertProperty (hchild : ConvertsWell child) (hnode : node < st.forest.size)
    (v : FeatureValue) :
    MakesRun (fun _ _ => True) (convertProperty catalog t node p child v) st := by
  unfold convertProperty
  split
  · refine (hchild _ st).bind fun n st' h' hn => ?_
    exact makesRun_setChildren (Nat.lt_of_lt_of_le hnode h'.size_le) (by simpa using hn)
  · refine (makesRun_mapM fun y _ => hchild y).bind fun ns st' h' hns => ?_
    exact makesRun_setChildren (Nat.lt_of_lt_of_le hnode h'.size_le) hns
  · exact makesRun_wait hnode _ _
  · exact makesRun_wait hnode _ _
  · refine (makesRun_lift _ st).bind fun items st' _ ⟨_, h'⟩ => ?_
    subst h'
    exact makesRun_setValue hnode rfl
  · refine (makesRun_lift _ st).bind fun w st' _ ⟨hw, h'⟩ => ?_
    subst h'
    exact makesRun_setValue hnode (holdsNodes_plainValue hw)
  · exact makesRun_error rfl

theorem makesRun_convertValue (hchild : ConvertsWell child) (hnode : node < st.forest.size)
    (x : ObjectId) (features : List OwnedFeature) (name : String) (v : FeatureValue) :
    MakesRun (fun _ _ => True)
      (convertValue s catalog options x features t node child name v) st := by
  unfold convertValue
  split
  · exact makesRun_ok rfl (.refl st) trivial
  split
  · split
    · have hrun : st.forest.RunsTo (st.forest.setPosition node (s.position? x)) :=
        .step .refl (.setPosition node (s.position? x))
          (Operation.admissible_of_nodes (by simp) (by simpa [Operation.nodes] using hnode))
      exact makesRun_ok rfl (runs_of_forest hrun) trivial
    · exact makesRun_ok rfl (.refl st) trivial
  · split
    · exact makesRun_convertProperty hchild hnode v
    · split
      · exact makesRun_ok rfl (.refl st) trivial
      · exact makesRun_error rfl

theorem convertsWell_convert (hc : catalog.Named) (depth : Nat) :
    ConvertsWell (convert s m catalog options depth) := by
  induction depth with
  | zero => exact fun _ _ => makesRun_error rfl
  | succ depth ih =>
    intro x st
    unfold convert
    refine (makesRun_lift _ st).bind fun t st₁ _ ⟨ht, h₁⟩ => ?_
    subst h₁
    refine (makesRun_lift _ st₁).bind fun features st₂ _ ⟨_, h₂⟩ => ?_
    subst h₂
    obtain ⟨name, hname⟩ := get?_of_typeOf ht
    have hnew : MakesRun (fun n st' => n < st'.forest.size) (newNode t) st₂ :=
      makesRun_ok rfl (runs_of_forest (runsTo_newNode (hc.valid hname)))
        (st₂.forest.size_newNode t ▸ Nat.lt_succ_self st₂.forest.size)
    refine hnew.bind fun node st₃ _ hnode => ?_
    have hrecord : MakesRun (fun _ st' => node < st'.forest.size)
        (modify fun st => { st with created := st.created.insert x node } : Convert Unit) st₃ := by
      refine makesRun_ok rfl ⟨.refl, fun hst => ⟨fun y n hy => ?_, hst.pending⟩⟩ hnode
      rw [Table.get?_insert] at hy
      split at hy
      · cases hy
        exact hnode
      · exact hst.created y n hy
    refine hrecord.bind fun _ st₄ _ hnode₄ => ?_
    refine (makesRun_forM fun e _ st' h' => ?_).bind fun _ st₅ h₅ _ =>
      makesRun_ok rfl (.refl st₅) (Nat.lt_of_lt_of_le hnode₄ h₅.size_le)
    exact makesRun_convertValue ih (Nat.lt_of_lt_of_le hnode₄ h'.size_le) x features e.1 e.2

/-- References lead to images, which are in the forest. -/
theorem makesRun_settle (hst : Sound st) {q : Pending} (hq : q.node < st.forest.size) :
    MakesRun (fun _ _ => True) (settle options q) st := by
  unfold settle
  have hget : MakesRun (fun st₀ st' => st₀ = st ∧ st' = st) (get : Convert State) st :=
    makesRun_ok rfl (.refl st) ⟨rfl, rfl⟩
  refine hget.bind fun st₀ st₁ _ ⟨h₀, h₁⟩ => ?_
  subst h₀ h₁
  refine (makesRun_lift _ st₁).bind fun ids st₂ _ ⟨hids, h₂⟩ => ?_
  subst h₂
  have hin : ∀ n ∈ ids, n < st₂.forest.size := by
    unfold found at hids
    split at hids
    · cases hids
    · cases hids
      intro n hn
      obtain ⟨y, -, hy⟩ := List.mem_filterMap.1 hn
      exact hst.created y n hy
  split
  · refine makesRun_forM fun n hn st' h' => ?_
    refine makesRun_edit (.addReference q.node q.name n) (Operation.admissible_of_nodes (by simp) ?_)
    simpa [Operation.nodes] using
      ⟨Nat.lt_of_lt_of_le hq h'.size_le, Nat.lt_of_lt_of_le (hin n hn) h'.size_le⟩
  · refine makesRun_edit (.setReference q.node q.name ids.head?)
      (Operation.admissible_of_nodes (by simp) (List.forall_mem_cons.2 ⟨hq, fun n hn => ?_⟩))
    exact hin n (List.mem_of_mem_head? (Option.mem_toList.1 hn))

theorem makesRun_convertTree (hc : catalog.Named) (hst : Sound st) (s : ObjectStore)
    (m : Metamodel) (options : ConversionOptions) (x : ObjectId) :
    MakesRun (fun n st' => n < st'.forest.size) (convertTree s m catalog options x) st := by
  unfold convertTree
  refine (convertsWell_convert hc (s.size + 1) x st).bind fun root st₁ h₁ hroot => ?_
  have hget : MakesRun (fun st₀ st' => st₀ = st₁ ∧ st' = st₁) (get : Convert State) st₁ :=
    makesRun_ok rfl (.refl st₁) ⟨rfl, rfl⟩
  refine hget.bind fun st₀ st₂ _ ⟨h₀, h₂⟩ => ?_
  subst h₀ h₂
  have hsound := h₁.sound hst
  refine (makesRun_forM fun q hq st' h' => ?_).bind fun _ st₃ h₃ _ =>
    makesRun_ok rfl (.refl st₃) (Nat.lt_of_lt_of_le hroot h₃.size_le)
  exact makesRun_settle (h'.sound hsound) (Nat.lt_of_lt_of_le (hsound.pending q hq) h'.size_le)

end ToNodes

/-- Converting an object to nodes makes a run of the forest, even if it fails. -/
theorem ObjectStore.runsTo_toNodes {catalog : TypeCatalog} (hc : catalog.Named) (s : ObjectStore)
    (x : ObjectId) (m : Metamodel) (options : ConversionOptions) (f : Forest) :
    f.RunsTo (s.toNodes x m catalog options f).2 ∧
      ∀ n, (s.toNodes x m catalog options f).1 = .ok n →
        n < (s.toNodes x m catalog options f).2.size := by
  have hempty : ToNodes.Sound ⟨f, .empty, []⟩ := ⟨by simp, by simp⟩
  have hrun := ToNodes.makesRun_convertTree hc hempty s m options x
  unfold ToNodes.MakesRun at hrun
  unfold toNodes
  split at hrun
  · rename_i root st hroot
    rw [hroot]
    refine ⟨hrun.1.runs, fun n hn => ?_⟩
    cases hn
    exact hrun.2
  · rename_i e st he
    rw [he]
    exact ⟨hrun, by simp⟩

/-- As long as there is room, converting an object into a forest that edits have built leaves such
a forest. -/
theorem Forest.Reachable.toNodes {f : Forest} (hf : f.Reachable) {catalog : TypeCatalog}
    (hc : catalog.Named) (s : ObjectStore) (x : ObjectId) (m : Metamodel)
    (options : ConversionOptions)
    (hroom : (s.toNodes x m catalog options f).2.size < arenaRoom) :
    (s.toNodes x m catalog options f).2.Reachable :=
  (s.runsTo_toNodes hc x m options f).1.reachable hf hroom

end TreeInterchange
