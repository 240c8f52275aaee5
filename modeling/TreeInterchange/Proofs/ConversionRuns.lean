import TreeInterchange.Conversion.Results
import TreeInterchange.Proofs.PositionObjects

/-!
# Conversions as runs of the store

A conversion to objects changes the store only by making objects and by storing values that own
objects of the store. It therefore leads from a store that such a run has made to another one,
as long as there is room for all objects.
-/

namespace TreeInterchange

namespace ObjectStore

variable {s t u : ObjectStore}

/-- What runs of making objects and storing values lead to from a store. -/
inductive RunsTo (s : ObjectStore) : ObjectStore → Prop
  | refl : RunsTo s s
  | newObject {t : ObjectStore} (h : RunsTo s t) (c : ClassifierRef) : RunsTo s (t.newObject c).2
  | set {t : ObjectStore} (h : RunsTo s t) (id : ObjectId) (feature : String) (v : FeatureValue)
      (hid : id < t.size) (hv : ∀ c ∈ v.children, c < t.size) : RunsTo s (t.set id feature v)

theorem RunsTo.trans (h : s.RunsTo t) (h' : t.RunsTo u) : s.RunsTo u := by
  induction h' with
  | refl => exact h
  | newObject _ c ih => exact ih.newObject c
  | set _ id feature v hid hv ih => exact ih.set id feature v hid hv

theorem RunsTo.size_le (h : s.RunsTo t) : s.size ≤ t.size := by
  induction h with
  | refl => exact Nat.le_refl _
  | newObject _ c ih =>
    rw [size_newObject]
    omega
  | set _ id feature v hid hv ih => rwa [size_set]

theorem runsTo_newObject {c : ClassifierRef} {id : ObjectId} (h : s.newObject c = (id, t)) :
    s.RunsTo t ∧ id < t.size := by
  have hnew := RunsTo.newObject (.refl (s := s)) c
  have hlt : s.size < (s.newObject c).2.size := by simp
  rw [h] at hnew hlt
  obtain rfl : s.size = id := (Prod.mk.inj h).1
  exact ⟨hnew, hlt⟩

/-- A run that stays within the room of a store makes reachable stores of reachable ones. -/
theorem RunsTo.reachable (h : s.RunsTo t) (hs : s.Reachable) (ht : t.size ≤ arenaRoom) :
    t.Reachable := by
  induction h with
  | refl => exact hs
  | newObject _ c ih =>
    rw [size_newObject] at ht
    exact .newObject c (ih (by omega)) (by omega)
  | set _ id feature v hid hv ih =>
    rw [size_set] at ht
    exact .set id feature v (ih ht) hid hv

end ObjectStore

namespace ToObjects

open StatefulRuns

theorem runsTo_pointObject (s : ObjectStore) (p : Point) :
    s.RunsTo (pointObject s p).2 ∧ (pointObject s p).1 < (pointObject s p).2.size := by
  obtain ⟨s₁, hs₁⟩ : ∃ s₁, s.newObject (.ast "Point") = (s.size, s₁) := ⟨_, rfl⟩
  obtain ⟨hrun₁, hlt₁⟩ := ObjectStore.runsTo_newObject hs₁
  have hline := hrun₁.set s.size "line" (.integer (Int64.ofNat p.line.toNat)) hlt₁
    (by simp [FeatureValue.children])
  have hcolumn := hline.set s.size "column" (.integer (Int64.ofNat p.column.toNat)) (by simpa)
    (by simp [FeatureValue.children])
  simp only [pointObject, hs₁]
  exact ⟨hcolumn, by simpa⟩

theorem runsTo_positionObject (s : ObjectStore) (p : Position) :
    s.RunsTo (positionObject p s).2 ∧ (positionObject p s).1 < (positionObject p s).2.size := by
  obtain ⟨s₁, hs₁⟩ : ∃ s₁, s.newObject (.ast "Position") = (s.size, s₁) := ⟨_, rfl⟩
  obtain ⟨hrun₁, hlt₁⟩ := ObjectStore.runsTo_newObject hs₁
  obtain ⟨first, s₂, hs₂⟩ : ∃ first s₂, pointObject s₁ p.first = (first, s₂) := ⟨_, _, rfl⟩
  obtain ⟨last, s₃, hs₃⟩ : ∃ last s₃,
    pointObject (s₂.set s.size "start" (.contained first)) p.last = (last, s₃) := ⟨_, _, rfl⟩
  obtain ⟨hrun₂, hfirst⟩ := hs₂ ▸ runsTo_pointObject s₁ p.first
  obtain ⟨hrun₃, hlast⟩ := hs₃ ▸
    runsTo_pointObject (s₂.set s.size "start" (.contained first)) p.last
  have hlt₂ := Nat.lt_of_lt_of_le hlt₁ hrun₂.size_le
  have hlt₃ : s.size < s₃.size :=
    Nat.lt_of_lt_of_le (by rwa [ObjectStore.size_set]) hrun₃.size_le
  have hstart := (hrun₁.trans hrun₂).set s.size "start" (.contained first) hlt₂
    (by simpa [FeatureValue.children] using hfirst)
  have hend := (hstart.trans hrun₃).set s.size "end" (.contained last) hlt₃
    (by simpa [FeatureValue.children] using hlast)
  simp only [positionObject, hs₁, hs₂, hs₃]
  exact ⟨hend, by rwa [ObjectStore.size_set]⟩

variable {m : Metamodel} {f : Forest} {options : ConversionOptions}

/-- Every reference that waits belongs to an object of the store. -/
def Owners (st : State) : Prop := ∀ q ∈ st.pending, q.owner < st.store.size

/-- A step from one state to another that makes a run of the store. -/
structure Runs (st st' : State) : Prop where
  runs : st.store.RunsTo st'.store
  owners : Owners st → Owners st'

theorem Runs.refl (st : State) : Runs st st := ⟨.refl, id⟩

theorem Runs.trans {st st₁ st₂ : State} (h : Runs st st₁) (h' : Runs st₁ st₂) : Runs st st₂ :=
  ⟨h.runs.trans h'.runs, h'.owners ∘ h.owners⟩

theorem Runs.size_le {st st' : State} (h : Runs st st') : st.store.size ≤ st'.store.size :=
  h.runs.size_le

theorem runs_of_store {st : State} {t : ObjectStore} (h : st.store.RunsTo t) :
    Runs st { st with store := t } :=
  ⟨h, fun howners q hq => Nat.lt_of_lt_of_le (howners q hq) h.size_le⟩

/-- Any error is allowed: only what a success leaves is said. -/
abbrev Leaves {α : Type} (post : α → State → Prop) (x : Convert α) (st : State) : Prop :=
  Ends (fun _ => True) post x st

theorem leaves_lift {α : Type} (e : Except ConversionError α) (st : State) :
    Leaves (fun a st' => e = .ok a ∧ st' = st) (lift e) st := by
  cases e with
  | ok a => exact ends_ok rfl ⟨rfl, rfl⟩
  | error e => exact ends_error rfl trivial

theorem leaves_setValue {id : ObjectId} {feature : String} {v : FeatureValue} {st : State}
    (hid : id < st.store.size) (hv : ∀ c ∈ v.children, c < st.store.size) :
    Leaves (fun _ st' => Runs st st') (setValue id feature v) st :=
  ends_ok rfl (runs_of_store (.set .refl id feature v hid hv))

theorem children_enumValue {c : ClassifierRef} {e : EnumValue} {w : FeatureValue}
    (h : enumValue m c e = .ok w) : w.children = [] := by
  unfold enumValue at h
  dsimp only at h
  split at h
  · cases h
    rfl
  · cases h

theorem children_plainValue {c : ClassifierRef} {g : Feature} {v : Value} {w : FeatureValue}
    (h : plainValue m c g v = .ok w) : w.children = [] := by
  unfold plainValue at h
  dsimp only at h
  split at h
  all_goals first
    | (cases h; rfl)
    | exact children_enumValue h
    | cases h
    | (split at h <;> cases h; rfl)

/-- Converting a node makes a run, and the object is in the store. -/
def ConvertsWell (child : NodeId → Convert ObjectId) : Prop :=
  ∀ d st, Leaves (fun o st' => Runs st st' ∧ o < st'.store.size) (child d) st

theorem leaves_mapM {child : NodeId → Convert ObjectId} (hchild : ConvertsWell child)
    (ds : List NodeId) (st : State) :
    Leaves (fun os st' => Runs st st' ∧ ∀ o ∈ os, o < st'.store.size) (ds.mapM child) st := by
  have hloop : Leaves (fun os st' => Runs st st' ∧ ∀ o ∈ [] ++ os, o < st'.store.size)
      (ds.mapM child) st := by
    refine Ends.mapM (I := fun os st' => Runs st st' ∧ ∀ o ∈ os, o < st'.store.size)
      ⟨.refl st, by simp⟩ ?_
    rintro d - done st₁ ⟨hruns, hin⟩
    refine (hchild d st₁).imp fun o st₂ ⟨hstep, ho⟩ => ⟨hruns.trans hstep, fun x hx => ?_⟩
    rcases List.mem_append.1 hx with hx | hx
    · exact Nat.lt_of_lt_of_le (hin x hx) hstep.size_le
    · rw [List.mem_singleton.1 hx]
      exact ho
  simpa using hloop

theorem leaves_slotValue {child : NodeId → Convert ObjectId} (hchild : ConvertsWell child)
    (c : ClassifierRef) (g : Feature) (v : Value) (st : State) :
    Leaves (fun res st' => Runs st st' ∧ ∀ w, res = .value w →
      ∀ o ∈ w.children, o < st'.store.size) (slotValue m c g child v) st := by
  have hplain : ∀ {w : FeatureValue}, w.children = [] → ∀ st' : State,
      ∀ o ∈ w.children, o < st'.store.size := by
    intro w hw st' o ho
    rw [hw] at ho
    cases ho
  unfold slotValue
  split
  · rename_i d _
    refine (hchild d st).bind fun o st' hmade => ends_ok rfl ⟨hmade.1, ?_⟩
    rintro w ⟨⟩
    simpa [FeatureValue.children] using hmade.2
  · rename_i ds _
    refine (leaves_mapM hchild ds st).bind fun os st' hmade => ends_ok rfl ⟨hmade.1, ?_⟩
    rintro w ⟨⟩
    exact hmade.2
  · exact ends_ok rfl ⟨.refl st, by simp⟩
  · exact ends_ok rfl ⟨.refl st, by simp⟩
  · refine (leaves_lift _ st).bind fun ws st' h => ?_
    obtain ⟨-, rfl⟩ := h
    refine ends_ok rfl ⟨.refl _, ?_⟩
    rintro w ⟨⟩
    exact hplain rfl _
  · refine (leaves_lift _ st).bind fun w st' h => ?_
    obtain ⟨hw, rfl⟩ := h
    refine ends_ok rfl ⟨.refl _, ?_⟩
    rintro w' ⟨⟩
    exact hplain (children_plainValue hw) _
  · exact ends_error rfl trivial

theorem leaves_convertSlot {child : NodeId → Convert ObjectId} (hchild : ConvertsWell child)
    (c : ClassifierRef) (fs : List Feature) {object : ObjectId} (name : String) (v : Value)
    {st : State} (hobject : object < st.store.size) :
    Leaves (fun _ st' => Runs st st') (convertSlot m c fs object child name v) st := by
  unfold convertSlot
  split
  · exact ends_ok rfl (.refl st)
  split
  · exact ends_error rfl trivial
  rename_i g _
  refine (leaves_slotValue hchild c g v st).bind fun res st' ⟨hruns, hres⟩ => ?_
  have hobject' := Nat.lt_of_lt_of_le hobject hruns.size_le
  cases res with
  | value w => exact (leaves_setValue hobject' (hres w rfl)).imp fun _ _ h => hruns.trans h
  | later targets =>
    refine ends_ok rfl (hruns.trans ⟨.refl, fun howners q hq => ?_⟩)
    rcases List.mem_append.1 hq with hq | hq
    · exact howners q hq
    · rw [List.mem_singleton.1 hq]
      exact hobject'

theorem leaves_convertPosition (fs : List Feature) {object : ObjectId} (p : Option Position)
    {st : State} (hobject : object < st.store.size) :
    Leaves (fun _ st' => Runs st st') (convertPosition options fs object p) st := by
  unfold convertPosition
  split
  · rename_i q
    split
    · obtain ⟨id, t, ht⟩ : ∃ id t, positionObject q st.store = (id, t) := ⟨_, _, rfl⟩
      obtain ⟨hrun, hid⟩ := ht ▸ runsTo_positionObject st.store q
      have hmade : onStore (positionObject q) st = .ok id { st with store := t } := by
        simp only [onStore, ht]
      refine ends_bind_ok hmade ?_
      refine (leaves_setValue (Nat.lt_of_lt_of_le hobject hrun.size_le) ?_).imp
        fun _ _ h => (runs_of_store hrun).trans h
      simpa [FeatureValue.children] using hid
    · exact ends_ok rfl (.refl st)
  · exact ends_ok rfl (.refl st)

theorem convertsWell_convert (depth : Nat) : ConvertsWell (convert f m options depth) := by
  induction depth with
  | zero => exact fun d st => ends_error rfl trivial
  | succ depth ih =>
    intro d st
    unfold convert
    refine (leaves_lift _ st).bind fun c st₁ h => ?_
    obtain ⟨-, rfl⟩ := h
    refine (leaves_lift _ st₁).bind fun fs st₂ h => ?_
    obtain ⟨-, rfl⟩ := h
    have hnew : onStore (·.newObject c) st₂ =
        .ok st₂.store.size { st₂ with store := (st₂.store.newObject c).2 } := rfl
    refine ends_bind_ok hnew (ends_bind_ok rfl ?_)
    have hmade : Runs st₂ ⟨(st₂.store.newObject c).2, st₂.created.insert d st₂.store.size,
        st₂.pending⟩ :=
      ⟨.newObject .refl c, (runs_of_store (.newObject .refl c)).owners⟩
    have hin : st₂.store.size < (st₂.store.newObject c).2.size := by simp
    refine (leaves_convertPosition fs (f.position d) hin).bind fun _ st₃ h₃ => ?_
    -- the slots are stored into the object of the node, which stays in the store all the time
    have hloop : Leaves (fun _ st' => Runs st₂ st' ∧ st₂.store.size < st'.store.size)
        ((f.get d).slots.entries.forM fun e =>
          convertSlot m c fs st₂.store.size (convert f m options depth) e.1 e.2) st₃ := by
      refine Ends.forM (I := fun st' => Runs st₂ st' ∧ st₂.store.size < st'.store.size)
        ⟨hmade.trans h₃, Nat.lt_of_lt_of_le hin h₃.size_le⟩ ?_
      rintro e - st' ⟨hruns, hlt⟩
      exact (leaves_convertSlot ih c fs e.1 e.2 hlt).imp fun _ st'' h =>
        ⟨hruns.trans h, Nat.lt_of_lt_of_le hlt h.size_le⟩
    exact hloop.bind fun _ st₄ h₄ => ends_ok rfl h₄

theorem children_settled (many : Bool) (ids : List ObjectId) :
    (if many then FeatureValue.references ids
      else (ids.head?.map .reference).getD .null).children = [] := by
  split
  · rfl
  · cases ids <;> rfl

theorem leaves_settle {q : Pending} {st : State} (hq : q.owner < st.store.size) :
    Leaves (fun _ st' => Runs st st') (settle options q) st := by
  unfold settle
  refine ends_bind_ok rfl ?_
  refine (leaves_lift _ st).bind fun ids st' ⟨_, h⟩ => ?_
  subst h
  apply leaves_setValue hq
  rw [children_settled]
  simp

end ToObjects

/-- Converting a tree to objects is a run of the store. -/
theorem Forest.runsTo_toObjects {f : Forest} {n : NodeId} {m : Metamodel}
    {options : ConversionOptions} {s t : ObjectStore} {o : ObjectId}
    (h : f.toObjects n m options s = (.ok o, t)) : s.RunsTo t ∧ o < t.size := by
  open ToObjects StatefulRuns in
  have hends : Leaves (fun o st' => s.RunsTo st'.store ∧ o < st'.store.size)
      (convertTree f m options n) ⟨s, .empty, []⟩ := by
    unfold convertTree
    refine (convertsWell_convert (f.size + 1) n ⟨s, .empty, []⟩).bind
      fun root st ⟨hruns, hroot⟩ => ?_
    have howners : Owners st := hruns.owners (by simp [Owners])
    refine ends_bind_ok rfl ?_
    have hloop : Leaves (fun _ st' => Runs st st') (st.pending.forM (settle options)) st := by
      refine Ends.forM (I := Runs st) (.refl st) fun q hq st' hst' => ?_
      exact (leaves_settle (Nat.lt_of_lt_of_le (howners q hq) hst'.size_le)).imp
        fun _ _ h => hst'.trans h
    refine hloop.bind fun _ st' hst' => ends_ok rfl ⟨hruns.runs.trans hst'.runs, ?_⟩
    exact Nat.lt_of_lt_of_le hroot hst'.size_le
  unfold Forest.toObjects at h
  unfold ToObjects.Leaves StatefulRuns.Ends at hends
  split at h
  · rename_i root st hrun
    rw [hrun] at hends
    cases h
    exact hends
  · cases h

/-- As long as there is room, converting a tree into a store that calls have built leaves such a
store. -/
theorem ObjectStore.Reachable.toObjects {f : Forest} {n : NodeId} {m : Metamodel}
    {options : ConversionOptions} {s t : ObjectStore} {o : ObjectId} (hs : s.Reachable)
    (h : f.toObjects n m options s = (.ok o, t)) (hroom : t.size ≤ arenaRoom) : t.Reachable :=
  (Forest.runsTo_toObjects h).1.reachable hs hroom

def Issue.storeScalars (i : Issue) (s : ObjectStore) : ObjectStore :=
  (((s.newObject (.ast "Issue")).2.set s.size "type" (.enumeration i.type.ordinal)).set s.size
    "message" (.string i.message)).set s.size "severity" (.enumeration i.severity.ordinal)

def Issue.carried (options : ConversionOptions) (i : Issue) : Option Position :=
  if options.positions then i.position else none

theorem Issue.toObject_of_none {options : ConversionOptions} {i : Issue} (s : ObjectStore)
    (h : i.carried options = none) : i.toObject options s = (s.size, i.storeScalars s) := by
  obtain ⟨s₀, hs₀⟩ : ∃ s₀, s.newObject (.ast "Issue") = (s.size, s₀) := ⟨_, rfl⟩
  simp only [toObject, storeScalars, hs₀]
  unfold carried at h
  split
  · simp_all
  · rfl

theorem Issue.toObject_of_some {options : ConversionOptions} {i : Issue} (s : ObjectStore)
    {p : Position} (h : i.carried options = some p) : i.toObject options s =
      (s.size, (ToObjects.positionObject p (i.storeScalars s)).2.set s.size "position"
        (.contained (ToObjects.positionObject p (i.storeScalars s)).1)) := by
  obtain ⟨s₀, hs₀⟩ : ∃ s₀, s.newObject (.ast "Issue") = (s.size, s₀) := ⟨_, rfl⟩
  have hcarried : options.positions = true ∧ i.position = some p := by
    simpa [carried] using h
  simp only [toObject, storeScalars, hs₀, hcarried]

@[simp] theorem Issue.size_storeScalars (i : Issue) (s : ObjectStore) :
    (i.storeScalars s).size = s.size + 1 := by
  simp [storeScalars]

theorem Issue.runsTo_storeScalars (i : Issue) (s : ObjectStore) : s.RunsTo (i.storeScalars s) := by
  have hnew : s.RunsTo (s.newObject (.ast "Issue")).2 := .newObject .refl _
  have htype := hnew.set s.size "type" (.enumeration i.type.ordinal) (by simp)
    (by simp [FeatureValue.children])
  have hmessage := htype.set s.size "message" (.string i.message) (by simp)
    (by simp [FeatureValue.children])
  exact hmessage.set s.size "severity" (.enumeration i.severity.ordinal) (by simp)
    (by simp [FeatureValue.children])

theorem Issue.runsTo_toObject (options : ConversionOptions) (i : Issue) (s : ObjectStore) :
    s.RunsTo (i.toObject options s).2 ∧
      (i.toObject options s).1 < (i.toObject options s).2.size := by
  have hscalars := i.runsTo_storeScalars s
  have hin : s.size < (i.storeScalars s).size := by simp
  cases hp : i.carried options with
  | none =>
    simp only [toObject_of_none s hp]
    exact ⟨hscalars, hin⟩
  | some p =>
    simp only [toObject_of_some s hp]
    obtain ⟨hrun, hlt⟩ := ToObjects.runsTo_positionObject (i.storeScalars s) p
    have hin' := Nat.lt_of_lt_of_le hin hrun.size_le
    have hset := (hscalars.trans hrun).set s.size "position" (.contained _) hin'
      (by simpa [FeatureValue.children] using hlt)
    exact ⟨hset, by rwa [ObjectStore.size_set]⟩

theorem Issue.runsTo_toObjectsAll (options : ConversionOptions) (is : List Issue)
    (s : ObjectStore) : s.RunsTo (toObjectsAll options is s).2 ∧
      ∀ o ∈ (toObjectsAll options is s).1, o < (toObjectsAll options is s).2.size := by
  induction is generalizing s with
  | nil => exact ⟨.refl, by simp [toObjectsAll]⟩
  | cons i is ih =>
    obtain ⟨hrun, hlt⟩ := i.runsTo_toObject options s
    obtain ⟨hrest, hrestlt⟩ := ih (i.toObject options s).2
    refine ⟨hrun.trans hrest, fun o ho => ?_⟩
    rcases List.mem_cons.1 ho with rfl | ho
    · exact Nat.lt_of_lt_of_le hlt hrest.size_le
    · exact hrestlt o ho

theorem TreeResult.runsTo_storeIssues (options : ConversionOptions) (is : List Issue) {o : ObjectId}
    {s : ObjectStore} (ho : o < s.size) : s.RunsTo (storeIssues options is o s) := by
  obtain ⟨hrun, hlt⟩ := Issue.runsTo_toObjectsAll options is s
  exact hrun.set o "issues" (.containedMany _) (Nat.lt_of_lt_of_le ho hrun.size_le) hlt

theorem TreeResult.runsTo_toObject {r : TreeResult} {f : Forest} {m : Metamodel}
    {options : ConversionOptions} {s t : ObjectStore} {o : ObjectId}
    (h : r.toObject f m options s = (.ok o, t)) : s.RunsTo t := by
  obtain ⟨s₁, hs₁⟩ : ∃ s₁, s.newObject (.ast "Result") = (s.size, s₁) := ⟨_, rfl⟩
  obtain ⟨hnew, hlt⟩ := ObjectStore.runsTo_newObject hs₁
  simp only [TreeResult.toObject, hs₁] at h
  split at h
  · cases h
    exact hnew.trans (runsTo_storeIssues options r.issues hlt)
  · split at h
    · rename_i id t' hconv
      obtain ⟨hrun, hid⟩ := Forest.runsTo_toObjects hconv
      have hlt' : s.size < t'.size := Nat.lt_of_lt_of_le hlt hrun.size_le
      have hroot := (hnew.trans hrun).set s.size "root" (.contained id) hlt'
        (by simpa [FeatureValue.children] using hid)
      cases h
      exact hroot.trans (runsTo_storeIssues options r.issues (by rwa [ObjectStore.size_set]))
    · cases h

end TreeInterchange
