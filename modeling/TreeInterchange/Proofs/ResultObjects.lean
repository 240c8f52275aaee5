import TreeInterchange.Proofs.ConversionRuns
import TreeInterchange.Proofs.ConversionToObjects

/-!
# The objects that a result is converted to

The object of a result comes first, then the objects of its tree, then the objects of its issues,
each followed by the objects of its position. Every object holds exactly what was put into it.
-/

namespace TreeInterchange

open ToObjects

/-- How many objects are made for an issue: one, and three for its position. -/
def Issue.cost (i : Issue) : Nat := if i.position.isSome then 4 else 1

theorem Issue.cost_pos (i : Issue) : 0 < i.cost := by
  unfold cost
  split <;> omega

/-- The object of an issue: its four features, and nothing else. -/
structure IssueAt (t : ObjectStore) (x : Nat) (i : Issue) : Prop where
  type : (t.get x).type = .ast "Issue"
  values : ∀ g, t.value? x g =
    if g = "type" then some (.enumeration i.type.ordinal)
    else if g = "message" then some (.string i.message)
    else if g = "severity" then some (.enumeration i.severity.ordinal)
    else if g = "position" then i.position.map fun _ => .contained (x + 1) else none
  position : ∀ p, i.position = some p → PositionAt t (x + 1) p

theorem IssueAt.congr {s t : ObjectStore} {x : Nat} {i : Issue} (h : IssueAt s x i)
    (hsame : ∀ j, x ≤ j → j < x + i.cost →
      (t.get j).type = (s.get j).type ∧ (t.get j).values = (s.get j).values) : IssueAt t x i := by
  have hpos := i.cost_pos
  obtain ⟨htype, hvalues⟩ := hsame x (Nat.le_refl _) (by omega)
  refine ⟨htype.trans h.type, fun g => ?_, fun p hp => (h.position p hp).congr fun j h₁ h₂ => ?_⟩
  · rw [ObjectStore.value?, hvalues]
    exact h.values g
  · have hcost : i.cost = 4 := by simp [Issue.cost, hp]
    exact hsame j (by omega) (by omega)

namespace Issue

theorem carried_default (i : Issue) : i.carried .default = i.position := rfl

theorem storeScalars_spec (i : Issue) (s : ObjectStore) :
    (∀ j < s.size, (i.storeScalars s).get j = s.get j) ∧
    ((i.storeScalars s).get s.size).container = none ∧
    ((i.storeScalars s).get s.size).type = .ast "Issue" ∧
    ∀ g, (i.storeScalars s).value? s.size g =
      if g = "type" then some (.enumeration i.type.ordinal)
      else if g = "message" then some (.string i.message)
      else if g = "severity" then some (.enumeration i.severity.ordinal) else none := by
  obtain ⟨s₀, hs₀⟩ : ∃ s₀, s₀ = (s.newObject (.ast "Issue")).2 := ⟨_, rfl⟩
  obtain ⟨s₁, hs₁⟩ : ∃ s₁, s₁ = s₀.set s.size "type" (.enumeration i.type.ordinal) := ⟨_, rfl⟩
  obtain ⟨s₂, hs₂⟩ : ∃ s₂, s₂ = s₁.set s.size "message" (.string i.message) := ⟨_, rfl⟩
  obtain ⟨s₃, hs₃⟩ : ∃ s₃, s₃ = s₂.set s.size "severity" (.enumeration i.severity.ordinal) :=
    ⟨_, rfl⟩
  have hstore : i.storeScalars s = s₃ := by rw [hs₃, hs₂, hs₁, hs₀, storeScalars]
  have hlt : s.size < s₀.size := by simp [hs₀]
  have hlt₁ : s.size < s₁.size := by rwa [hs₁, ObjectStore.size_set]
  have hlt₂ : s.size < s₂.size := by rwa [hs₂, ObjectStore.size_set]
  have hempty : ∀ g, s₀.value? s.size g = none := by
    rw [hs₀]
    exact s.value?_newObject_self _
  obtain ⟨hvalue₁, hget₁, hsame₁⟩ := hs₁ ▸ s₀.set_flat (v := .enumeration i.type.ordinal) hlt rfl
    (hempty "type")
  have hnone₁ : s₁.value? s.size "message" = none := by rw [hvalue₁, hempty]; simp
  obtain ⟨hvalue₂, hget₂, hsame₂⟩ := hs₂ ▸ s₁.set_flat (v := .string i.message) hlt₁ rfl hnone₁
  have hnone₂ : s₂.value? s.size "severity" = none := by rw [hvalue₂, hvalue₁, hempty]; simp
  obtain ⟨hvalue₃, hget₃, hsame₃⟩ := hs₃ ▸ s₂.set_flat (v := .enumeration i.severity.ordinal) hlt₂
    rfl hnone₂
  rw [hstore]
  refine ⟨fun j hj => ?_, ?_, ?_, fun g => ?_⟩
  · have hne : j ≠ s.size := Nat.ne_of_lt hj
    rw [hget₃ j hne, hget₂ j hne, hget₁ j hne, hs₀, ObjectStore.get_newObject_of_lt _ hj]
  · rw [(hsame₃ _).2, (hsame₂ _).2, (hsame₁ _).2, hs₀, ObjectStore.get_newObject_self]
    rfl
  · rw [(hsame₃ _).1, (hsame₂ _).1, (hsame₁ _).1, hs₀, ObjectStore.get_newObject_self]
    rfl
  · rw [hvalue₃, hvalue₂, hvalue₁, hempty]
    by_cases htype : g = "type"
    · simp [htype]
    by_cases hmessage : g = "message"
    · simp [hmessage]
    · simp [htype, hmessage]

theorem toObject_spec (i : Issue) (s : ObjectStore) :
    (i.toObject .default s).1 = s.size ∧ (i.toObject .default s).2.size = s.size + i.cost ∧
    (∀ j < s.size, (i.toObject .default s).2.get j = s.get j) ∧
    ((i.toObject .default s).2.get s.size).container = none ∧
    IssueAt (i.toObject .default s).2 s.size i := by
  obtain ⟨hkept, hfree, htype, hvalues⟩ := i.storeScalars_spec s
  obtain ⟨s₁, hs₁⟩ : ∃ s₁, s₁ = i.storeScalars s := ⟨_, rfl⟩
  have hsize : s₁.size = s.size + 1 := by rw [hs₁, size_storeScalars]
  rw [← hs₁] at hkept hfree htype hvalues
  cases hp : i.position with
  | none =>
    have hmade : i.toObject .default s = (s.size, s₁) := by
      rw [toObject_of_none s (i.carried_default.trans hp), hs₁]
    rw [hmade]
    refine ⟨rfl, by simp [hsize, cost, hp], hkept, hfree, htype, fun g => ?_, by simp [hp]⟩
    rw [hvalues, hp]
    simp
  | some p =>
    obtain ⟨hid, hsize₂, hkept₂, hfree₂, hposition⟩ := positionObject_spec s₁ p
    obtain ⟨s₂, hs₂⟩ : ∃ s₂, s₂ = (positionObject p s₁).2 := ⟨_, rfl⟩
    obtain ⟨s₃, hs₃⟩ : ∃ s₃, s₃ = s₂.set s.size "position" (.contained (s.size + 1)) := ⟨_, rfl⟩
    rw [← hs₂, hsize] at hsize₂ hkept₂ hfree₂ hposition
    have hmade : i.toObject .default s = (s.size, s₃) := by
      rw [toObject_of_some s (i.carried_default.trans hp), ← hs₁, hid, hsize, ← hs₂, hs₃]
    have hgetx : s₂.get s.size = s₁.get s.size := hkept₂ _ (Nat.lt_succ_self _)
    have hvaluex : ∀ g, s₂.value? s.size g = s₁.value? s.size g := by
      intro g
      rw [ObjectStore.value?, hgetx]
      rfl
    have hnone : s₂.value? s.size "position" = none := by
      rw [hvaluex, hvalues]
      simp
    have hlt : s.size < s₂.size := by omega
    have hne : s.size ≠ s.size + 1 := by omega
    obtain ⟨hvalue₃, hother₃, hcont₃, hrest₃⟩ := hs₃ ▸ s₂.set_contained hlt hne hfree₂ hnone
    rw [hmade]
    refine ⟨rfl, ?_, fun j hj => ?_, ?_, ?_, fun g => ?_, fun q hq => ?_⟩
    · simp [hs₃, hsize₂, cost, hp]
    · rw [hother₃ j (by omega) (by omega), hkept₂ j (by omega), hkept j hj]
    · rw [hcont₃, hgetx, hfree]
    · rw [(hrest₃ _).1, hgetx, htype]
    · rw [hvalue₃, hvaluex, hvalues, hp]
      by_cases hposition : g = "position"
      · simp [hposition]
      · simp [hposition]
    · obtain rfl : p = q := Option.some.inj (hp.symm.trans hq)
      exact hposition.congr fun j h₁ h₂ => ⟨(hrest₃ j).1, (hrest₃ j).2 (by omega)⟩

theorem toObjectsAll_spec (is : List Issue) (s : ObjectStore) :
    (∀ j < s.size, (toObjectsAll .default is s).2.get j = s.get j) ∧
    s.size ≤ (toObjectsAll .default is s).2.size ∧ (toObjectsAll .default is s).1.Nodup ∧
    (∀ x ∈ (toObjectsAll .default is s).1, s.size ≤ x ∧
      ((toObjectsAll .default is s).2.get x).container = none) ∧
    List.Forall₂ (IssueAt (toObjectsAll .default is s).2) (toObjectsAll .default is s).1 is := by
  induction is generalizing s with
  | nil => exact ⟨fun _ _ => rfl, Nat.le_refl _, List.nodup_nil, by simp [toObjectsAll], .nil⟩
  | cons i is ih =>
    obtain ⟨hid, hsize, hkept, hfree, hissue⟩ := i.toObject_spec s
    obtain ⟨s₁, hs₁⟩ : ∃ s₁, s₁ = (i.toObject .default s).2 := ⟨_, rfl⟩
    obtain ⟨hkept', hsize', hnodup, hfrees, hissues⟩ := ih s₁
    obtain ⟨ids, t, ht⟩ : ∃ ids t, toObjectsAll .default is s₁ = (ids, t) := ⟨_, _, rfl⟩
    have hmade : toObjectsAll .default (i :: is) s = (s.size :: ids, t) := by
      rw [toObjectsAll]
      simp only [hid, ← hs₁, ht]
    have hpos := i.cost_pos
    rw [← hs₁] at hsize hkept hfree hissue
    rw [ht] at hkept' hsize' hnodup hfrees hissues
    rw [hmade]
    refine ⟨fun j hj => ?_, ?_, ?_, fun x hx => ?_, .cons ?_ hissues⟩
    · rw [hkept' j (by omega), hkept j hj]
    · exact Nat.le_trans (by omega) hsize'
    · refine List.nodup_cons.2 ⟨fun hm => ?_, hnodup⟩
      have hle := (hfrees _ hm).1
      omega
    · rcases List.mem_cons.1 hx with rfl | hx
      · rw [hkept' _ (by omega)]
        exact ⟨Nat.le_refl _, hfree⟩
      · have hx' := hfrees x hx
        exact ⟨by omega, hx'.2⟩
    · apply hissue.congr
      intro j h₁ h₂
      rw [hkept' j (by omega)]
      exact ⟨rfl, rfl⟩

end Issue

/-- The object of a result: its tree, numbered after it, and its issues, and nothing else. -/
structure ResultAt (r : TreeResult) (f : Forest) (m : Metamodel) (uri : String) (φ : NodeId → Nat)
    (ids : List Nat) (t : ObjectStore) (o : Nat) : Prop where
  present : o < t.size
  type : (t.get o).type = .ast "Result"
  values : ∀ g, t.value? o g =
    if g = "root" then r.root.map fun n => .contained (φ n)
    else if g = "issues" then some (.containedMany ids) else none
  numbered : ∀ n ∈ r.root, Numbered φ (cost f) (o + 1) (f.walk n)
  nodes : ∀ n ∈ r.root, ∀ y ∈ f.walk n, Shows m f uri φ (fullView φ) t y
  after : ∀ x ∈ ids, o < x
  nodup : ids.Nodup
  issues : List.Forall₂ (IssueAt t) ids r.issues

theorem TreeResult.storeIssues_spec (is : List Issue) {s : ObjectStore} {o : Nat} (ho : o < s.size)
    (hnone : s.value? o "issues" = none) : ∃ ids : List Nat,
      s.size ≤ (storeIssues .default is o s).size ∧
      ((storeIssues .default is o s).get o).type = (s.get o).type ∧
      (∀ g, (storeIssues .default is o s).value? o g =
        if g = "issues" then some (.containedMany ids) else s.value? o g) ∧
      (∀ j < s.size, j ≠ o → (storeIssues .default is o s).get j = s.get j) ∧
      (∀ x ∈ ids, s.size ≤ x) ∧ ids.Nodup ∧
      List.Forall₂ (IssueAt (storeIssues .default is o s)) ids is := by
  obtain ⟨hkept, hsize, hnodup, hfree, hissues⟩ := Issue.toObjectsAll_spec is s
  obtain ⟨ids, s₁, hs₁⟩ : ∃ ids s₁, Issue.toObjectsAll .default is s = (ids, s₁) := ⟨_, _, rfl⟩
  rw [hs₁] at hkept hsize hnodup hfree hissues
  have hstored : storeIssues .default is o s = s₁.set o "issues" (.containedMany ids) := by
    simp only [storeIssues, hs₁]
  have hlt : o < s₁.size := Nat.lt_of_lt_of_le ho hsize
  have hgeto : s₁.get o = s.get o := hkept o ho
  have hempty : s₁.contentsIn o "issues" = [] := by
    apply ObjectStore.contentsIn_eq_nil
    rw [ObjectStore.value?, hgeto]
    exact hnone
  have hfree' : ∀ c ∈ (FeatureValue.containedMany ids).children, (s₁.get c).container = none :=
    fun c hc => (hfree c hc).2
  have hset := ObjectStore.set_fresh (v := .containedMany ids) hnodup hfree' hempty
  have hvalue := ObjectStore.value?_set_fresh (v := .containedMany ids) hnodup hfree' hempty
  rw [hstored]
  refine ⟨ids, by rwa [ObjectStore.size_set], ?_, fun g => ?_, fun j hj hjo => ?_,
    fun x hx => (hfree x hx).1, hnodup, ?_⟩
  · rw [(hset o).1, hgeto]
  · rw [hvalue]
    by_cases hg : g = "issues"
    · simp [hg, hlt]
    · simp [hg, ObjectStore.value?, hgeto]
  · have hnot : j ∉ (FeatureValue.containedMany ids).children := fun hm =>
      Nat.not_lt_of_le (hfree j hm).1 hj
    rw [ObjectStore.get_set_fresh (v := .containedMany ids) hnodup hfree' hempty hjo hnot,
      hkept j hj]
  · -- the objects of the issues come after that of the result, which alone gets a value
    refine ((List.forall₂_and_left ids is).2 ⟨fun x hx => (hfree x hx).1, hissues⟩).imp
      fun x i h => h.2.congr fun j h₁ h₂ => ?_
    have hne : ¬ (j = o ∧ o < s₁.size) := by
      have hle := h.1
      omega
    obtain ⟨ht, hv, -⟩ := hset j
    rw [if_neg hne] at hv
    exact ⟨ht, hv⟩

variable {c : TypeCatalog} {package uri : String} {f : Forest}

/-- A conversion of a result that succeeds leaves its object, with everything in it. -/
theorem TreeResult.resultAt_toObject {r : TreeResult} (hc : c.WellKept)
    (hu : Derivation.Fresh package uri) (hf : f.IsForest)
    (hr : ∀ n ∈ r.root, Convertible c package f n) {s t : ObjectStore} {o : ObjectId}
    (h : r.toObject f (Derivation.model c package uri) .default s = (.ok o, t)) :
    ∃ φ ids, ResultAt r f (Derivation.model c package uri) uri φ ids t o := by
  obtain ⟨s₁, hs₁⟩ : ∃ s₁, s.newObject (.ast "Result") = (s.size, s₁) := ⟨_, rfl⟩
  have hnew : s₁ = (s.newObject (.ast "Result")).2 := by rw [hs₁]
  have hsize₁ : s₁.size = s.size + 1 := by simp [hnew]
  have hget₁ : s₁.get s.size = .ofType (.ast "Result") := by
    rw [hnew, ObjectStore.get_newObject_self]
  have hempty : ∀ g, s₁.value? s.size g = none := by
    rw [hnew]
    exact s.value?_newObject_self _
  simp only [toObject, hs₁] at h
  cases hroot : r.root with
  | none =>
    simp only [hroot, Prod.mk.injEq, Except.ok.injEq] at h
    obtain ⟨rfl, rfl⟩ := h
    obtain ⟨ids, hsize, htype, hvalues, -, hafter, hnodup, hissues⟩ :=
      storeIssues_spec r.issues (by omega) (hempty "issues")
    refine ⟨fun _ => 0, ids, by omega, ?_, fun g => ?_, by simp [hroot], by simp [hroot],
      fun x hx => ?_, hnodup, hissues⟩
    · rw [htype, hget₁]
      rfl
    · rw [hvalues, hempty, hroot]
      by_cases hg : g = "issues"
      · simp [hg]
      · simp [hg]
    · have hle := hafter x hx
      omega
  | some n =>
    obtain ⟨outcome, s₂, hconv⟩ : ∃ outcome s₂,
      f.toObjects n (Derivation.model c package uri) .default s₁ = (outcome, s₂) := ⟨_, _, rfl⟩
    simp only [hroot, hconv] at h
    cases outcome with
    | error e => cases h
    | ok id =>
      simp only [Prod.mk.injEq, Except.ok.injEq] at h
      obtain ⟨rfl, rfl⟩ := h
      have hn := hr n hroot
      obtain ⟨φ, st, rfl, rfl, hnum, hdone⟩ := settled_toObjects hc hu hf hn hconv
      have hbounds := hdone.bounds hnum (hf.self_mem_walk hn.present)
      have hpos := cost_pos (f := f) n
      have hgeto : st.store.get s.size = s₁.get s.size := hdone.kept _ (by omega)
      have hvalueo : ∀ g, st.store.value? s.size g = none := by
        intro g
        rw [ObjectStore.value?, hgeto]
        exact hempty g
      have hlt : s.size < st.store.size := by omega
      have hne : s.size ≠ φ n := by omega
      obtain ⟨s₃, hs₃⟩ : ∃ s₃, s₃ = st.store.set s.size "root" (.contained (φ n)) := ⟨_, rfl⟩
      obtain ⟨hvalue₃, -, -, hrest₃⟩ := hs₃ ▸ st.store.set_contained hlt hne hdone.free
        (hvalueo "root")
      have hsize₃ : s₃.size = st.store.size := by rw [hs₃, ObjectStore.size_set]
      have hnone₃ : s₃.value? s.size "issues" = none := by
        rw [hvalue₃, hvalueo]
        simp
      obtain ⟨ids, hsize, htype, hvalues, hkept, hafter, hnodup, hissues⟩ :=
        storeIssues_spec r.issues (by omega) hnone₃
      rw [← hs₃]
      rw [hsize₁] at hnum
      refine ⟨φ, ids, by omega, ?_, fun g => ?_, ?_, ?_, fun x hx => ?_, hnodup, hissues⟩
      · rw [htype, (hrest₃ _).1, hgeto, hget₁]
        rfl
      · rw [hvalues, hvalue₃, hvalueo, hroot]
        by_cases hg : g = "issues"
        · simp [hg]
        · simp [hg]
      · rintro k hk
        cases hroot.symm.trans hk
        exact hnum
      · rintro k hk y hy
        cases hroot.symm.trans hk
        have hy' := hdone.bounds (hsize₁ ▸ hnum) hy
        refine (hdone.shows hy).congr fun j h₁ h₂ => ?_
        rw [hkept j (by omega) (by omega)]
        exact ⟨(hrest₃ j).1, (hrest₃ j).2 (by omega)⟩
      · have hle := hafter x hx
        omega

end TreeInterchange
