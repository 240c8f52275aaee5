import Mathlib.Logic.Relation
import TreeInterchange.Proofs.SupertypeOrders
import TreeInterchange.Proofs.UnambiguousFeatures

/-!
# What the searches for a supertype find

A search goes past points without meeting its goal, and whatever such a point leads to it has
gone past as well or still has pending. A way from one of these points to the goal therefore
passes through a pending point. So the search finds the goal just when a way leads to it from
a pending point, on cyclic graphs as well.

For a class this is the way through supertypes, for a node type the way through its supertype
and its tags.
-/

namespace TreeInterchange

namespace Reachability

universe u

variable {κ : Type u} {next : κ → List κ} {support : List κ} {goal a b : κ}

/-- One step of a way: a point that may have successors leads to each of them. -/
def Leads (next : κ → List κ) (support : List κ) (a b : κ) : Prop := a ∈ support ∧ b ∈ next a

/-- A way of zero or more steps. -/
def Way (next : κ → List κ) (support : List κ) : κ → κ → Prop :=
  Relation.ReflTransGen (Leads next support)

/-- The search has gone past the points of `past`, and what they lead to is pending. -/
structure Explored (next : κ → List κ) (support : List κ) (goal : κ) (pending : List κ)
    (past : κ → Prop) : Prop where
  missed : ¬ past goal
  covered : ∀ a b, past a → Leads next support a b → past b ∨ b ∈ pending

variable {pending pending' seen : List κ} {past : κ → Prop}

theorem Explored.exists_pending (h : Explored next support goal pending past) (ha : past a)
    (hway : Way next support a goal) : ∃ b ∈ pending, Way next support b goal := by
  induction hway using Relation.ReflTransGen.head_induction_on with
  | refl => exact absurd ha h.missed
  | head hstep hrest ih =>
    rcases h.covered _ _ ha hstep with hpast | hpending
    · exact ih hpast
    · exact ⟨_, hpending, hrest⟩

theorem Explored.skip (h : Explored next support goal (a :: pending) past) (ha : past a) :
    Explored next support goal pending past where
  missed := h.missed
  covered x y hx hy := by
    rcases h.covered x y hx hy with hpast | hpending
    · exact .inl hpast
    · rcases List.mem_cons.1 hpending with rfl | hmem
      · exact .inl ha
      · exact .inr hmem

/-- The search goes past a pending point once what the point leads to is pending. -/
theorem Explored.pass (h : Explored next support goal (a :: pending) past) (hne : a ≠ goal)
    (hnext : ∀ b, Leads next support a b → b ∈ pending') (hsub : pending ⊆ pending') :
    Explored next support goal pending' fun x => x = a ∨ past x where
  missed hgoal := hgoal.elim (fun he => hne he.symm) h.missed
  covered x y hx hy := by
    rcases hx with rfl | hx
    · exact .inr (hnext y hy)
    · rcases h.covered x y hx hy with hpast | hpending
      · exact .inl (.inr hpast)
      · exact (List.mem_cons.1 hpending).imp .inl fun hmem => hsub hmem

theorem way_iff (h : ∀ a, next a ≠ [] → a ∈ support) :
    Way next support a b ↔ Relation.ReflTransGen (fun x y => y ∈ next x) a b := by
  have hsteps : Leads next support = fun x y => y ∈ next x := by
    funext x y
    exact propext ⟨And.right, fun hy => ⟨h x (List.ne_nil_of_mem hy), hy⟩⟩
  rw [Way, hsteps]

variable [DecidableEq κ]

/-- The search succeeds just when a way leads from a pending point to the goal. -/
theorem search_iff (h : Explored next support goal pending past) (hseen : ∀ a ∈ seen, past a) :
    search next support goal pending seen = true ↔ ∃ a ∈ pending, Way next support a goal := by
  fun_induction search next support goal pending seen generalizing past with
  | case1 => simp
  | case2 pending seen => simpa using .inl .refl
  | case3 a pending seen hne ha ih =>
    rw [ih (h.skip (hseen a ha)) hseen, List.exists_mem_cons_iff]
    exact ⟨.inr, fun hway => hway.elim ((h.skip (hseen a ha)).exists_pending (hseen a ha)) id⟩
  | case4 a pending seen hne ha hs ih =>
    have hpass := h.pass hne (fun b hb => List.mem_append_left pending hb.2)
      (List.subset_append_right (next a) pending)
    have hseen' : ∀ x ∈ a :: seen, x = a ∨ past x :=
      List.forall_mem_cons.2 ⟨.inl rfl, fun x hx => .inr (hseen x hx)⟩
    rw [ih hpass hseen']
    constructor
    · rintro ⟨b, hb, hway⟩
      rcases List.mem_append.1 hb with hb | hb
      · exact ⟨a, List.mem_cons_self, .head ⟨hs, hb⟩ hway⟩
      · exact ⟨b, List.mem_cons_of_mem a hb, hway⟩
    · rintro ⟨b, hb, hway⟩
      rcases List.mem_cons.1 hb with rfl | hb
      · exact hpass.exists_pending (.inl rfl) hway
      · exact ⟨b, List.mem_append_right (next a) hb, hway⟩
  | case5 a pending seen hne ha hs ih =>
    have hpass := h.pass hne (fun b hb => absurd hb.1 hs) (List.Subset.refl pending)
    rw [ih hpass fun x hx => .inr (hseen x hx), List.exists_mem_cons_iff]
    exact ⟨.inr, fun hway => hway.elim (hpass.exists_pending (.inl rfl)) id⟩

theorem reaches_iff : reaches next support a b = true ↔ Way next support a b := by
  have hstart : Explored next support b [a] fun _ => False := ⟨id, fun _ _ h => h.elim⟩
  rw [reaches, search_iff hstart (by simp)]
  simp

end Reachability

theorem Metamodel.isSubclass_iff {m : Metamodel} {sub sup : ClassifierRef} :
    m.isSubclass sub sup = true ↔ m.Inherits sub sup := by
  rw [isSubclass, Reachability.reaches_iff, Reachability.way_iff, Inherits]
  intro c hc
  cases hd : m.class? c with
  | none => simp [supertypes, hd] at hc
  | some d => exact mem_classifierKeys hd

/-- A type or one of those that it names as its supertype or a tag, at any distance. -/
def TypeCatalog.Descends (c : TypeCatalog) : QualifiedName → QualifiedName → Prop :=
  Relation.ReflTransGen fun sub sup => sup ∈ c.parents sub

theorem TypeCatalog.isSubtype_iff {c : TypeCatalog} {sub sup : QualifiedName} :
    c.isSubtype sub sup = true ↔ c.Descends sub sup := by
  rw [isSubtype, Reachability.reaches_iff, Reachability.way_iff, Descends]
  intro n hn
  cases ht : c.get? n with
  | none => simp [parents, ht] at hn
  | some t => exact Table.mem_keys_iff.2 ⟨t, ht⟩

end TreeInterchange
