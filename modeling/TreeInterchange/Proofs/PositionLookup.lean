import TreeInterchange.Forest.Comparison
import TreeInterchange.Proofs.ForestRuns
import TreeInterchange.Proofs.ForestWalks
import TreeInterchange.Proofs.TraceNavigation

/-!
# Looking up a position

The look-up is a loop: as long as a child of the current node covers the query, the first such
child is entered. On a finite tree the loop ends, at a node that covers the query and has no
child that does. It commits to the first child and never comes back, so in general it may miss
nodes that cover the query elsewhere. It misses none where positions are nested: then a node that
covers the query stands below nodes that all cover it, and if siblings do not compete, these are
the nodes that the loop goes through.
-/

namespace TreeInterchange

namespace Locating

universe u

variable {α : Type u} {position : α → Option Position} {children : α → List α} {query : Position}
  {a b c r root n : α}

theorem covers_iff : covers position query a = true ↔
    ∃ p, position a = some p ∧ p.contains query = true := by
  unfold covers
  cases position a <;> simp

theorem covers_eq_false_iff : covers position query a = false ↔
    position a = none ∨ ∃ p, position a = some p ∧ p.contains query = false := by
  unfold covers
  cases position a <;> simp

/-- The node at which the loop ends that enters, from `a` on, the first child that covers the
query. -/
inductive Arrives (position : α → Option Position) (children : α → List α) (query : Position) :
    α → α → Prop
  | stay {a : α} (h : (children a).find? (covers position query) = none) :
      Arrives position children query a a
  | enter {a c r : α} (h : (children a).find? (covers position query) = some c)
      (rest : Arrives position children query c r) : Arrives position children query a r

/-- `b` is `a` or stands below it, at any depth. -/
def AtOrBelow (children : α → List α) : α → α → Prop :=
  Relation.ReflTransGen fun x y => y ∈ children x

theorem arrives_descend {depth : Nat} (h : HeightAtMost children depth a) :
    Arrives position children query a (descend position children query depth a) := by
  induction depth generalizing a with
  | zero => exact h.elim
  | succ depth ih =>
    unfold descend
    split
    · rename_i c hc
      exact .enter hc (ih (h c (List.mem_of_find?_eq_some hc)))
    · rename_i hnone
      exact .stay hnone

theorem descend_of_find?_eq_none (h : (children a).find? (covers position query) = none)
    (depth : Nat) : descend position children query depth a = a := by
  cases depth with
  | zero => rfl
  | succ depth => rw [descend, h]

namespace Arrives

theorem covers (h : Arrives position children query a r)
    (ha : Locating.covers position query a = true) : Locating.covers position query r = true := by
  induction h with
  | stay _ => exact ha
  | enter hc _ ih => exact ih (List.find?_some hc)

theorem atOrBelow (h : Arrives position children query a r) : AtOrBelow children a r := by
  induction h with
  | stay _ => exact .refl
  | enter hc _ ih => exact .head (List.mem_of_find?_eq_some hc) ih

theorem find?_eq_none (h : Arrives position children query a r) :
    (children r).find? (Locating.covers position query) = none := by
  induction h with
  | stay h => exact h
  | enter _ _ ih => exact ih

end Arrives

/-- From `root` down every position lies within the one above it, and siblings do not both cover
the query. -/
structure Nested (position : α → Option Position) (children : α → List α) (query : Position)
    (root : α) : Prop where
  within : ∀ a, AtOrBelow children root a → ∀ c ∈ children a,
    ∃ outer inner, position a = some outer ∧ position c = some inner ∧ outer.contains inner = true
  apart : ∀ a, AtOrBelow children root a → ∀ c ∈ children a, ∀ d ∈ children a,
    covers position query c = true → covers position query d = true → c = d

theorem Nested.of_mem (h : Nested position children query a) (hc : c ∈ children a) :
    Nested position children query c :=
  ⟨fun b hb => h.within b (.head hc hb), fun b hb => h.apart b (.head hc hb)⟩

theorem Nested.covers_parent (h : Nested position children query a) (hc : c ∈ children a)
    (hcov : covers position query c = true) : covers position query a = true := by
  obtain ⟨outer, inner, houter, hinner, hin⟩ := h.within a .refl c hc
  obtain ⟨p, hp, hq⟩ := covers_iff.1 hcov
  obtain rfl : inner = p := Option.some.inj (hinner.symm.trans hp)
  exact covers_iff.2 ⟨outer, houter, Position.contains_trans hin hq⟩

theorem Nested.covers_above (h : Nested position children query a) (hn : AtOrBelow children a n)
    (hcov : covers position query n = true) : covers position query a = true := by
  induction hn using Relation.ReflTransGen.head_induction_on with
  | refl => exact hcov
  | head hc _ ih => exact h.covers_parent hc (ih (h.of_mem hc))

/-- The loop goes through every node that covers the query. -/
theorem Nested.atOrBelow_arrived (h : Nested position children query a)
    (harrives : Arrives position children query a r) (hn : AtOrBelow children a n)
    (hcov : covers position query n = true) : AtOrBelow children n r := by
  induction harrives with
  | @stay a hnone =>
    rcases Relation.ReflTransGen.cases_head hn with rfl | ⟨c, hc, hcn⟩
    · exact .refl
    · have hc' := (h.of_mem hc).covers_above hcn hcov
      exact absurd hc' (List.find?_eq_none.1 hnone c hc)
  | @enter a c r hfirst hrest ih =>
    have hc := List.mem_of_find?_eq_some hfirst
    rcases Relation.ReflTransGen.cases_head hn with rfl | ⟨d, hd, hdn⟩
    · exact .head hc hrest.atOrBelow
    -- the child on the way to `n` covers the query as well, so it is the one that is entered
    · have hd' := (h.of_mem hd).covers_above hdn hcov
      obtain rfl := h.apart a .refl c hc d hd (List.find?_some hfirst) hd'
      exact ih (h.of_mem hc) hdn

/-- What it means that `find` looks up a query from `root` down. -/
structure Locates (position : α → Option Position) (children : α → List α) (query : Position)
    (find : α → Option α) (root : α) : Prop where
  /-- Nothing is found just if the query does not lie within the root. -/
  none_iff : find root = none ↔
    position root = none ∨ ∃ p, position root = some p ∧ p.contains query = false
  /-- What is found is where the loop ends. -/
  arrives : ∀ r, find root = some r → Arrives position children query root r
  /-- It belongs to the tree. -/
  below : ∀ r, find root = some r → AtOrBelow children root r
  /-- The query lies within it, -/
  contains : ∀ r, find root = some r → ∃ p, position r = some p ∧ p.contains query = true
  /-- and within none of its children. -/
  innermost : ∀ r, find root = some r → ∀ c ∈ children r, ∀ p, position c = some p →
    p.contains query = false
  /-- Looking again from there leads nowhere else. -/
  again : ∀ r, find root = some r → find r = some r
  /-- Where positions are nested, whatever the query lies within is above it. -/
  deepest : Nested position children query root → ∀ r, find root = some r →
    ∀ n, AtOrBelow children root n → (∃ p, position n = some p ∧ p.contains query = true) →
      AtOrBelow children n r

theorem find?_eq_some_iff {depth : Nat} : find? position children depth root query = some r ↔
    covers position query root = true ∧ descend position children query depth root = r := by
  unfold find?
  split <;> simp_all

theorem locates_find? {depth : Nat} (h : HeightAtMost children depth root) :
    Locates position children query (find? position children depth · query) root := by
  have harrives : ∀ r, find? position children depth root query = some r →
      covers position query root = true ∧ Arrives position children query root r := by
    intro r hr
    obtain ⟨hcov, rfl⟩ := find?_eq_some_iff.1 hr
    exact ⟨hcov, arrives_descend h⟩
  constructor
  · rw [← covers_eq_false_iff, find?]
    cases covers position query root <;> simp
  · exact fun r hr => (harrives r hr).2
  · exact fun r hr => (harrives r hr).2.atOrBelow
  · exact fun r hr => covers_iff.1 ((harrives r hr).2.covers (harrives r hr).1)
  · intro r hr c hc p hp
    have hnot := List.find?_eq_none.1 (harrives r hr).2.find?_eq_none c hc
    simpa [covers, hp] using hnot
  · intro r hr
    obtain ⟨hcov, hway⟩ := harrives r hr
    exact find?_eq_some_iff.2 ⟨hway.covers hcov, descend_of_find?_eq_none hway.find?_eq_none depth⟩
  · intro hnested r hr n hn hcov
    exact hnested.atOrBelow_arrived (harrives r hr).2 hn (covers_iff.2 hcov)

theorem Locates.congr {find find' : α → Option α} (h : Locates position children query find root)
    (heq : ∀ a, AtOrBelow children root a → find' a = find a) :
    Locates position children query find' root := by
  have hroot := heq root .refl
  constructor
  · rw [hroot]
    exact h.none_iff
  · exact fun r hr => h.arrives r (hroot ▸ hr)
  · exact fun r hr => h.below r (hroot ▸ hr)
  · exact fun r hr => h.contains r (hroot ▸ hr)
  · exact fun r hr => h.innermost r (hroot ▸ hr)
  · intro r hr
    rw [hroot] at hr
    rw [heq r (h.below r hr)]
    exact h.again r hr
  · exact fun hnested r hr => h.deepest hnested r (hroot ▸ hr)

theorem find?_map {β : Type u} (position' : β → Option Position) (children' : β → List β)
    (φ : α → β) (hposition : ∀ x, position' (φ x) = position x)
    (hchildren : ∀ x, children' (φ x) = (children x).map φ) (depth : Nat) (root : α) :
    find? position' children' depth (φ root) query =
      (find? position children depth root query).map φ := by
  have hcovers : ∀ x, covers position' query (φ x) = covers position query x := fun x => by
    rw [covers, hposition, covers]
  have hdescend : ∀ x, descend position' children' query depth (φ x) =
      φ (descend position children query depth x) := by
    induction depth with
    | zero => exact fun _ => rfl
    | succ depth ih =>
      intro x
      have hfirst : (children' (φ x)).find? (covers position' query) =
          ((children x).find? (covers position query)).map φ := by
        rw [hchildren, List.find?_map, Function.comp_def, funext hcovers]
      simp only [descend, hfirst]
      cases (children x).find? (covers position query) with
      | none => rfl
      | some c => exact ih c
  simp only [find?, hcovers, hdescend]
  split <;> rfl

end Locating

theorem TraceNode.findByPosition_eq (n : TraceNode) (query : Position) :
    n.findByPosition query =
      Locating.find? position? (·.children none) n.trace.store.size n query :=
  (Locating.find?_map position? (·.children none) (fun x => { n with object := x })
    (fun _ => rfl) (fun _ => rfl) n.trace.store.size n.object).symm

theorem TraceNode.trace_of_atOrBelow {n w : TraceNode}
    (h : Locating.AtOrBelow (·.children none) n w) : w.trace = n.trace := by
  induction h with
  | refl => rfl
  | tail _ hc ih =>
    obtain ⟨x, -, rfl⟩ := Trace.exists_of_mem_children hc
    exact ih

theorem Trace.Closed.heightAtMost {t : Trace} (h : t.Closed) {n : TraceNode} (hn : n.trace = t)
    (hobject : n.object < t.store.size) :
    HeightAtMost (TraceNode.children · none) t.store.size n := by
  subst hn
  have hobjects : HeightAtMost (n.trace.children · none) n.trace.store.size n.object :=
    heightAtMost_congr (fun x _ _ hc => mem_contents_of_mem_children hc)
      (h.layered.heightAtMost hobject)
  exact hobjects.map (fun x => ({ n with object := x } : TraceNode)) fun _ _ => rfl

theorem Trace.Closed.locates {t : Trace} (h : t.Closed) {n : TraceNode} (hn : n.trace = t)
    (hobject : n.object < t.store.size) (query : Position) :
    Locating.Locates TraceNode.position? (·.children none) query (·.findByPosition query) n := by
  refine (Locating.locates_find? (h.heightAtMost hn hobject)).congr fun w hw => ?_
  rw [TraceNode.findByPosition_eq, TraceNode.trace_of_atOrBelow hw, hn]

/-- A look-up by position ends on every finite tree and finds the deepest node that contains the
query: on any tree with a bound on its height, on the tree of any node of a forest that edits have
built, and on the tree of any object of a loaded trace. -/
theorem locates_position (query : Position) :
    (∀ (α : Type) (position : α → Option Position) (children : α → List α) (depth : Nat) (root : α),
      HeightAtMost children depth root → Locating.Locates position children query
        (Locating.find? position children depth · query) root) ∧
    (∀ f, Forest.Reachable f → ∀ id < f.size,
      Locating.Locates f.position f.children query (f.findByPosition · query) id) ∧
    ∀ m bytes t, Trace.ofBytes m bytes = .ok t →
      ∀ n : TraceNode, n.trace = t → n.object < t.store.size →
        Locating.Locates TraceNode.position? (·.children none) query
          (·.findByPosition query) n := by
  refine ⟨fun α position children depth root h => Locating.locates_find? h, fun f hf id hid => ?_,
    fun m bytes t ht n hn hobject => (Trace.closed_ofBytes ht).locates hn hobject query⟩
  exact Locating.locates_find? (hf.isForest.heightAtMost hid)

/-- Boxes with the lines that they take up, each within the box around it. -/
def placedBoxes : Forest :=
  ((Forest.boxes.setPosition 0 (some ⟨⟨1, 0⟩, ⟨9, 0⟩⟩)).setPosition 1
    (some ⟨⟨2, 0⟩, ⟨5, 0⟩⟩)).setPosition 2 (some ⟨⟨6, 0⟩, ⟨8, 0⟩⟩)

theorem reachable_placedBoxes : placedBoxes.Reachable := by
  have h0 := Forest.Reachable.step (.setPosition 0 (some ⟨⟨1, 0⟩, ⟨9, 0⟩⟩)) Forest.reachable_boxes
    ⟨by simp, by decide⟩ (by decide)
  have h1 := Forest.Reachable.step (.setPosition 1 (some ⟨⟨2, 0⟩, ⟨5, 0⟩⟩)) h0 ⟨by simp, by decide⟩
    (by decide)
  exact Forest.Reachable.step (.setPosition 2 (some ⟨⟨6, 0⟩, ⟨8, 0⟩⟩)) h1 ⟨by simp, by decide⟩
    (by decide)

/-- The third line lies in the second box and in the box around it. The root of the source of a
trace without positions covers nothing. -/
theorem locates_third_line :
    (placedBoxes.Reachable ∧
      Locating.Nested placedBoxes.position placedBoxes.children ⟨⟨3, 1⟩, ⟨3, 7⟩⟩ 0 ∧
      placedBoxes.findByPosition 0 ⟨⟨3, 1⟩, ⟨3, 7⟩⟩ = some 1 ∧
      placedBoxes.findByPosition 1 ⟨⟨3, 1⟩, ⟨3, 7⟩⟩ = some 1 ∧
      Locating.AtOrBelow placedBoxes.children 0 1) ∧
    ∃ t, Trace.ofBytes Trace.itemModel Trace.itemTrace.toUTF8 = .ok t ∧
      (t.rootNode .source).findByPosition ⟨⟨3, 1⟩, ⟨3, 7⟩⟩ = none := by
  obtain ⟨-, hforest, htrace⟩ := locates_position ⟨⟨3, 1⟩, ⟨3, 7⟩⟩
  refine ⟨⟨reachable_placedBoxes, ?_⟩, ?_⟩
  · have hin : ∀ a, Locating.AtOrBelow placedBoxes.children 0 a → a ∈ [0, 1, 2] := by
      intro a ha
      induction ha with
      | refl => decide
      | tail _ hc ih =>
        have hclosed : ∀ x ∈ [0, 1, 2], ∀ y ∈ placedBoxes.children x, y ∈ [0, 1, 2] := by decide
        exact hclosed _ ih _ hc
    have hnested : Locating.Nested placedBoxes.position placedBoxes.children
        ⟨⟨3, 1⟩, ⟨3, 7⟩⟩ 0 := by
      refine ⟨fun a ha c hc => ?_, fun a ha => ?_⟩
      · have hwithin : ∀ a ∈ [0, 1, 2], ∀ c ∈ placedBoxes.children a,
            ((placedBoxes.position a).any fun outer =>
              (placedBoxes.position c).any outer.contains) = true := by decide
        obtain ⟨outer, houter, hrest⟩ := (Option.any_eq_true _ _).1 (hwithin a (hin a ha) c hc)
        obtain ⟨inner, hinner, hcontains⟩ := (Option.any_eq_true _ _).1 hrest
        exact ⟨outer, inner, houter, hinner, hcontains⟩
      · have hapart : ∀ a ∈ [0, 1, 2], ∀ c ∈ placedBoxes.children a,
            ∀ d ∈ placedBoxes.children a,
              Locating.covers placedBoxes.position ⟨⟨3, 1⟩, ⟨3, 7⟩⟩ c = true →
              Locating.covers placedBoxes.position ⟨⟨3, 1⟩, ⟨3, 7⟩⟩ d = true → c = d := by decide
        exact hapart a (hin a ha)
    have hfound : placedBoxes.findByPosition 0 ⟨⟨3, 1⟩, ⟨3, 7⟩⟩ = some 1 := by decide
    have hlocates := hforest placedBoxes reachable_placedBoxes 0 (by decide)
    refine ⟨hnested, hfound, hlocates.again 1 hfound, ?_⟩
    exact hlocates.deepest hnested 1 hfound 0 .refl ⟨⟨⟨1, 0⟩, ⟨9, 0⟩⟩, by decide, by decide⟩
  · have hloaded : ((Trace.ofBytes Trace.itemModel Trace.itemTrace.toUTF8).toOption.map fun t =>
        (decide (t.sourceRoot < t.store.size), t.store.position? t.sourceRoot)) =
        some (true, none) := by decide +kernel
    cases ht : Trace.ofBytes Trace.itemModel Trace.itemTrace.toUTF8 with
    | error e =>
      rw [ht] at hloaded
      cases hloaded
    | ok t =>
      rw [ht] at hloaded
      simp only [Except.toOption, Option.map_some, Option.some.injEq, Prod.mk.injEq,
        decide_eq_true_eq] at hloaded
      obtain ⟨hroot, hnone⟩ := hloaded
      have hlocates := htrace _ _ t ht (t.rootNode .source) rfl hroot
      exact ⟨t, rfl, hlocates.none_iff.2 (.inl hnone)⟩

end TreeInterchange
