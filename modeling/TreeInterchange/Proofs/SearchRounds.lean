import Mathlib.Algebra.GroupWithZero.Nat
import Mathlib.Algebra.Order.BigOperators.Group.List
import Mathlib.Algebra.Order.Group.Nat
import TreeInterchange.Proofs.SupertypeSearches

/-!
# How long the searches for a supertype last

The search is a loop that takes up the point that became pending last. A point may become pending
many times, also after it was expanded. But it is expanded once only, and then as many points become
pending as steps lead on from it. So the rounds that are left are at most the pending points and
the steps from points that were not expanded yet, whatever circles the steps make. In what order
pending points are taken up makes no difference to the answer.
-/

namespace TreeInterchange

namespace Reachability

universe u

variable {κ : Type u} [DecidableEq κ] {next : κ → List κ} {support pending seen : List κ}
  {start goal a : κ} {past : κ → Prop} {rounds : Nat}

/-- The search as a loop that goes round at most so many times, on any graph. The point that became
pending last stands first. There is no answer if the loop does not come to its end. -/
def searchFor (next : κ → List κ) (goal : κ) : Nat → List κ → List κ → Option Bool
  | 0, _, _ => none
  | _ + 1, [], _ => some false
  | rounds + 1, a :: pending, seen =>
    if a = goal then some true
    else if a ∈ seen then searchFor next goal rounds pending seen
    else searchFor next goal rounds ((next a).reverse ++ pending) (a :: seen)

/-- The number of steps that lead on from points that were not expanded yet. -/
def openSteps (next : κ → List κ) (support seen : List κ) : Nat :=
  ((unseen support seen).map fun a => (next a).length).sum

theorem openSteps_nil (next : κ → List κ) (support : List κ) :
    openSteps next support [] = (support.map fun a => (next a).length).sum := by
  simp [openSteps, unseen]

theorem sum_filter_ne_le (f : κ → Nat) (as : List κ) :
    ((as.filter (· ≠ a)).map f).sum ≤ (as.map f).sum :=
  (List.filter_sublist.map f).sum_le_sum fun _ _ => Nat.zero_le _

theorem sum_filter_ne_add_le (f : κ → Nat) {as : List κ} (h : a ∈ as) :
    ((as.filter (· ≠ a)).map f).sum + f a ≤ (as.map f).sum := by
  induction as with
  | nil => cases h
  | cons b as ih =>
    by_cases hb : b = a
    · have hrest := sum_filter_ne_le (a := a) f as
      rw [List.filter_cons_of_neg (by simp [hb]), List.map_cons, List.sum_cons, hb]
      omega
    · have hrest := ih ((List.mem_cons.1 h).resolve_left (Ne.symm hb))
      rw [List.filter_cons_of_pos (by simp [hb]), List.map_cons, List.map_cons, List.sum_cons,
        List.sum_cons]
      omega

theorem openSteps_expand (hs : next a ≠ [] → a ∈ support) (hseen : a ∉ seen) :
    openSteps next support (a :: seen) + (next a).length ≤ openSteps next support seen := by
  have hunseen : unseen support (a :: seen) = (unseen support seen).filter (· ≠ a) := by
    simp [unseen, List.filter_filter]
  rw [openSteps, hunseen, openSteps]
  by_cases hnext : next a = []
  · rw [hnext]
    exact sum_filter_ne_le _ _
  · refine sum_filter_ne_add_le (fun b => (next b).length) ?_
    simpa [unseen, hseen] using hs hnext

/-- The loop ends within the rounds that are left, with the right answer. -/
theorem searchFor_ends (hs : ∀ a, next a ≠ [] → a ∈ support)
    (h : Explored next support goal pending past) (hseen : ∀ a ∈ seen, past a)
    (hrounds : pending.length + openSteps next support seen < rounds) :
    ∃ found, searchFor next goal rounds pending seen = some found ∧
      (found = true ↔ ∃ a ∈ pending, Way next support a goal) := by
  induction rounds generalizing pending seen past with
  | zero => exact absurd hrounds (Nat.not_lt_zero _)
  | succ rounds ih =>
    cases pending with
    | nil => exact ⟨false, rfl, by simp⟩
    | cons a pending =>
      rw [List.length_cons] at hrounds
      rw [searchFor]
      split
      · rename_i hgoal
        exact ⟨true, rfl, by simpa using .inl (hgoal ▸ .refl)⟩
      rename_i hne
      split
      · rename_i ha
        have hskip := h.skip (hseen a ha)
        obtain ⟨found, hfound, hiff⟩ := ih hskip hseen (by omega)
        refine ⟨found, hfound, ?_⟩
        rw [hiff, List.exists_mem_cons_iff]
        exact ⟨.inr, fun hway => hway.elim (hskip.exists_pending (hseen a ha)) id⟩
      · rename_i ha
        have hpass := h.pass hne
          (fun b hb => List.mem_append_left pending (List.mem_reverse.2 hb.2))
          (List.subset_append_right (next a).reverse pending)
        have hseen' : ∀ x ∈ a :: seen, x = a ∨ past x :=
          List.forall_mem_cons.2 ⟨.inl rfl, fun x hx => .inr (hseen x hx)⟩
        have hused := openSteps_expand (hs a) ha
        obtain ⟨found, hfound, hiff⟩ := ih hpass hseen'
          (by rw [List.length_append, List.length_reverse]; omega)
        refine ⟨found, hfound, hiff.trans ⟨?_, ?_⟩⟩
        · rintro ⟨b, hb, hway⟩
          rcases List.mem_append.1 hb with hb | hb
          · have hb := List.mem_reverse.1 hb
            exact ⟨a, List.mem_cons_self, .head ⟨hs a (List.ne_nil_of_mem hb), hb⟩ hway⟩
          · exact ⟨b, List.mem_cons_of_mem a hb, hway⟩
        · rintro ⟨b, hb, hway⟩
          rcases List.mem_cons.1 hb with rfl | hb
          · exact hpass.exists_pending (.inl rfl) hway
          · exact ⟨b, List.mem_append_right _ hb, hway⟩

theorem searchFor_eq_reaches (hs : ∀ a, next a ≠ [] → a ∈ support)
    (hrounds : 1 + (support.map fun a => (next a).length).sum < rounds) :
    searchFor next goal rounds [start] [] = some (reaches next support start goal) := by
  have hstart : Explored next support goal [start] fun _ => False := ⟨id, fun _ _ h => h.elim⟩
  have hseen : ∀ a ∈ ([] : List κ), False := fun _ => List.not_mem_nil
  have hlength : [start].length + openSteps next support [] < rounds := by
    rwa [openSteps_nil, List.length_singleton]
  obtain ⟨found, hfound, hiff⟩ := searchFor_ends hs hstart hseen hlength
  rw [hfound, Option.some.injEq, Bool.eq_iff_iff, hiff, reaches_iff]
  simp

end Reachability

open Reachability

theorem Metamodel.mem_supertypes_iff {m : Metamodel} {c s : ClassifierRef} :
    s ∈ m.supertypes c ↔ ∃ d, m.class? c = some d ∧ s ∈ d.supertypes := by
  unfold supertypes
  cases m.class? c <;> simp

theorem TypeCatalog.mem_parents_iff {c : TypeCatalog} {n k : QualifiedName} :
    k ∈ c.parents n ↔ ∃ t, c.get? n = some t ∧ (t.supertype = some k ∨ k ∈ t.tags) := by
  unfold parents
  cases c.get? n <;> simp

/-- Both searches decide whether the one name is reached from the other, in steps to the supertypes
of loaded classes, or to the supertypes and tags of registered types. Whatever circles the steps
make, the loop ends within two rounds more than there are steps. -/
theorem searches_decide_reachability :
    (∀ (m : Metamodel) (sub sup : ClassifierRef),
      (m.isSubclass sub sup = true ↔ Relation.ReflTransGen
        (fun c s => ∃ d, m.class? c = some d ∧ s ∈ d.supertypes) sub sup) ∧
      ∀ rounds, 1 + (m.classifierKeys.map fun c => (m.supertypes c).length).sum < rounds →
        searchFor m.supertypes sup rounds [sub] [] = some (m.isSubclass sub sup)) ∧
    ∀ (c : TypeCatalog) (sub sup : QualifiedName),
      (c.isSubtype sub sup = true ↔ Relation.ReflTransGen
        (fun n k => ∃ t, c.get? n = some t ∧ (t.supertype = some k ∨ k ∈ t.tags)) sub sup) ∧
      ∀ rounds, 1 + (c.nodeTypes.keys.map fun n => (c.parents n).length).sum < rounds →
        searchFor c.parents sup rounds [sub] [] = some (c.isSubtype sub sup) := by
  refine ⟨fun m sub sup => ⟨?_, fun rounds => searchFor_eq_reaches fun n hn => ?_⟩,
    fun c sub sup => ⟨?_, fun rounds => searchFor_eq_reaches fun n hn => ?_⟩⟩
  · simp only [Metamodel.isSubclass_iff, Metamodel.Inherits, Metamodel.mem_supertypes_iff]
  · obtain ⟨s, hs⟩ := List.exists_mem_of_ne_nil _ hn
    obtain ⟨d, hd, -⟩ := Metamodel.mem_supertypes_iff.1 hs
    exact Metamodel.mem_classifierKeys hd
  · simp only [TypeCatalog.isSubtype_iff, TypeCatalog.Descends, TypeCatalog.mem_parents_iff]
  · obtain ⟨k, hk⟩ := List.exists_mem_of_ne_nil _ hn
    obtain ⟨t, ht, -⟩ := TypeCatalog.mem_parents_iff.1 hk
    exact Table.mem_keys_iff.2 ⟨t, ht⟩

end TreeInterchange
