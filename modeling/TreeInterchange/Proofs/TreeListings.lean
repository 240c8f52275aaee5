import Mathlib.Data.Finset.Card
import Mathlib.Data.List.Dedup
import Mathlib.Data.List.Flatten
import Mathlib.Data.List.Nodup
import Mathlib.Data.List.Perm.Basic
import Mathlib.Logic.Relation

/-!
# Listings of trees

A tree is given by a point and a function that lists what stands directly below each point.
The listing to a depth is the walk that all walks of this library are: a point, then the
listings of what is below it, one level less deep. Where the tree is no higher than the
depth, going deeper adds nothing. A listing that repeats no point of a finite set shows that
the tree is no higher than the set is large. Where a point stands directly below at most one
other and nothing stands below itself, no listing repeats a point.

Ways up go by a function to the point above, if there is one. They may run in circles; still,
what they lead to at all they lead to within as many steps as there are points.
-/

namespace TreeInterchange

universe u

variable {α : Type u}

/-- A point and then the trees of what is below it, `depth` levels deep. -/
def listing (next : α → List α) : Nat → α → List α
  | 0, _ => []
  | depth + 1, a => a :: (next a).flatMap (listing next depth)

/-- The tree below `a` has at most so many levels. -/
def HeightAtMost (next : α → List α) : Nat → α → Prop
  | 0, _ => False
  | depth + 1, a => ∀ b ∈ next a, HeightAtMost next depth b

instance HeightAtMost.decidable (next : α → List α) :
    (depth : Nat) → (a : α) → Decidable (HeightAtMost next depth a)
  | 0, _ => .isFalse id
  | depth + 1, a =>
    have := HeightAtMost.decidable next depth
    inferInstanceAs (Decidable (∀ b ∈ next a, HeightAtMost next depth b))

def listings (next : α → List α) (depth : Nat) (as : List α) : List α :=
  as.flatMap (listing next depth)

variable {next : α → List α} {k l : Nat} {a b : α} {as bs : List α}

theorem listings_cons : listings next k (a :: as) = listing next k a ++ listings next k as :=
  List.flatMap_cons

theorem listings_append : listings next k (as ++ bs) = listings next k as ++ listings next k bs :=
  List.flatMap_append

theorem HeightAtMost.mono (h : HeightAtMost next k a) (hkl : k ≤ l) : HeightAtMost next l a := by
  induction k generalizing a l with
  | zero => exact h.elim
  | succ k ih =>
    obtain ⟨l, rfl⟩ : ∃ n, l = n + 1 := ⟨l - 1, by omega⟩
    exact fun b hb => ih (h b hb) (by omega)

/-- Below the last level there is nothing to list. -/
theorem listing_eq_of_height (h : HeightAtMost next k a) (hkl : k ≤ l) :
    listing next l a = listing next k a := by
  induction k generalizing a l with
  | zero => exact h.elim
  | succ k ih =>
    obtain ⟨l, rfl⟩ : ∃ n, l = n + 1 := ⟨l - 1, by omega⟩
    simp only [listing, List.cons.injEq, true_and]
    exact List.flatMap_congr fun b hb => ih (h b hb) (by omega)

theorem listing_unique (hk : HeightAtMost next k a) (hl : HeightAtMost next l a) :
    listing next k a = listing next l a := by
  rcases Nat.le_total k l with hkl | hlk
  · exact (listing_eq_of_height hk hkl).symm
  · exact listing_eq_of_height hl hlk

theorem listing_eq_cons (h : HeightAtMost next k a) :
    listing next k a = a :: (next a).flatMap (listing next k) :=
  (listing_eq_of_height h (Nat.le_succ k)).symm

theorem listing_sublist (hkl : k ≤ l) : (listing next k a).Sublist (listing next l a) := by
  induction k generalizing a l with
  | zero => exact List.nil_sublist _
  | succ k ih =>
    obtain ⟨l, rfl⟩ : ∃ n, l = n + 1 := ⟨l - 1, by omega⟩
    apply List.Sublist.cons_cons a
    have hbelow : ∀ bs : List α,
        (bs.flatMap (listing next k)).Sublist (bs.flatMap (listing next l)) := by
      intro bs
      induction bs with
      | nil => exact List.nil_sublist _
      | cons b bs ihb =>
        rw [List.flatMap_cons, List.flatMap_cons]
        exact (ih (by omega)).append ihb
    exact hbelow (next a)

theorem nodup_listing (h : HeightAtMost next k a) (hn : (listing next k a).Nodup) (l : Nat) :
    (listing next l a).Nodup := by
  rcases Nat.le_total l k with hlk | hkl
  · exact (listing_sublist hlk).nodup hn
  · rwa [listing_eq_of_height h hkl]

theorem listing_subset_of_height (h : HeightAtMost next k a) (l : Nat) :
    listing next l a ⊆ listing next k a := by
  rcases Nat.le_total l k with hlk | hkl
  · exact (listing_sublist hlk).subset
  · rw [listing_eq_of_height h hkl]
    exact fun _ hx => hx

theorem self_mem_listing (h : HeightAtMost next k a) : a ∈ listing next k a := by
  cases k with
  | zero => exact h.elim
  | succ k => simp [listing]

theorem sublist_listings (h : ∀ b ∈ as, HeightAtMost next k b) :
    as.Sublist (listings next k as) := by
  induction as with
  | nil => exact List.nil_sublist _
  | cons a as ih =>
    rw [listings_cons]
    have ha : [a].Sublist (listing next k a) :=
      List.singleton_sublist.2 (self_mem_listing (h a (by simp)))
    exact ha.append (ih fun b hb => h b (by simp [hb]))

theorem mem_listing_succ : b ∈ listing next (k + 1) a ↔
    b = a ∨ ∃ c ∈ next a, b ∈ listing next k c := by
  simp [listing, List.mem_flatMap]

theorem HeightAtMost.of_mem (h : HeightAtMost next k a) (hb : b ∈ listing next k a) :
    HeightAtMost next k b := by
  induction k generalizing a with
  | zero => exact h.elim
  | succ k ih =>
    rcases mem_listing_succ.1 hb with rfl | ⟨c, hc, hb⟩
    · exact h
    · exact (ih (h c hc) hb).mono (Nat.le_succ k)

theorem listing_subset (h : HeightAtMost next k a) (hb : b ∈ listing next k a) :
    listing next k b ⊆ listing next k a := by
  induction k generalizing a with
  | zero => exact h.elim
  | succ k ih =>
    rcases mem_listing_succ.1 hb with rfl | ⟨c, hc, hb⟩
    · exact fun _ hx => hx
    · intro x hx
      rw [listing_eq_of_height ((h c hc).of_mem hb) (Nat.le_succ k)] at hx
      exact mem_listing_succ.2 (.inr ⟨c, hc, ih (h c hc) hb hx⟩)

theorem sublist_listing_of_mem (hb : b ∈ listing next k a) :
    ∃ n, ∀ d, (listing next d b).Sublist (listing next (n + d) a) := by
  induction k generalizing a with
  | zero => simp [listing] at hb
  | succ k ih =>
    rcases mem_listing_succ.1 hb with rfl | ⟨c, hc, hb⟩
    · exact ⟨0, fun d => by rw [Nat.zero_add]⟩
    · obtain ⟨n, hn⟩ := ih hb
      refine ⟨n + 1, fun d => ?_⟩
      rw [Nat.add_right_comm]
      have hone := (List.singleton_sublist.2 hc).flatMap (listing next (n + d))
      rw [List.flatMap_singleton] at hone
      exact ((hn d).trans hone).cons a

theorem nodup_next (h : ∀ d, (listing next d a).Nodup) (hb : b ∈ listing next k a) :
    (next b).Nodup := by
  obtain ⟨n, hn⟩ := sublist_listing_of_mem hb
  have hone : ∀ c, listing next 1 c = [c] := fun c => by
    rw [listing, List.cons.injEq, List.flatMap_eq_nil_iff]
    exact ⟨rfl, fun _ _ => rfl⟩
  have htwo := (hn 2).nodup (h (n + 2))
  rw [listing, funext hone] at htwo
  simpa using htwo.of_cons

theorem next_subset_listing (h : HeightAtMost next k a) (hb : b ∈ listing next k a) :
    next b ⊆ listing next k a := by
  intro c hc
  apply listing_subset h hb
  have hbh := h.of_mem hb
  cases k with
  | zero => exact h.elim
  | succ k => exact mem_listing_succ.2 (.inr ⟨c, hc, self_mem_listing (hbh c hc)⟩)

theorem exists_next_of_mem (hb : b ∈ listing next k a) (hne : b ≠ a) :
    ∃ c ∈ listing next k a, b ∈ next c := by
  induction k generalizing a with
  | zero => cases hb
  | succ k ih =>
    obtain ⟨c, hc, hbc⟩ := (mem_listing_succ.1 hb).resolve_left hne
    by_cases hbc' : b = c
    · exact ⟨a, mem_listing_succ.2 (.inl rfl), hbc' ▸ hc⟩
    · obtain ⟨d, hd, hbd⟩ := ih hbc hbc'
      exact ⟨d, mem_listing_succ.2 (.inr ⟨c, hc, hd⟩), hbd⟩

theorem not_mem_next_of_height (h : HeightAtMost next k a) (hb : b ∈ listing next k a) :
    a ∉ next b := by
  induction k with
  | zero => exact h.elim
  | succ k ih =>
    intro hab
    have hlow : HeightAtMost next k a := by
      rcases mem_listing_succ.1 hb with rfl | ⟨c, hc, hbc⟩
      · exact h b hab
      · have hbk := (h c hc).of_mem hbc
        cases k with
        | zero => exact hbk.elim
        | succ k => exact (hbk a hab).mono (Nat.le_succ k)
    exact ih hlow (listing_eq_of_height hlow (Nat.le_succ k) ▸ hb) hab

/-- A point of a set stands directly above another point. -/
def DirectlyAbove (next : α → List α) (S : α → Prop) (a b : α) : Prop := S a ∧ b ∈ next a

section Unique

variable {S : α → Prop}

theorem of_mem_listing (hclosed : ∀ a, S a → ∀ b ∈ next a, S b) (ha : S a)
    (h : b ∈ listing next k a) : S b := by
  induction k generalizing a with
  | zero => simp [listing] at h
  | succ k ih =>
    rcases mem_listing_succ.1 h with rfl | ⟨c, hc, hb⟩
    · exact ha
    · exact ih (hclosed a ha c hc) hb

theorem above_of_mem_listing (hclosed : ∀ a, S a → ∀ b ∈ next a, S b) (ha : S a)
    (h : b ∈ listing next k a) : Relation.ReflTransGen (DirectlyAbove next S) a b := by
  induction k generalizing a with
  | zero => simp [listing] at h
  | succ k ih =>
    rcases mem_listing_succ.1 h with rfl | ⟨c, hc, hb⟩
    · exact .refl
    · exact .head ⟨ha, hc⟩ (ih (hclosed a ha c hc) hb)

theorem above_total {c : α} (hunique : ∀ a b c, S a → S b → c ∈ next a → c ∈ next b → a = b)
    (ha : Relation.ReflTransGen (DirectlyAbove next S) a c)
    (hb : Relation.ReflTransGen (DirectlyAbove next S) b c) :
    Relation.ReflTransGen (DirectlyAbove next S) a b ∨
      Relation.ReflTransGen (DirectlyAbove next S) b a := by
  have hright : Relator.RightUnique (Function.swap (DirectlyAbove next S)) := by
    intro c p q hp hq
    exact hunique p q c hp.1 hq.1 hp.2 hq.2
  rcases Relation.ReflTransGen.total_of_right_unique hright (Relation.reflTransGen_swap.2 ha)
    (Relation.reflTransGen_swap.2 hb) with h | h
  · exact .inr (Relation.reflTransGen_swap.1 h)
  · exact .inl (Relation.reflTransGen_swap.1 h)

/-- Where every point of a closed set has one place, and none is below itself, no listing repeats
a point. -/
theorem nodup_listing_of_unique (hclosed : ∀ a, S a → ∀ b ∈ next a, S b)
    (hnodup : ∀ a, S a → (next a).Nodup)
    (hunique : ∀ a b c, S a → S b → c ∈ next a → c ∈ next b → a = b)
    (hacyclic : ∀ a, ¬ Relation.TransGen (DirectlyAbove next S) a a) (k : Nat) (ha : S a) :
    (listing next k a).Nodup := by
  induction k generalizing a with
  | zero => exact List.nodup_nil
  | succ k ih =>
    refine List.nodup_cons.2 ⟨fun hm => ?_, ?_⟩
    · obtain ⟨c, hc, hac⟩ := List.mem_flatMap.1 hm
      have hup := above_of_mem_listing hclosed (hclosed a ha c hc) hac
      exact hacyclic a (Relation.TransGen.head' ⟨ha, hc⟩ hup)
    -- a point above its sibling would be above its own parent
    · have hcycle : ∀ c d, c ∈ next a → d ∈ next a → c ≠ d →
          ¬ Relation.ReflTransGen (DirectlyAbove next S) c d := by
        intro c d hc hd hne hcd
        rcases Relation.ReflTransGen.cases_tail_iff _ _ _ |>.1 hcd with rfl | ⟨p, hcp, hpd⟩
        · exact hne rfl
        · obtain rfl := hunique p a d hpd.1 ha hpd.2 hd
          exact hacyclic c (Relation.TransGen.tail' hcp ⟨ha, hc⟩)
      refine List.nodup_flatMap.2 ⟨fun c hc => ih (hclosed a ha c hc), ?_⟩
      refine (hnodup a ha).pairwise_of_forall_ne fun c hc d hd hne z hzc hzd => ?_
      rcases above_total hunique (above_of_mem_listing hclosed (hclosed a ha c hc) hzc)
        (above_of_mem_listing hclosed (hclosed a ha d hd) hzd) with h | h
      · exact hcycle c d hc hd hne h
      · exact hcycle d c hd hc hne.symm h

end Unique

theorem mem_listing_of_above {S : α → Prop} (h : HeightAtMost next k a)
    (hb : Relation.ReflTransGen (DirectlyAbove next S) a b) : b ∈ listing next k a := by
  induction hb with
  | refl => exact self_mem_listing h
  | tail _ hcb ih => exact next_subset_listing h ih hcb.2

theorem mem_listing_iff_reflTransGen (h : HeightAtMost next k a) :
    b ∈ listing next k a ↔ Relation.ReflTransGen (fun x y => y ∈ next x) a b := by
  constructor
  · intro hb
    have hway := above_of_mem_listing (S := fun _ => True) (fun _ _ _ _ => trivial) trivial hb
    exact Relation.ReflTransGen.mono (fun _ _ hstep => hstep.2) a b hway
  · intro hway
    induction hway with
    | refl => exact self_mem_listing h
    | tail _ hstep ih => exact next_subset_listing h ih hstep

theorem nodup_listing_of_height (hunique : ∀ a b c, c ∈ next a → c ∈ next b → a = b)
    (h : HeightAtMost next k a) (hnodup : ∀ b ∈ listing next k a, (next b).Nodup) (l : Nat) :
    (listing next l a).Nodup := by
  refine nodup_listing_of_unique (S := (· ∈ listing next k a))
    (fun b hb => next_subset_listing h hb) hnodup (fun a b c _ _ => hunique a b c) ?_ l
    (self_mem_listing h)
  intro b hcycle
  obtain ⟨c, hbc, hcb⟩ := Relation.TransGen.tail'_iff.1 hcycle
  obtain ⟨d, ⟨hb, -⟩, -⟩ := Relation.TransGen.head'_iff.1 hcycle
  have hheight := h.of_mem hb
  exact not_mem_next_of_height hheight (mem_listing_of_above hheight hbc) hcb.2

theorem nodup_listing_iff (hunique : ∀ a b c, c ∈ next a → c ∈ next b → a = b)
    (h : HeightAtMost next k a) :
    (listing next k a).Nodup ↔ ∀ b ∈ listing next k a, (next b).Nodup :=
  ⟨fun hn _ hb => nodup_next (nodup_listing h hn) hb,
    fun hnodup => nodup_listing_of_height hunique h hnodup k⟩

/-- A tree higher than `k` has more than `k` entries in its listing. -/
theorem lt_length_listing (h : ¬ HeightAtMost next k a) : k < (listing next (k + 1) a).length := by
  induction k generalizing a with
  | zero => simp [listing]
  | succ k ih =>
    simp only [HeightAtMost, not_forall] at h
    obtain ⟨b, hb, hh⟩ := h
    have hlen := ih hh
    have hsub : (listing next (k + 1) b).length ≤
        ((next a).flatMap (listing next (k + 1))).length := by
      have hone := (List.singleton_sublist.2 hb).flatMap (listing next (k + 1))
      simpa using hone.length_le
    rw [listing, List.length_cons]
    omega

theorem heightAtMost_of_nodup {support : List α} (hn : (listing next (support.length + 1) a).Nodup)
    (hs : listing next (support.length + 1) a ⊆ support) :
    HeightAtMost next support.length a := by
  by_contra h
  have hlt := lt_length_listing h
  have hle := List.Nodup.length_le_of_subset hn hs
  omega

theorem heightAtMost_of_bounded {next : Nat → List Nat} {n a : Nat} (ha : a < n)
    (hnext : ∀ a, ∀ b ∈ next a, b < n) (hn : (listing next (n + 1) a).Nodup) :
    HeightAtMost next n a := by
  have hin : ∀ k a, a < n → listing next k a ⊆ List.range n := by
    intro k
    induction k with
    | zero => simp [listing]
    | succ k ih =>
      intro a ha z hz
      rcases mem_listing_succ.1 hz with rfl | ⟨c, hc, hz⟩
      · exact List.mem_range.2 ha
      · exact ih c (hnext a c hc) hz
  have hheight : HeightAtMost next (List.range n).length a :=
    heightAtMost_of_nodup (by rwa [List.length_range]) (hin _ a ha)
  rwa [List.length_range] at hheight

theorem listing_perm {next' : α → List α} (h : ∀ b ∈ listing next k a, (next' b).Perm (next b)) :
    (listing next' k a).Perm (listing next k a) := by
  induction k generalizing a with
  | zero => exact .nil
  | succ k ih =>
    refine .cons a (((h a (by simp [listing])).flatMap_right _).trans ?_)
    refine List.Perm.flatMap_left _ fun b hb => ih fun c hc => h c ?_
    exact mem_listing_succ.2 (.inr ⟨b, hb, hc⟩)

theorem heightAtMost_congr {next' : α → List α}
    (h : ∀ b ∈ listing next k a, next' b ⊆ next b) (hk : HeightAtMost next k a) :
    HeightAtMost next' k a := by
  induction k generalizing a with
  | zero => exact hk.elim
  | succ k ih =>
    intro b hb
    have hb' := h a (by simp [listing]) hb
    exact ih (fun c hc => h c (mem_listing_succ.2 (.inr ⟨b, hb', hc⟩))) (hk b hb')

/-- Where every place has one place above it and none is below itself, a tree of places below `n` has
at most `n` levels, however often a place stands below another. -/
theorem heightAtMost_of_unique {next : Nat → List Nat} {n a : Nat} (ha : a < n)
    (hnext : ∀ a, ∀ b ∈ next a, b < n) (hunique : ∀ a b c, c ∈ next a → c ∈ next b → a = b)
    (hacyclic : ∀ a, ¬ Relation.TransGen (fun x y => y ∈ next x) a a) : HeightAtMost next n a := by
  have hnodup : (listing (fun x => (next x).dedup) (n + 1) a).Nodup := by
    refine nodup_listing_of_unique (S := fun _ => True) (fun _ _ _ _ => trivial)
      (fun x _ => List.nodup_dedup (next x)) (fun x y z _ _ hx hy => ?_) (fun x hcycle => ?_)
      (n + 1) trivial
    · exact hunique x y z (List.mem_dedup.1 hx) (List.mem_dedup.1 hy)
    · exact hacyclic x (Relation.TransGen.mono (fun _ _ h => List.mem_dedup.1 h.2) x x hcycle)
  have hheight := heightAtMost_of_bounded ha (fun x y hy => hnext x y (List.mem_dedup.1 hy)) hnodup
  exact heightAtMost_congr (fun x _ y hy => List.mem_dedup.2 hy) hheight

theorem listing_map {β : Type u} {next' : β → List β} (φ : α → β)
    (h : ∀ b ∈ listing next k a, next' (φ b) = (next b).map φ) :
    listing next' k (φ a) = (listing next k a).map φ := by
  induction k generalizing a with
  | zero => rfl
  | succ k ih =>
    simp only [listing, List.map_cons, List.cons.injEq, true_and]
    rw [h a (by simp [listing]), List.flatMap_map, List.map_flatMap]
    exact List.flatMap_congr fun b hb =>
      ih fun c hc => h c (mem_listing_succ.2 (.inr ⟨b, hb, hc⟩))

theorem HeightAtMost.map {β : Type u} {next' : β → List β} (φ : α → β)
    (h : ∀ b ∈ listing next k a, next' (φ b) = (next b).map φ) (hk : HeightAtMost next k a) :
    HeightAtMost next' k (φ a) := by
  induction k generalizing a with
  | zero => exact hk.elim
  | succ k ih =>
    intro e he
    rw [h a (by simp [listing])] at he
    obtain ⟨b, hb, rfl⟩ := List.mem_map.1 he
    exact ih (fun c hc => h c (mem_listing_succ.2 (.inr ⟨b, hb, hc⟩))) (hk b hb)

theorem mem_listing_map {β : Type u} {next' : β → List β} (φ : α → β)
    (h : ∀ b ∈ listing next k a, ∀ c ∈ next b, φ c ∈ next' (φ b)) (hb : b ∈ listing next k a) :
    φ b ∈ listing next' k (φ a) := by
  induction k generalizing a with
  | zero => simp [listing] at hb
  | succ k ih =>
    rcases mem_listing_succ.1 hb with rfl | ⟨c, hc, hb⟩
    · simp [listing]
    · have hbelow := ih (fun d hd => h d (mem_listing_succ.2 (.inr ⟨c, hc, hd⟩))) hb
      exact mem_listing_succ.2 (.inr ⟨φ c, h a (by simp [listing]) c hc, hbelow⟩)

theorem flatMap_perm_of_names {κ : Type u} {β : Type u} [DecidableEq κ] {ks ls : List κ}
    (below : κ → List β) (hk : ks.Nodup) (hl : ls.Nodup)
    (h : ∀ k, below k ≠ [] → (k ∈ ks ↔ k ∈ ls)) : (ks.flatMap below).Perm (ls.flatMap below) := by
  have hskip : ∀ xs : List κ,
      xs.flatMap below = (xs.filter fun k => !(below k).isEmpty).flatMap below := by
    intro xs
    induction xs with
    | nil => rfl
    | cons x xs ih =>
      by_cases hx : below x = []
      · simpa [hx] using ih
      · simpa [hx] using ih
  rw [hskip ks, hskip ls]
  refine List.Perm.flatMap_right _ ((List.perm_ext_iff_of_nodup (hk.filter _) (hl.filter _)).2
    fun k => ?_)
  simp only [List.mem_filter, Bool.not_eq_true', List.isEmpty_eq_false_iff]
  exact and_congr_left fun hne => h k hne

theorem map_idxOf_eq_range' [DecidableEq α] {xs : List α} (hn : xs.Nodup) (n : Nat) :
    xs.map (fun x => n + xs.idxOf x) = List.range' n xs.length := by
  apply List.ext_getElem
  · simp
  · intro i h1 h2
    simp only [List.getElem_map, List.getElem_range']
    rw [List.Nodup.idxOf_getElem hn]
    omega

/-- The entries of a list are numbered from `n` on, each taking as many numbers as it costs. -/
def Numbered (φ cost : α → Nat) : Nat → List α → Prop
  | _, [] => True
  | n, a :: as => φ a = n ∧ Numbered φ cost (n + cost a) as

def totalCost (cost : α → Nat) : List α → Nat
  | [] => 0
  | a :: as => cost a + totalCost cost as

section Numbered

variable {φ cost : α → Nat} {n : Nat} {xs ys : List α}

@[simp] theorem totalCost_cons : totalCost cost (a :: xs) = cost a + totalCost cost xs := rfl

@[simp] theorem totalCost_append :
    totalCost cost (xs ++ ys) = totalCost cost xs + totalCost cost ys := by
  induction xs with
  | nil => simp [totalCost]
  | cons a xs ih => rw [List.cons_append, totalCost_cons, totalCost_cons, ih, Nat.add_assoc]

theorem numbered_append : Numbered φ cost n (xs ++ ys) ↔
    Numbered φ cost n xs ∧ Numbered φ cost (n + totalCost cost xs) ys := by
  induction xs generalizing n with
  | nil => simp [Numbered, totalCost]
  | cons a xs ih =>
    rw [List.cons_append, Numbered, Numbered, ih, totalCost_cons, Nat.add_assoc, and_assoc]

theorem Numbered.bounds (h : Numbered φ cost n xs) (ha : a ∈ xs) :
    n ≤ φ a ∧ φ a + cost a ≤ n + totalCost cost xs := by
  induction xs generalizing n with
  | nil => cases ha
  | cons b xs ih =>
    rw [totalCost_cons]
    rcases List.mem_cons.1 ha with rfl | ha
    · have hφ := h.1
      omega
    · have hb := ih h.2 ha
      omega

theorem Numbered.separate (h : Numbered φ cost n xs) (ha : a ∈ xs) (hb : b ∈ xs) (hab : a ≠ b) :
    φ a + cost a ≤ φ b ∨ φ b + cost b ≤ φ a := by
  induction xs generalizing n with
  | nil => cases ha
  | cons c xs ih =>
    have hφ := h.1
    rcases List.mem_cons.1 ha with rfl | ha' <;> rcases List.mem_cons.1 hb with rfl | hb'
    · exact absurd rfl hab
    · have := h.2.bounds hb'
      omega
    · have := h.2.bounds ha'
      omega
    · exact ih h.2 ha' hb'

theorem Numbered.nodup_map (h : Numbered φ cost n xs) (hcost : ∀ a, 0 < cost a) :
    (xs.map φ).Nodup := by
  induction xs generalizing n with
  | nil => exact List.nodup_nil
  | cons b xs ih =>
    refine List.nodup_cons.2 ⟨fun hm => ?_, ih h.2⟩
    obtain ⟨c, hc, hcb⟩ := List.mem_map.1 hm
    have hb := (h.2.bounds hc).1
    have hpos := hcost b
    have hφ := h.1
    omega

theorem Numbered.of_mem_listings (h : Numbered φ cost n (listings next k as)) (ha : a ∈ as) :
    ∃ l, Numbered φ cost l (listing next k a) := by
  induction as generalizing n with
  | nil => cases ha
  | cons b as ih =>
    rw [listings_cons, numbered_append] at h
    rcases List.mem_cons.1 ha with rfl | ha
    · exact ⟨n, h.1⟩
    · exact ih h.2 ha

theorem Numbered.le_of_mem_next {c : α} (h : Numbered φ cost n (listing next k a))
    (hk : HeightAtMost next k a) (hb : b ∈ listing next k a) (hc : c ∈ next b) :
    φ b + cost b ≤ φ c := by
  induction k generalizing a n with
  | zero => exact hk.elim
  | succ k ih =>
    obtain ⟨hφ, hbelow⟩ := h
    rcases mem_listing_succ.1 hb with rfl | ⟨d, hd, hb⟩
    · have hin : c ∈ (next b).flatMap (listing next k) :=
        List.mem_flatMap.2 ⟨c, hc, self_mem_listing (hk c hc)⟩
      rw [hφ]
      exact (hbelow.bounds hin).1
    · obtain ⟨l, hl⟩ := Numbered.of_mem_listings hbelow hd
      exact ih hl (hk d hd) hb

theorem Numbered.congr {ψ : α → Nat} (h : Numbered φ cost n xs) (hφ : ∀ a ∈ xs, ψ a = φ a) :
    Numbered ψ cost n xs := by
  induction xs generalizing n with
  | nil => trivial
  | cons b xs ih =>
    exact ⟨(hφ b (by simp)).trans h.1, ih h.2 fun a ha => hφ a (by simp [ha])⟩

theorem exists_numbered [DecidableEq α] (cost : α → Nat) (n : Nat) (hn : xs.Nodup) :
    ∃ φ, Numbered φ cost n xs := by
  induction xs generalizing n with
  | nil => exact ⟨fun _ => 0, trivial⟩
  | cons b xs ih =>
    rw [List.nodup_cons] at hn
    obtain ⟨φ, hφ⟩ := ih (n + cost b) hn.2
    refine ⟨fun a => if a = b then n else φ a, if_pos rfl, hφ.congr fun a ha => if_neg ?_⟩
    rintro rfl
    exact hn.1 ha

end Numbered

theorem ite_mem_append {β : Type} [DecidableEq α] {xs ys : List α} (u v : β) :
    (if b ∈ ys then u else if b = a ∨ b ∈ xs then u else v) =
      if b = a ∨ b ∈ xs ++ ys then u else v := by
  by_cases h : b ∈ ys
  · simp [h]
  · simp [h]

theorem range'_split {xs ys : List α} {φ : α → Nat} {n : Nat}
    (h : (xs ++ ys).map φ = List.range' n (xs ++ ys).length) :
    xs.map φ = List.range' n xs.length ∧ ys.map φ = List.range' (n + xs.length) ys.length := by
  rw [List.map_append, List.length_append, ← List.range'_append_1] at h
  exact List.append_inj h (by simp)

section WayUp

variable {up : Nat → Option Nat} {n x y : Nat}

/-- The point above, the one above that and so on, `k` steps up. -/
def wayUp (up : Nat → Option Nat) : Nat → Nat → Option Nat
  | 0, x => some x
  | k + 1, x => (up x).bind (wayUp up k)

theorem wayUp_add (i j x : Nat) : wayUp up (i + j) x = (wayUp up i x).bind (wayUp up j) := by
  induction i generalizing x with
  | zero => simp [wayUp]
  | succ i ih =>
    rw [Nat.succ_add]
    simp only [wayUp, Option.bind_assoc]
    exact congrArg _ (funext ih)

theorem exists_lt_of_wayUp (hup : ∀ x y, up x = some y → x < n) {i : Nat}
    (h : wayUp up k x = some y) (hi : i < k) : ∃ z < n, wayUp up i x = some z := by
  obtain ⟨j, rfl⟩ : ∃ j, k = i + (j + 1) := ⟨k - i - 1, by omega⟩
  rw [wayUp_add] at h
  obtain ⟨z, hz, hrest⟩ := Option.bind_eq_some_iff.1 h
  obtain ⟨w, hw, -⟩ := Option.bind_eq_some_iff.1 hrest
  exact ⟨z, hup z w hw, hz⟩

theorem exists_wayUp_eq (hup : ∀ x y, up x = some y → x < n) (h : wayUp up k x = some y)
    (hk : n < k) : ∃ i j, i < j ∧ j ≤ n ∧ wayUp up i x = wayUp up j x := by
  have hpast : ∀ i ∈ Finset.range (n + 1), ∃ z < n, wayUp up i x = some z := fun i hi =>
    exists_lt_of_wayUp hup h (Nat.lt_of_le_of_lt (Finset.mem_range_succ_iff.1 hi) hk)
  have hmaps : ∀ i ∈ Finset.range (n + 1), (wayUp up i x).getD 0 ∈ Finset.range n := by
    intro i hi
    obtain ⟨z, hz, he⟩ := hpast i hi
    simpa [he] using hz
  obtain ⟨i, hi, j, hj, hne, he⟩ := Finset.exists_ne_map_eq_of_card_lt_of_maps_to (by simp) hmaps
  have hsame : wayUp up i x = wayUp up j x := by
    obtain ⟨z, -, hz⟩ := hpast i hi
    obtain ⟨w, -, hw⟩ := hpast j hj
    simpa [hz, hw] using he
  rcases Nat.lt_or_gt_of_ne hne with hij | hji
  · exact ⟨i, j, hij, Finset.mem_range_succ_iff.1 hj, hsame⟩
  · exact ⟨j, i, hji, Finset.mem_range_succ_iff.1 hi, hsame.symm⟩

/-- A long way up has a circle in it that can be left out. -/
theorem exists_wayUp_le (hup : ∀ x y, up x = some y → x < n) (h : wayUp up k x = some y) :
    ∃ j ≤ n, (0 < k → 0 < j) ∧ wayUp up j x = some y := by
  induction k using Nat.strong_induction_on with
  | _ k ih =>
    rcases Nat.lt_or_ge n k with hlong | hshort
    · obtain ⟨i, j, hij, hj, hsame⟩ := exists_wayUp_eq hup h hlong
      have hrest : wayUp up (i + (k - j)) x = some y := by
        rw [wayUp_add, hsame, ← wayUp_add, Nat.add_sub_cancel' (by omega), h]
      obtain ⟨m, hm, hpos, hway⟩ := ih (i + (k - j)) (by omega) hrest
      exact ⟨m, hm, fun _ => hpos (by omega), hway⟩
    · exact ⟨k, hshort, id, h⟩

end WayUp

end TreeInterchange
