import Mathlib.Logic.Relation
import TreeInterchange.Proofs.WrittenReferences

/-!
# Nesting of containers

Objects may be stored anywhere except below themselves: a run builds a store by making objects
and by storing values whose objects exist and are neither the receiving object nor one of its
containers. In such a store the features that list objects and the containers that objects
name say the same, and nothing contains itself.

The way up from an object then ends within as many steps as the store has objects. Walks that
are cut at that many steps are never cut short, so each of them is the loop that goes on until
an object has no container.
-/

namespace TreeInterchange.ObjectStore

variable {s t : ObjectStore} {id root x y : ObjectId}

def IsContainer (s : ObjectStore) (p c : ObjectId) : Prop := s.container? c = some p

/-- `a` is the container of `b`, or the container of that, and so on. -/
def Above (s : ObjectStore) : ObjectId → ObjectId → Prop := Relation.TransGen s.IsContainer

def Acyclic (s : ObjectStore) : Prop := ∀ x, ¬ s.Above x x

/-- What runs of making objects and storing values lead to, when no value puts an object below
itself. -/
inductive Nested : ObjectStore → Prop
  | empty : Nested ObjectStore.empty
  | newObject {s : ObjectStore} (c : ClassifierRef) (h : Nested s) : Nested (s.newObject c).2
  | set {s : ObjectStore} (id : ObjectId) (feature : String) (v : FeatureValue) (h : Nested s)
      (hid : id < s.size) (hv : ∀ c ∈ v.children, c < s.size)
      (hnot : ∀ c ∈ v.children, c ≠ id ∧ ¬ s.Above c id) : Nested (s.set id feature v)

theorem Nested.owned (h : s.Nested) : s.Owned := by
  induction h with
  | empty => exact owned_empty
  | newObject c _ ih => exact ih.newObject c
  | set id feature v _ _ hv _ ih => exact ih.set v hv

theorem Nested.listed (h : s.Nested) : s.Listed := by
  induction h with
  | empty => exact listed_empty
  | newObject c _ ih => exact ih.newObject c
  | set id feature v h hid hv _ ih => exact ih.set h.owned hid v hv

theorem mem_contentsIn_iff_container (ho : s.Owned) (hl : s.Listed) {o p : ObjectId} {f : String} :
    o ∈ s.contentsIn p f ↔ s.container? o = some p ∧ s.containingFeature? o = some f := by
  constructor
  · intro h
    simp [container?, containingFeature?, ho p f o h]
  · rintro ⟨hp, hf⟩
    apply hl
    obtain ⟨⟨owner, feature⟩, hc, rfl⟩ := Option.map_eq_some_iff.1 hp
    rw [containingFeature?, hc, Option.map_some, Option.some.injEq] at hf
    rw [hc, ← hf]

theorem Acyclic.of_isContainer (h : s.Acyclic) (hsub : ∀ p c, t.IsContainer p c → s.IsContainer p c) :
    t.Acyclic :=
  fun x hx => h x (Relation.TransGen.mono hsub x x hx)

/-- Where every container was made before what it holds, nothing contains itself. -/
theorem acyclic_of_lt (h : ∀ c < s.size, ∀ p ∈ s.container? c, p < c) : s.Acyclic := by
  have hstep : ∀ p c, s.IsContainer p c → p < c := by
    intro p c hp
    obtain ⟨owner, howner, -⟩ := Option.map_eq_some_iff.1 hp
    exact h c (lt_size_of_container howner) p hp
  have habove : ∀ a b, s.Above a b → a < b := by
    intro a b hab
    induction hab with
    | single hb => exact hstep _ _ hb
    | tail _ hb ih => exact Nat.lt_trans ih (hstep _ _ hb)
  exact fun x hx => Nat.lt_irrefl x (habove x x hx)

/-- Objects that are put below `id` and did not stand at or above it make no cycle: a way up that
uses one of the new steps comes from below one of these objects and goes on from `id`. -/
theorem Acyclic.attach (h : s.Acyclic) {cs : List ObjectId}
    (hnot : ∀ c ∈ cs, ¬ Relation.ReflTransGen s.IsContainer c id)
    (hstep : ∀ p c, t.IsContainer p c → s.IsContainer p c ∨ p = id ∧ c ∈ cs) : t.Acyclic := by
  have hway : ∀ a b, t.Above a b → s.Above a b ∨
      Relation.ReflTransGen s.IsContainer a id ∧
        ∃ c ∈ cs, Relation.ReflTransGen s.IsContainer c b := by
    intro a b hab
    induction hab with
    | single hb =>
      rcases hstep _ _ hb with hb | ⟨rfl, hb⟩
      · exact .inl (.single hb)
      · exact .inr ⟨.refl, _, hb, .refl⟩
    | tail _ hd ih =>
      rcases hstep _ _ hd with hd | ⟨rfl, hd⟩
      · rcases ih with ih | ⟨ha, c, hc, ih⟩
        · exact .inl (ih.tail hd)
        · exact .inr ⟨ha, c, hc, ih.tail hd⟩
      · rcases ih with ih | ⟨-, c, hc, ih⟩
        · exact .inr ⟨ih.to_reflTransGen, _, hd, .refl⟩
        · exact absurd ih (hnot c hc)
  intro x hx
  rcases hway x x hx with hx | ⟨hx, c, hc, hcx⟩
  · exact h x hx
  · exact hnot c hc (hcx.trans hx)

/-- Storing a value adds the steps from its objects to the receiving object, and no others. -/
theorem Owned.isContainer_set (h : s.Owned) {feature : String} (v : FeatureValue)
    (hv : ∀ c ∈ v.children, c < s.size) (p c : ObjectId)
    (hc : (s.set id feature v).IsContainer p c) :
    s.IsContainer p c ∨ p = id ∧ c ∈ v.children := by
  unfold IsContainer container? at hc ⊢
  rw [h.container_set v hv] at hc
  split at hc
  · rename_i hmem
    exact .inr ⟨(Option.some.inj hc).symm, hmem⟩
  · split at hc
    · cases hc
    · exact .inl hc

theorem not_above_of_container? (h : s.container? x = none) (y : ObjectId) : ¬ s.Above y x := by
  intro hy
  obtain ⟨p, -, hp⟩ := Relation.TransGen.tail'_iff.1 hy
  rw [IsContainer, h] at hp
  cases hp

theorem Nested.acyclic (h : s.Nested) : s.Acyclic := by
  induction h with
  | empty =>
    intro x
    apply not_above_of_container?
    rw [container?, get_of_size_le (Nat.zero_le x)]
    rfl
  | newObject c _ ih =>
    apply ih.of_isContainer
    intro p d hd
    simpa [IsContainer, container?] using hd
  | set id feature v h _ hv hnot ih =>
    refine ih.attach (fun c hc hcid => ?_) (h.owned.isContainer_set v hv)
    rcases Relation.reflTransGen_iff_eq_or_transGen.1 hcid with rfl | hcid
    · exact (hnot _ hc).1 rfl
    · exact (hnot c hc).2 hcid

theorem above_of_climb? {k : Nat} (h : s.climb? (k + 1) x = some y) : s.Above y x := by
  induction k generalizing x with
  | zero =>
    obtain ⟨p, hp, hy⟩ := Option.bind_eq_some_iff.1 h
    obtain rfl := Option.some.inj hy
    exact .single hp
  | succ k ih =>
    obtain ⟨p, hp, hy⟩ := Option.bind_eq_some_iff.1 h
    exact .tail (ih hy) hp

/-- A way up that never comes back to where it was has no more steps than the store has objects. -/
theorem Acyclic.le_size (h : s.Acyclic) {k : Nat} (hk : s.climb? k x = some y) : k ≤ s.size := by
  have hfirst : s.ClimbsFirst y k x := by
    refine ⟨hk, fun i hi hy => ?_⟩
    obtain ⟨j, rfl⟩ : ∃ j, k = i + (j + 1) := ⟨k - i - 1, by omega⟩
    rw [climb?_add, hy] at hk
    exact h y (above_of_climb? hk)
  exact hfirst.le_size

/-- The way up from `x` has at most `n` steps. -/
def EndsWithin (s : ObjectStore) (n : Nat) (x : ObjectId) : Prop :=
  ∀ k y, s.climb? k x = some y → k ≤ n

theorem Acyclic.endsWithin (h : s.Acyclic) (x : ObjectId) : s.EndsWithin s.size x :=
  fun _ _ hk => h.le_size hk

theorem EndsWithin.container?_eq_none (h : s.EndsWithin 0 x) : s.container? x = none := by
  cases hp : s.container? x with
  | none => rfl
  | some p =>
    have := h 1 p (by rw [climb?, hp]; rfl)
    omega

theorem EndsWithin.container {n : Nat} {p : ObjectId} (h : s.EndsWithin (n + 1) x)
    (hp : s.container? x = some p) : s.EndsWithin n p := by
  intro k y hk
  have := h (k + 1) y (by rw [climb?, hp]; exact hk)
  omega

theorem EndsWithin.acc {n : Nat} (h : s.EndsWithin n x) : Acc s.IsContainer x := by
  induction n generalizing x with
  | zero =>
    constructor
    intro p hp
    rw [IsContainer, h.container?_eq_none] at hp
    cases hp
  | succ n ih =>
    constructor
    intro p hp
    exact ih (h.container hp)

theorem Acyclic.wellFounded (h : s.Acyclic) : WellFounded s.IsContainer :=
  ⟨fun x => (h.endsWithin x).acc⟩

theorem EndsWithin.containerChain_succ {n : Nat} (h : s.EndsWithin n x) :
    s.containerChain (n + 1) x = s.containerChain n x := by
  induction n generalizing x with
  | zero => simp only [containerChain, h.container?_eq_none]
  | succ n ih =>
    cases hp : s.container? x with
    | none => simp only [containerChain, hp]
    | some p =>
      rw [containerChain, containerChain, hp]
      exact congrArg (x :: ·) (ih (h.container hp))

theorem EndsWithin.segmentsWithin_succ {n : Nat} (h : s.EndsWithin n x) :
    s.segmentsWithin root (n + 1) x = s.segmentsWithin root n x := by
  induction n generalizing x with
  | zero =>
    have hc : (s.get x).container = none := by simpa [container?] using h.container?_eq_none
    simp [segmentsWithin, hc]
  | succ n ih =>
    rw [segmentsWithin, segmentsWithin]
    cases hc : (s.get x).container with
    | none => rfl
    | some c =>
      have hp : s.container? x = some c.owner := by rw [container?, hc]; rfl
      simp only [Option.bind_eq_bind, Option.bind_some, ih (h.container hp)]

theorem Acyclic.selfAndContainers_eq (h : s.Acyclic) (x : ObjectId) : s.selfAndContainers x =
    match s.container? x with
    | some p => x :: s.selfAndContainers p
    | none => [x] := by
  rw [selfAndContainers, ← (h.endsWithin x).containerChain_succ, containerChain]
  rfl

theorem Acyclic.isWithin_eq (h : s.Acyclic) (root x : ObjectId) : s.isWithin root x =
    if x = root then true
    else match s.container? x with
      | some p => s.isWithin root p
      | none => false := by
  rw [isWithin, h.selfAndContainers_eq]
  cases s.container? x with
  | none => by_cases hx : x = root <;> simp [hx, Ne.symm]
  | some p => by_cases hx : x = root <;> simp [hx, Ne.symm, isWithin]

theorem Acyclic.segments?_eq (h : s.Acyclic) (root x : ObjectId) : s.segments? root x =
    if x = root then some []
    else do
      let c ← (s.get x).container
      let g ← s.segment? c x
      return (← s.segments? root c.owner) ++ [g] := by
  rw [segments?, ← (h.endsWithin x).segmentsWithin_succ, segmentsWithin]
  rfl

theorem selfAndContainers_ne_nil (s : ObjectStore) (x : ObjectId) : s.selfAndContainers x ≠ [] := by
  unfold selfAndContainers
  cases s.size with
  | zero => simp [containerChain]
  | succ n =>
    rw [containerChain]
    split <;> simp

theorem Acyclic.rootOf_eq (h : s.Acyclic) (x : ObjectId) : s.rootOf x =
    match s.container? x with
    | some p => s.rootOf p
    | none => x := by
  rw [rootOf, h.selfAndContainers_eq]
  cases s.container? x with
  | none => rfl
  | some p =>
    simp only [rootOf, List.getLastD_cons]
    cases hs : s.selfAndContainers p with
    | nil => exact absurd hs (s.selfAndContainers_ne_nil p)
    | cons y ys => rfl

theorem Acyclic.container?_rootOf (h : s.Acyclic) (x : ObjectId) :
    s.container? (s.rootOf x) = none := by
  induction x using h.wellFounded.induction with
  | h x ih =>
    rw [h.rootOf_eq]
    split
    · rename_i p hp
      exact ih p hp
    · assumption

theorem Listed.isSome_segment? (hl : s.Listed) {c : Container} (hc : (s.get x).container = some c) :
    (s.segment? c x).isSome = true := by
  obtain ⟨v, hv, hx⟩ := mem_contentsIn_iff.1 (hl c.owner c.feature x hc)
  unfold segment?
  rw [hv]
  cases v with
  | containedMany ids =>
    rw [Option.isSome_map, List.findIdx?_isSome, List.any_eq_true]
    exact ⟨x, hx, by simp⟩
  | _ => rfl

theorem Acyclic.isSome_segments? (h : s.Acyclic) (hl : s.Listed) (root x : ObjectId) :
    (s.segments? root x).isSome = s.isWithin root x := by
  induction x using h.wellFounded.induction with
  | h x ih =>
    rw [h.segments?_eq, h.isWithin_eq]
    split
    · rfl
    · cases hc : (s.get x).container with
      | none => simp [container?, hc]
      | some c =>
        have hp : s.container? x = some c.owner := by rw [container?, hc]; rfl
        obtain ⟨g, hg⟩ := Option.isSome_iff_exists.1 (hl.isSome_segment? hc)
        simp only [hp, hg, Option.bind_eq_bind, Option.bind_some, ← ih c.owner hp]
        cases s.segments? root c.owner <;> rfl

/-- Along every run that puts no object below itself, the lists of the features and the containers
of the objects agree and nothing contains itself; so the three walks up are loops that end. -/
theorem Nested.containers_agree (h : s.Nested) :
    (∀ o p f, o ∈ s.contentsIn p f ↔ s.container? o = some p ∧ s.containingFeature? o = some f) ∧
    (∀ o, ¬ Relation.TransGen (fun p c => s.container? c = some p) o o) ∧
    WellFounded (fun p c => s.container? c = some p) ∧
    (∀ x, s.container? (s.rootOf x) = none ∧
      s.rootOf x = match s.container? x with
        | some p => s.rootOf p
        | none => x) ∧
    (∀ root x, s.isWithin root x =
      if x = root then true
      else match s.container? x with
        | some p => s.isWithin root p
        | none => false) ∧
    (∀ root x, s.segments? root x =
      if x = root then some []
      else do
        let c ← (s.get x).container
        let g ← s.segment? c x
        return (← s.segments? root c.owner) ++ [g]) ∧
    ∀ root x, (s.fragmentFrom? root x).isSome = s.isWithin root x := by
  have hacyclic := h.acyclic
  refine ⟨fun o p f => mem_contentsIn_iff_container h.owned h.listed, hacyclic,
    hacyclic.wellFounded, fun x => ⟨hacyclic.container?_rootOf x, hacyclic.rootOf_eq x⟩,
    hacyclic.isWithin_eq, hacyclic.segments?_eq, fun root x => ?_⟩
  rw [fragmentFrom?, Option.isSome_map]
  exact hacyclic.isSome_segments? h.listed root x

/-- A box with a lid goes into a chest, and then the lid moves to the chest itself. -/
def chest : ObjectStore :=
  let s := (((ObjectStore.empty.newObject default).2.newObject default).2.newObject default).2
  ((s.set 1 "lid" (.contained 2)).set 0 "boxes" (.containedMany [1])).set 0 "lid" (.contained 2)

theorem nested_chest : chest.Nested := by
  have made := ((Nested.empty.newObject default).newObject default).newObject default
  have closed : Nested (ObjectStore.set _ 1 "lid" (.contained 2)) :=
    .set _ _ _ made (by decide) (by decide) fun c hc =>
      ⟨by rintro rfl; revert hc; decide, not_above_of_container? rfl c⟩
  have filled : Nested (ObjectStore.set _ 0 "boxes" (.containedMany [1])) :=
    .set _ _ _ closed (by decide) (by decide) fun c hc =>
      ⟨by rintro rfl; revert hc; decide, not_above_of_container? rfl c⟩
  exact .set _ _ _ filled (by decide) (by decide) fun c hc =>
    ⟨by rintro rfl; revert hc; decide, not_above_of_container? rfl c⟩

theorem containers_agree_chest : chest.Nested ∧ 2 ∈ chest.contentsIn 0 "lid" ∧
    2 ∉ chest.contentsIn 1 "lid" ∧ ¬ chest.Above 0 0 ∧ chest.rootOf 2 = chest.rootOf 0 := by
  obtain ⟨hlists, hacyclic, -, hroot, -⟩ := nested_chest.containers_agree
  refine ⟨nested_chest, (hlists 2 0 "lid").2 ⟨by decide, by decide⟩, ?_, hacyclic 0, (hroot 2).2⟩
  rw [hlists]
  decide

end TreeInterchange.ObjectStore
