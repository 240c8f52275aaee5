import TreeInterchange.ObjectStore.Basic
import TreeInterchange.Proofs.OrderedTables
import TreeInterchange.Proofs.TreeListings

/-!
# Ownership in object stores

A store is observed through its size and, for each place, the class, the values and the
container of the object. Storing a value claims the objects it owns, one after the other, and
lets go of those that the feature held before. An object that some feature lists always
names this feature as its container, so no two features list the same object.

Places are 32-bit numbers, so a store is full at that many objects.
-/

namespace TreeInterchange.ObjectStore

attribute [ext] Object

variable {s : ObjectStore} {id : ObjectId} {feature : String}

theorem get_of_size_le (h : s.size ≤ id) : s.get id = default := by
  simp only [get, Array.getD_eq_getD_getElem?]
  rw [Array.getElem?_eq_none (by simpa [size] using h)]
  rfl

@[simp] theorem values_default : (default : Object).values = Table.empty := rfl

@[simp] theorem container_default : (default : Object).container = none := rfl

theorem lt_size_of_value? {v : FeatureValue} (h : s.value? id feature = some v) : id < s.size := by
  by_contra hn
  rw [value?, get_of_size_le (Nat.le_of_not_lt hn)] at h
  simp at h

theorem lt_size_of_container {c : Container} (h : (s.get id).container = some c) : id < s.size := by
  by_contra hn
  rw [get_of_size_le (Nat.le_of_not_lt hn)] at h
  simp at h

theorem mem_contentsIn_iff {c : ObjectId} :
    c ∈ s.contentsIn id feature ↔ ∃ v, s.value? id feature = some v ∧ c ∈ v.children := by
  unfold contentsIn
  cases s.value? id feature <;> simp

theorem contentsIn_eq {v : FeatureValue} (h : s.value? id feature = some v) :
    s.contentsIn id feature = v.children := by
  simp [contentsIn, h]

theorem contentsIn_eq_nil (h : s.value? id feature = none) : s.contentsIn id feature = [] := by
  simp [contentsIn, h]

theorem mem_contents_iff {c : ObjectId} :
    c ∈ s.contents id ↔ ∃ feature, c ∈ s.contentsIn id feature := by
  simp only [contents, Object.contents, List.mem_flatMap, Table.mem_values_iff, mem_contentsIn_iff,
    value?]
  constructor
  · rintro ⟨v, ⟨feature, hv⟩, hc⟩
    exact ⟨feature, v, hv, hc⟩
  · rintro ⟨feature, v, hv, hc⟩
    exact ⟨v, ⟨feature, hv⟩, hc⟩

theorem contents_eq (s : ObjectStore) (id : ObjectId) :
    s.contents id = (s.get id).values.keys.flatMap (s.contentsIn id) := by
  simp only [contents, Object.contents, Table.values, Table.keys, List.flatMap_map]
  apply List.flatMap_congr
  intro e he
  rw [contentsIn_eq (Table.get?_eq_some_iff.2 he)]

theorem preorder_eq_listing (s : ObjectStore) : s.preorder = listing s.contents := by
  funext depth id
  induction depth generalizing id with
  | zero => rfl
  | succ depth ih =>
    simp only [preorder, listing, List.cons.injEq, true_and]
    exact List.flatMap_congr fun c _ => ih c

theorem tree_eq_listing (s : ObjectStore) (x : ObjectId) :
    s.tree x = listing s.contents s.size x := by
  rw [tree, preorder_eq_listing]

@[simp] theorem size_setContainer (c : Option Container) : (s.setContainer id c).size = s.size := by
  simp [setContainer]

@[simp] theorem type_setContainer (c : Option Container) (j : ObjectId) :
    ((s.setContainer id c).get j).type = (s.get j).type := by
  rw [setContainer, get_update]; split <;> rfl

@[simp] theorem values_setContainer (c : Option Container) (j : ObjectId) :
    ((s.setContainer id c).get j).values = (s.get j).values := by
  rw [setContainer, get_update]; split <;> rfl

@[simp] theorem value?_setContainer (c : Option Container) (j : ObjectId) (g : String) :
    (s.setContainer id c).value? j g = s.value? j g := by
  simp [value?]

theorem container_setContainer (c : Option Container) (j : ObjectId) :
    ((s.setContainer id c).get j).container =
      if j = id ∧ id < s.size then c else (s.get j).container := by
  rw [setContainer, get_update]
  by_cases hj : id = j
  · subst hj; by_cases hs : id < s.size <;> simp [hs]
  · have hj' : ¬ j = id := fun e => hj e.symm
    simp [hj, hj']

@[simp] theorem size_setValue (v : FeatureValue) : (s.setValue id feature v).size = s.size := by
  simp [setValue]

@[simp] theorem type_setValue (v : FeatureValue) (j : ObjectId) :
    ((s.setValue id feature v).get j).type = (s.get j).type := by
  rw [setValue, get_update]; split <;> rfl

@[simp] theorem container_setValue (v : FeatureValue) (j : ObjectId) :
    ((s.setValue id feature v).get j).container = (s.get j).container := by
  rw [setValue, get_update]; split <;> rfl

theorem values_setValue (v : FeatureValue) (j : ObjectId) :
    ((s.setValue id feature v).get j).values =
      if j = id ∧ id < s.size then (s.get j).values.insert feature v else (s.get j).values := by
  rw [setValue, get_update]
  by_cases hj : id = j
  · subst hj; by_cases hs : id < s.size <;> simp [hs]
  · have hj' : ¬ j = id := fun e => hj e.symm
    simp [hj, hj']

theorem value?_setValue (v : FeatureValue) (j : ObjectId) (g : String) :
    (s.setValue id feature v).value? j g =
      if j = id ∧ g = feature ∧ id < s.size then some v else s.value? j g := by
  rw [value?, values_setValue]
  by_cases hj : j = id
  · subst hj
    by_cases hs : j < s.size
    · by_cases hg : g = feature
      · subst hg; simp [hs]
      · have hg' : ¬ feature = g := fun e => hg e.symm
        simp [hs, hg, hg', Table.get?_insert, value?]
    · simp [hs, value?]
  · simp [hj, value?]

theorem release_of_container_none (h : (s.get id).container = none) : s.release id = s := by
  simp [release, h]

theorem claim_of_container_none {owner : ObjectId} (h : (s.get id).container = none) :
    claim owner feature s id = s.setContainer id (some ⟨owner, feature⟩) := by
  simp [claim, release_of_container_none h]

theorem children_without (c : ObjectId) (v : FeatureValue) :
    (v.without c).children = v.children.filter (· ≠ c) := by
  cases v with
  | contained d => by_cases h : d = c <;> simp [FeatureValue.without, FeatureValue.children, h]
  | _ => rfl

@[simp] theorem size_release : (s.release id).size = s.size := by
  unfold release; split <;> simp

@[simp] theorem size_claim {owner : ObjectId} : (claim owner feature s id).size = s.size := by
  simp [claim]

theorem container_release (j : ObjectId) :
    ((s.release id).get j).container = if j = id then none else (s.get j).container := by
  unfold release
  split
  · rename_i c hc
    have hs : id < s.size := lt_size_of_container hc
    rw [get_update]
    split <;> simp [container_setContainer, hs]
  · rename_i hc
    split
    · rename_i hj; rw [hj, hc]
    · rfl

theorem value?_release {c : Container} (hc : (s.get id).container = some c) (j : ObjectId)
    (g : String) : (s.release id).value? j g =
      if j = c.owner ∧ g = c.feature then (s.value? j g).map (FeatureValue.without id)
      else s.value? j g := by
  simp only [value?, release, hc, get_update, size_setContainer]
  by_cases hj : c.owner = j
  · subst hj
    by_cases hs : c.owner < s.size
    · by_cases hg : c.feature = g
      · simp [hs, hg, Table.get?_adjust]
      · have hg' : ¬ g = c.feature := fun e => hg e.symm
        simp [hs, hg, hg', Table.get?_adjust]
    · have hd : s.get c.owner = default := get_of_size_le (Nat.le_of_not_lt hs)
      simp [hs, hd]
  · have hj' : ¬ j = c.owner := fun e => hj e.symm
    simp [hj, hj']

/-- Every listed object names the feature that lists it as its container. -/
def Owned (s : ObjectStore) : Prop :=
  ∀ p g c, c ∈ s.contentsIn p g → (s.get c).container = some ⟨p, g⟩

theorem Owned.place_unique (h : s.Owned) {p q c : ObjectId} {g g' : String}
    (hp : c ∈ s.contentsIn p g) (hq : c ∈ s.contentsIn q g') : p = q ∧ g = g' :=
  Container.mk.inj (Option.some.inj ((h p g c hp).symm.trans (h q g' c hq)))

theorem Owned.owner_unique (h : s.Owned) {p q c : ObjectId} (hp : c ∈ s.contents p)
    (hq : c ∈ s.contents q) : p = q := by
  obtain ⟨g, hg⟩ := mem_contents_iff.1 hp
  obtain ⟨g', hg'⟩ := mem_contents_iff.1 hq
  exact (h.place_unique hg hg').1

theorem Owned.nodup_contents (h : s.Owned) (hin : ∀ g, (s.contentsIn id g).Nodup) :
    (s.contents id).Nodup := by
  rw [contents_eq, List.nodup_flatMap]
  exact ⟨fun g _ => hin g, (s.get id).values.nodup.imp fun hne _ hc hc' =>
    hne (h.place_unique hc hc').2⟩

theorem Owned.nodup_contents_iff_contentsIn (h : s.Owned) :
    (s.contents id).Nodup ↔ ∀ g, (s.contentsIn id g).Nodup := by
  refine ⟨fun hall g => ?_, h.nodup_contents⟩
  cases hv : s.value? id g with
  | none =>
    rw [contentsIn_eq_nil hv]
    exact List.nodup_nil
  | some v =>
    rw [contents_eq, List.nodup_flatMap] at hall
    exact hall.1 g (Table.mem_keys_iff.2 ⟨v, hv⟩)

theorem lt_size_of_mem_contents (hs : s.Owned) {x c : ObjectId} (h : c ∈ s.contents x) :
    c < s.size := by
  obtain ⟨g, hc⟩ := mem_contents_iff.1 h
  exact lt_size_of_container (hs x g c hc)

theorem Owned.contentsIn_release (h : s.Owned) (c p : ObjectId) (g : String) :
    (s.release c).contentsIn p g = (s.contentsIn p g).filter (· ≠ c) := by
  cases hc : (s.get c).container with
  | none =>
    rw [release_of_container_none hc, List.filter_eq_self.2]
    intro d hd
    simp only [decide_eq_true_eq]
    rintro rfl
    exact absurd (h p g d hd) (by simp [hc])
  | some k =>
    unfold contentsIn
    rw [value?_release hc]
    by_cases hp : p = k.owner ∧ g = k.feature
    · rw [if_pos hp]
      cases s.value? p g with
      | none => simp
      | some v => simp [children_without]
    · rw [if_neg hp]
      refine (List.filter_eq_self.2 fun d hd => ?_).symm
      simp only [decide_eq_true_eq]
      rintro rfl
      have hd' := h p g d hd
      rw [hc, Option.some.injEq] at hd'
      exact hp ⟨by rw [hd'], by rw [hd']⟩

/-- Claiming objects takes them out of the features that list them and records the new owner. -/
theorem Owned.claim_all (h : s.Owned) (id : ObjectId) (feature : String) (cs : List ObjectId)
    (hcs : ∀ c ∈ cs, c < s.size) :
    let t := cs.foldl (claim id feature) s
    t.Owned ∧ t.size = s.size ∧
      (∀ c, (t.get c).container = if c ∈ cs then some ⟨id, feature⟩ else (s.get c).container) ∧
      ∀ p g, t.contentsIn p g = (s.contentsIn p g).filter (· ∉ cs) := by
  induction cs generalizing s with
  | nil => exact ⟨h, rfl, by simp, by simp⟩
  | cons c cs ih =>
    have hin : ∀ p g, (claim id feature s c).contentsIn p g =
        (s.contentsIn p g).filter (· ≠ c) := fun p g => by
      rw [← h.contentsIn_release]
      simp [contentsIn, claim]
    have hcont : ∀ j, ((claim id feature s c).get j).container =
        if j = c then some ⟨id, feature⟩ else (s.get j).container := fun j => by
      rw [claim, container_setContainer, container_release]
      by_cases hj : j = c <;> simp [hj, hcs c (by simp)]
    have howned : (claim id feature s c).Owned := by
      intro p g d hd
      rw [hin, List.mem_filter, decide_eq_true_eq] at hd
      rw [hcont, if_neg hd.2]
      exact h p g d hd.1
    obtain ⟨h1, h2, h3, h4⟩ := ih howned fun d hd => by simpa using hcs d (by simp [hd])
    refine ⟨h1, by simpa using h2, fun d => ?_, fun p g => ?_⟩
    · rw [List.foldl_cons, h3, hcont]
      by_cases hd : d = c <;> by_cases hm : d ∈ cs <;> simp [hd, hm]
    · rw [List.foldl_cons, h4, hin, List.filter_filter]
      apply List.filter_congr
      intro d _
      by_cases hd : d = c <;> by_cases hm : d ∈ cs <;> simp [hd, hm]

theorem let_go (olds : List ObjectId) (s : ObjectStore) :
    let t := olds.foldl (fun s old => s.setContainer old none) s
    t.size = s.size ∧ ∀ j, (t.get j).type = (s.get j).type ∧ (t.get j).values = (s.get j).values ∧
      (t.get j).container = if j ∈ olds then none else (s.get j).container := by
  induction olds generalizing s with
  | nil => simp
  | cons old olds ih =>
    obtain ⟨hs, hg⟩ := ih (s.setContainer old none)
    refine ⟨by simpa using hs, fun j => ?_⟩
    obtain ⟨ht, hv, hc⟩ := hg j
    refine ⟨by simpa using ht, by simpa using hv, ?_⟩
    rw [List.foldl_cons, hc, container_setContainer]
    by_cases hm : j ∈ olds
    · simp [hm]
    · by_cases hj : j = old
      · subst hj
        by_cases hsz : j < s.size
        · simp [hsz]
        · simp [get_of_size_le (Nat.le_of_not_lt hsz)]
      · simp [hm, hj]

/-- What the features list after a value was stored: the feature holds what the value names, as
often as it is named, and all other features have lost these objects. -/
theorem Owned.contentsIn_set (h : s.Owned) (v : FeatureValue) (hv : ∀ c ∈ v.children, c < s.size)
    (p : ObjectId) (g : String) : (s.set id feature v).contentsIn p g =
      if p = id ∧ g = feature ∧ id < s.size then v.children
      else (s.contentsIn p g).filter (· ∉ v.children) := by
  obtain ⟨-, hsize, -, hin⟩ := h.claim_all id feature v.children hv
  simp only [ObjectStore.set]
  rw [contentsIn, value?, ((let_go _ _).2 p).2.1, ← value?, value?_setValue, hsize]
  split
  · rfl
  · exact hin p g

theorem Owned.container_set (h : s.Owned) (v : FeatureValue) (hv : ∀ c ∈ v.children, c < s.size)
    (j : ObjectId) : ((s.set id feature v).get j).container =
      if j ∈ v.children then some ⟨id, feature⟩
      else if j ∈ s.contentsIn id feature then none else (s.get j).container := by
  obtain ⟨-, -, hcont, hin⟩ := h.claim_all id feature v.children hv
  simp only [ObjectStore.set]
  rw [((let_go _ _).2 j).2.2, container_setValue, hcont]
  rw [show (((v.children.foldl (claim id feature) s).value? id feature).map
    FeatureValue.children).getD [] = _ from hin id feature]
  by_cases hj : j ∈ v.children <;> by_cases hold : j ∈ s.contentsIn id feature <;> simp [hj, hold]

theorem Owned.set (h : s.Owned) (v : FeatureValue) (hv : ∀ c ∈ v.children, c < s.size) :
    (s.set id feature v).Owned := by
  intro p g c hc
  rw [h.contentsIn_set v hv] at hc
  rw [h.container_set v hv]
  split at hc
  · rename_i hpg
    obtain ⟨rfl, rfl, -⟩ := hpg
    rw [if_pos hc]
  · rename_i hpg
    obtain ⟨hc, hnot⟩ := List.mem_filter.1 hc
    rw [if_neg (by simpa using hnot), if_neg, h p g c hc]
    intro hold
    obtain ⟨rfl, rfl⟩ := h.place_unique hc hold
    obtain ⟨w, hw, -⟩ := mem_contentsIn_iff.1 hc
    exact hpg ⟨rfl, rfl, lt_size_of_value? hw⟩

/-- Every object is listed by the feature that it names as its container. -/
def Listed (s : ObjectStore) : Prop :=
  ∀ p g c, (s.get c).container = some ⟨p, g⟩ → c ∈ s.contentsIn p g

theorem mem_contents_iff_container? (ho : s.Owned) (hl : s.Listed) {p c : ObjectId} :
    c ∈ s.contents p ↔ s.container? c = some p := by
  rw [mem_contents_iff]
  constructor
  · rintro ⟨g, hg⟩
    rw [container?, ho p g c hg]
    rfl
  · intro hc
    obtain ⟨⟨_, g⟩, hholder, rfl⟩ := Option.map_eq_some_iff.1 hc
    exact ⟨g, hl _ g c hholder⟩

theorem Listed.set (h : s.Listed) (ho : s.Owned) (hid : id < s.size) (v : FeatureValue)
    (hv : ∀ c ∈ v.children, c < s.size) : (s.set id feature v).Listed := by
  intro p g c hc
  rw [ho.container_set v hv] at hc
  rw [ho.contentsIn_set v hv]
  split at hc
  · rename_i hmem
    obtain ⟨rfl, rfl⟩ := Container.mk.inj (Option.some.inj hc)
    rwa [if_pos ⟨rfl, rfl, hid⟩]
  · rename_i hmem
    split at hc
    · cases hc
    · rename_i hold
      have hlisted := h p g c hc
      rw [if_neg]
      · exact List.mem_filter.2 ⟨hlisted, by simpa using hmem⟩
      · rintro ⟨rfl, rfl, -⟩
        exact hold hlisted

theorem size_claims {owner : ObjectId} (cs : List ObjectId) (s : ObjectStore) :
    (cs.foldl (claim owner feature) s).size = s.size := by
  induction cs generalizing s with
  | nil => rfl
  | cons c cs ih => rw [List.foldl_cons, ih, size_claim]

@[simp] theorem size_set (v : FeatureValue) : (s.set id feature v).size = s.size := by
  simp only [ObjectStore.set]
  rw [(let_go _ _).1, size_setValue, size_claims]

theorem claim_fresh (owner : ObjectId) (feature : String) (cs : List ObjectId) (s : ObjectStore)
    (hn : cs.Nodup) (hfree : ∀ c ∈ cs, (s.get c).container = none) :
    let t := cs.foldl (claim owner feature) s
    t.size = s.size ∧ ∀ j, (t.get j).type = (s.get j).type ∧ (t.get j).values = (s.get j).values ∧
      (t.get j).container =
        if j ∈ cs ∧ j < s.size then some ⟨owner, feature⟩ else (s.get j).container := by
  induction cs generalizing s with
  | nil => simp
  | cons c cs ih =>
    rw [List.nodup_cons] at hn
    have hclaim : claim owner feature s c = s.setContainer c (some ⟨owner, feature⟩) :=
      claim_of_container_none (hfree c (by simp))
    obtain ⟨hs, hg⟩ := ih (claim owner feature s c) hn.2 fun d hd => by
      have hdc : ¬ d = c := fun e => hn.1 (e ▸ hd)
      rw [hclaim, container_setContainer]
      simpa [hdc] using hfree d (by simp [hd])
    refine ⟨by simpa using hs, fun j => ?_⟩
    obtain ⟨ht, hv, hc⟩ := hg j
    refine ⟨by simpa [hclaim] using ht, by simpa [hclaim] using hv, ?_⟩
    rw [List.foldl_cons, hc, size_claim, hclaim, container_setContainer]
    by_cases hj : j = c <;> by_cases hm : j ∈ cs <;> by_cases hsz : j < s.size <;> simp_all

theorem set_fresh {v : FeatureValue} (hn : v.children.Nodup)
    (hfree : ∀ c ∈ v.children, (s.get c).container = none) (hnone : s.contentsIn id feature = []) :
    let t := s.set id feature v
    ∀ j, (t.get j).type = (s.get j).type ∧
      (t.get j).values =
        (if j = id ∧ id < s.size then (s.get j).values.insert feature v else (s.get j).values) ∧
      (t.get j).container =
        if j ∈ v.children ∧ j < s.size then some ⟨id, feature⟩ else (s.get j).container := by
  obtain ⟨hsize, hclaim⟩ := claim_fresh id feature v.children s hn hfree
  have hformer : ((v.children.foldl (claim id feature) s).value? id feature).map
      FeatureValue.children = (s.value? id feature).map FeatureValue.children := by
    rw [value?, (hclaim id).2.1, value?]
  have hset : s.set id feature v =
      (v.children.foldl (claim id feature) s).setValue id feature v := by
    simp only [ObjectStore.set]
    rw [hformer, show ((s.value? id feature).map FeatureValue.children).getD [] = [] from hnone]
    rfl
  intro t j
  rw [show t = _ from hset, type_setValue, values_setValue, container_setValue, hsize]
  obtain ⟨ht, hv, hc⟩ := hclaim j
  exact ⟨ht, by rw [hv], hc⟩

section Fresh

variable {v : FeatureValue} (hn : v.children.Nodup)
  (hfree : ∀ c ∈ v.children, (s.get c).container = none) (hnone : s.contentsIn id feature = [])
include hn hfree hnone

theorem value?_set_fresh (j : ObjectId) (g : String) : (s.set id feature v).value? j g =
    if j = id ∧ g = feature ∧ id < s.size then some v else s.value? j g := by
  rw [value?, (set_fresh hn hfree hnone j).2.1]
  by_cases hj : j = id ∧ id < s.size
  · rw [if_pos hj, Table.get?_insert]
    by_cases hg : g = feature
    · subst hg
      simp [hj]
    · have hg' : ¬ feature = g := fun e => hg e.symm
      simp [hg, hg', value?]
  · rw [if_neg hj, if_neg fun h => hj ⟨h.1, h.2.2⟩]
    rfl

theorem get_set_fresh {j : ObjectId} (hj : j ≠ id) (hjv : j ∉ v.children) :
    (s.set id feature v).get j = s.get j := by
  obtain ⟨ht, hvs, hc⟩ := set_fresh hn hfree hnone j
  rw [if_neg fun h => hj h.1] at hvs
  rw [if_neg fun h => hjv h.1] at hc
  exact Object.ext ht hvs hc

end Fresh

theorem set_append {v : FeatureValue} (hid : id < s.size) (hnew : feature ∉ (s.get id).values.keys)
    (hn : v.children.Nodup) (hfree : ∀ c ∈ v.children, c < s.size ∧ (s.get c).container = none) :
    let t := s.set id feature v
    (t.get id).values.entries = (s.get id).values.entries ++ [(feature, v)] ∧
      (∀ j, (t.get j).type = (s.get j).type) ∧
      (∀ j, j ≠ id → (t.get j).values = (s.get j).values) ∧
      ∀ j, (t.get j).container =
        if j ∈ v.children then some ⟨id, feature⟩ else (s.get j).container := by
  have hset := set_fresh hn (fun c hc => (hfree c hc).2)
    (contentsIn_eq_nil (Table.get?_eq_none_iff.2 hnew))
  refine ⟨?_, fun j => (hset j).1, fun j hj => ?_, fun j => ?_⟩
  · rw [(hset id).2.1, if_pos ⟨rfl, hid⟩, Table.entries_insert_of_not_mem hnew]
  · rw [(hset j).2.1, if_neg fun h => hj h.1]
  · rw [(hset j).2.2]
    by_cases hj : j ∈ v.children
    · simp [hj, (hfree j hj).1]
    · simp [hj]

/-- What runs of making objects and storing values lead to; stored values own objects that exist. -/
inductive Reachable : ObjectStore → Prop
  | empty : Reachable ObjectStore.empty
  | newObject {s : ObjectStore} (c : ClassifierRef) (h : Reachable s)
      (hroom : s.size < arenaRoom) : Reachable (s.newObject c).2
  | set {s : ObjectStore} (id : ObjectId) (feature : String) (v : FeatureValue) (h : Reachable s)
      (hid : id < s.size) (hv : ∀ c ∈ v.children, c < s.size) : Reachable (s.set id feature v)

theorem Reachable.size_le (h : Reachable s) : s.size ≤ arenaRoom := by
  induction h with
  | empty => exact Nat.zero_le _
  | newObject c _ hroom _ =>
    rw [size_newObject]
    exact hroom
  | set id feature v _ _ _ ih => simpa using ih

theorem owned_empty : ObjectStore.empty.Owned := by
  intro p g c hc
  rw [mem_contentsIn_iff, value?, get_of_size_le (Nat.zero_le p)] at hc
  simp at hc

theorem listed_empty : ObjectStore.empty.Listed := by
  intro p g c hc
  rw [get_of_size_le (Nat.zero_le c)] at hc
  cases hc

@[simp] theorem values_newObject (k : ClassifierRef) (j : ObjectId) :
    ((s.newObject k).2.get j).values = (s.get j).values := by
  rw [get_newObject]
  split
  · rename_i hj
    rw [hj, get_of_size_le (Nat.le_refl s.size)]
    rfl
  · rfl

@[simp] theorem container_newObject (k : ClassifierRef) (j : ObjectId) :
    ((s.newObject k).2.get j).container = (s.get j).container := by
  rw [get_newObject]
  split
  · rename_i hj
    rw [hj, get_of_size_le (Nat.le_refl s.size)]
    rfl
  · rfl

@[simp] theorem contentsIn_newObject (k : ClassifierRef) (p : ObjectId) (g : String) :
    (s.newObject k).2.contentsIn p g = s.contentsIn p g := by
  simp [contentsIn, value?]

theorem Owned.newObject (h : s.Owned) (k : ClassifierRef) : (s.newObject k).2.Owned := by
  intro p g c hc
  rw [container_newObject]
  apply h
  simpa using hc

theorem Listed.newObject (h : s.Listed) (k : ClassifierRef) : (s.newObject k).2.Listed := by
  intro p g c hc
  rw [contentsIn_newObject]
  apply h
  simpa using hc

theorem Reachable.owned (h : Reachable s) : s.Owned := by
  induction h with
  | empty => exact owned_empty
  | newObject k _ _ ih => exact ih.newObject k
  | set id feature v _ _ hv ih => exact ih.set v hv

theorem Reachable.listed (h : Reachable s) : s.Listed := by
  induction h with
  | empty => exact listed_empty
  | newObject k _ _ ih => exact ih.newObject k
  | set id feature v h hid hv ih => exact ih.set h.owned hid v hv

end TreeInterchange.ObjectStore
