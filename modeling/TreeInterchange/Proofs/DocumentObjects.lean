import Mathlib.Data.List.Induction
import TreeInterchange.Proofs.ObjectConformity
import TreeInterchange.Proofs.StatefulRuns

/-!
# What reading a document makes

An object that was read fills a run of places, from its own up to the end of the last object
below it: first come the trees of the first feature that owns objects, then those of the
second, and so on. Every feature that the document gives a value has it in the store, in the
order of the class.

References wait while the objects are made, each at a feature of its own that holds null.
Resolving them changes no other value, so the shape of the tree is the same before and after.
This is said once, for a relation `ref` between what the document says of a reference and what
the store holds for it.
-/

namespace TreeInterchange.ObjectDocument

/-- Values that were read in turn as objects, whose trees fill the places from `a` up to `b`. -/
def InTurn (child : Json → Nat → Nat → Prop) :
    List Json → List Nat → Nat → Nat → Prop
  | [], ids, a, b => ids = [] ∧ a = b
  | j :: js, ids, a, b => ∃ c rest, ids = a :: rest ∧ child j a c ∧ InTurn child js rest c b

/-- What a containment feature holds that was read from a value. -/
def OwnsRead (child : Json → Nat → Nat → Prop) (f : Feature) (v : FeatureValue)
    (a b : Nat) : Json → Prop
  | .null => v = .null ∧ a = b
  | .array items =>
    f.isMany = true ∧ ∃ ids, v = .containedMany ids ∧ InTurn child items ids a b
  | j => v = (if f.isMany then .containedMany [a] else .contained a) ∧ child j a b

section Relations

variable (m : Metamodel) (ref : Nat → Feature → Json → FeatureValue → Prop) (t : ObjectStore)

/-- What the object `y` holds for a feature, with the trees below it between `a` and `b`. -/
def ReadsFeature (child : Json → Nat → Nat → Prop) (members : JsonMembers) (y : Nat)
    (f : Feature) (a b : Nat) : Prop :=
  match JsonMembers.get? members f.name with
  | none => a = b
  | some j => ∃ v, t.value? y f.name = some v ∧
    match f.kind with
    | .plain => plainValue m f j = .ok v ∧ a = b
    | .reference => ref y f j v ∧ a = b
    | .containment => OwnsRead child f v a b j

def ReadsFeatures (child : Json → Nat → Nat → Prop) (members : JsonMembers)
    (y : Nat) : List Feature → Nat → Nat → Prop
  | [], a, b => a = b
  | f :: fs, a, b => ∃ c, ReadsFeature m ref t child members y f a c ∧
    ReadsFeatures child members y fs c b

def givenNames (members : JsonMembers) (fs : List Feature) : List String :=
  (fs.filter fun f => (JsonMembers.get? members f.name).isSome).map (·.name)

/-- The object `y` was read from `members`, nested at most `depth` levels, and the objects below it
fill the places up to `e`. -/
def Reads : Nat → JsonMembers → Nat → Nat → Prop
  | 0, _, _, _ => False
  | depth + 1, members, y, e => ∃ fs, m.features (t.get y).type = .ok fs ∧
    (t.get y).values.keys = givenNames members fs ∧
    ReadsFeatures m ref t (fun j a b => ∃ ms, j = .object ms ∧ Reads depth ms a b) members y fs
      (y + 1) e

def ReadsObject (depth : Nat) (j : Json) (a b : Nat) : Prop :=
  ∃ ms, j = .object ms ∧ Reads m ref t depth ms a b

end Relations

variable {m : Metamodel} {ref ref' : Nat → Feature → Json → FeatureValue → Prop}
  {t t' : ObjectStore} {child child' : Json → Nat → Nat → Prop} {members : JsonMembers}
  {f : Feature} {y a b e : Nat} {v : FeatureValue}

theorem InTurn.le {js : List Json} {ids : List Nat} (hchild : ∀ j a b, child j a b → a < b)
    (h : InTurn child js ids a b) : a ≤ b := by
  induction js generalizing ids a with
  | nil => exact Nat.le_of_eq h.2
  | cons j js ih =>
    obtain ⟨c, rest, -, hc, hrest⟩ := h
    exact Nat.le_trans (Nat.le_of_lt (hchild j a c hc)) (ih hrest)

theorem InTurn.mem {js : List Json} {ids : List Nat} (hchild : ∀ j a b, child j a b → a < b)
    (h : InTurn child js ids a b) : ids.Nodup ∧ ∀ y ∈ ids, a ≤ y ∧ y < b := by
  induction js generalizing ids a with
  | nil =>
    rw [h.1]
    simp
  | cons j js ih =>
    obtain ⟨c, rest, rfl, hc, hrest⟩ := h
    have hac := hchild j a c hc
    have hcb := hrest.le hchild
    obtain ⟨hnodup, hmem⟩ := ih hrest
    refine ⟨List.nodup_cons.2 ⟨fun ha => ?_, hnodup⟩, List.forall_mem_cons.2 ⟨?_, ?_⟩⟩
    · have := hmem a ha
      omega
    · omega
    · intro y hy
      have := hmem y hy
      omega

theorem OwnsRead.le {j : Json} (hchild : ∀ j a b, child j a b → a < b)
    (h : OwnsRead child f v a b j) : a ≤ b := by
  unfold OwnsRead at h
  split at h
  · exact Nat.le_of_eq h.2
  · obtain ⟨-, ids, -, hids⟩ := h
    exact hids.le hchild
  · exact Nat.le_of_lt (hchild _ a b h.2)

theorem OwnsRead.children {j : Json} (hchild : ∀ j a b, child j a b → a < b)
    (h : OwnsRead child f v a b j) :
    v.children.Nodup ∧ (∀ c ∈ v.children, a ≤ c ∧ c < b) ∧
      (v = .null ∨ (f.isMany = true ∧ ∃ ids, v = .containedMany ids) ∨
        f.isMany = false ∧ ∃ c, v = .contained c) := by
  unfold OwnsRead at h
  split at h
  · rw [h.1]
    simp [FeatureValue.children]
  · obtain ⟨hmany, ids, rfl, hids⟩ := h
    exact ⟨(hids.mem hchild).1, (hids.mem hchild).2, .inr (.inl ⟨hmany, ids, rfl⟩)⟩
  · obtain ⟨hv, hj⟩ := h
    have hab := hchild _ a b hj
    cases hmany : f.isMany with
    | true =>
      rw [hv, hmany]
      exact ⟨by simp [FeatureValue.children], by simpa [FeatureValue.children] using hab,
        .inr (.inl ⟨rfl, _, rfl⟩)⟩
    | false =>
      rw [hv, hmany]
      exact ⟨by simp [FeatureValue.children], by simpa [FeatureValue.children] using hab,
        .inr (.inr ⟨rfl, a, rfl⟩)⟩

theorem ReadsFeature.le (hchild : ∀ j a b, child j a b → a < b)
    (h : ReadsFeature m ref t child members y f a b) : a ≤ b := by
  unfold ReadsFeature at h
  split at h
  · exact Nat.le_of_eq h
  · obtain ⟨v, -, h⟩ := h
    split at h
    · exact Nat.le_of_eq h.2
    · exact Nat.le_of_eq h.2
    · exact h.le hchild

theorem ReadsFeatures.le {fs : List Feature} (hchild : ∀ j a b, child j a b → a < b)
    (h : ReadsFeatures m ref t child members y fs a b) : a ≤ b := by
  induction fs generalizing a with
  | nil => exact Nat.le_of_eq h
  | cons f fs ih =>
    obtain ⟨c, hc, hrest⟩ := h
    exact Nat.le_trans (hc.le hchild) (ih hrest)

theorem ReadsFeatures.append {fs : List Feature} {c : Nat}
    (h : ReadsFeatures m ref t child members y fs a c)
    (hf : ReadsFeature m ref t child members y f c b) :
    ReadsFeatures m ref t child members y (fs ++ [f]) a b := by
  induction fs generalizing a with
  | nil =>
    cases h
    exact ⟨b, hf, rfl⟩
  | cons g fs ih =>
    obtain ⟨c', hg, hrest⟩ := h
    exact ⟨c', hg, ih hrest⟩

theorem Reads.lt {depth : Nat} (h : Reads m ref t depth members y e) : y < e := by
  induction depth generalizing members y e with
  | zero => exact h.elim
  | succ depth ih =>
    obtain ⟨fs, -, -, hfs⟩ := h
    have hle := hfs.le fun j a b hj => by
      obtain ⟨ms, -, hms⟩ := hj
      exact ih hms
    omega

theorem ReadsObject.lt {depth : Nat} {j : Json} (h : ReadsObject m ref t depth j a b) : a < b := by
  obtain ⟨ms, -, hms⟩ := h
  exact hms.lt

theorem InTurn.getElem {js : List Json} {ids : List Nat} (hchild : ∀ j a b, child j a b → a < b)
    (h : InTurn child js ids a b) {i : Nat} (hy : ids[i]? = some y) :
    ∃ j c, js[i]? = some j ∧ a ≤ y ∧ c ≤ b ∧ child j y c := by
  induction js generalizing ids a i with
  | nil => simp [h.1] at hy
  | cons k js ih =>
    obtain ⟨c, rest, rfl, hc, hrest⟩ := h
    cases i with
    | zero =>
      obtain rfl : a = y := by simpa using hy
      exact ⟨k, c, rfl, Nat.le_refl a, hrest.le hchild, hc⟩
    | succ i =>
      obtain ⟨j, d, hj, hle, hd, hread⟩ := ih hrest (by simpa using hy)
      exact ⟨j, d, hj, Nat.le_trans (Nat.le_of_lt (hchild k a c hc)) hle, hd, hread⟩

/-- The values that are read as objects where a containment feature holds `j`. -/
def ownedItems : Json → List Json
  | .null => []
  | .array items => items
  | j => [j]

theorem OwnsRead.getElem {j : Json} (hchild : ∀ j a b, child j a b → a < b)
    (h : OwnsRead child f v a b j) {i : Nat} (hy : v.children[i]? = some y) :
    ∃ j' c, (ownedItems j)[i]? = some j' ∧ a ≤ y ∧ c ≤ b ∧ child j' y c := by
  unfold OwnsRead at h
  split at h
  · simp [h.1, FeatureValue.children] at hy
  · obtain ⟨-, ids, rfl, hids⟩ := h
    exact hids.getElem hchild hy
  · rename_i hnull harray
    obtain ⟨hv, hj⟩ := h
    have hchildren : v.children = [a] := by
      rw [hv]
      split <;> rfl
    rw [hchildren, List.getElem?_eq_some_iff] at hy
    obtain ⟨hi, rfl⟩ := hy
    obtain rfl : i = 0 := by simpa using hi
    refine ⟨j, b, ?_, Nat.le_refl _, Nat.le_refl b, hj⟩
    cases j with
    | null => exact absurd rfl hnull
    | array items => exact absurd rfl (harray items)
    | _ => rfl

theorem ReadsFeatures.mem {fs : List Feature} (hchild : ∀ j a b, child j a b → a < b)
    (h : ReadsFeatures m ref t child members y fs a b) (hf : f ∈ fs) :
    ∃ c d, a ≤ c ∧ d ≤ b ∧ ReadsFeature m ref t child members y f c d := by
  induction fs generalizing a with
  | nil => cases hf
  | cons g fs ih =>
    obtain ⟨c, hg, hrest⟩ := h
    rcases List.mem_cons.1 hf with rfl | hf
    · exact ⟨a, c, Nat.le_refl a, hrest.le hchild, hg⟩
    · obtain ⟨c', d, hle, hd, hread⟩ := ih hrest hf
      exact ⟨c', d, Nat.le_trans (hg.le hchild) hle, hd, hread⟩

/-- The value `v` of a feature of `y` was read from `j`; the objects below lie before `e`. -/
structure ValueRead (m : Metamodel) (ref : Nat → Feature → Json → FeatureValue → Prop)
    (t : ObjectStore) (depth : Nat) (f : Feature) (j : Json) (y e : Nat) (v : FeatureValue) :
    Prop where
  plain : f.kind = .plain → plainValue m f j = .ok v
  reference : f.kind = .reference → ref y f j v
  owned : f.kind = .containment →
    ∃ a b, y < a ∧ b ≤ e ∧ OwnsRead (ReadsObject m ref t depth) f v a b j

theorem Reads.value {depth : Nat} (h : Reads m ref t (depth + 1) members y e) {name : String}
    (hv : t.value? y name = some v) :
    ∃ fs f j, m.features (t.get y).type = .ok fs ∧ f ∈ fs ∧ f.name = name ∧
      JsonMembers.get? members name = some j ∧ ValueRead m ref t depth f j y e v := by
  obtain ⟨fs, hfeatures, hkeys, hfs⟩ := h
  have hname : name ∈ givenNames members fs := hkeys ▸ Table.mem_keys_iff.2 ⟨v, hv⟩
  obtain ⟨f, hf, rfl⟩ := List.mem_map.1 hname
  obtain ⟨hf, hgiven⟩ := List.mem_filter.1 hf
  obtain ⟨j, hj⟩ := Option.isSome_iff_exists.1 hgiven
  obtain ⟨a, b, ha, hb, hread⟩ := hfs.mem (fun _ _ _ => ReadsObject.lt) hf
  simp only [ReadsFeature, hj] at hread
  obtain ⟨w, hw, hread⟩ := hread
  rw [hv] at hw
  cases hw
  refine ⟨fs, f, j, hfeatures, hf, rfl, hj, fun hk => ?_, fun hk => ?_, fun hk => ?_⟩
  · simp only [hk] at hread
    exact hread.1
  · simp only [hk] at hread
    exact hread.1
  · simp only [hk] at hread
    exact ⟨a, b, ha, hb, hread⟩

/-- A value that stays, or a reference that is passed from one relation to the other. -/
structure CarriesFeature (ref ref' : Nat → Feature → Json → FeatureValue → Prop)
    (t t' : ObjectStore) (x : Nat) (f : Feature) : Prop where
  stays : f.kind ≠ .reference → t'.value? x f.name = t.value? x f.name
  passes : f.kind = .reference → ∀ j v, t.value? x f.name = some v → ref x f j v →
    ∃ v', t'.value? x f.name = some v' ∧ ref' x f j v'

/-- An object that was read into one store is as well one that was read into the other. -/
structure Carries (m : Metamodel) (ref ref' : Nat → Feature → Json → FeatureValue → Prop)
    (t t' : ObjectStore) (x : Nat) : Prop where
  type : (t'.get x).type = (t.get x).type
  keys : (t'.get x).values.keys = (t.get x).values.keys
  values : ∀ fs, m.features (t.get x).type = .ok fs →
    ∀ f ∈ fs, CarriesFeature ref ref' t t' x f

theorem InTurn.imp {js : List Json} {ids : List Nat} (hchild : ∀ j a b, child j a b → a < b)
    (h : InTurn child js ids a b)
    (himp : ∀ j x c, a ≤ x → c ≤ b → child j x c → child' j x c) : InTurn child' js ids a b := by
  induction js generalizing ids a with
  | nil => exact h
  | cons j js ih =>
    obtain ⟨c, rest, rfl, hc, hrest⟩ := h
    have hac := hchild j a c hc
    refine ⟨c, rest, rfl, himp j a c (Nat.le_refl a) (hrest.le hchild) hc, ih hrest ?_⟩
    intro j x d hx hd
    exact himp j x d (by omega) hd

theorem OwnsRead.imp {j : Json} (hchild : ∀ j a b, child j a b → a < b)
    (h : OwnsRead child f v a b j)
    (himp : ∀ j x c, a ≤ x → c ≤ b → child j x c → child' j x c) : OwnsRead child' f v a b j := by
  unfold OwnsRead at h ⊢
  split at h
  · exact h
  · obtain ⟨hmany, ids, hv, hids⟩ := h
    exact ⟨hmany, ids, hv, hids.imp hchild himp⟩
  · exact ⟨h.1, himp _ a b (Nat.le_refl a) (Nat.le_refl b) h.2⟩

theorem ReadsFeature.carry (hchild : ∀ j a b, child j a b → a < b)
    (h : ReadsFeature m ref t child members y f a b) (hf : CarriesFeature ref ref' t t' y f)
    (himp : ∀ j x c, a ≤ x → c ≤ b → child j x c → child' j x c) :
    ReadsFeature m ref' t' child' members y f a b := by
  cases hget : JsonMembers.get? members f.name with
  | none =>
    simp only [ReadsFeature, hget] at h ⊢
    exact h
  | some j =>
    simp only [ReadsFeature, hget] at h ⊢
    obtain ⟨v, hv, h⟩ := h
    cases hk : f.kind with
    | plain =>
      simp only [hk] at h ⊢
      exact ⟨v, by rw [hf.stays (by simp [hk]), hv], h⟩
    | containment =>
      simp only [hk] at h ⊢
      exact ⟨v, by rw [hf.stays (by simp [hk]), hv], h.imp hchild himp⟩
    | reference =>
      simp only [hk] at h ⊢
      obtain ⟨v', hv', hr⟩ := hf.passes hk j v hv h.1
      exact ⟨v', hv', hr, h.2⟩

theorem ReadsFeatures.carry {fs : List Feature} (hchild : ∀ j a b, child j a b → a < b)
    (h : ReadsFeatures m ref t child members y fs a b)
    (hfs : ∀ f ∈ fs, CarriesFeature ref ref' t t' y f)
    (himp : ∀ j x c, a ≤ x → c ≤ b → child j x c → child' j x c) :
    ReadsFeatures m ref' t' child' members y fs a b := by
  induction fs generalizing a with
  | nil => exact h
  | cons f fs ih =>
    obtain ⟨c, hc, hrest⟩ := h
    have hac := hc.le hchild
    have hcb := hrest.le hchild
    refine ⟨c, hc.carry hchild (hfs f (by simp)) ?_, ih hrest (fun g hg => hfs g (by simp [hg])) ?_⟩
    · exact fun j x d hx hd => himp j x d hx (by omega)
    · exact fun j x d hx hd => himp j x d (by omega) hd

theorem Reads.carry {depth : Nat} (h : Reads m ref t depth members y e)
    (hc : ∀ x, y ≤ x → x < e → Carries m ref ref' t t' x) : Reads m ref' t' depth members y e := by
  induction depth generalizing members y e with
  | zero => exact h
  | succ depth ih =>
    have hy := hc y (Nat.le_refl y) h.lt
    obtain ⟨fs, hfeatures, hkeys, hfs⟩ := h
    refine ⟨fs, by rw [hy.type, hfeatures], by rw [hy.keys, hkeys], ?_⟩
    refine hfs.carry (fun j a b hj => ReadsObject.lt hj) (hy.values fs hfeatures) ?_
    rintro j x c hx hce ⟨ms, rfl, hms⟩
    exact ⟨ms, rfl, ih hms fun z hz hzc => hc z (by omega) (by omega)⟩

theorem carries_of_same {x : Nat} (ht : (t'.get x).type = (t.get x).type)
    (hv : (t'.get x).values = (t.get x).values)
    (href : ∀ f j v, ref x f j v → ref' x f j v) : Carries m ref ref' t t' x := by
  have hvalue : ∀ name, t'.value? x name = t.value? x name := fun name => by
    rw [ObjectStore.value?, hv, ObjectStore.value?]
  refine ⟨ht, by rw [hv], fun fs _ f _ => ⟨fun _ => hvalue f.name, fun _ j v hget hr => ?_⟩⟩
  exact ⟨v, by rw [hvalue, hget], href f j v hr⟩

/-- The feature holds null, and its references wait among `ps`. -/
def WaitsIn (ps : List Pending) (y : Nat) (f : Feature) (j : Json) (v : FeatureValue) : Prop :=
  v = .null ∧ (⟨y, f.name, f.isMany, targets j⟩ : Pending) ∈ ps

/-- References wait at a feature for references, which holds null. -/
def Pending.AtReference (m : Metamodel) (t : ObjectStore) (p : Pending) : Prop :=
  ∃ fs f, m.features (t.get p.owner).type = .ok fs ∧ f ∈ fs ∧ f.name = p.feature ∧
    f.kind = .reference ∧ t.value? p.owner p.feature = some .null

def Pending.key (p : Pending) : Nat × String := (p.owner, p.feature)

/-- Reading has added objects, and references that wait at them. -/
structure Grows (m : Metamodel) (st st' : ReadState) : Prop where
  size : st.store.size ≤ st'.store.size
  kept : ∀ j < st.store.size, st'.store.get j = st.store.get j
  pending : ∃ ps, st'.pending = st.pending ++ ps ∧
    (∀ p ∈ ps, st.store.size ≤ p.owner ∧ p.AtReference m st'.store) ∧ (ps.map Pending.key).Nodup

variable {st st₀ st₁ st' : ReadState} {depth : Nat}

theorem Pending.AtReference.null {p : Pending} (h : p.AtReference m t) :
    t.value? p.owner p.feature = some .null := by
  obtain ⟨-, -, -, -, -, -, hv⟩ := h
  exact hv

theorem Pending.AtReference.lt_size {p : Pending} (h : p.AtReference m t) : p.owner < t.size :=
  ObjectStore.lt_size_of_value? h.null

theorem Pending.AtReference.of_get {p : Pending} (h : p.AtReference m t)
    (hget : (t'.get p.owner).type = (t.get p.owner).type)
    (hv : t'.value? p.owner p.feature = t.value? p.owner p.feature) : p.AtReference m t' := by
  obtain ⟨fs, f, hfs, hf, hn, hk, hnull⟩ := h
  exact ⟨fs, f, by rw [hget, hfs], hf, hn, hk, by rw [hv, hnull]⟩

theorem Grows.refl (st : ReadState) : Grows m st st :=
  ⟨Nat.le_refl _, fun _ _ => rfl, [], by simp⟩

theorem nodup_keys_append {ps qs : List Pending} {n : Nat} (hps : (ps.map Pending.key).Nodup)
    (hqs : (qs.map Pending.key).Nodup) (hlt : ∀ p ∈ ps, p.owner < n)
    (hle : ∀ q ∈ qs, n ≤ q.owner) : ((ps ++ qs).map Pending.key).Nodup := by
  rw [List.map_append]
  refine List.nodup_append.2 ⟨hps, hqs, ?_⟩
  rintro a ha b hb rfl
  obtain ⟨p, hp, rfl⟩ := List.mem_map.1 ha
  obtain ⟨q, hq, he⟩ := List.mem_map.1 hb
  have howner : q.owner = p.owner := congrArg Prod.fst he
  exact absurd (hlt p hp) (Nat.not_lt.2 (howner ▸ hle q hq))

theorem Grows.trans (h : Grows m st st₁) (h' : Grows m st₁ st') : Grows m st st' := by
  obtain ⟨ps, hps, hat, hn⟩ := h.pending
  obtain ⟨qs, hqs, hat', hn'⟩ := h'.pending
  refine ⟨Nat.le_trans h.size h'.size, fun j hj => ?_, ps ++ qs, ?_, fun p hp => ?_, ?_⟩
  · rw [h'.kept j (Nat.lt_of_lt_of_le hj h.size), h.kept j hj]
  · rw [hqs, hps, List.append_assoc]
  · rcases List.mem_append.1 hp with hp | hp
    · obtain ⟨hle, hp⟩ := hat p hp
      have hget := h'.kept p.owner hp.lt_size
      exact ⟨hle, hp.of_get (by rw [hget]) (by rw [ObjectStore.value?, hget, ObjectStore.value?])⟩
    · exact ⟨Nat.le_trans h.size (hat' p hp).1, (hat' p hp).2⟩
  · exact nodup_keys_append hn hn' (fun p hp => (hat p hp).2.lt_size) fun q hq => (hat' q hq).1

theorem WaitsIn.mono {ps qs : List Pending} {j : Json} (hsub : ps ⊆ qs) (h : WaitsIn ps y f j v) :
    WaitsIn qs y f j v := ⟨h.1, hsub h.2⟩

/-- What has been read stays while more is read. -/
theorem Grows.reads (h : Grows m st st') {j : Json}
    (hj : ReadsObject m (WaitsIn st.pending) st.store depth j a b) (hb : b ≤ st.store.size) :
    ReadsObject m (WaitsIn st'.pending) st'.store depth j a b := by
  obtain ⟨ms, rfl, hms⟩ := hj
  refine ⟨ms, rfl, hms.carry fun x _ hx => ?_⟩
  have hget := h.kept x (Nat.lt_of_lt_of_le hx hb)
  obtain ⟨ps, hps, -⟩ := h.pending
  refine carries_of_same (by rw [hget]) (by rw [hget]) fun f j v hw => hw.mono ?_
  rw [hps]
  exact List.subset_append_left _ _

theorem of_lift_ok {α : Type} {x : Except MetamodelError α} {a : α}
    (h : lift x st = .ok a st') : x = .ok a ∧ st' = st := by
  cases x with
  | ok b => cases h; exact ⟨rfl, rfl⟩
  | error e => cases h

/-- Reading a value has made the object `y` with all below it, and nothing else. -/
structure Makes (m : Metamodel) (depth : Nat) (j : Json) (st : ReadState) (y : Nat)
    (st' : ReadState) : Prop where
  place : y = st.store.size
  grows : Grows m st st'
  free : (st'.store.get y).container = none
  reads : ReadsObject m (WaitsIn st'.pending) st'.store depth j y st'.store.size

/-- What reading an object does at one depth. -/
def ReadsWell (m : Metamodel) (depth : Nat) : Prop :=
  ∀ ms expected st y st', readObject m depth ms expected st = .ok y st' →
    Makes m depth (.object ms) st y st'

theorem readOwned_makes (hread : ReadsWell m depth) {j : Json}
    (h : readOwned (readObject m depth) f j st = .ok y st') : Makes m depth j st y st' := by
  cases j with
  | object ms => exact hread ms _ st y st' h
  | _ => cases h

theorem mapM_makes (hread : ReadsWell m depth) {js : List Json} {ids : List Nat}
    (h : js.mapM (readOwned (readObject m depth) f) st = .ok ids st') :
    Grows m st st' ∧ InTurn (ReadsObject m (WaitsIn st'.pending) st'.store depth) js ids
        st.store.size st'.store.size ∧
      ∀ y ∈ ids, (st'.store.get y).container = none := by
  induction js generalizing st ids with
  | nil =>
    cases h
    exact ⟨Grows.refl _, ⟨rfl, rfl⟩, by simp⟩
  | cons j js ih =>
    obtain ⟨y, st₁, rest, hj, hrest, rfl⟩ := StatefulRuns.of_mapM_cons_ok h
    have hmade := readOwned_makes hread hj
    obtain ⟨hgrows, hturn, hfree⟩ := ih hrest
    have hlt := hmade.reads.lt
    refine ⟨hmade.grows.trans hgrows, ⟨st₁.store.size, rest, by rw [hmade.place], ?_, hturn⟩, ?_⟩
    · rw [← hmade.place]
      exact hgrows.reads hmade.reads (Nat.le_refl _)
    · refine List.forall_mem_cons.2 ⟨?_, hfree⟩
      rw [hgrows.kept y hlt, hmade.free]

theorem owned_makes (hread : ReadsWell m depth) {j : Json}
    (h : owned (readObject m depth) f j st = .ok v st') :
    Grows m st st' ∧ OwnsRead (ReadsObject m (WaitsIn st'.pending) st'.store depth) f v
        st.store.size st'.store.size j ∧
      ∀ c ∈ v.children, (st'.store.get c).container = none := by
  have hone : ∀ {j : Json}, (do
      if f.isMany then return .containedMany [← readOwned (readObject m depth) f j]
      else return .contained (← readOwned (readObject m depth) f j) : Reading FeatureValue) st =
        .ok v st' →
      Grows m st st' ∧ (v = (if f.isMany then .containedMany [st.store.size]
          else .contained st.store.size) ∧
        ReadsObject m (WaitsIn st'.pending) st'.store depth j st.store.size st'.store.size) ∧
      ∀ c ∈ v.children, (st'.store.get c).container = none := by
    intro j hrun
    cases hmany : f.isMany with
    | true =>
      simp only [hmany, if_true] at hrun
      obtain ⟨y, _, hy, hdone⟩ := StatefulRuns.of_bind_ok hrun
      cases hdone
      have hmade := readOwned_makes hread hy
      refine ⟨hmade.grows, ⟨by simp [hmade.place], hmade.place ▸ hmade.reads⟩, ?_⟩
      simpa [FeatureValue.children] using hmade.free
    | false =>
      simp only [hmany, Bool.false_eq_true, if_false] at hrun
      obtain ⟨y, _, hy, hdone⟩ := StatefulRuns.of_bind_ok hrun
      cases hdone
      have hmade := readOwned_makes hread hy
      refine ⟨hmade.grows, ⟨by simp [hmade.place], hmade.place ▸ hmade.reads⟩, ?_⟩
      simpa [FeatureValue.children] using hmade.free
  cases j with
  | null =>
    cases h
    exact ⟨Grows.refl _, ⟨rfl, rfl⟩, by simp [FeatureValue.children]⟩
  | array items =>
    cases hmany : f.isMany with
    | true =>
      simp only [owned, hmany, if_true] at h
      obtain ⟨ids, _, hids, hdone⟩ := StatefulRuns.of_bind_ok h
      cases hdone
      obtain ⟨hgrows, hturn, hfree⟩ := mapM_makes hread hids
      exact ⟨hgrows, ⟨hmany, ids, rfl, hturn⟩, by simpa [FeatureValue.children] using hfree⟩
    | false =>
      simp only [owned, hmany, Bool.false_eq_true, if_false] at h
      obtain ⟨y, _, hy, -⟩ := StatefulRuns.of_bind_ok h
      cases hy
  | object ms => exact hone h
  | bool b => exact hone h
  | string text => exact hone h
  | number n => exact hone h

/-- The object that was made first after `st₀` has been given the values of the features `done`. -/
structure Begun (m : Metamodel) (depth : Nat) (members : JsonMembers) (c : ClassifierRef)
    (done : List Feature) (st₀ st : ReadState) : Prop where
  size : st₀.store.size < st.store.size
  kept : ∀ j < st₀.store.size, st.store.get j = st₀.store.get j
  type : (st.store.get st₀.store.size).type = c
  keys : (st.store.get st₀.store.size).values.keys = givenNames members done
  free : (st.store.get st₀.store.size).container = none
  pending : ∃ ps, st.pending = st₀.pending ++ ps ∧
    (∀ p ∈ ps, st₀.store.size ≤ p.owner ∧ p.AtReference m st.store ∧
      (p.owner = st₀.store.size → p.feature ∈ done.map (·.name))) ∧ (ps.map Pending.key).Nodup
  reads : ReadsFeatures m (WaitsIn st.pending) st.store
    (ReadsObject m (WaitsIn st.pending) st.store depth) members st₀.store.size done
    (st₀.store.size + 1) st.store.size

theorem givenNames_append (members : JsonMembers) (done : List Feature) (f : Feature) :
    givenNames members (done ++ [f]) = givenNames members done ++
      if (JsonMembers.get? members f.name).isSome then [f.name] else [] := by
  by_cases h : (JsonMembers.get? members f.name).isSome <;>
    simp [givenNames, List.filter_append, h]

theorem givenNames_subset (members : JsonMembers) (done : List Feature) :
    givenNames members done ⊆ done.map (·.name) :=
  List.map_subset _ (List.filter_subset_self done)

theorem begun_newObject (st : ReadState) (c : ClassifierRef) :
    Begun m depth members c [] st ⟨(st.store.newObject c).2, st.pending⟩ := by
  have hget : (st.store.newObject c).2.get st.store.size = .ofType c := by
    rw [ObjectStore.get_newObject, if_pos rfl]
  refine ⟨by simp, fun j hj => ?_, by simp only [hget]; rfl, by simp only [hget]; rfl,
    by simp only [hget]; rfl, ⟨[], by simp⟩, ?_⟩
  · rw [ObjectStore.get_newObject, if_neg (Nat.ne_of_lt hj)]
  · simp [ReadsFeatures]

/-- The store `u` is `t` with one more value, for a feature of `y` that had none. -/
structure StoredAt (u t : ObjectStore) (y : Nat) (name : String) (v : FeatureValue) : Prop where
  size : u.size = t.size
  type : ∀ i, (u.get i).type = (t.get i).type
  values : ∀ i, i ≠ y → (u.get i).values = (t.get i).values
  keys : (u.get y).values.keys = (t.get y).values.keys ++ [name]
  value : ∀ i g, u.value? i g = if i = y ∧ g = name then some v else t.value? i g
  container : ∀ i, i ∉ v.children → (u.get i).container = (t.get i).container

theorem storedAt_set {name : String} (hlt : y < t.size) (hkey : name ∉ (t.get y).values.keys)
    (hnodup : v.children.Nodup)
    (hfree : ∀ d ∈ v.children, d < t.size ∧ (t.get d).container = none) :
    StoredAt (t.set y name v) t y name v := by
  obtain ⟨hentries, htype, hvalues, hcont⟩ := ObjectStore.set_append hlt hkey hnodup hfree
  refine ⟨ObjectStore.size_set v, htype, hvalues, ?_, fun i g => ?_, fun i hi => ?_⟩
  · rw [Table.keys, hentries, List.map_append]
    rfl
  · rw [ObjectStore.value?_set_fresh hnodup (fun d hd => (hfree d hd).2)
      (ObjectStore.contentsIn_eq_nil (Table.get?_eq_none_iff.2 hkey))]
    simp [hlt]
  · rw [hcont, if_neg hi]

theorem StoredAt.get_of_ne {u : ObjectStore} {name : String} (h : StoredAt u t y name v) {i : Nat}
    (hi : i ≠ y) (hv : i ∉ v.children) : u.get i = t.get i :=
  Object.ext (h.type i) (h.values i hi) (h.container i hv)

theorem StoredAt.atReference {u : ObjectStore} {name : String} (h : StoredAt u t y name v)
    {p : Pending} (hp : p.AtReference m t) (hne : p.key ≠ (y, name)) : p.AtReference m u := by
  refine hp.of_get (h.type _) ?_
  rw [h.value, if_neg fun he => hne (Prod.ext he.1 he.2)]

theorem StoredAt.reads {u : ObjectStore} {name : String} (h : StoredAt u t y name v)
    {ps qs : List Pending} (hsub : ps ⊆ qs) {j : Json} (hy : y < a)
    (hj : ReadsObject m (WaitsIn ps) t depth j a b) : ReadsObject m (WaitsIn qs) u depth j a b := by
  obtain ⟨ms, rfl, hms⟩ := hj
  refine ⟨ms, rfl, hms.carry fun x hx _ => carries_of_same (h.type x) (h.values x ?_) ?_⟩
  · exact Nat.ne_of_gt (Nat.lt_of_lt_of_le hy hx)
  · exact fun f j v hw => hw.mono hsub

section Features

variable {c : ClassifierRef} {done : List Feature} (hb : Begun m depth members c done st₀ st)
include hb

theorem Begun.skip (hf : JsonMembers.get? members f.name = none) :
    Begun m depth members c (done ++ [f]) st₀ st := by
  refine ⟨hb.size, hb.kept, hb.type, ?_, hb.free, ?_, hb.reads.append ?_⟩
  · rw [givenNames_append, hf, hb.keys]
    simp
  · obtain ⟨ps, hps, hat, hn⟩ := hb.pending
    refine ⟨ps, hps, fun p hp => ?_, hn⟩
    obtain ⟨hle, hat, hdone⟩ := hat p hp
    exact ⟨hle, hat, fun ho => by simpa using .inl (List.mem_map.1 (hdone ho))⟩
  · simp [ReadsFeature, hf]

/-- What the value of a feature was read from, given what was made since the last feature. -/
structure FeatureRead (m : Metamodel) (depth : Nat) (f : Feature) (j : Json) (v : FeatureValue)
    (st st₁ : ReadState) : Prop where
  grows : Grows m st st₁
  plain : f.kind = .plain → plainValue m f j = .ok v ∧ st.store.size = st₁.store.size
  reference : f.kind = .reference → v = .null ∧ st.store.size = st₁.store.size
  owned : f.kind = .containment → OwnsRead
    (ReadsObject m (WaitsIn st₁.pending) st₁.store depth) f v st.store.size st₁.store.size j
  free : ∀ d ∈ v.children, (st₁.store.get d).container = none

omit hb in
theorem FeatureRead.children {j : Json} (h : FeatureRead m depth f j v st st₁) :
    v.children.Nodup ∧ ∀ d ∈ v.children, st.store.size ≤ d ∧ d < st₁.store.size := by
  cases hk : f.kind with
  | plain =>
    rw [children_eq_nil_of_holds (by simp [hk]) (holds_of_plainValue hk (h.plain hk).1)]
    simp
  | reference =>
    rw [(h.reference hk).1]
    simp [FeatureValue.children]
  | containment =>
    have hc := (h.owned hk).children fun _ _ _ => ReadsObject.lt
    exact ⟨hc.1, hc.2.1⟩

def opened (y : Nat) (f : Feature) (j : Json) : List Pending :=
  if f.kind = .reference then [⟨y, f.name, f.isMany, targets j⟩] else []

section Store

variable {j : Json} {u : ObjectStore} (hj : JsonMembers.get? members f.name = some j)
  (hnew : f.name ∉ done.map (·.name)) (hr : FeatureRead m depth f j v st st₁)
  (hu : StoredAt u st₁.store st₀.store.size f.name v)
include hnew hr hu

theorem Begun.store_pending {fs : List Feature} (hfs : m.features c = .ok fs) (hf : f ∈ fs) :
    ∃ ps, st₁.pending ++ opened st₀.store.size f j = st₀.pending ++ ps ∧
      (∀ p ∈ ps, st₀.store.size ≤ p.owner ∧ p.AtReference m u ∧
        (p.owner = st₀.store.size → p.feature ∈ (done ++ [f]).map (·.name))) ∧
      (ps.map Pending.key).Nodup := by
  obtain ⟨ps, hps, hat, hn⟩ := hb.pending
  obtain ⟨ps₁, hps₁, hat₁, hn₁⟩ := hr.grows.pending
  have hold : ∀ p ∈ ps, p.owner < st.store.size := fun p hp => (hat p hp).2.1.lt_size
  have hkey : ∀ p ∈ ps ++ ps₁, p.key ≠ (st₀.store.size, f.name) := by
    rintro p hp he
    have howner : p.owner = st₀.store.size := congrArg Prod.fst he
    rcases List.mem_append.1 hp with hp | hp
    · have hname : p.feature = f.name := congrArg Prod.snd he
      exact hnew (hname ▸ (hat p hp).2.2 howner)
    · exact absurd (howner ▸ (hat₁ p hp).1) (Nat.not_le.2 hb.size)
  refine ⟨ps ++ ps₁ ++ opened st₀.store.size f j, ?_, fun p hp => ?_, ?_⟩
  · rw [hps₁, hps]
    simp only [List.append_assoc]
  · rcases List.mem_append.1 hp with hp | hp
    · rcases List.mem_append.1 hp with hp' | hp'
      · obtain ⟨hle, hp₀, hdone⟩ := hat p hp'
        have hget := hr.grows.kept p.owner (hold p hp')
        have hp₁ : p.AtReference m st₁.store := hp₀.of_get (by rw [hget])
          (by rw [ObjectStore.value?, hget, ObjectStore.value?])
        refine ⟨hle, hu.atReference hp₁ (hkey p hp), fun ho => ?_⟩
        rw [List.map_append]
        exact List.mem_append_left _ (hdone ho)
      · have hle := (hat₁ p hp').1
        refine ⟨Nat.le_trans (Nat.le_of_lt hb.size) hle, hu.atReference (hat₁ p hp').2 (hkey p hp),
          fun ho => ?_⟩
        exact absurd (ho ▸ hle) (Nat.not_le.2 hb.size)
    · unfold opened at hp
      split at hp
      · rename_i hk
        obtain rfl := List.mem_singleton.1 hp
        refine ⟨Nat.le_refl _, ⟨fs, f, ?_, hf, rfl, hk, ?_⟩, fun _ => by simp⟩
        · rw [hu.type, hr.grows.kept _ hb.size, hb.type, hfs]
        · rw [hu.value, if_pos ⟨rfl, rfl⟩, (hr.reference hk).1]
      · cases hp
  · rw [List.map_append]
    refine List.nodup_append.2 ⟨nodup_keys_append hn hn₁ hold fun p hp => (hat₁ p hp).1, ?_, ?_⟩
    · unfold opened
      split <;> simp
    · rintro k hk k' hk' rfl
      obtain ⟨p, hp, rfl⟩ := List.mem_map.1 hk
      unfold opened at hk'
      split at hk'
      · exact hkey p hp (by simpa [Pending.key] using hk')
      · cases hk'

include hj

theorem Begun.store_reads :
    ReadsFeatures m (WaitsIn (st₁.pending ++ opened st₀.store.size f j)) u
      (ReadsObject m (WaitsIn (st₁.pending ++ opened st₀.store.size f j)) u depth) members
      st₀.store.size (done ++ [f]) (st₀.store.size + 1) u.size := by
  have hget : st₁.store.get st₀.store.size = st.store.get st₀.store.size :=
    hr.grows.kept _ hb.size
  refine ReadsFeatures.append (hb.reads.carry (fun _ _ _ => ReadsObject.lt) ?_ ?_) ?_
  · intro g hg
    have hne : g.name ≠ f.name := fun he => hnew (he ▸ List.mem_map_of_mem hg)
    have hsame : u.value? st₀.store.size g.name = st.store.value? st₀.store.size g.name := by
      rw [hu.value, if_neg fun h => hne h.2, ObjectStore.value?, hget, ObjectStore.value?]
    refine ⟨fun _ => hsame, fun _ j w hw hwaits => ⟨w, by rw [hsame, hw], hwaits.mono ?_⟩⟩
    obtain ⟨ps₁, hps₁, -⟩ := hr.grows.pending
    rw [hps₁, List.append_assoc]
    exact List.subset_append_left _ _
  · intro j a b ha hle hread
    exact hu.reads (List.subset_append_left _ _) (by omega) (hr.grows.reads hread hle)
  · simp only [ReadsFeature, hj]
    refine ⟨v, by rw [hu.value, if_pos ⟨rfl, rfl⟩], ?_⟩
    rw [hu.size]
    cases hk : f.kind with
    | plain => exact hr.plain hk
    | reference =>
      refine ⟨⟨(hr.reference hk).1, ?_⟩, (hr.reference hk).2⟩
      simp [opened, hk]
    | containment =>
      refine (hr.owned hk).imp (fun _ _ _ => ReadsObject.lt) fun j a b ha _ hread => ?_
      exact hu.reads (List.subset_append_left _ _) (Nat.lt_of_lt_of_le hb.size ha) hread

end Store

theorem Begun.store {fs : List Feature} (hfs : m.features c = .ok fs) (hf : f ∈ fs)
    (hnew : f.name ∉ done.map (·.name)) {j : Json} (hj : JsonMembers.get? members f.name = some j)
    (hr : FeatureRead m depth f j v st st₁) :
    Begun m depth members c (done ++ [f]) st₀ ⟨st₁.store.set st₀.store.size f.name v,
      st₁.pending ++ opened st₀.store.size f j⟩ := by
  have hlt : st₀.store.size < st₁.store.size := Nat.lt_of_lt_of_le hb.size hr.grows.size
  have hget : st₁.store.get st₀.store.size = st.store.get st₀.store.size :=
    hr.grows.kept _ hb.size
  have hkey : f.name ∉ (st₁.store.get st₀.store.size).values.keys := by
    rw [hget, hb.keys]
    exact fun h => hnew (givenNames_subset members done h)
  obtain ⟨hnodup, hchildren⟩ := hr.children
  have hu := storedAt_set hlt hkey hnodup fun d hd => ⟨(hchildren d hd).2, hr.free d hd⟩
  have hold : ∀ i, i ≤ st₀.store.size → i ∉ v.children := fun i hi hmem =>
    absurd (hchildren i hmem).1 (Nat.not_le.2 (Nat.lt_of_le_of_lt hi hb.size))
  refine ⟨by rw [hu.size]; exact hlt, fun i hi => ?_, by rw [hu.type, hget, hb.type], ?_, ?_,
    hb.store_pending hnew hr hu hfs hf, hb.store_reads hj hnew hr hu⟩
  · rw [hu.get_of_ne (Nat.ne_of_lt hi) (hold i (Nat.le_of_lt hi)),
      hr.grows.kept i (Nat.lt_trans hi hb.size), hb.kept i hi]
  · rw [hu.keys, hget, givenNames_append, hj, ← hb.keys]
    rfl
  · rw [hu.container _ (hold _ (Nat.le_refl _)), hget, hb.free]

theorem readFeature_begun (hread : ReadsWell m depth) {fs : List Feature}
    (hfs : m.features c = .ok fs) (hf : f ∈ fs) (hnew : f.name ∉ done.map (·.name))
    (h : readFeature m (readObject m depth) st₀.store.size members f st = .ok () st') :
    Begun m depth members c (done ++ [f]) st₀ st' := by
  unfold readFeature at h
  cases hj : JsonMembers.get? members f.name with
  | none =>
    simp only [hj] at h
    cases h
    exact hb.skip hj
  | some j =>
    simp only [hj] at h
    cases hk : f.kind with
    | plain =>
      simp only [hk] at h
      obtain ⟨v, st₁, hv, hset⟩ := StatefulRuns.of_bind_ok h
      cases hplain : plainValue m f j with
      | error e => simp [lift, hplain] at hv
      | ok w =>
        simp only [lift, hplain] at hv
        cases hv
        cases hset
        have hr : FeatureRead m depth f j v st st := by
          refine ⟨Grows.refl st, fun _ => ⟨hplain, rfl⟩, by simp [hk], by simp [hk], ?_⟩
          rw [children_eq_nil_of_holds (by simp [hk]) (holds_of_plainValue hk hplain)]
          simp
        simpa [opened, hk] using hb.store hfs hf hnew hj hr
    | containment =>
      simp only [hk] at h
      obtain ⟨v, st₁, hv, hset⟩ := StatefulRuns.of_bind_ok h
      cases hset
      obtain ⟨hgrows, howned, hfree⟩ := owned_makes hread hv
      have hr : FeatureRead m depth f j v st st₁ :=
        ⟨hgrows, by simp [hk], by simp [hk], fun _ => howned, hfree⟩
      simpa [opened, hk] using hb.store hfs hf hnew hj hr
    | reference =>
      simp only [hk] at h
      cases h
      have hr : FeatureRead m depth f j .null st st :=
        ⟨Grows.refl st, by simp [hk], fun _ => ⟨rfl, rfl⟩, by simp [hk],
          by simp [FeatureValue.children]⟩
      simpa [opened, hk] using hb.store hfs hf hnew hj hr

theorem readFeatures_begun (hread : ReadsWell m depth) {fs rest : List Feature}
    (hfs : m.features c = .ok fs) (hsplit : fs = done ++ rest)
    (h : rest.forM (readFeature m (readObject m depth) st₀.store.size members) st = .ok () st') :
    Begun m depth members c fs st₀ st' := by
  induction rest generalizing done st with
  | nil =>
    cases h
    rwa [hsplit, List.append_nil]
  | cons f rest ih =>
    obtain ⟨st₁, hf, hrest⟩ := StatefulRuns.of_forM_cons_ok h
    have hnew : f.name ∉ done.map (·.name) := by
      have hn := Metamodel.nodup_features hfs
      rw [hsplit, List.map_append, List.nodup_append] at hn
      exact fun hmem => hn.2.2 _ hmem _ (by simp) rfl
    have hmem : f ∈ fs := by simp [hsplit]
    exact ih (readFeature_begun hb hread hfs hmem hnew hf) (by simp [hsplit]) hrest

theorem Begun.makes {fs : List Feature} (hfs : m.features c = .ok fs) (hdone : done = fs) :
    Makes m (depth + 1) (.object members) st₀ st₀.store.size st := by
  obtain ⟨ps, hps, hat, hn⟩ := hb.pending
  subst hdone
  refine ⟨rfl, ⟨Nat.le_of_lt hb.size, hb.kept, ps, hps, ?_, hn⟩, hb.free, members, rfl, done, ?_,
    hb.keys, hb.reads⟩
  · exact fun p hp => ⟨(hat p hp).1, (hat p hp).2.1⟩
  · rw [hb.type, hfs]

end Features

/-- An object that is read fills the places after all that was there before. -/
theorem readsWell (m : Metamodel) (depth : Nat) : ReadsWell m depth := by
  induction depth with
  | zero =>
    intro ms expected st y st' h
    cases h
  | succ depth ih =>
    intro ms expected st y st' h
    unfold readObject at h
    obtain ⟨c, _, hc, hrun⟩ := StatefulRuns.of_bind_ok h
    rw [(of_lift_ok hc).2] at hrun
    obtain ⟨fs, _, hlift, hrun⟩ := StatefulRuns.of_bind_ok hrun
    obtain ⟨hfs, hsame⟩ := of_lift_ok hlift
    rw [hsame] at hrun
    cases hkey : strayKey? ms fs with
    | some key =>
      simp only [hkey] at hrun
      cases hrun
    | none =>
      simp only [hkey] at hrun
      obtain ⟨_, _, hnew, hrun⟩ := StatefulRuns.of_bind_ok hrun
      cases hnew
      obtain ⟨_, _, hfeatures, hdone⟩ := StatefulRuns.of_bind_ok hrun
      cases hdone
      exact (readFeatures_begun (begun_newObject _ c) ih hfs rfl hfeatures).makes hfs rfl

/-- The value of a reference whose texts are resolved in `t`. -/
def resolvedValue (t : ObjectStore) (root : Nat) (many : Bool) (texts : List String) :
    FeatureValue :=
  referenceValue many (texts.filterMap fun text => t.resolve? root (fragmentOf text))

/-- The references that waited among `ps` in `t` are resolved in `u`, and nothing else is changed. -/
structure Resolved (root : Nat) (t : ObjectStore) (ps : List Pending) (u : ObjectStore) : Prop where
  size : u.size = t.size
  type : ∀ i, (u.get i).type = (t.get i).type
  keys : ∀ i, (u.get i).values.keys = (t.get i).values.keys
  container : ∀ i, (u.get i).container = (t.get i).container
  kept : ∀ i, (∀ p ∈ ps, p.owner ≠ i) → u.get i = t.get i
  stays : ∀ i g, (i, g) ∉ ps.map Pending.key → u.value? i g = t.value? i g
  resolved : ∀ p ∈ ps, u.value? p.owner p.feature = some (resolvedValue t root p.many p.targets)

theorem children_referenceValue (many : Bool) (ids : List Nat) :
    (referenceValue many ids).children = [] := by
  cases many with
  | true => rfl
  | false => cases ids <;> rfl

theorem step?_eq_none {g : Segment} (h : t.value? y g.feature = some v) (hv : v.children = []) :
    t.step? y g = none := by
  unfold ObjectStore.step?
  rw [h]
  cases v with
  | containedMany ids =>
    obtain rfl : ids = [] := hv
    cases g.place <;> rfl
  | contained c => cases hv
  | _ => cases g.place <;> rfl

section Resolve

variable {root : Nat} {ps : List Pending} {u : ObjectStore}
  (hnull : ∀ p ∈ ps, t.value? p.owner p.feature = some .null)
include hnull

/-- Resolving references changes no way down the tree. -/
theorem Resolved.resolve? (h : Resolved root t ps u) (r : Nat) (path : String) :
    u.resolve? r path = t.resolve? r path := by
  have hstep : u.step? = t.step? := by
    funext i g
    by_cases hmem : (i, g.feature) ∈ ps.map Pending.key
    · obtain ⟨p, hp, he⟩ := List.mem_map.1 hmem
      obtain ⟨rfl, hname⟩ := Prod.mk.inj he
      have ht := hnull p hp
      have hu := h.resolved p hp
      rw [hname] at ht hu
      rw [step?_eq_none ht rfl, step?_eq_none hu (children_referenceValue _ _)]
    · unfold ObjectStore.step?
      rw [h.stays i g.feature hmem]
  unfold ObjectStore.resolve?
  rw [hstep]

theorem Resolved.step {p : Pending} (h : Resolved root t ps u)
    (hp : t.value? p.owner p.feature = some .null) (hnew : p.key ∉ ps.map Pending.key) :
    Resolved root t (ps ++ [p]) (resolvePending root u p) := by
  have hvalue : u.value? p.owner p.feature = some .null := by rw [h.stays _ _ hnew, hp]
  have hlt : p.owner < u.size := ObjectStore.lt_size_of_value? hvalue
  have hkey : p.feature ∈ (u.get p.owner).values.keys := Table.mem_keys_iff.2 ⟨_, hvalue⟩
  have hwhat : resolvePending root u p =
      u.set p.owner p.feature (resolvedValue t root p.many p.targets) := by
    simp only [resolvePending, resolvedValue, h.resolve? hnull]
  have hflat : (resolvedValue t root p.many p.targets).children = [] := children_referenceValue _ _
  have hnodup : (resolvedValue t root p.many p.targets).children.Nodup := by simp [hflat]
  have hfree : ∀ c ∈ (resolvedValue t root p.many p.targets).children,
      (u.get c).container = none := by simp [hflat]
  have hnone : u.contentsIn p.owner p.feature = [] := by
    rw [ObjectStore.contentsIn_eq hvalue]
    rfl
  have hset := ObjectStore.set_fresh hnodup hfree hnone
  have hget := ObjectStore.value?_set_fresh hnodup hfree hnone
  rw [hwhat]
  simp only [hflat, List.not_mem_nil, false_and, if_false] at hset
  refine ⟨by rw [ObjectStore.size_set, h.size], fun i => by rw [(hset i).1, h.type],
    fun i => ?_, fun i => by rw [(hset i).2.2, h.container], fun i hi => ?_, fun i g hi => ?_,
    fun q hq => ?_⟩
  · rw [(hset i).2.1, ← h.keys]
    split
    · rename_i hi
      rw [hi.1, Table.keys_insert_of_mem hkey]
    · rfl
  · have hne : i ≠ p.owner := fun he => hi p (by simp) he.symm
    have hvalues := (hset i).2.1
    rw [if_neg fun hc => hne hc.1] at hvalues
    rw [← h.kept i fun q hq => hi q (by simp [hq])]
    exact Object.ext (hset i).1 hvalues (hset i).2.2
  · rw [List.map_append, List.mem_append, not_or] at hi
    rw [hget, if_neg, h.stays i g hi.1]
    rintro ⟨rfl, rfl, -⟩
    exact hi.2 (by simp [Pending.key])
  · rcases List.mem_append.1 hq with hq | hq
    · rw [hget, if_neg, h.resolved q hq]
      rintro ⟨ho, hf, -⟩
      exact hnew (List.mem_map.2 ⟨q, hq, Prod.ext ho hf⟩)
    · obtain rfl := List.mem_singleton.1 hq
      rw [hget, if_pos ⟨rfl, rfl, hlt⟩]

theorem resolved_all (hn : (ps.map Pending.key).Nodup) :
    Resolved root t ps (ps.foldl (resolvePending root) t) := by
  induction ps using List.reverseRecOn with
  | nil => exact ⟨rfl, fun _ => rfl, fun _ => rfl, fun _ => rfl, fun _ _ => rfl, fun _ _ _ => rfl,
      by simp⟩
  | append_singleton ps p ih =>
    rw [List.map_append, List.nodup_append] at hn
    rw [List.foldl_append]
    have hps := ih (fun q hq => hnull q (by simp [hq])) hn.1
    refine hps.step (fun q hq => hnull q (by simp [hq])) (hnull p (by simp)) fun hmem => ?_
    exact hn.2.2 _ hmem _ (by simp) rfl

end Resolve

theorem Pending.AtReference.kind_eq {p : Pending} {fs : List Feature} (h : p.AtReference m t)
    (hfs : m.features (t.get p.owner).type = .ok fs) (hf : f ∈ fs) (hn : f.name = p.feature) :
    f.kind = .reference := by
  obtain ⟨fs', f', hfs', hf', hn', hk, -⟩ := h
  rw [hfs] at hfs'
  cases hfs'
  rw [List.inj_on_of_nodup_map (Metamodel.nodup_features hfs) hf hf' (hn.trans hn'.symm), hk]

/-- The references of a feature are resolved from the root of the document. -/
def LinksIn (u : ObjectStore) (root : Nat) (_ : Nat) (f : Feature) (j : Json) (v : FeatureValue) :
    Prop :=
  v = resolvedValue u root f.isMany (targets j)

theorem ValueRead.kind_of_child {u : ObjectStore} {root : Nat} {j : Json}
    (h : ValueRead m (LinksIn u root) u depth f j y e v) (hv : v.children ≠ []) :
    f.kind = .containment := by
  cases hk : f.kind with
  | plain =>
    exact absurd (children_eq_nil_of_holds (by simp [hk]) (holds_of_plainValue hk (h.plain hk))) hv
  | reference =>
    rw [h.reference hk] at hv
    exact absurd (children_referenceValue _ _) hv
  | containment => rfl

theorem ValueRead.owns {u : ObjectStore} {root : Nat} {j : Json}
    (h : ValueRead m (LinksIn u root) u depth f j y e v) {i c : Nat}
    (hc : v.children[i]? = some c) :
    ∃ j' b, (ownedItems j)[i]? = some j' ∧ y < c ∧ b ≤ e ∧
      ReadsObject m (LinksIn u root) u depth j' c b := by
  have hk := h.kind_of_child (List.ne_nil_of_mem (List.mem_of_getElem? hc))
  obtain ⟨a, b, hy, hb, howns⟩ := h.owned hk
  obtain ⟨j', b', hj, hac, hb', hread⟩ := howns.getElem (fun _ _ _ => ReadsObject.lt) hc
  exact ⟨j', b', hj, Nat.lt_of_lt_of_le hy hac, Nat.le_trans hb' hb, hread⟩

theorem Resolved.carries {root : Nat} {ps : List Pending} {u : ObjectStore}
    (h : Resolved root t ps u) (hat : ∀ p ∈ ps, p.AtReference m t) (x : Nat) :
    Carries m (WaitsIn ps) (LinksIn u root) t u x := by
  have hnull : ∀ p ∈ ps, t.value? p.owner p.feature = some .null := fun p hp => (hat p hp).null
  refine ⟨h.type x, h.keys x, fun fs hfs f hf => ⟨fun hk => h.stays x f.name fun hmem => ?_, ?_⟩⟩
  · obtain ⟨p, hp, he⟩ := List.mem_map.1 hmem
    obtain ⟨rfl, hn⟩ := Prod.mk.inj he
    exact hk ((hat p hp).kind_eq hfs hf hn.symm)
  · rintro - j v - ⟨-, hp⟩
    refine ⟨_, h.resolved _ hp, ?_⟩
    simp only [LinksIn, resolvedValue, h.resolve? hnull]

/-- A document that is read gives new objects, which are what it says, and leaves all others as
they are. -/
theorem read_reads {default : Option ClassifierRef} {document : Json} {s u : ObjectStore} {r : Nat}
    (h : read m default document s = (.ok r, u)) :
    r = s.size ∧ (∀ j < s.size, u.get j = s.get j) ∧ (u.get r).container = none ∧
      ReadsObject m (LinksIn u r) u document.depth document r u.size := by
  cases document with
  | object members =>
    unfold read at h
    cases hrun : readObject m (Json.object members).depth members default ⟨s, []⟩ with
    | error e st => simp [hrun] at h
    | ok root st =>
      simp only [hrun, Prod.mk.injEq, Except.ok.injEq] at h
      obtain ⟨rfl, hu⟩ := h
      have hmade := readsWell m _ _ _ _ _ _ hrun
      obtain ⟨ps, hps, hat, hn⟩ := hmade.grows.pending
      rw [List.nil_append] at hps
      rw [hps] at hu
      have hres : Resolved root st.store ps u := by
        rw [← hu]
        exact resolved_all (fun p hp => (hat p hp).2.null) hn
      refine ⟨hmade.place, fun j hj => ?_, by rw [hres.container, hmade.free], members, rfl, ?_⟩
      · rw [hres.kept j fun p hp he => absurd (hat p hp).1 (Nat.not_le.2 (he ▸ hj)),
          hmade.grows.kept j hj]
      · obtain ⟨ms, he, hms⟩ := hmade.reads
        cases he
        rw [hres.size, hps] at *
        exact hms.carry fun x _ _ => hres.carries (fun p hp => (hat p hp).2) x
  | _ => simp [read] at h

end TreeInterchange.ObjectDocument
