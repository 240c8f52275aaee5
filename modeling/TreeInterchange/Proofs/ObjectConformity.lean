import TreeInterchange.ObjectStore.Reading
import TreeInterchange.ObjectStore.Writing
import TreeInterchange.Proofs.FragmentPaths
import TreeInterchange.Proofs.InheritedFeatures
import TreeInterchange.Proofs.StatefulRuns

/-!
# Trees of objects that conform to a metamodel

An object conforms when each value it stores belongs to a feature of its class and has the
form that the feature asks for. A document of such a tree can only be read back if the names
in it are free of the characters that the format uses itself.
-/

namespace TreeInterchange

/-- Whether a plain value has the form of the type; an untyped attribute takes any scalar. -/
def FeatureType.stores (t : FeatureType) (v : FeatureValue) : Bool :=
  if t.isUntyped then
    match v with
    | .string _ | .integer _ | .real _ | .boolean _ => true
    | _ => false
  else match t, v with
    | .ofData _ .string, .string _ => true
    | .ofData _ .integer, .integer _ => true
    | .ofData _ .real, .real _ => true
    | .ofData _ .boolean, .boolean _ => true
    | .ofEnum _, .enumeration _ => true
    | _, _ => false

/-- Whether a value has the form that the kind, the type and the multiplicity ask for. -/
def Feature.holds (f : Feature) (v : FeatureValue) : Bool :=
  match f.kind, v with
  | _, .null => true
  | .plain, .list items => f.isMany && items.all fun i => i.isNull || f.type.stores i
  | .plain, v => f.type.stores v
  | .containment, .contained _ => !f.isMany
  | .containment, .containedMany _ => f.isMany
  | .reference, .reference _ => !f.isMany
  | .reference, .references _ => f.isMany
  | _, _ => false

namespace FeatureValue

def targets : FeatureValue → List ObjectId
  | .reference id => [id]
  | .references ids => ids
  | _ => []

def isFinite : FeatureValue → Bool
  | .real x => x.isFinite
  | .list items => items.all fun
    | .real x => x.isFinite
    | _ => true
  | _ => true

def rename (φ : ObjectId → ObjectId) : FeatureValue → FeatureValue
  | .contained id => .contained (φ id)
  | .containedMany ids => .containedMany (ids.map φ)
  | .reference id => .reference (φ id)
  | .references ids => .references (ids.map φ)
  | v => v

theorem isNull_iff {v : FeatureValue} : v.isNull = true ↔ v = .null := by
  cases v <;> simp [isNull]

end FeatureValue

/-- A feature name that a document can carry. -/
structure Feature.Writable (f : Feature) : Prop where
  slash : '/' ∉ f.name.toList
  dot : '.' ∉ f.name.toList
  hash : '#' ∉ f.name.toList
  notClass : f.name ≠ "eClass"

/-- A class reference that a document can carry. -/
structure ClassifierRef.Writable (c : ClassifierRef) : Prop where
  uri : '#' ∉ c.uri.toList
  name : c.name ≠ ""
  slash : '/' ∉ c.name.toList

theorem Feature.writable_iff (f : Feature) : f.Writable ↔ '/' ∉ f.name.toList ∧
    '.' ∉ f.name.toList ∧ '#' ∉ f.name.toList ∧ f.name ≠ "eClass" :=
  ⟨fun h => ⟨h.slash, h.dot, h.hash, h.notClass⟩, fun h => ⟨h.1, h.2.1, h.2.2.1, h.2.2.2⟩⟩

instance (f : Feature) : Decidable f.Writable := decidable_of_iff _ f.writable_iff.symm

theorem ClassifierRef.writable_iff (c : ClassifierRef) : c.Writable ↔ '#' ∉ c.uri.toList ∧
    c.name ≠ "" ∧ '/' ∉ c.name.toList :=
  ⟨fun h => ⟨h.uri, h.name, h.slash⟩, fun h => ⟨h.1, h.2.1, h.2.2⟩⟩

instance (c : ClassifierRef) : Decidable c.Writable := decidable_of_iff _ c.writable_iff.symm

namespace ObjectStore

/-- The value under a feature, unless it is null. -/
def present? (s : ObjectStore) (id : ObjectId) (feature : String) : Option FeatureValue :=
  (s.value? id feature).filter (!·.isNull)

theorem present?_eq_some {s : ObjectStore} {id : ObjectId} {feature : String} {v : FeatureValue} :
    s.present? id feature = some v ↔ s.value? id feature = some v ∧ v.isNull = false := by
  simp [present?, Option.filter_eq_some_iff]

theorem contentsIn_present (s : ObjectStore) (id : ObjectId) (feature : String) :
    s.contentsIn id feature = ((s.present? id feature).map FeatureValue.children).getD [] := by
  unfold contentsIn present?
  cases s.value? id feature with
  | none => rfl
  | some v => cases v <;> rfl

/-- An object whose class can be resolved and whose values belong to its features. -/
structure ObjectConforms (m : Metamodel) (s : ObjectStore) (x : ObjectId) (fs : List Feature) :
    Prop where
  features : m.features (s.get x).type = .ok fs
  stored : ∀ name v, s.value? x name = some v →
    ∃ f ∈ fs, f.name = name ∧ f.holds v = true ∧ v.isFinite = true
  classWritable : (s.get x).type.Writable
  featuresWritable : ∀ f ∈ fs, f.Writable

/-- A tree of objects that a document can hold: no object is listed twice, however deep one goes,
every object conforms, and references stay within the tree. -/
structure Conforms (m : Metamodel) (s : ObjectStore) (root : ObjectId) : Prop where
  present : root < s.size
  nodup : ∀ depth, (s.preorder depth root).Nodup
  objects : ∀ x ∈ s.tree root, ∃ fs, ObjectConforms m s x fs
  targets : ∀ x ∈ s.tree root, ∀ name v, s.value? x name = some v →
    ∀ t ∈ v.targets, t ∈ s.tree root

end ObjectStore

theorem ObjectStore.ObjectConforms.holds {m : Metamodel} {s : ObjectStore} {x : ObjectId}
    {fs : List Feature} (hx : s.ObjectConforms m x fs) {f : Feature} (hf : f ∈ fs)
    {v : FeatureValue} (hv : s.value? x f.name = some v) :
    f.holds v = true ∧ v.isFinite = true := by
  obtain ⟨g, hg, hname, hholds⟩ := hx.stored f.name v hv
  have hgf : g = f := List.inj_on_of_nodup_map (Metamodel.nodup_features hx.features) hg hf hname
  rwa [hgf] at hholds

theorem ClassifierRef.splitFirst_render {c : ClassifierRef} (h : '#' ∉ c.uri.toList) :
    Text.splitFirst '#' c.render = some (c.uri, "//" ++ c.name) :=
  Text.splitFirst_eq_some_iff.2 ⟨by simp [render], h⟩

theorem ClassifierRef.parse?_render {c : ClassifierRef} (h : c.Writable) :
    ClassifierRef.parse? c.render = some c := by
  simp [ClassifierRef.parse?, splitFirst_render h.uri, Text.strip?_append, h.name, h.slash]

theorem Number.toInt64?_toInt (n : Int64) : Number.toInt64? n.toInt = some n := by
  rw [Number.toInt64?, if_pos ⟨Int64.minValue_le_toInt n, Int64.toInt_le n⟩, Int64.ofInt_toInt]

theorem Number.toUInt32?_toNat (n : UInt32) : Number.toUInt32? (n.toNat : Int) = some n := by
  have hlt : n.toNat < UInt32.size := n.toNat_lt_size
  simp [Number.toUInt32?, hlt]

namespace ObjectDocument

variable {m : Metamodel} {f : Feature} {object reference : ObjectId → Json}

theorem scalar_writeValue {v : FeatureValue} (h : v = .null ∨ f.type.stores v = true)
    (hfin : v.isFinite = true) : scalar m f (writeValue object reference v) = .ok v := by
  rcases h with rfl | h
  · simp [writeValue, scalar]
  unfold FeatureType.stores at h
  split at h
  · rename_i hu
    split at h
    · simp [writeValue, scalar, hu, untypedValue]
    · simp [writeValue, Json.integer, scalar, hu, untypedValue, Number.toInt64?_toInt]
    · rename_i x
      have hx : x.isFinite = true := hfin
      simp [writeValue, hx, scalar, hu, untypedValue]
    · simp [writeValue, scalar, hu, untypedValue]
    · cases h
  · rename_i hu
    split at h
    · rename_i ht
      rw [ht] at hu
      simp [writeValue, scalar, ht, hu, Json.text?]
    · rename_i ht
      rw [ht] at hu
      simp [writeValue, Json.integer, scalar, ht, hu, expect, Json.lenientInt64?, Json.int64?,
        Number.toInt64?_toInt]
    · rename_i x ht
      have hx : x.isFinite = true := hfin
      rw [ht] at hu
      simp [writeValue, hx, scalar, ht, hu, expect, Json.real?]
    · rename_i ht
      rw [ht] at hu
      simp [writeValue, scalar, ht, hu, expect, Json.bool?]
    · rename_i ordinal ht
      rw [ht] at hu
      simp [writeValue, Json.integer, scalar, ht, hu, enumValue, Json.nat?, Json.text?,
        Number.toUInt32?_toNat]
    · cases h

theorem mapM_scalar_writeItems {items : List FeatureValue}
    (h : ∀ i ∈ items, i = .null ∨ f.type.stores i = true) (hfin : ∀ i ∈ items, i.isFinite = true) :
    (writeItems object reference items).mapM (scalar m f) = .ok items := by
  induction items with
  | nil => rfl
  | cons i items ih =>
    rw [writeItems, List.mapM_cons, scalar_writeValue (h i (by simp)) (hfin i (by simp)),
      ih (fun j hj => h j (by simp [hj])) fun j hj => hfin j (by simp [hj])]
    rfl

theorem plainValue_of_not_array {w : Json} (h : ∀ items, w ≠ .array items) :
    plainValue m f w = scalar m f w := by
  cases w with
  | array items => exact absurd rfl (h items)
  | _ => rfl

theorem writeValue_ne_array {t : FeatureType} {v : FeatureValue} (h : t.stores v = true)
    (items : List Json) : writeValue object reference v ≠ .array items := by
  cases v with
  | real x => unfold writeValue; split <;> simp
  | containedMany ids => cases t <;> simp_all [FeatureType.stores]
  | references ids => cases t <;> simp_all [FeatureType.stores]
  | list items => cases t <;> simp_all [FeatureType.stores]
  | contained id => cases t <;> simp_all [FeatureType.stores]
  | reference id => cases t <;> simp_all [FeatureType.stores]
  | _ => simp [writeValue, Json.integer]

theorem stores_of_holds {v : FeatureValue} (hk : f.kind = .plain) (hh : f.holds v = true)
    (hv : v.isNull = false) (hl : ∀ items, v ≠ .list items) : f.type.stores v = true := by
  cases v with
  | null => cases hv
  | list items => exact absurd rfl (hl items)
  | _ => simpa only [Feature.holds, hk] using hh

theorem holds_of_stores {v : FeatureValue} (hk : f.kind = .plain) (hs : f.type.stores v = true) :
    f.holds v = true := by
  cases v <;> simp_all [Feature.holds, FeatureType.stores]

theorem children_eq_nil_of_holds {v : FeatureValue} (hk : f.kind ≠ .containment)
    (hh : f.holds v = true) : v.children = [] := by
  cases hkind : f.kind <;> cases v <;>
    simp_all [Feature.holds, FeatureValue.children, FeatureType.stores]

theorem expect_ok {mismatch : String → MetamodelError} {expected : String}
    {o : Option FeatureValue} {v : FeatureValue} (h : expect mismatch expected o = .ok v) :
    o = some v := by
  cases o with
  | none => cases h
  | some w => cases h; rfl

theorem enumValue_ok {c : ClassifierRef} {mismatch : String → MetamodelError} {j : Json}
    {v : FeatureValue} (h : enumValue m c mismatch j = .ok v) :
    ∃ ordinal, v = .enumeration ordinal := by
  unfold enumValue at h
  split at h
  · split at h
    · cases h
      exact ⟨_, rfl⟩
    · cases h
  · cases h
  · split at h
    · cases h
      exact ⟨_, rfl⟩
    · split at h
      · cases h
        exact ⟨_, rfl⟩
      · cases h

theorem scalar_stores {j : Json} {v : FeatureValue} (h : scalar m f j = .ok v) :
    v.isNull = true ∨ f.type.stores v = true := by
  unfold scalar at h
  dsimp only at h
  split at h
  · cases h
    exact .inl rfl
  refine .inr ?_
  cases hu : f.type.isUntyped with
  | true =>
    simp only [hu, if_true] at h
    unfold untypedValue at h
    split at h
    · cases h
      simp [FeatureType.stores, hu]
    · cases h
      simp [FeatureType.stores, hu]
    · split at h <;> cases h <;> simp [FeatureType.stores, hu]
    · cases h
      simp [FeatureType.stores, hu]
    · cases h
  | false =>
    simp only [hu, Bool.false_eq_true, if_false] at h
    split at h
    · rename_i ht
      cases h
      rw [ht] at hu ⊢
      simp [FeatureType.stores, hu]
    · rename_i ht
      obtain ⟨n, -, rfl⟩ := Option.map_eq_some_iff.1 (expect_ok h)
      rw [ht] at hu ⊢
      simp [FeatureType.stores, hu]
    · rename_i ht
      obtain ⟨x, -, rfl⟩ := Option.map_eq_some_iff.1 (expect_ok h)
      rw [ht] at hu ⊢
      simp [FeatureType.stores, hu]
    · rename_i ht
      obtain ⟨b, -, rfl⟩ := Option.map_eq_some_iff.1 (expect_ok h)
      rw [ht] at hu ⊢
      simp [FeatureType.stores, hu]
    · rename_i c ht
      obtain ⟨ordinal, rfl⟩ := enumValue_ok h
      rw [ht] at hu ⊢
      simp [FeatureType.stores, hu]
    · cases h

/-- A plain value that was read has the form that the feature asks for. -/
theorem holds_of_plainValue {j : Json} {v : FeatureValue} (hk : f.kind = .plain)
    (h : plainValue m f j = .ok v) : f.holds v = true := by
  have hscalar : ∀ j, scalar m f j = .ok v → f.holds v = true := by
    intro j hj
    rcases scalar_stores hj with hnull | hs
    · cases v <;> simp_all [FeatureValue.isNull, Feature.holds]
    · exact holds_of_stores hk hs
  cases j with
  | array items =>
    cases hmany : f.isMany with
    | false =>
      simp only [plainValue, hmany, Bool.false_eq_true, if_false] at h
      exact hscalar _ h
    | true =>
      simp only [plainValue, hmany, if_true] at h
      cases hitems : items.mapM (scalar m f) with
      | error e => simp [hitems, Functor.map, Except.map] at h
      | ok vs =>
        rw [hitems] at h
        cases h
        simp only [Feature.holds, hk, hmany, Bool.true_and, List.all_eq_true]
        intro i hi
        obtain ⟨j, -, hj⟩ := StatefulRuns.exists_of_mem_mapM_ok hitems hi
        simpa using scalar_stores hj
  | _ =>
    rw [plainValue_of_not_array (by simp)] at h
    exact hscalar _ h

theorem plainValue_writeValue {v : FeatureValue} (hk : f.kind = .plain) (hh : f.holds v = true)
    (hfin : v.isFinite = true) (hv : v.isNull = false) :
    plainValue m f (writeValue object reference v) = .ok v := by
  by_cases hl : ∀ items, v ≠ .list items
  · have hs := stores_of_holds hk hh hv hl
    rw [plainValue_of_not_array (writeValue_ne_array hs)]
    exact scalar_writeValue (.inr hs) hfin
  · simp only [not_forall, not_not] at hl
    obtain ⟨items, rfl⟩ := hl
    simp only [Feature.holds, hk, Bool.and_eq_true, List.all_eq_true, Bool.or_eq_true,
      FeatureValue.isNull_iff] at hh
    have hitems : ∀ i ∈ items, i.isFinite = true := by
      intro i hi
      have hfi := List.all_eq_true.1 hfin i hi
      rcases hh.2 i hi with rfl | hs
      · rfl
      · cases i with
        | list l => cases ht : f.type <;> simp_all [FeatureType.stores]
        | real x => exact hfi
        | _ => rfl
    simp [writeValue, plainValue, hh.1, mapM_scalar_writeItems hh.2 hitems, Functor.map,
      Except.map]

variable (s : ObjectStore) (root : ObjectId)

/-- The class and then the values that are present, in the order of the store. -/
def writtenMembers (depth : Nat) (x : ObjectId) : JsonMembers :=
  ("eClass", .string (s.get x).type.render) ::
    ((s.get x).values.entries.filter (!·.2.isNull)).map fun (feature, v) =>
      (feature, writeValue (writeWithin s root depth) (ObjectDocument.reference s root) v)

variable {s root} {x : ObjectId} {fs : List Feature} (hx : s.ObjectConforms m x fs)
include hx

theorem ne_eClass_of_stored {name : String} {v : FeatureValue} (h : s.value? x name = some v) :
    name ≠ "eClass" := by
  obtain ⟨f, hf, rfl, -⟩ := hx.stored name v h
  exact (hx.featuresWritable f hf).notClass

theorem writeWithin_succ (depth : Nat) :
    writeWithin s root (depth + 1) x = .object (writtenMembers s root depth x) := by
  have hn : ((writtenMembers s root depth x).map Prod.fst).Nodup := by
    rw [writtenMembers, List.map_cons, List.map_map, List.nodup_cons]
    refine ⟨fun hm => ?_, (List.Sublist.map _ List.filter_sublist).nodup (s.get x).values.nodup⟩
    obtain ⟨⟨name, v⟩, he, hname⟩ := List.mem_map.1 hm
    exact ne_eClass_of_stored hx (Table.get?_eq_some_iff.2 (List.mem_filter.1 he).1) hname
  have he := Table.entries_ofList hn
  rw [writeWithin]
  exact congrArg Json.object he

omit hx in
theorem lookup_map_filter {α β : Type} (es : List (String × α)) (p : α → Bool) (g : α → β)
    (hn : (es.map Prod.fst).Nodup) (name : String) :
    ((es.filter (p ·.2)).map fun e => (e.1, g e.2)).lookup name =
      ((es.lookup name).filter p).map g := by
  induction es with
  | nil => rfl
  | cons e es ih =>
    obtain ⟨k, a⟩ := e
    rw [List.map_cons, List.nodup_cons] at hn
    have ih' := ih hn.2
    by_cases hk : name = k
    · subst hk
      rw [Table.lookup_eq_none_iff.2 hn.1] at ih'
      by_cases hp : p a
      · simp [List.filter, hp, Option.filter]
      · simpa [List.filter, hp, Option.filter] using ih'
    · have hb : (name == k) = false := by simpa using hk
      by_cases hp : p a
      · simpa [List.filter, hp, List.lookup_cons, hb] using ih'
      · simpa [List.filter, hp, List.lookup_cons, hb] using ih'

omit hx in
theorem get?_writtenMembers (depth : Nat) {name : String} (hname : name ≠ "eClass") :
    JsonMembers.get? (writtenMembers s root depth x) name = (s.present? x name).map
      (writeValue (writeWithin s root depth) (ObjectDocument.reference s root)) := by
  have hb : (name == "eClass") = false := by simpa using hname
  rw [JsonMembers.get?, writtenMembers, List.lookup_cons, hb]
  exact lookup_map_filter _ (fun v => !v.isNull) _ (s.get x).values.nodup name

omit hx in
theorem text?_writtenMembers (depth : Nat) :
    JsonMembers.text? (writtenMembers s root depth x) "eClass" = some (s.get x).type.render := by
  simp [JsonMembers.text?, JsonMembers.get?, writtenMembers]

theorem classOf_writtenMembers (depth : Nat) (expected : Option ClassifierRef) :
    classOf (writtenMembers s root depth x) expected = .ok (s.get x).type := by
  simp [classOf, text?_writtenMembers, ClassifierRef.parse?_render hx.classWritable]

theorem strayKey?_writtenMembers (depth : Nat) :
    strayKey? (writtenMembers s root depth x) fs = none := by
  rw [strayKey?, List.find?_eq_none]
  intro key hkey
  obtain ⟨⟨k, j⟩, hmem, rfl⟩ := List.mem_map.1 hkey
  rcases List.mem_cons.1 hmem with he | he
  · simp [(Prod.mk.inj he).1]
  · obtain ⟨⟨name, v⟩, hv, he⟩ := List.mem_map.1 he
    have hstored := Table.get?_eq_some_iff.2 (List.mem_filter.1 hv).1
    obtain ⟨f, hf, hfn, -⟩ := hx.stored name v hstored
    have hany : fs.any (·.name = k) = true :=
      List.any_eq_true.2 ⟨f, hf, by simpa [← (Prod.mk.inj he).1] using hfn⟩
    simp [hany]

omit hx in
theorem depth_le_of_mem_items {v : Json} {items : List Json} (h : v ∈ items) :
    v.depth ≤ Json.depthOfItems items := by
  induction items with
  | nil => simp at h
  | cons w ws ih =>
    rw [Json.depthOfItems]
    rcases List.mem_cons.1 h with rfl | h
    · exact Nat.le_max_left _ _
    · exact Nat.le_trans (ih h) (Nat.le_max_right _ _)

omit hx in
theorem depth_le_of_lookup {members : JsonMembers} {name : String} {v : Json}
    (h : JsonMembers.get? members name = some v) : v.depth ≤ Json.depthOfMembers members := by
  induction members with
  | nil => simp [JsonMembers.get?] at h
  | cons e es ih =>
    obtain ⟨k, w⟩ := e
    rw [Json.depthOfMembers]
    rw [JsonMembers.get?, List.lookup_cons] at h
    split at h
    · rw [← Option.some.inj h]
      exact Nat.le_max_left _ _
    · exact Nat.le_trans (ih h) (Nat.le_max_right _ _)

theorem depth_writeWithin_lt {depth : Nat} {name : String} {c : ObjectId}
    (h : c ∈ s.contentsIn x name) :
    (writeWithin s root depth c).depth < (writeWithin s root (depth + 1) x).depth := by
  obtain ⟨v, hv, hc⟩ := ObjectStore.mem_contentsIn_iff.1 h
  have hpres : s.present? x name = some v := by
    refine ObjectStore.present?_eq_some.2 ⟨hv, ?_⟩
    cases v <;> simp_all [FeatureValue.children, FeatureValue.isNull]
  have hget : JsonMembers.get? (writtenMembers s root depth x) name = _ :=
    get?_writtenMembers depth (ne_eClass_of_stored hx hv)
  rw [hpres] at hget
  have hle := depth_le_of_lookup hget
  rw [writeWithin_succ hx, Json.depth]
  cases v with
  | contained d =>
    obtain rfl : c = d := by simpa [FeatureValue.children] using hc
    rw [writeValue] at hle
    omega
  | containedMany ids =>
    replace hc : c ∈ ids := hc
    have hitem := depth_le_of_mem_items (List.mem_map_of_mem (f := writeWithin s root depth) hc)
    rw [writeValue, Json.depth] at hle
    omega
  | _ => simp [FeatureValue.children] at hc

end ObjectDocument

end TreeInterchange
