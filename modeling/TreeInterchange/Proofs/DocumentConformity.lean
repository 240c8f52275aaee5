import TreeInterchange.Proofs.DocumentObjects
import TreeInterchange.Proofs.ObjectDocumentRoundTrip

/-!
# Documents that are read conform

Whatever the document, an accepted one gives a tree that conforms to the metamodel. The new
objects stand at consecutive places, in the order of the tree, each before what it contains;
each stores values for features of its class only, in the order of the class and in the form
that the feature asks for; and its references stay within the tree.

The order of the places follows from the runs that objects fill: the run of an object is its
own place and then the runs of what its features own, one after the other.
-/

namespace TreeInterchange.ObjectDocument

variable {m : Metamodel} {u : ObjectStore} {root : Nat} {members : JsonMembers} {f : Feature}
  {v : FeatureValue} {child : Json → Nat → Nat → Prop} {depth n y a b e : Nat}

theorem range'_append_of_le {c : Nat} (hac : a ≤ c) (hcb : c ≤ b) :
    List.range' a (c - a) ++ List.range' c (b - c) = List.range' a (b - a) := by
  obtain ⟨i, rfl⟩ := Nat.exists_eq_add_of_le hac
  obtain ⟨j, rfl⟩ := Nat.exists_eq_add_of_le hcb
  rw [show a + i - a = i by omega, show a + i + j - (a + i) = j by omega,
    show a + i + j - a = i + j by omega, List.range'_append_1]

section Tiling

variable {g : Nat → List Nat} (hlt : ∀ j a b, child j a b → a < b)
  (hg : ∀ j x c, child j x c → c - x ≤ n → g x = List.range' x (c - x))
include hlt hg

theorem InTurn.flatMap_eq {js : List Json} {ids : List Nat} (h : InTurn child js ids a b)
    (hn : b - a ≤ n) : ids.flatMap g = List.range' a (b - a) := by
  induction js generalizing ids a with
  | nil =>
    obtain ⟨rfl, rfl⟩ := h
    simp
  | cons j js ih =>
    obtain ⟨c, rest, rfl, hc, hrest⟩ := h
    have hac := hlt j a c hc
    have hcb := hrest.le hlt
    rw [List.flatMap_cons, hg j a c hc (by omega), ih hrest (by omega),
      range'_append_of_le (Nat.le_of_lt hac) hcb]

theorem OwnsRead.flatMap_eq {j : Json} (h : OwnsRead child f v a b j) (hn : b - a ≤ n) :
    v.children.flatMap g = List.range' a (b - a) := by
  unfold OwnsRead at h
  split at h
  · obtain ⟨rfl, rfl⟩ := h
    simp [FeatureValue.children]
  · obtain ⟨-, ids, rfl, hids⟩ := h
    exact hids.flatMap_eq hlt hg hn
  · obtain ⟨hv, hj⟩ := h
    have hchildren : v.children = [a] := by
      rw [hv]
      split <;> rfl
    rw [hchildren, List.flatMap_singleton, hg _ a b hj hn]

theorem ReadsFeature.flatMap_eq (h : ReadsFeature m (LinksIn u root) u child members y f a b)
    (hnot : JsonMembers.get? members f.name = none → u.value? y f.name = none) (hn : b - a ≤ n) :
    (u.contentsIn y f.name).flatMap g = List.range' a (b - a) := by
  have hempty : u.contentsIn y f.name = [] → a = b →
      (u.contentsIn y f.name).flatMap g = List.range' a (b - a) := by
    rintro hnil rfl
    simp [hnil]
  unfold ReadsFeature at h
  split at h
  · rename_i hnone
    exact hempty (ObjectStore.contentsIn_eq_nil (hnot hnone)) h
  · obtain ⟨v, hv, h⟩ := h
    rw [ObjectStore.contentsIn_eq hv] at hempty ⊢
    split at h
    · rename_i hk
      apply hempty _ h.2
      exact children_eq_nil_of_holds (by simp [hk]) (holds_of_plainValue hk h.1)
    · apply hempty _ h.2
      rw [h.1]
      exact children_referenceValue _ _
    · exact h.flatMap_eq hlt hg hn

theorem ReadsFeatures.flatMap_eq {fs : List Feature}
    (h : ReadsFeatures m (LinksIn u root) u child members y fs a b)
    (hnot : ∀ name, JsonMembers.get? members name = none → u.value? y name = none)
    (hn : b - a ≤ n) :
    (fs.flatMap fun f => u.contentsIn y f.name).flatMap g = List.range' a (b - a) := by
  induction fs generalizing a with
  | nil =>
    obtain rfl : a = b := h
    simp
  | cons f fs ih =>
    obtain ⟨c, hc, hrest⟩ := h
    have hac := hc.le hlt
    have hcb := hrest.le hlt
    rw [List.flatMap_cons, List.flatMap_append, hc.flatMap_eq hlt hg (hnot f.name) (by omega),
      ih hrest (by omega), range'_append_of_le hac hcb]

end Tiling

theorem value?_eq_none_of_keys {fs : List Feature}
    (hkeys : (u.get y).values.keys = givenNames members fs) {name : String}
    (hnone : JsonMembers.get? members name = none) : u.value? y name = none := by
  apply Table.get?_eq_none_iff.2
  rw [hkeys]
  intro hmem
  obtain ⟨f, hf, rfl⟩ := List.mem_map.1 hmem
  simp [hnone] at hf

theorem contents_eq_of_keys {fs : List Feature}
    (hkeys : (u.get y).values.keys = givenNames members fs) :
    u.contents y = fs.flatMap fun f => u.contentsIn y f.name := by
  have hskip : ∀ gs : List Feature,
      (gs.filter fun f => (JsonMembers.get? members f.name).isSome).flatMap
        (fun f => u.contentsIn y f.name) = gs.flatMap fun f => u.contentsIn y f.name := by
    intro gs
    induction gs with
    | nil => rfl
    | cons f gs ih =>
      rw [List.flatMap_cons, ← ih]
      cases hf : JsonMembers.get? members f.name with
      | none =>
        rw [ObjectStore.contentsIn_eq_nil (value?_eq_none_of_keys hkeys hf)]
        simp [hf]
      | some j => simp [hf]
  rw [ObjectStore.contents_eq, hkeys, givenNames, List.flatMap_map, hskip]

/-- The tree of an object that was read is its run of places. -/
theorem Reads.preorder_eq (h : Reads m (LinksIn u root) u depth members y e) (hn : e - y ≤ n) :
    u.preorder n y = List.range' y (e - y) := by
  induction depth generalizing members y e n with
  | zero => exact h.elim
  | succ depth ih =>
    have hlt := h.lt
    obtain ⟨fs, -, hkeys, hfs⟩ := h
    obtain ⟨n, rfl⟩ : ∃ k, n = k + 1 := ⟨n - 1, by omega⟩
    have hbelow : (u.contents y).flatMap (u.preorder n) = List.range' (y + 1) (e - (y + 1)) := by
      rw [contents_eq_of_keys hkeys]
      apply hfs.flatMap_eq (fun _ _ _ => ReadsObject.lt)
      · rintro j x c ⟨ms, -, hms⟩ hc
        exact ih hms hc
      · intro name
        exact value?_eq_none_of_keys hkeys
      · omega
    rw [ObjectStore.preorder, hbelow, show e - y = (e - (y + 1)) + 1 by omega, List.range'_succ]

theorem Reads.of_mem_contents (h : Reads m (LinksIn u root) u depth members y e) {c : Nat}
    (hc : c ∈ u.contents y) :
    y < c ∧ ∃ d ms b, b ≤ e ∧ Reads m (LinksIn u root) u d ms c b := by
  obtain ⟨name, hin⟩ := ObjectStore.mem_contents_iff.1 hc
  obtain ⟨v, hv, hcv⟩ := ObjectStore.mem_contentsIn_iff.1 hin
  obtain ⟨i, hi⟩ := List.mem_iff_getElem?.1 hcv
  cases depth with
  | zero => exact h.elim
  | succ depth =>
    obtain ⟨-, f, j, -, -, -, -, hread⟩ := h.value hv
    obtain ⟨-, b, -, hy, hb, ms, -, hms⟩ := hread.owns hi
    exact ⟨hy, depth, ms, b, hb, hms⟩

theorem Reads.of_mem_preorder (h : Reads m (LinksIn u root) u depth members y e) {x : Nat}
    (hx : x ∈ u.preorder n y) : ∃ d ms b, Reads m (LinksIn u root) u (d + 1) ms x b := by
  induction n generalizing depth members y e with
  | zero => cases hx
  | succ n ih =>
    rw [ObjectStore.preorder, List.mem_cons, List.mem_flatMap] at hx
    rcases hx with rfl | ⟨c, hc, hx⟩
    · cases depth with
      | zero => exact h.elim
      | succ depth => exact ⟨depth, members, e, h⟩
    · obtain ⟨-, d, ms, b, -, hms⟩ := h.of_mem_contents hc
      exact ih hms hx

theorem Reads.step_within (h : Reads m (LinksIn u root) u depth members y e) {gs : List Segment}
    {x : Nat} (hx : gs.foldlM u.step? y = some x) : y ≤ x ∧ x < e := by
  induction gs generalizing depth members y e with
  | nil =>
    obtain rfl := Option.some.inj hx
    exact ⟨Nat.le_refl y, h.lt⟩
  | cons g gs ih =>
    rw [List.foldlM_cons] at hx
    obtain ⟨z, hz, hrest⟩ := Option.bind_eq_some_iff.1 hx
    obtain ⟨hyz, d, ms, b, hb, hms⟩ := h.of_mem_contents (ObjectStore.mem_contents_of_step? hz)
    have := ih hms hrest
    omega

/-- A value has the form that its feature asks for. An attribute that may have many values takes a
list of them as well, and a reference leads to objects of the tree of `root`. -/
structure ValueConforms (u : ObjectStore) (root : ObjectId) (f : Feature) (v : FeatureValue) :
    Prop where
  plain : f.kind = .plain → v = .null ∨ f.type.stores v = true ∨
    f.isMany = true ∧ ∃ items, v = .list items ∧ ∀ i ∈ items, i = .null ∨ f.type.stores i = true
  containment : f.kind = .containment → v = .null ∨
    (f.isMany = false ∧ ∃ c, v = .contained c) ∨ f.isMany = true ∧ ∃ cs, v = .containedMany cs
  reference : f.kind = .reference →
    (f.isMany = false ∧ (v = .null ∨ ∃ t, v = .reference t)) ∨
      f.isMany = true ∧ ∃ ts, v = .references ts
  targets : ∀ t ∈ v.targets, t ∈ u.tree root

theorem plain_of_holds (hk : f.kind = .plain) (h : f.holds v = true) :
    v = .null ∨ f.type.stores v = true ∨
      f.isMany = true ∧ ∃ items, v = .list items ∧
        ∀ i ∈ items, i = .null ∨ f.type.stores i = true := by
  cases v with
  | null => exact .inl rfl
  | list items =>
    simp only [Feature.holds, hk, Bool.and_eq_true, List.all_eq_true, Bool.or_eq_true] at h
    refine .inr (.inr ⟨h.1, items, rfl, fun i hi => ?_⟩)
    rw [← FeatureValue.isNull_iff]
    exact h.2 i hi
  | _ =>
    refine .inr (.inl ?_)
    simpa only [Feature.holds, hk] using h

theorem targets_eq_nil_of_holds (hk : f.kind ≠ .reference) (h : f.holds v = true) :
    v.targets = [] := by
  cases hkind : f.kind <;> cases v <;>
    simp_all [Feature.holds, FeatureValue.targets, FeatureType.stores]

theorem referenceValue_cases (many : Bool) (ids : List Nat) :
    ((many = false ∧ (referenceValue many ids = .null ∨
        ∃ t, referenceValue many ids = .reference t)) ∨
      many = true ∧ ∃ ts, referenceValue many ids = .references ts) ∧
    ∀ t ∈ (referenceValue many ids).targets, t ∈ ids := by
  cases many with
  | true => exact ⟨.inr ⟨rfl, ids, rfl⟩, fun t ht => ht⟩
  | false =>
    cases ids with
    | nil => exact ⟨.inl ⟨rfl, .inl rfl⟩, fun t ht => ht⟩
    | cons i ids =>
      refine ⟨.inl ⟨rfl, .inr ⟨i, rfl⟩⟩, fun t ht => ?_⟩
      obtain rfl : t = i := by simpa [referenceValue, FeatureValue.targets] using ht
      simp

theorem ValueRead.conforms {j : Json} (h : ValueRead m (LinksIn u root) u depth f j y e v)
    (hway : ∀ (gs : List Segment) x, gs.foldlM u.step? root = some x → x ∈ u.tree root) :
    ValueConforms u root f v := by
  cases hk : f.kind with
  | plain =>
    have hholds := holds_of_plainValue hk (h.plain hk)
    refine ⟨fun _ => plain_of_holds hk hholds, by simp [hk], by simp [hk], ?_⟩
    rw [targets_eq_nil_of_holds (by simp [hk]) hholds]
    simp
  | containment =>
    obtain ⟨a, b, -, -, howns⟩ := h.owned hk
    obtain ⟨-, -, hform⟩ := howns.children fun _ _ _ => ReadsObject.lt
    refine ⟨by simp [hk], fun _ => ?_, by simp [hk], ?_⟩
    · rcases hform with hnull | hmany | hsingle
      · exact .inl hnull
      · exact .inr (.inr hmany)
      · exact .inr (.inl hsingle)
    · rcases hform with rfl | ⟨-, cs, rfl⟩ | ⟨-, c, rfl⟩ <;> simp [FeatureValue.targets]
  | reference =>
    obtain rfl : v = resolvedValue u root f.isMany (targets j) := h.reference hk
    obtain ⟨hform, htargets⟩ := referenceValue_cases f.isMany
      ((targets j).filterMap fun text => u.resolve? root (fragmentOf text))
    refine ⟨by simp [hk], by simp [hk], fun _ => hform, fun t ht => ?_⟩
    obtain ⟨text, -, hresolve⟩ := List.mem_filterMap.1 (htargets t ht)
    obtain ⟨gs, -, hgs⟩ := Option.bind_eq_some_iff.1 hresolve
    exact hway gs t hgs

/-- An accepted document gives a tree of new objects, at consecutive places in the order of the
tree, each of which conforms to its class. -/
theorem read_conforms {default : Option ClassifierRef} {document : Json} {s : ObjectStore}
    (h : read m default document s = (.ok root, u)) :
    root = s.size ∧ u.container? root = none ∧
      u.tree root = List.range' root (u.size - root) ∧
      ∀ x, root ≤ x → x < u.size → ∃ fs, m.features (u.get x).type = .ok fs ∧
        (u.get x).values.keys.Sublist (fs.map (·.name)) ∧
        ∀ f ∈ fs, ∀ v, u.value? x f.name = some v → ValueConforms u root f v := by
  obtain ⟨hroot, -, hfree, ms, -, hms⟩ := read_reads h
  have htree : u.tree root = List.range' root (u.size - root) := hms.preorder_eq (Nat.sub_le _ _)
  have hmem : ∀ x, x ∈ u.tree root ↔ root ≤ x ∧ x < u.size := by
    intro x
    rw [htree, List.mem_range'_1, Nat.add_sub_cancel' (Nat.le_of_lt hms.lt)]
  refine ⟨hroot, by rw [ObjectStore.container?, hfree]; rfl, htree, fun x hx hxu => ?_⟩
  obtain ⟨d, ms', b, hread⟩ := hms.of_mem_preorder ((hmem x).2 ⟨hx, hxu⟩)
  obtain ⟨fs, hfs, hkeys, -⟩ := id hread
  refine ⟨fs, hfs, ?_, fun f hf v hv => ?_⟩
  · rw [hkeys]
    exact List.Sublist.map _ List.filter_sublist
  · obtain ⟨fs', f', j, hfs', hf', hname, -, hvalue⟩ := hread.value hv
    rw [hfs] at hfs'
    cases hfs'
    obtain rfl := List.inj_on_of_nodup_map (Metamodel.nodup_features hfs) hf' hf hname
    apply hvalue.conforms
    intro gs t ht
    exact (hmem t).2 (hms.step_within ht)

/-- A shelf in which the book comes first, a single mood and a single book stand for lists, the
mood is a literal and the number of pages a text. -/
def looseShelf : Json :=
  .object [
    ("books", .object [("pages", .string "7"), ("eClass", .string "urn:library#//Book"),
      ("sequels", .object [("$ref", .string "//@books.0")])]),
    ("featured", .object [("$ref", .string "#//@books.1")]),
    ("eClass", .string "urn:library#//Shelf"),
    ("moods", .string "light")]

theorem read_conforms_looseShelf :
    ∃ u, read libraryModel none looseShelf .empty = (.ok 0, u) ∧ u.size = 2 ∧
      u.container? 0 = none ∧ u.tree 0 = List.range' 0 (u.size - 0) ∧
      ∀ x, 0 ≤ x → x < u.size → ∃ fs, libraryModel.features (u.get x).type = .ok fs ∧
        (u.get x).values.keys.Sublist (fs.map (·.name)) ∧
        ∀ f ∈ fs, ∀ v, u.value? x f.name = some v → ValueConforms u 0 f v := by
  have hok : (read libraryModel none looseShelf .empty).1.toOption = some 0 := by decide +kernel
  have hsize : (read libraryModel none looseShelf .empty).2.size = 2 := by decide +kernel
  cases hread : read libraryModel none looseShelf .empty with
  | mk result u =>
    rw [hread] at hok hsize
    obtain rfl := StatefulRuns.toOption_eq_some_iff.1 hok
    obtain ⟨-, hfree, htree, hall⟩ := read_conforms hread
    exact ⟨u, rfl, hsize, hfree, htree, hall⟩

end TreeInterchange.ObjectDocument
