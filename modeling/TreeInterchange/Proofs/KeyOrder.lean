import TreeInterchange.Proofs.DocumentObjects
import TreeInterchange.Proofs.ObjectDocumentRoundTrip

/-!
# Documents with their keys in another order

Two documents may list the members of the same objects in different orders. What they are read
as does not depend on it: the values of an object are taken up in the order of the features of its
class, so both runs make the same objects in the same order, open the same references and, where
they fail, fail at the same place. Only which of several unknown members is complained about is a
matter of the order.
-/

namespace TreeInterchange

/-- Errors of one kind that say the same, except that each may name another of the members of an
object that are no features of its class. -/
inductive MetamodelError.Alike : MetamodelError → MetamodelError → Prop
  | same (e : MetamodelError) : Alike e e
  | unknownFeature (c : ClassifierRef) (key key' : String) :
      Alike (.unknownFeature c key) (.unknownFeature c key')

namespace ObjectDocument

open StatefulRuns

/-- The containment feature that a member of an object is the value of. -/
def containment? (m : Metamodel) (expected : Option ClassifierRef) (members : JsonMembers)
    (key : String) : Option Feature :=
  match classOf members expected >>= m.features with
  | .ok fs => fs.find? fun f => f.name = key ∧ f.isContainment
  | .error _ => none

/-- Two documents that differ only in the order of the keys of those objects that are read as
objects of the metamodel: the outermost one and, in turn, those under containment features. An
object that names no class is of the class `expected`. No object has a key twice. -/
inductive Reordered (m : Metamodel) : Option ClassifierRef → Json → Json → Prop
  | refl (expected : Option ClassifierRef) (v : Json) : Reordered m expected v v
  | array {expected : Option ClassifierRef} {items items' : List Json}
      (hlength : items.length = items'.length)
      (hitems : ∀ (i : Nat) v v', items[i]? = some v → items'[i]? = some v' →
        Reordered m expected v v') :
      Reordered m expected (.array items) (.array items')
  | object {expected : Option ClassifierRef} {members members' : JsonMembers}
      (hdistinct : (members.map Prod.fst).Nodup)
      (hkeys : (members'.map Prod.fst).Perm (members.map Prod.fst))
      (hother : ∀ key v v', (key, v) ∈ members → (key, v') ∈ members' →
        containment? m expected members key = none → v = v')
      (howned : ∀ key v v' f, (key, v) ∈ members → (key, v') ∈ members' →
        containment? m expected members key = some f →
        Reordered m (some f.type.classifier) v v') :
      Reordered m expected (.object members) (.object members')

variable {m : Metamodel} {expected : Option ClassifierRef}

section Depth

theorem depthOfItems_le_iff {items : List Json} {n : Nat} :
    Json.depthOfItems items ≤ n ↔ ∀ v ∈ items, v.depth ≤ n := by
  induction items with
  | nil => simp [Json.depthOfItems]
  | cons v vs ih => simp [Json.depthOfItems, ih]

theorem depthOfMembers_le_iff {members : JsonMembers} {n : Nat} :
    Json.depthOfMembers members ≤ n ↔ ∀ key v, (key, v) ∈ members → v.depth ≤ n := by
  induction members with
  | nil => simp [Json.depthOfMembers]
  | cons e es ih =>
    obtain ⟨key, v⟩ := e
    rw [Json.depthOfMembers, Nat.max_le, ih]
    constructor
    · rintro ⟨hv, hes⟩ key' w hw
      rcases List.mem_cons.1 hw with he | hw
      · rwa [(Prod.mk.inj he).2]
      · exact hes key' w hw
    · intro h
      exact ⟨h key v List.mem_cons_self, fun key' w hw => h key' w (List.mem_cons_of_mem _ hw)⟩

theorem exists_member {members members' : JsonMembers} {key : String} {v : Json}
    (hkeys : members.map Prod.fst ⊆ members'.map Prod.fst) (h : (key, v) ∈ members) :
    ∃ v', (key, v') ∈ members' := by
  obtain ⟨⟨_, v'⟩, hmem, rfl⟩ := List.mem_map.1 (hkeys (List.mem_map_of_mem h))
  exact ⟨v', hmem⟩

theorem Reordered.depth_eq {v v' : Json} (h : Reordered m expected v v') : v.depth = v'.depth := by
  induction h with
  | refl _ _ => rfl
  | @array _ items items' hlength _ ih =>
    refine congrArg (· + 1) (eq_of_forall_ge_iff fun n => ?_)
    rw [depthOfItems_le_iff, depthOfItems_le_iff]
    constructor
    · intro hn w hw
      obtain ⟨i, hi, rfl⟩ := List.getElem_of_mem hw
      rw [← ih i items[i] _ (by simp) (by simp [hi])]
      exact hn _ (List.getElem_mem _)
    · intro hn w hw
      obtain ⟨i, hi, rfl⟩ := List.getElem_of_mem hw
      rw [ih i _ (items'[i]) (by simp [hi]) (by simp)]
      exact hn _ (List.getElem_mem _)
  | @object expected members members' _ hkeys hother _ ih =>
    have hmember : ∀ key w w', (key, w) ∈ members → (key, w') ∈ members' → w.depth = w'.depth := by
      intro key w w' hw hw'
      cases hc : containment? m expected members key with
      | none => rw [hother key w w' hw hw' hc]
      | some f => exact ih key w w' f hw hw' hc
    refine congrArg (· + 1) (eq_of_forall_ge_iff fun n => ?_)
    rw [depthOfMembers_le_iff, depthOfMembers_le_iff]
    constructor
    · intro hn key w' hw'
      obtain ⟨w, hw⟩ := exists_member hkeys.subset hw'
      rw [← hmember key w w' hw hw']
      exact hn key w hw
    · intro hn key w hw
      obtain ⟨w', hw'⟩ := exists_member hkeys.symm.subset hw
      rw [hmember key w w' hw hw']
      exact hn key w' hw'

end Depth

theorem Reordered.text?_eq {v v' : Json} (h : Reordered m expected v v') : v.text? = v'.text? := by
  cases h <;> rfl

theorem text?_eq_bind (members : JsonMembers) (key : String) :
    JsonMembers.text? members key = (JsonMembers.get? members key).bind Json.text? := by
  unfold JsonMembers.text?
  cases JsonMembers.get? members key with
  | none => rfl
  | some v => cases v <;> rfl

/-- Of a class, at most one feature has the name of a member, and its kind decides whether the
member holds objects of its own. -/
theorem containment?_eq {members : JsonMembers} {c : ClassifierRef} {fs : List Feature}
    {f : Feature} (hc : classOf members expected = .ok c) (hfs : m.features c = .ok fs)
    (hf : f ∈ fs) :
    containment? m expected members f.name = if f.isContainment then some f else none := by
  have hfind : containment? m expected members f.name =
      fs.find? fun g => g.name = f.name ∧ g.isContainment := by
    have hall : (classOf members expected >>= m.features) = .ok fs := by rw [hc]; exact hfs
    rw [containment?, hall]
  have hone : ∀ g ∈ fs, g.name = f.name → g = f := fun g hg hname =>
    List.inj_on_of_nodup_map (Metamodel.nodup_features hfs) hg hf hname
  rw [hfind]
  split
  · rename_i hk
    cases hg : fs.find? fun g => g.name = f.name ∧ g.isContainment with
    | none => exact absurd (List.find?_eq_none.1 hg f hf) (by simp [hk])
    | some g =>
      have hfits : g.name = f.name ∧ g.isContainment = true := by simpa using List.find?_some hg
      rw [hone g (List.mem_of_find?_eq_some hg) hfits.1]
  · rename_i hk
    rw [List.find?_eq_none]
    intro g hg
    simp only [decide_eq_true_eq, not_and]
    rintro hname hcontains
    exact hk (hone g hg hname ▸ hcontains)

section Members

variable {members members' : JsonMembers}

/-- What the two lists of members of one object have in common: the keys, the values that hold no
objects of the metamodel, and those that do up to the order of keys. -/
structure SameMembers (m : Metamodel) (expected : Option ClassifierRef)
    (members members' : JsonMembers) : Prop where
  keys : (members'.map Prod.fst).Perm (members.map Prod.fst)
  other : ∀ key, containment? m expected members key = none →
    JsonMembers.get? members key = JsonMembers.get? members' key
  owned : ∀ key f, containment? m expected members key = some f →
    Option.Rel (Reordered m (some f.type.classifier)) (JsonMembers.get? members key)
      (JsonMembers.get? members' key)

theorem eq_of_rel {a b : Option Json} (h : Option.Rel (· = ·) a b) : a = b := by
  cases h with
  | none => rfl
  | some h => rw [h]

theorem rel_get? {R : Json → Json → Prop} {key : String} (hdistinct : (members.map Prod.fst).Nodup)
    (hkeys : (members'.map Prod.fst).Perm (members.map Prod.fst))
    (h : ∀ v v', (key, v) ∈ members → (key, v') ∈ members' → R v v') :
    Option.Rel R (JsonMembers.get? members key) (JsonMembers.get? members' key) := by
  have hdistinct' : (members'.map Prod.fst).Nodup := hkeys.nodup_iff.2 hdistinct
  cases hv : JsonMembers.get? members key with
  | none =>
    have habsent := Table.lookup_eq_none_iff.1 hv
    rw [JsonMembers.get?, Table.lookup_eq_none_iff.2 (habsent ∘ hkeys.mem_iff.1)]
    exact .none
  | some v =>
    have hmem := (Table.lookup_eq_some_iff hdistinct).1 hv
    obtain ⟨v', hmem'⟩ := exists_member hkeys.symm.subset hmem
    rw [JsonMembers.get?, (Table.lookup_eq_some_iff hdistinct').2 hmem']
    exact .some (h v v' hmem hmem')

theorem Reordered.sameMembers (h : Reordered m expected (.object members) (.object members')) :
    SameMembers m expected members members' := by
  cases h with
  | refl _ _ =>
    refine ⟨.refl _, fun _ _ => rfl, fun key f _ => ?_⟩
    cases JsonMembers.get? members key with
    | none => exact .none
    | some v => exact .some (.refl _ v)
  | object hdistinct hkeys hother howned =>
    refine ⟨hkeys, fun key hc => ?_, fun key f hc => ?_⟩
    · exact eq_of_rel (rel_get? hdistinct hkeys fun v v' hv hv' => hother key v v' hv hv' hc)
    · exact rel_get? hdistinct hkeys fun v v' hv hv' => howned key v v' f hv hv' hc

theorem SameMembers.text?_eq (h : SameMembers m expected members members') (key : String) :
    JsonMembers.text? members' key = JsonMembers.text? members key := by
  rw [text?_eq_bind, text?_eq_bind]
  cases hc : containment? m expected members key with
  | none => rw [h.other key hc]
  | some f =>
    have hvalues := h.owned key f hc
    generalize JsonMembers.get? members key = a, JsonMembers.get? members' key = b at hvalues ⊢
    cases hvalues with
    | none => rfl
    | some hvalue => exact hvalue.text?_eq.symm

theorem SameMembers.classOf_eq (h : SameMembers m expected members members') :
    classOf members' expected = classOf members expected := by
  unfold classOf
  rw [h.text?_eq]

/-- Unknown members are found in either order, if not the same one first. -/
theorem SameMembers.strayKey? (h : SameMembers m expected members members') (fs : List Feature) :
    (strayKey? members' fs).isSome = (strayKey? members fs).isSome := by
  rw [Bool.eq_iff_iff, ObjectDocument.strayKey?, ObjectDocument.strayKey?, List.find?_isSome,
    List.find?_isSome]
  simp only [h.keys.mem_iff]

end Members

/-- Objects that differ in the order of keys are read alike, as deep as `depth`. -/
def ReadsAlike (m : Metamodel) (depth : Nat) : Prop :=
  ∀ expected members members', SameMembers m expected members members' → ∀ st,
    EndsAlike MetamodelError.Alike (readObject m depth members expected st)
      (readObject m depth members' expected st)

section Step

variable {depth : Nat} {f : Feature} {v v' : Json}

theorem readOwned_endsAlike (hread : ReadsAlike m depth)
    (h : Reordered m (some f.type.classifier) v v') (st : ReadState) :
    EndsAlike MetamodelError.Alike (readOwned (readObject m depth) f v st)
      (readOwned (readObject m depth) f v' st) := by
  cases h with
  | refl _ _ => exact .refl .same _
  | array _ _ => exact .error (.same _) st
  | object hdistinct hkeys hother howned =>
    exact hread _ _ _ (Reordered.object hdistinct hkeys hother howned).sameMembers st

theorem forall₂_reordered {items items' : List Json} (hlength : items.length = items'.length)
    (hitems : ∀ (i : Nat) v v', items[i]? = some v → items'[i]? = some v' →
      Reordered m expected v v') :
    List.Forall₂ (Reordered m expected) items items' := by
  rw [List.forall₂_iff_get]
  refine ⟨hlength, fun i hi hi' => hitems i _ _ ?_ ?_⟩ <;> simp [hi, hi']

theorem owned_endsAlike (hread : ReadsAlike m depth)
    (h : Reordered m (some f.type.classifier) v v') (st : ReadState) :
    EndsAlike MetamodelError.Alike (owned (readObject m depth) f v st)
      (owned (readObject m depth) f v' st) := by
  have hsingle := readOwned_endsAlike hread h
  cases h with
  | refl _ _ => exact .refl .same _
  | @array _ items items' hlength hitems =>
    simp only [owned]
    split
    · refine (EndsAlike.mapM ?_ st).bind fun ids t => .ok _ t
      refine (forall₂_reordered hlength hitems).imp fun w w' hw => ?_
      exact readOwned_endsAlike hread hw
    · exact (hsingle st).bind fun id t => .ok _ t
  | object _ _ _ _ =>
    simp only [owned]
    split <;> exact (hsingle st).bind fun id t => .ok _ t

theorem readFeature_endsAlike (hread : ReadsAlike m depth) {members members' : JsonMembers}
    (h : SameMembers m expected members members') {c : ClassifierRef} {fs : List Feature}
    (hc : classOf members expected = .ok c) (hfs : m.features c = .ok fs) (hf : f ∈ fs)
    (id : ObjectId) (st : ReadState) :
    EndsAlike MetamodelError.Alike (readFeature m (readObject m depth) id members f st)
      (readFeature m (readObject m depth) id members' f st) := by
  have hcontains := containment?_eq hc hfs hf
  unfold readFeature
  by_cases hk : f.kind = .containment
  · rw [if_pos (by simp [Feature.isContainment, hk])] at hcontains
    have hvalues := h.owned f.name f hcontains
    generalize JsonMembers.get? members f.name = a, JsonMembers.get? members' f.name = b
      at hvalues ⊢
    cases hvalues with
    | none => exact .ok () st
    | some hvalue =>
      simp only [hk]
      exact (owned_endsAlike hread hvalue st).bind fun value t => .refl .same _
  · rw [if_neg (by simpa [Feature.isContainment] using hk)] at hcontains
    rw [h.other f.name hcontains]
    exact .refl .same _

end Step

theorem readsAlike (m : Metamodel) (depth : Nat) : ReadsAlike m depth := by
  induction depth with
  | zero => exact fun _ _ _ _ st => .error (.same _) st
  | succ depth ih =>
    intro expected members members' h st
    rw [readObject, readObject, h.classOf_eq]
    refine EndsAlike.bind_same .same fun c t hc => EndsAlike.bind_same .same fun fs u hfs => ?_
    obtain ⟨hc, -⟩ := of_lift_ok hc
    obtain ⟨hfs, -⟩ := of_lift_ok hfs
    -- if a member is unknown in one order, one is in the other, though it may be another one
    have hstray := h.strayKey? fs
    cases hkey : strayKey? members fs with
    | some key =>
      rw [hkey] at hstray
      obtain ⟨key', hkey'⟩ := Option.isSome_iff_exists.1 hstray
      rw [hkey']
      exact .error (.unknownFeature c key key') u
    | none =>
      rw [hkey, Option.isSome_none, Option.isSome_eq_false_iff, Option.isNone_iff_eq_none] at hstray
      rw [hstray]
      refine EndsAlike.bind_same .same fun id w _ => ?_
      have hfeatures := EndsAlike.forM (fun f hf => readFeature_endsAlike ih h hc hfs hf id) w
      exact hfeatures.bind fun _ u => .ok id u

/-- Reading depends on the keys of objects, not on their order: the store ends up the same, and
both documents have the same root or fail alike. -/
theorem read_reordered {default : Option ClassifierRef} {document document' : Json}
    (h : Reordered m default document document') (s : ObjectStore) :
    (read m default document' s).2 = (read m default document s).2 ∧
      ((∃ root, (read m default document s).1 = .ok root ∧
          (read m default document' s).1 = .ok root) ∨
        ∃ e e', (read m default document s).1 = .error e ∧
          (read m default document' s).1 = .error e' ∧ e.Alike e') := by
  have hdepth := h.depth_eq
  cases h with
  | refl _ _ =>
    cases hread : (read m default document s).1 with
    | ok root => exact ⟨rfl, .inl ⟨root, rfl, rfl⟩⟩
    | error e => exact ⟨rfl, .inr ⟨e, e, rfl, rfl, .same e⟩⟩
  | array _ _ => exact ⟨rfl, .inr ⟨_, _, rfl, rfl, .same _⟩⟩
  | @object _ members members' hdistinct hkeys hother howned =>
    have hsame := (Reordered.object hdistinct hkeys hother howned).sameMembers
    have hrun := readsAlike m (Json.object members).depth default members members' hsame ⟨s, []⟩
    simp only [read, ← hdepth]
    generalize readObject m (Json.object members).depth members default ⟨s, []⟩ = r,
      readObject m (Json.object members).depth members' default ⟨s, []⟩ = r' at hrun ⊢
    cases hrun with
    | ok root st => exact ⟨rfl, .inl ⟨root, rfl, rfl⟩⟩
    | error he st => exact ⟨rfl, .inr ⟨_, _, rfl, rfl, he⟩⟩

-- Which of two unknown members is complained about is a matter of the order.
example :
    (read libraryModel none (.object [("eClass", .string "urn:library#//Shelf"), ("color", .null),
      ("size", .null)]) .empty).1 = .error (.unknownFeature ⟨"urn:library", "Shelf"⟩ "color") ∧
    (read libraryModel none (.object [("eClass", .string "urn:library#//Shelf"), ("size", .null),
      ("color", .null)]) .empty).1 = .error (.unknownFeature ⟨"urn:library", "Shelf"⟩ "size") :=
  ⟨rfl, rfl⟩

theorem Reordered.of_forall₂ {items items' : List Json}
    (h : List.Forall₂ (Reordered m expected) items items') :
    Reordered m expected (.array items) (.array items') :=
  .array h.length_eq fun _ _ _ => of_forall₂_getElem? h

theorem Reordered.of_perm {members members' : JsonMembers}
    (hdistinct : (members.map Prod.fst).Nodup) (hperm : members'.Perm members) :
    Reordered m expected (.object members) (.object members') := by
  have hsame : ∀ key v v', (key, v) ∈ members → (key, v') ∈ members' → v = v' := by
    intro key v v' hv hv'
    have hv' := hperm.subset hv'
    rw [← Table.lookup_eq_some_iff hdistinct] at hv hv'
    exact Option.some.inj (hv.symm.trans hv')
  refine .object hdistinct (hperm.map _) (fun key v v' hv hv' _ => hsame key v v' hv hv') ?_
  intro key v v' f hv hv' _
  rw [hsame key v v' hv hv']
  exact .refl _ _

/-- A shelf that features the second of its books. -/
def tidyShelf : Json :=
  .object [
    ("eClass", .string "urn:library#//Shelf"),
    ("featured", .object [("$ref", .string "//@books.1")]),
    ("books", .array [
      .object [("eClass", .string "urn:library#//Book"), ("pages", .integer 7)],
      .object [("eClass", .string "urn:library#//Book"), ("label", .string "second")]])]

/-- The same shelf, with its own keys and those of its books the other way round. -/
def untidyShelf : Json :=
  .object [
    ("books", .array [
      .object [("pages", .integer 7), ("eClass", .string "urn:library#//Book")],
      .object [("label", .string "second"), ("eClass", .string "urn:library#//Book")]]),
    ("featured", .object [("$ref", .string "//@books.1")]),
    ("eClass", .string "urn:library#//Shelf")]

theorem reordered_shelf : Reordered libraryModel none tidyShelf untidyShelf := by
  refine .object (by decide) (by decide) ?_ ?_
  · intro key v v' hv hv' hc
    have hbooks : key ≠ "books" := by
      rintro rfl
      revert hc
      decide +kernel
    simp only [List.mem_cons, Prod.mk.injEq, List.not_mem_nil, or_false] at hv hv'
    rcases hv with ⟨rfl, rfl⟩ | ⟨rfl, rfl⟩ | ⟨rfl, rfl⟩
    · simpa [eq_comm] using hv'
    · simpa [eq_comm] using hv'
    · exact absurd rfl hbooks
  · intro key v v' f hv hv' _
    simp only [List.mem_cons, Prod.mk.injEq, List.not_mem_nil, or_false] at hv hv'
    rcases hv with ⟨rfl, rfl⟩ | ⟨rfl, rfl⟩ | ⟨rfl, rfl⟩
    · obtain rfl : v' = _ := by simpa using hv'
      exact .refl _ _
    · obtain rfl : v' = _ := by simpa using hv'
      exact .refl _ _
    · obtain rfl : v' = _ := by simpa using hv'
      exact .of_forall₂ (.cons (.of_perm (by decide) (.swap _ _ []))
        (.cons (.of_perm (by decide) (.swap _ _ [])) .nil))

theorem read_untidyShelf :
    Reordered libraryModel none tidyShelf untidyShelf ∧
      (read libraryModel none tidyShelf .empty).1.toOption = some 0 ∧
      (read libraryModel none untidyShelf .empty).2 = (read libraryModel none tidyShelf .empty).2 ∧
      ((∃ root, (read libraryModel none tidyShelf .empty).1 = .ok root ∧
          (read libraryModel none untidyShelf .empty).1 = .ok root) ∨
        ∃ e e', (read libraryModel none tidyShelf .empty).1 = .error e ∧
          (read libraryModel none untidyShelf .empty).1 = .error e' ∧ e.Alike e') :=
  ⟨reordered_shelf, by decide +kernel, read_reordered reordered_shelf .empty⟩

end ObjectDocument

end TreeInterchange
