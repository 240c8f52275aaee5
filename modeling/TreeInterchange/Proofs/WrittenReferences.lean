import Mathlib.Data.Nat.Find
import TreeInterchange.Proofs.DocumentObjects
import TreeInterchange.Proofs.ObjectDocumentReading

/-!
# Where written references lead

A document may hold any tree of a store, also one whose references leave it. A reference is
written as the way from the root down to its target if the root contains the target, and then
it is read as the image of the target or is dropped. A target that the root does not contain
is written as its way down in its own tree, and the reader follows this way from the root of
the document: the reference is dropped only if nothing is there.

Stores may be cyclic: nothing keeps an object from being stored below itself. Ways up are
therefore cut where they first meet the root.
-/

namespace TreeInterchange

namespace ObjectStore

variable {s u : ObjectStore} {root x y z : ObjectId}

/-- The container of the container and so on, `k` steps up. -/
def climb? (s : ObjectStore) : Nat → ObjectId → Option ObjectId
  | 0, x => some x
  | k + 1, x => (s.container? x).bind (s.climb? k)

theorem climb?_eq_wayUp (s : ObjectStore) (k : Nat) (x : ObjectId) :
    s.climb? k x = wayUp s.container? k x := by
  induction k generalizing x with
  | zero => rfl
  | succ k ih => exact congrArg _ (funext ih)

theorem climb?_add (i j : Nat) (x : ObjectId) :
    s.climb? (i + j) x = (s.climb? i x).bind (s.climb? j) := by
  simp only [climb?_eq_wayUp, wayUp_add]

theorem mem_containerChain_iff {n : Nat} :
    root ∈ s.containerChain n x ↔ ∃ k ≤ n, s.climb? k x = some root := by
  induction n generalizing x with
  | zero =>
    simp only [containerChain, List.mem_singleton, Nat.le_zero, exists_eq_left, climb?,
      Option.some.injEq]
    exact eq_comm
  | succ n ih =>
    constructor
    · intro h
      unfold containerChain at h
      split at h
      · rename_i owner howner
        rcases List.mem_cons.1 h with rfl | h
        · exact ⟨0, Nat.zero_le _, rfl⟩
        · obtain ⟨k, hk, hclimb⟩ := ih.1 h
          exact ⟨k + 1, by omega, by rw [climb?, howner, Option.bind_some, hclimb]⟩
      · rw [List.mem_singleton.1 h]
        exact ⟨0, Nat.zero_le _, rfl⟩
    · rintro ⟨k, hk, hclimb⟩
      unfold containerChain
      cases k with
      | zero =>
        obtain rfl := Option.some.inj hclimb
        split <;> simp
      | succ k =>
        obtain ⟨owner, howner, hrest⟩ := Option.bind_eq_some_iff.1 hclimb
        rw [howner]
        exact List.mem_cons_of_mem _ (ih.2 ⟨k, by omega, hrest⟩)

/-- The way up meets the root after `k` steps, and not before. -/
structure ClimbsFirst (s : ObjectStore) (root : ObjectId) (k : Nat) (x : ObjectId) : Prop where
  meets : s.climb? k x = some root
  first : ∀ i < k, s.climb? i x ≠ some root

theorem ClimbsFirst.le_size {k : Nat} (h : s.ClimbsFirst root k x) : k ≤ s.size := by
  have hup : ∀ y p, s.container? y = some p → y < s.size := by
    intro y p hp
    obtain ⟨c, hc, -⟩ := Option.map_eq_some_iff.1 hp
    exact lt_size_of_container hc
  obtain ⟨j, hj, -, hway⟩ := exists_wayUp_le hup (climb?_eq_wayUp s k x ▸ h.meets)
  rw [← climb?_eq_wayUp] at hway
  exact Nat.le_trans (Nat.le_of_not_lt fun hlt => h.first j hlt hway) hj

theorem exists_climbsFirst {k : Nat} (h : s.climb? k x = some root) :
    ∃ n, s.ClimbsFirst root n x := by
  classical
  have hex : ∃ k, s.climb? k x = some root := ⟨k, h⟩
  exact ⟨Nat.find hex, Nat.find_spec hex, fun i hi => Nat.find_min hex hi⟩

theorem isWithin_iff : s.isWithin root x = true ↔ ∃ k, s.climb? k x = some root := by
  rw [isWithin, decide_eq_true_eq, selfAndContainers, mem_containerChain_iff]
  constructor
  · rintro ⟨k, -, h⟩
    exact ⟨k, h⟩
  · rintro ⟨k, h⟩
    obtain ⟨n, hn⟩ := exists_climbsFirst h
    exact ⟨n, hn.le_size, hn.meets⟩

theorem isWithin_of_way (hs : s.Owned) {gs : List Segment}
    (h : gs.foldlM s.step? root = some x) : s.isWithin root x = true := by
  rw [isWithin_iff]
  induction gs generalizing root with
  | nil => exact ⟨0, Option.some.inj h ▸ rfl⟩
  | cons g gs ih =>
    rw [List.foldlM_cons] at h
    obtain ⟨z, hz, hrest⟩ := Option.bind_eq_some_iff.1 h
    obtain ⟨k, hk⟩ := ih hrest
    obtain ⟨feature, hin⟩ := mem_contents_iff.1 (mem_contents_of_step? hz)
    refine ⟨k + 1, ?_⟩
    rw [climb?_add, hk, Option.bind_some, climb?, container?, hs root feature z hin]
    rfl

theorem climb?_of_segmentsWithin {n : Nat} {gs : List Segment}
    (h : s.segmentsWithin root n x = some gs) : ∃ k, s.climb? k x = some root := by
  induction n generalizing x gs with
  | zero =>
    unfold segmentsWithin at h
    split at h
    · rename_i hx
      exact ⟨0, by rw [hx]; rfl⟩
    · cases h
  | succ n ih =>
    unfold segmentsWithin at h
    split at h
    · rename_i hx
      exact ⟨0, by rw [hx]; rfl⟩
    · obtain ⟨c, hc, h⟩ := Option.bind_eq_some_iff.1 h
      obtain ⟨g, -, h⟩ := Option.bind_eq_some_iff.1 h
      obtain ⟨ds, hds, -⟩ := Option.bind_eq_some_iff.1 h
      obtain ⟨k, hk⟩ := ih hds
      refine ⟨k + 1, ?_⟩
      rw [climb?, container?, hc, Option.map_some, Option.bind_some, hk]

/-- A name without the characters that fragment paths use. -/
def PlainName (name : String) : Prop :=
  '/' ∉ name.toList ∧ '.' ∉ name.toList ∧ '#' ∉ name.toList

instance (name : String) : Decidable (PlainName name) :=
  inferInstanceAs (Decidable (_ ∧ _ ∧ _))

/-- The features that objects within the root have values for have plain names. -/
def NamesPlain (s : ObjectStore) (root : ObjectId) : Prop :=
  ∀ x, s.isWithin root x = true → ∀ name v, s.value? x name = some v → PlainName name

theorem ClimbsFirst.hasWay (hs : s.Owned) (hl : s.Listed) (hnames : s.NamesPlain root) {k : Nat}
    (h : s.ClimbsFirst root k x) : s.HasWay root (fun g => PlainName g.feature) k x := by
  induction k generalizing x with
  | zero =>
    obtain rfl := Option.some.inj h.meets
    exact hasWay_root
  | succ k ih =>
    obtain ⟨p, hp, hrest⟩ := Option.bind_eq_some_iff.1 h.meets
    obtain ⟨⟨owner, feature⟩, hc, rfl⟩ := Option.map_eq_some_iff.1 hp
    have hway := ih ⟨hrest, fun i hi he =>
      h.first (i + 1) (by omega) (by rw [climb?, hp]; exact he)⟩
    have hin := hl owner feature x hc
    refine hway.step hs hin (fun he => h.first 0 (by omega) (by rw [he]; rfl)) ?_
    rintro g rfl -
    obtain ⟨v, hv, -⟩ := mem_contentsIn_iff.1 hin
    exact hnames owner (isWithin_iff.2 ⟨k, hrest⟩) _ v hv

/-- The ways down to `x` in one tree and to `y` in another are the same. -/
def IsImage (s : ObjectStore) (root : ObjectId) (u : ObjectStore) (r x y : ObjectId) : Prop :=
  ∃ gs : List Segment, gs.foldlM s.step? root = some x ∧ gs.foldlM u.step? r = some y

end ObjectStore

namespace ObjectDocument

variable {m : Metamodel} {s u : ObjectStore} {root r x y z : ObjectId}

/-- A target that the root contains is found at its image or not at all. -/
theorem isImage_of_resolve? (hs : s.Reachable) (hnames : s.NamesPlain root)
    (hx : s.isWithin root x = true)
    (h : u.resolve? r (fragmentOf (referenceText s root x)) = some z) :
    s.IsImage root u r x z := by
  obtain ⟨k, hk⟩ := ObjectStore.isWithin_iff.1 hx
  obtain ⟨n, hn⟩ := ObjectStore.exists_climbsFirst hk
  obtain ⟨gs, hway, hfold, hplain⟩ := hn.hasWay hs.owned hs.listed hnames
  have htext : referenceText s root x = Segment.renderPath gs := by
    simp [referenceText, ObjectStore.fragmentFrom?, ObjectStore.segments?, hway _ hn.le_size]
  have hfragment : fragmentOf (Segment.renderPath gs) = Segment.renderPath gs := by
    have hhash := Segment.not_mem_renderPath fun g hg => (hplain g hg).2.2
    simp [fragmentOf, Text.splitFirst, Text.cutFirst_eq_none '#' _ hhash]
  rw [htext, hfragment] at h
  obtain ⟨ds, hds, hz⟩ := Option.bind_eq_some_iff.1 h
  obtain rfl := Segment.eq_of_parsePath?_renderPath (fun g hg => (hplain g hg).1)
    (fun g hg => (hplain g hg).2.1) hds
  exact ⟨ds, hfold, hz⟩

theorem referenceText_of_not_within (hx : ¬ s.isWithin root x = true) :
    referenceText s root x = s.fragment x := by
  have hnone : s.segments? root x = none := by
    rw [Option.eq_none_iff_forall_ne_some]
    intro gs hgs
    exact hx (ObjectStore.isWithin_iff.2 (ObjectStore.climb?_of_segmentsWithin hgs))
  simp [referenceText, ObjectStore.fragmentFrom?, hnone]

theorem get?_writeWithin {k : Nat} {members : JsonMembers} {name : String} {v : FeatureValue}
    (h : writeWithin s root (k + 1) x = .object members) (hv : s.value? x name = some v)
    (hnull : v.isNull = false) : JsonMembers.get? members name =
      some (writeValue (writeWithin s root k) (reference s root) v) := by
  have hget := Table.get?_ofList (writtenMembers s root k x) name
  unfold writtenMembers at hget
  rw [Table.get?, Json.object.inj h, List.reverse_cons, List.lookup_append] at hget
  have hkeys : ((((s.get x).values.entries.filter (!·.2.isNull)).map fun e =>
      (e.1, writeValue (writeWithin s root k) (reference s root) e.2)).reverse.map
        Prod.fst).Nodup := by
    rw [List.map_reverse, List.nodup_reverse, List.map_map]
    exact (s.get x).values.nodup.sublist (List.filter_sublist.map Prod.fst)
  have hmem := Table.get?_eq_some_iff.1 hv
  have hlookup := (Table.lookup_eq_some_iff hkeys).2 (List.mem_reverse.2
    (List.mem_map.2 ⟨(name, v), List.mem_filter.2 ⟨hmem, by simp [hnull]⟩, rfl⟩))
  rw [hlookup] at hget
  exact hget

theorem ownedItems_writeValue {k i : Nat} {v : FeatureValue} {j : Json}
    (hx : v.children[i]? = some x)
    (hj : (ownedItems (writeValue (writeWithin s root k) (reference s root) v))[i]? = some j) :
    j = writeWithin s root k x := by
  cases v with
  | contained c =>
    obtain ⟨rfl, rfl⟩ : i = 0 ∧ c = x := by
      obtain ⟨hi, hc⟩ := List.getElem?_eq_some_iff.1 hx
      obtain rfl : i = 0 := by simpa [FeatureValue.children] using hi
      exact ⟨rfl, hc⟩
    rw [writeValue] at hj
    cases k with
    | zero => simp [writeWithin, ownedItems] at hj
    | succ k => exact (Option.some.inj hj).symm
  | containedMany ids =>
    replace hx : ids[i]? = some x := hx
    simp only [writeValue, ownedItems, List.getElem?_map, hx, Option.map_some] at hj
    exact (Option.some.inj hj).symm
  | _ => simp [FeatureValue.children] at hx

/-- The object `y` was read from what was written for `x`. -/
def ReadFrom (m : Metamodel) (s : ObjectStore) (root : ObjectId) (u : ObjectStore)
    (r x y : ObjectId) : Prop :=
  ∃ k depth b, ReadsObject m (LinksIn u r) u depth (writeWithin s root k x) y b

theorem ReadFrom.value (h : ReadFrom m s root u r x y) {name : String} {v w : FeatureValue}
    (hv : s.value? x name = some v) (hnull : v.isNull = false) (hw : u.value? y name = some w) :
    ∃ f k depth b, ValueRead m (LinksIn u r) u depth f
      (writeValue (writeWithin s root k) (reference s root) v) y b w := by
  obtain ⟨k, depth, b, ms, hms, hreads⟩ := h
  cases k with
  | zero => cases hms
  | succ k =>
    cases depth with
    | zero => exact hreads.elim
    | succ depth =>
      obtain ⟨-, f, j, -, -, -, hj, hvalue⟩ := hreads.value hw
      rw [get?_writeWithin hms hv hnull] at hj
      cases hj
      exact ⟨f, k, depth, b, hvalue⟩

/-- The same step leads from an object and its image to an object and its image. -/
theorem ReadFrom.step (h : ReadFrom m s root u r x y) {g : Segment} {x' y' : ObjectId}
    (hx : s.step? x g = some x') (hy : u.step? y g = some y') : ReadFrom m s root u r x' y' := by
  obtain ⟨v, hv, hx'⟩ := ObjectStore.step?_eq_some hx
  obtain ⟨w, hw, hy'⟩ := ObjectStore.step?_eq_some hy
  have hnull : v.isNull = false := by
    cases v with
    | null => simp [FeatureValue.children] at hx'
    | _ => rfl
  obtain ⟨f, k, depth, b, hvalue⟩ := h.value hv hnull hw
  obtain ⟨j, e, hj, -, -, hread⟩ := hvalue.owns hy'
  rw [ownedItems_writeValue hx' hj] at hread
  exact ⟨k, depth, e, hread⟩

theorem ReadFrom.of_way {x' y' : ObjectId} {gs : List Segment} (h : ReadFrom m s root u r x y)
    (hx : gs.foldlM s.step? x = some x') (hy : gs.foldlM u.step? y = some y') :
    ReadFrom m s root u r x' y' := by
  induction gs generalizing x y with
  | nil =>
    obtain rfl := Option.some.inj hx
    obtain rfl := Option.some.inj hy
    exact h
  | cons g gs ih =>
    rw [List.foldlM_cons] at hx hy
    obtain ⟨x₁, hx₁, hx⟩ := Option.bind_eq_some_iff.1 hx
    obtain ⟨y₁, hy₁, hy⟩ := Option.bind_eq_some_iff.1 hy
    exact ih (h.step hx₁ hy₁) hx hy

theorem forall₂_of_sublist_filterMap {α β : Type} {g : α → Option β} {as : List α} {bs : List β}
    (h : bs.Sublist (as.filterMap g)) :
    ∃ cs, cs.Sublist as ∧ List.Forall₂ (fun c b => g c = some b) cs bs := by
  induction as generalizing bs with
  | nil =>
    obtain rfl : bs = [] := by simpa using h
    exact ⟨[], List.Sublist.refl [], .nil⟩
  | cons a as ih =>
    cases hg : g a with
    | none =>
      rw [List.filterMap_cons_none hg] at h
      obtain ⟨cs, hcs, hall⟩ := ih h
      exact ⟨cs, hcs.cons a, hall⟩
    | some b =>
      rw [List.filterMap_cons_some hg] at h
      cases h with
      | cons _ h =>
        obtain ⟨cs, hcs, hall⟩ := ih h
        exact ⟨cs, hcs.cons a, hall⟩
      | cons_cons _ h =>
        obtain ⟨cs, hcs, hall⟩ := ih h
        exact ⟨a :: cs, hcs.cons_cons a, .cons hg hall⟩

theorem targets_writeReference {v : FeatureValue} {object : ObjectId → Json}
    (hv : (∃ t, v = .reference t) ∨ ∃ ts, v = .references ts) :
    targets (writeValue object (reference s root) v) = v.targets.map (referenceText s root) := by
  rcases hv with ⟨t, rfl⟩ | ⟨ts, rfl⟩
  · have hone : MetamodelDocument.reference? (reference s root t) = _ := reference?_reference t
    simp only [writeValue, reference, targets] at hone ⊢
    simp [hone, FeatureValue.targets]
  · exact targets_references ts

theorem targets_referenceValue (many : Bool) (ids : List ObjectId) :
    (referenceValue many ids).targets.Sublist ids := by
  cases many with
  | true => exact List.Sublist.refl ids
  | false =>
    cases ids with
    | nil => exact List.Sublist.refl []
    | cons id ids => exact (List.nil_sublist ids).cons_cons id

/-- What the image of a reference refers to was found by following the texts for its targets. -/
theorem ReadFrom.targets (h : ReadFrom m s root u r x y) {name : String} {v w : FeatureValue}
    (hv : s.value? x name = some v) (href : (∃ t, v = .reference t) ∨ ∃ ts, v = .references ts)
    (hw : u.value? y name = some w) :
    w.targets.Sublist (v.targets.filterMap fun t =>
      u.resolve? r (fragmentOf (referenceText s root t))) := by
  have hnull : v.isNull = false := by
    rcases href with ⟨t, rfl⟩ | ⟨ts, rfl⟩ <;> rfl
  obtain ⟨f, k, depth, b, hvalue⟩ := h.value hv hnull hw
  cases hk : f.kind with
  | plain =>
    have hholds := holds_of_plainValue hk (hvalue.plain hk)
    have hnone : w.targets = [] := by
      cases w with
      | reference t => simp [Feature.holds, hk, FeatureType.stores] at hholds
      | references ts => simp [Feature.holds, hk, FeatureType.stores] at hholds
      | _ => rfl
    rw [hnone]
    exact List.nil_sublist _
  | containment =>
    obtain ⟨a, c, -, -, howns⟩ := hvalue.owned hk
    have hnone : w.targets = [] := by
      rcases (howns.children fun _ _ _ => ReadsObject.lt).2.2 with rfl | ⟨-, ids, rfl⟩ | ⟨-, c, rfl⟩
      · rfl
      · rfl
      · rfl
    rw [hnone]
    exact List.nil_sublist _
  | reference =>
    rw [hvalue.reference hk, targets_writeReference href]
    refine (targets_referenceValue f.isMany _).trans ?_
    rw [List.filterMap_map, Function.comp_def]

/-- Written references that are read again. What the image of an object refers to comes, in this
order, from targets of the object, and it is the image of the target exactly if the root contains
the target. Of a target elsewhere in the store only its way down from its own root is kept, so
whatever lies at the end of the same way from the new root takes its place. -/
theorem isImage_target_iff_isWithin (m : Metamodel) {s s' u : ObjectStore} {root r x y : ObjectId}
    (hs : s.Reachable) (hnames : s.NamesPlain root)
    (hread : read m none (write s root) s' = (.ok r, u)) (hxy : s.IsImage root u r x y)
    {name : String} {v w : FeatureValue} (hv : s.value? x name = some v)
    (href : (∃ t, v = .reference t) ∨ ∃ ts, v = .references ts) (hw : u.value? y name = some w) :
    ∃ ts, ts.Sublist v.targets ∧ List.Forall₂ (fun t z =>
      (s.IsImage root u r t z ↔ s.isWithin root t = true) ∧
      (¬ s.isWithin root t = true → u.resolve? r (fragmentOf (s.fragment t)) = some z))
      ts w.targets := by
  obtain ⟨-, -, -, hreads⟩ := read_reads hread
  have hroot : ReadFrom m s root u r root r := ⟨s.size + 1, _, _, hreads⟩
  obtain ⟨gs, hx, hy⟩ := hxy
  obtain ⟨ts, hsub, hall⟩ := forall₂_of_sublist_filterMap
    ((hroot.of_way hx hy).targets hv href hw)
  refine ⟨ts, hsub, hall.imp fun t z hz => ⟨⟨?_, fun hin => ?_⟩, fun hout => ?_⟩⟩
  · rintro ⟨ds, hds, -⟩
    exact ObjectStore.isWithin_of_way hs.owned hds
  · exact isImage_of_resolve? hs hnames hin hz
  · rwa [referenceText_of_not_within hout] at hz

/-- Links that refer to one another and contain one another. -/
def linkModel : Metamodel :=
  Metamodel.empty.add ((Package.ofName "chain" "urn:chain").addAll [
    .classDecl ⟨"Link", false, false, [],
      [.single "tail" .containment (.ofClass ⟨"urn:chain", "Link"⟩),
        (Feature.single "others" .reference (.ofClass ⟨"urn:chain", "Link"⟩)).many]⟩])

/-- A link that contains the second one and refers to it and to the third, which it does not
contain. -/
def tailedLinks : ObjectStore :=
  let s := ((ObjectStore.empty.newObject ⟨"urn:chain", "Link"⟩).2.newObject ⟨"urn:chain", "Link"⟩).2
  ((s.newObject ⟨"urn:chain", "Link"⟩).2.set 0 "tail" (.contained 1)).set 0 "others"
    (.references [1, 2])

def tailedCopy : ObjectStore := (read linkModel none (write tailedLinks 0) .empty).2

theorem reachable_tailedLinks : tailedLinks.Reachable := by
  have h1 := ObjectStore.Reachable.empty.newObject ⟨"urn:chain", "Link"⟩ (by decide)
  have h2 := h1.newObject ⟨"urn:chain", "Link"⟩ (by decide)
  have h3 := h2.newObject ⟨"urn:chain", "Link"⟩ (by decide)
  have h4 := h3.set 0 "tail" (.contained 1) (by decide) (by decide)
  exact h4.set 0 "others" (.references [1, 2]) (by decide) (by decide)

theorem read_tailedLinks :
    read linkModel none (write tailedLinks 0) .empty = (.ok 0, tailedCopy) := by
  have hroot : (read linkModel none (write tailedLinks 0) .empty).1.toOption = some 0 := by
    decide +kernel
  exact Prod.ext (StatefulRuns.toOption_eq_some_iff.1 hroot) (by rw [tailedCopy])

/-- Of the two targets the contained one is read as its image, the other one is not. -/
theorem isImage_target_iff_isWithin_tailed :
    tailedLinks.Reachable ∧ tailedLinks.NamesPlain 0 ∧
    read linkModel none (write tailedLinks 0) .empty = (.ok 0, tailedCopy) ∧
    tailedLinks.IsImage 0 tailedCopy 0 0 0 ∧
    tailedLinks.value? 0 "others" = some (.references [1, 2]) ∧
    (tailedCopy.value? 0 "others").map FeatureValue.targets = some [1, 0] ∧
    tailedLinks.IsImage 0 tailedCopy 0 1 1 ∧ ¬ tailedLinks.IsImage 0 tailedCopy 0 2 0 := by
  have hnames : tailedLinks.NamesPlain 0 := by
    have hall : ∀ x < tailedLinks.size, ∀ name ∈ (tailedLinks.get x).values.keys,
        ObjectStore.PlainName name := by decide
    intro x _ name v hv
    exact hall x (ObjectStore.lt_size_of_value? hv) name (Table.mem_keys_iff.2 ⟨v, hv⟩)
  have hroot : tailedLinks.IsImage 0 tailedCopy 0 0 0 := ⟨[], rfl, rfl⟩
  have hv : tailedLinks.value? 0 "others" = some (.references [1, 2]) := rfl
  have htargets : (tailedCopy.value? 0 "others").map FeatureValue.targets = some [1, 0] := by
    decide +kernel
  obtain ⟨w, hw, hzs⟩ := Option.map_eq_some_iff.1 htargets
  obtain ⟨ts, hsub, hall⟩ := isImage_target_iff_isWithin linkModel reachable_tailedLinks hnames
    read_tailedLinks hroot hv (.inr ⟨_, rfl⟩) hw
  rw [hzs] at hall
  obtain rfl : ts = [1, 2] := hsub.eq_of_length hall.length_eq
  obtain ⟨⟨hinside, -⟩, hall⟩ := List.forall₂_cons.1 hall
  obtain ⟨⟨houtside, -⟩, -⟩ := List.forall₂_cons.1 hall
  refine ⟨reachable_tailedLinks, hnames, read_tailedLinks, hroot, hv, htargets,
    hinside.2 (by decide), fun himage => ?_⟩
  exact absurd (houtside.1 himage) (by decide)

def chainModel : Metamodel :=
  Metamodel.empty.add ((Package.ofName "chain" "urn:chain").addAll [
    .classDecl ⟨"Link", false, false, [],
      [.single "next" .reference (.ofClass ⟨"urn:chain", "Link"⟩)]⟩])

/-- Two links without a container, of which the first refers to the second. -/
def chain : ObjectStore :=
  ((ObjectStore.empty.newObject ⟨"urn:chain", "Link"⟩).2.newObject ⟨"urn:chain", "Link"⟩).2.set 0
    "next" (.reference 1)

def openLink : ObjectStore :=
  (ObjectStore.empty.newObject ⟨"urn:chain", "Link"⟩).2.set 0 "next" .null

def selfLink : ObjectStore := openLink.set 0 "next" (.reference 0)

theorem reachable_chain : chain.Reachable := by
  have h1 := ObjectStore.Reachable.empty.newObject ⟨"urn:chain", "Link"⟩ (by decide)
  have h2 := h1.newObject ⟨"urn:chain", "Link"⟩ (by decide)
  exact h2.set 0 "next" (.reference 1) (by decide) (by decide)

theorem read_chain : read chainModel none (write chain 0) .empty = (.ok 0, selfLink) := by
  let members : JsonMembers :=
    [("eClass", .string "urn:chain#//Link"), ("next", .object [("$ref", .string "/")])]
  let next : Feature := .single "next" .reference (.ofClass ⟨"urn:chain", "Link"⟩)
  have hwrite : write chain 0 = .object members := rfl
  have hclass : classOf members none = .ok ⟨"urn:chain", "Link"⟩ := rfl
  have hfeatures : chainModel.features ⟨"urn:chain", "Link"⟩ = .ok [next] := rfl
  have hstray : strayKey? members [next] = none := rfl
  have hobject : readObject chainModel 2 members none ⟨.empty, []⟩ =
      .ok 0 ⟨openLink, [⟨0, "next", false, ["/"]⟩]⟩ := by
    rw [readObject]
    simp only [lift, hclass, hfeatures, hstray, bind, EStateM.bind]
    rfl
  have hresolve : resolvePending 0 openLink ⟨0, "next", false, ["/"]⟩ = selfLink := rfl
  have hdepth : (Json.object members).depth = 2 := rfl
  rw [hwrite, read, hdepth, hobject]
  simp only [List.foldl, hresolve]

/-- The document of the first link refers to its own root, which is not the image of the target. -/
theorem chain_retargeted :
    read chainModel none (write chain 0) .empty = (.ok 0, selfLink) ∧
    chain.IsImage 0 selfLink 0 0 0 ∧ chain.value? 0 "next" = some (.reference 1) ∧
    selfLink.value? 0 "next" = some (.reference 0) ∧ ¬ chain.IsImage 0 selfLink 0 1 0 := by
  refine ⟨read_chain, ⟨[], rfl, rfl⟩, rfl, rfl, fun himage => ?_⟩
  obtain ⟨gs, hgs, -⟩ := himage
  have hin := ObjectStore.isWithin_of_way reachable_chain.owned hgs
  exact absurd hin (by decide)

end ObjectDocument

end TreeInterchange
