import TreeInterchange.Proofs.NodeImages
import TreeInterchange.Proofs.ObjectImages

/-!
# References that leave the tree

A conversion drops the references that leave the tree, or refuses them if it is asked to. The two
ways to convert have the first pass in common, which makes the images and does not look at the
option; they differ in the second pass, which settles the references. So the strict conversion
is the lenient one where all references stay in the tree, and fails where one leaves it.

From objects to nodes, the tree is what the conversion goes through: the objects in features
that are carried over. A position is contained in an object but has no node, so a reference to
it leaves this tree.
-/

namespace TreeInterchange

/-- A strict run refuses what is not within bounds and otherwise does what the lenient run does,
which does not know this refusal. -/
structure OnlyRefuses {α τ : Type} (within : Prop) (lenient strict : Except ConversionError α × τ) :
    Prop where
  never : ∀ e, lenient.1 = .error e → ¬ e.IsDangling
  succeeds : (∃ a, strict.1 = .ok a) ↔ (∃ a, lenient.1 = .ok a) ∧ within
  same : (∃ a, strict.1 = .ok a) → strict = lenient
  refused : (∃ a, lenient.1 = .ok a) → ¬ within → ∃ e, strict.1 = .error e ∧ e.IsDangling

namespace StatefulRuns

section Passes

variable {ε σ τ π α : Type}

/-- A pass, and then one step for each entry that it has left. -/
def twoPasses (first : EStateM ε σ α) (left : σ → List π) (step : π → EStateM ε σ Unit) :
    EStateM ε σ α := do
  let a ← first
  (left (← get)).forM step
  return a

/-- The result of a run, and what is seen of the state in any case. -/
def observed (view : σ → τ) : EStateM.Result ε σ α → Except ε α × τ
  | .ok a t => (.ok a, view t)
  | .error e t => (.error e, view t)

variable {first : EStateM ε σ α} {left : σ → List π} {step : π → EStateM ε σ Unit} {s t u : σ}
  {a : α} {e : ε}

theorem twoPasses_ok (h : first s = .ok a t) (hstep : (left t).forM step t = .ok () u) :
    twoPasses first left step s = .ok a u :=
  (bind_ok h).trans (bind_ok (x := (left t).forM step) hstep)

theorem twoPasses_error (h : first s = .ok a t) (hstep : (left t).forM step t = .error e u) :
    twoPasses first left step s = .error e u :=
  (bind_ok h).trans (bind_error (x := (left t).forM step) hstep)

theorem of_observed_ok {view : σ → τ} {r : τ}
    (h : observed view (twoPasses first left step s) = (.ok a, r)) :
    ∃ t u, first s = .ok a t ∧ (left t).forM step t = .ok () u ∧ r = view u := by
  cases hrun : first s with
  | error e t =>
    have hfails : twoPasses first left step s = .error e t := bind_error hrun
    rw [hfails] at h
    cases h
  | ok b t =>
    cases hstep : (left t).forM step t with
    | error e u =>
      rw [twoPasses_error hrun hstep] at h
      cases h
    | ok _ u =>
      rw [twoPasses_ok hrun hstep] at h
      cases h
      exact ⟨t, u, rfl, hstep, rfl⟩

end Passes

/-- Where the first pass leaves entries that the lenient steps settle and of which the strict steps
refuse the bad ones, the two runs differ just if there are bad entries. -/
theorem onlyRefuses_twoPasses {σ τ π α : Type} {first : EStateM ConversionError σ α}
    {left : σ → List π} {step strict : π → EStateM ConversionError σ Unit} {within : Prop} {s : σ}
    (view : σ → τ)
    (h : EndsClean (fun _ t => ∃ bad I u, Refuses bad ConversionError.IsDangling I step strict ∧
      I t ∧ (left t).forM step t = .ok () u ∧ ((∀ q ∈ left t, ¬ bad q) ↔ within)) first s) :
    OnlyRefuses within (observed view (twoPasses first left step s))
      (observed view (twoPasses first left strict s)) := by
  cases hrun : first s with
  | error e t =>
    have hfails : ∀ st : π → EStateM ConversionError σ Unit,
        twoPasses first left st s = .error e t := fun _ => bind_error hrun
    rw [hfails, hfails]
    refine ⟨?_, by simp [observed], by simp [observed], by simp [observed]⟩
    rintro e' ⟨⟩
    exact h.of_error hrun
  | ok a t =>
    obtain ⟨bad, I, u, hrefuses, hI, hstep, hwithin⟩ := h.of_ok hrun
    rw [twoPasses_ok hrun hstep]
    by_cases hgood : within
    · have hsame : (left t).forM strict t = .ok () u := by
        rw [hrefuses.forM_eq hI (hwithin.2 hgood), hstep]
      rw [twoPasses_ok hrun hsame]
      exact ⟨by simp [observed], by simp [observed, hgood], fun _ => rfl,
        fun _ hnot => absurd hgood hnot⟩
    · have hbad : ∃ q ∈ left t, bad q := by
        by_contra hnone
        exact hgood (hwithin.1 fun q hq hqb => hnone ⟨q, hq, hqb⟩)
      obtain ⟨e, u', herror, hdangling⟩ := hrefuses.forM_error hI hstep hbad
      rw [twoPasses_error hrun herror]
      exact ⟨by simp [observed], by simp [observed, hgood], by simp [observed],
        fun _ _ => ⟨e, rfl, hdangling⟩⟩

end StatefulRuns

open StatefulRuns ConversionLog

/-- The references that the tree of a node holds stay in the tree. -/
def Forest.ReferencesWithin (f : Forest) (n : NodeId) : Prop :=
  ∀ y ∈ f.walk n, ∀ name v, f.slot? y name = some v → ∀ d ∈ v.targets, d ∈ f.walk n

namespace ToObjects

variable {f : Forest} {m : Metamodel} {n : NodeId} {s : ObjectStore} {st : State}

theorem convert_options (positions strict : Bool) (k : Nat) :
    convert f m ⟨positions, strict⟩ k = convert f m ⟨positions, false⟩ k := by
  induction k with
  | zero => rfl
  | succ k ih =>
    funext y
    simp only [convert, ih]
    rfl

theorem found_of_not_dangles (positions : Bool) {created : Table NodeId ObjectId} {q : Pending}
    (h : ¬ Dangles created q.targets) :
    found ⟨positions, true⟩ created q = found ⟨positions, false⟩ created q := by
  rw [← any_not_contains_iff, Bool.not_eq_true] at h
  simp only [found, h, Bool.and_false]

theorem found_of_dangles (positions : Bool) {created : Table NodeId ObjectId} {q : Pending}
    (h : Dangles created q.targets) :
    found ⟨positions, true⟩ created q = .error (.danglingReference q.type.render q.feature) := by
  rw [← any_not_contains_iff] at h
  simp only [found, h, Bool.and_true, if_true]

theorem refuses_settle (positions : Bool) (created : Table NodeId ObjectId) :
    Refuses (Dangles created ·.targets) ConversionError.IsDangling (fun st => st.created = created)
      (settle ⟨positions, false⟩) (settle ⟨positions, true⟩) where
  kept {q st st'} hst hrun := by
    rw [settle_lenient] at hrun
    cases hrun
    exact hst
  same {q st} hst hgood := by
    subst hst
    have hget : (get : Convert State) st = .ok st st := rfl
    unfold settle
    rw [bind_ok hget, bind_ok hget, found_of_not_dangles positions hgood]
  refused {q st} hst hbad := by
    subst hst
    have hget : (get : Convert State) st = .ok st st := rfl
    refine ⟨.danglingReference q.type.render q.feature, st, ?_, trivial⟩
    unfold settle
    rw [bind_ok hget, found_of_dangles positions hbad]
    rfl

/-- No entry dangles just when all references of the tree stay in it. -/
theorem Recorded.not_dangles_iff (h : Recorded m f (f.walk n) ⟨s, .empty, []⟩ st) :
    (∀ q ∈ st.pending, ¬ Dangles st.created q.targets) ↔ f.ReferencesWithin n := by
  have hgains : Gains Pending.owner (Entry m f) (f.walk n) ⟨.empty, [], s.size⟩ st.log := h.gains
  refine (hgains.not_dangles_iff Pending.targets).trans ⟨fun hall y hy name v hv d hd => ?_, ?_⟩
  · have href : v.isReference = true := by cases v <;> simp_all [Value.targets, Value.isReference]
    obtain ⟨o, ho, -⟩ := hgains.new y hy
    have hpic := h.pictured y hy o ho
    obtain ⟨g, hg, hk⟩ := hpic.features name v trivial hv href
    exact hall y hy ⟨st.log.image y, _, name, g.isMany, v.targets⟩ rfl
      ⟨v, _, g, hv, href, hpic.type, hg, hk, rfl⟩ d hd
  · rintro hwithin z hz q - ⟨v, c, g, hv, -, -, -, -, hq⟩ d hd
    rw [hq] at hd
    exact hwithin z hz q.feature v hv d hd

end ToObjects

namespace Forest

variable {f : Forest} {n : NodeId}

theorem toObjects_eq_twoPasses (m : Metamodel) (positions strict : Bool) (s : ObjectStore) :
    f.toObjects n m ⟨positions, strict⟩ s = observed ToObjects.State.store
      (twoPasses (ToObjects.convert f m ⟨positions, false⟩ (f.size + 1) n) ToObjects.State.pending
        (ToObjects.settle ⟨positions, strict⟩) ⟨s, .empty, []⟩) := by
  have htree : ToObjects.convertTree f m ⟨positions, strict⟩ n =
      twoPasses (ToObjects.convert f m ⟨positions, strict⟩ (f.size + 1) n) ToObjects.State.pending
        (ToObjects.settle ⟨positions, strict⟩) := rfl
  rw [← ToObjects.convert_options positions strict, ← htree, toObjects]
  cases ToObjects.convertTree f m ⟨positions, strict⟩ n ⟨s, .empty, []⟩ <;> rfl

theorem toObjects_onlyRefuses (hf : f.IsForest) (hn : n < f.size) (m : Metamodel) (positions : Bool)
    (s : ObjectStore) : OnlyRefuses (f.ReferencesWithin n) (f.toObjects n m ⟨positions, false⟩ s)
      (f.toObjects n m ⟨positions, true⟩ s) := by
  rw [toObjects_eq_twoPasses, toObjects_eq_twoPasses]
  refine onlyRefuses_twoPasses _ ((ToObjects.clean_recorded hf hn _ _).imp fun o st h => ?_)
  obtain ⟨t, hrun, -⟩ := h.recorded.settles positions
  exact ⟨_, _, _, ToObjects.refuses_settle positions st.created, rfl, hrun,
    h.recorded.not_dangles_iff⟩

theorem images_toObjects (hf : f.IsForest) (hn : n < f.size) {m : Metamodel} {positions : Bool}
    {s t : ObjectStore} {root : ObjectId}
    (h : f.toObjects n m ⟨positions, false⟩ s = (.ok root, t)) :
    ∃ image, image n = root ∧ ToObjects.Images f m n t image := by
  rw [toObjects_eq_twoPasses] at h
  obtain ⟨st, u, hfirst, hsettle, rfl⟩ := of_observed_ok h
  have hregistered := (ToObjects.clean_recorded hf hn _ _).of_ok hfirst
  obtain ⟨t, hrun, himages⟩ := hregistered.recorded.settles positions
  rw [hrun] at hsettle
  cases hsettle
  exact ⟨_, image_eq hregistered.image, himages⟩

end Forest

/-- The references that the carried tree of an object holds in features that are carried over stay
in the tree. -/
def ObjectStore.ReferencesWithin (s : ObjectStore) (m : Metamodel) (catalog : TypeCatalog)
    (x : ObjectId) : Prop :=
  ∀ y ∈ s.carriedTree m catalog x, ∀ name v, ToNodes.carries m catalog (s.get y).type name = true →
    s.value? y name = some v → ∀ d ∈ v.targets, d ∈ s.carriedTree m catalog x

namespace ToNodes

variable {s : ObjectStore} {m : Metamodel} {catalog : TypeCatalog} {x : ObjectId} {f : Forest}
  {st : State}

theorem convert_options (positions strict : Bool) (k : Nat) :
    convert s m catalog ⟨positions, strict⟩ k = convert s m catalog ⟨positions, false⟩ k := by
  induction k with
  | zero => rfl
  | succ k ih =>
    funext y
    simp only [convert, ih]
    rfl

theorem found_of_not_dangles (positions : Bool) {created : Table ObjectId NodeId} {q : Pending}
    (h : ¬ Dangles created q.targets) :
    found ⟨positions, true⟩ created q = found ⟨positions, false⟩ created q := by
  rw [← any_not_contains_iff, Bool.not_eq_true] at h
  simp only [found, h, Bool.and_false]

theorem found_of_dangles (positions : Bool) {created : Table ObjectId NodeId} {q : Pending}
    (h : Dangles created q.targets) :
    found ⟨positions, true⟩ created q =
      .error (.danglingReference q.type.name.render q.name) := by
  rw [← any_not_contains_iff] at h
  simp only [found, h, Bool.and_true, if_true]

theorem created_edit {e : Edit Unit} {created : Table ObjectId NodeId}
    (hst : st.created = created) :
    Ends (fun _ => True) (fun _ st' => st'.created = created) (edit e) st := by
  cases he : e st.forest with
  | ok a g => exact ends_ok (edit_ok he) hst
  | error err g =>
    exact ends_error (edit_error he) trivial

theorem refuses_settle (positions : Bool) (created : Table ObjectId NodeId) :
    Refuses (Dangles created ·.targets) ConversionError.IsDangling (fun st => st.created = created)
      (settle ⟨positions, false⟩) (settle ⟨positions, true⟩) where
  kept {q st st'} hst hrun := by
    have hkept : Ends (fun _ => True) (fun _ st' => st'.created = created)
        (settle ⟨positions, false⟩ q) st := by
      unfold settle
      refine ends_bind_ok rfl (ends_bind_ok rfl ?_)
      split
      · exact Ends.forM hst fun id _ st' h => created_edit h
      · exact created_edit hst
    exact hkept.of_ok hrun
  same {q st} hst hgood := by
    subst hst
    have hget : (get : Convert State) st = .ok st st := rfl
    unfold settle
    rw [bind_ok hget, bind_ok hget, found_of_not_dangles positions hgood]
  refused {q st} hst hbad := by
    subst hst
    have hget : (get : Convert State) st = .ok st st := rfl
    refine ⟨.danglingReference q.type.name.render q.name, st, ?_, trivial⟩
    unfold settle
    rw [bind_ok hget, found_of_dangles positions hbad]
    rfl

/-- No entry dangles just when all references of the carried tree stay in it. -/
theorem Recorded.not_dangles_iff
    (h : Recorded m catalog s (s.carriedTree m catalog x) ⟨f, .empty, []⟩ st) :
    (∀ q ∈ st.pending, ¬ Dangles st.created q.targets) ↔ s.ReferencesWithin m catalog x := by
  have hgains : Gains Pending.node (Entry m catalog s) (s.carriedTree m catalog x)
      ⟨.empty, [], f.size⟩ st.log := h.gains
  refine (hgains.not_dangles_iff Pending.targets).trans
    ⟨fun hall y hy name v hcarried hv d hd => ?_, ?_⟩
  · have href : v.isReference = true := by
      cases v <;> simp_all [FeatureValue.targets, FeatureValue.isReference]
    obtain ⟨a, ha, -⟩ := hgains.new y hy
    have hpic := h.pictured y hy a ha
    obtain ⟨hpos, p, hp⟩ := (carries_iff hpic.type).1 hcarried
    have hk := hpic.features name v p trivial hpos hv href hp
    exact hall y hy ⟨st.log.image y, _, name, v.targets⟩ rfl
      ⟨v, p, hv, href, hpos, hpic.type, hp, hk, rfl⟩ d hd
  · rintro hwithin z hz q - ⟨v, p, hv, -, hpos, ht, hp, -, htargets⟩ d hd
    rw [htargets] at hd
    exact hwithin z hz q.name v ((carries_iff ht).2 ⟨hpos, p, hp⟩) hv d hd

end ToNodes

namespace ObjectStore

variable {s : ObjectStore} {x : ObjectId} {m : Metamodel} {catalog : TypeCatalog}

theorem toNodes_eq_twoPasses (m : Metamodel) (catalog : TypeCatalog) (positions strict : Bool)
    (f : Forest) :
    s.toNodes x m catalog ⟨positions, strict⟩ f = observed ToNodes.State.forest
      (twoPasses (ToNodes.convert s m catalog ⟨positions, false⟩ (s.size + 1) x)
        ToNodes.State.pending (ToNodes.settle ⟨positions, strict⟩) ⟨f, .empty, []⟩) := by
  have htree : ToNodes.convertTree s m catalog ⟨positions, strict⟩ x =
      twoPasses (ToNodes.convert s m catalog ⟨positions, strict⟩ (s.size + 1) x)
        ToNodes.State.pending (ToNodes.settle ⟨positions, strict⟩) := rfl
  rw [← ToNodes.convert_options positions strict, ← htree, toNodes]
  cases ToNodes.convertTree s m catalog ⟨positions, strict⟩ x ⟨f, .empty, []⟩ <;> rfl

theorem toNodes_onlyRefuses (hs : s.Owned) (honce : s.ListsOnce) (hx : x < s.size) (m : Metamodel)
    (catalog : TypeCatalog) (positions : Bool) (f : Forest) :
    OnlyRefuses (s.ReferencesWithin m catalog x) (s.toNodes x m catalog ⟨positions, false⟩ f)
      (s.toNodes x m catalog ⟨positions, true⟩ f) := by
  rw [toNodes_eq_twoPasses, toNodes_eq_twoPasses]
  refine onlyRefuses_twoPasses _ ((ToNodes.clean_recorded hs honce hx _ _).imp fun a st h => ?_)
  obtain ⟨g, hrun, -⟩ := h.recorded.settles positions
  exact ⟨_, _, _, ToNodes.refuses_settle positions st.created, rfl, hrun,
    h.recorded.not_dangles_iff⟩

theorem images_toNodes (hs : s.Owned) (honce : s.ListsOnce) (hx : x < s.size) {positions : Bool}
    {f g : Forest} {root : NodeId}
    (h : s.toNodes x m catalog ⟨positions, false⟩ f = (.ok root, g)) :
    ∃ image, image x = root ∧ ToNodes.Images s m catalog x g image := by
  rw [toNodes_eq_twoPasses] at h
  obtain ⟨st, u, hfirst, hsettle, rfl⟩ := of_observed_ok h
  have hregistered := (ToNodes.clean_recorded hs honce hx _ _).of_ok hfirst
  obtain ⟨g, hrun, himages⟩ := hregistered.recorded.settles positions
  rw [hrun] at hsettle
  cases hsettle
  exact ⟨_, image_eq hregistered.image, himages⟩

end ObjectStore

/-- The option to fail on references that leave the tree only adds this failure, in both
directions. Without it, no conversion fails for such a reference, and references go to the images
of their targets in the tree. -/
theorem failOnDangling_onlyRefuses :
    (∀ (f : Forest) (n : NodeId) (m : Metamodel) (positions : Bool) (s : ObjectStore),
      f.Reachable → n < f.size →
      OnlyRefuses (f.ReferencesWithin n) (f.toObjects n m ⟨positions, false⟩ s)
        (f.toObjects n m ⟨positions, true⟩ s) ∧
      ∀ root t, f.toObjects n m ⟨positions, false⟩ s = (.ok root, t) →
        ∃ image, image n = root ∧ ToObjects.Images f m n t image) ∧
    ∀ (s : ObjectStore) (x : ObjectId) (m : Metamodel) (catalog : TypeCatalog) (positions : Bool)
      (f : Forest), s.Reachable → s.ListsOnce → x < s.size →
      OnlyRefuses (s.ReferencesWithin m catalog x) (s.toNodes x m catalog ⟨positions, false⟩ f)
        (s.toNodes x m catalog ⟨positions, true⟩ f) ∧
      ∀ root g, s.toNodes x m catalog ⟨positions, false⟩ f = (.ok root, g) →
        ∃ image, image x = root ∧ ToNodes.Images s m catalog x g image := by
  constructor
  · intro f n m positions s hf hn
    exact ⟨Forest.toObjects_onlyRefuses hf.isForest hn m positions s,
      fun root t => Forest.images_toObjects hf.isForest hn⟩
  · intro s x m catalog positions f hs honce hx
    exact ⟨ObjectStore.toNodes_onlyRefuses hs.owned honce hx m catalog positions f,
      fun root g => ObjectStore.images_toNodes hs.owned honce hx⟩

section Notes

/-- Notes have parts and refer to other notes, and to a position that they are about. -/
def noteModel : Metamodel :=
  Metamodel.initial.add ((Package.ofName "sample" "urn:sample").addAll [
    .classDecl ⟨"Note", false, false, [.ast "ASTNode"],
      [(Feature.single "parts" .containment (.ofClass ⟨"urn:sample", "Note"⟩)).many,
        (Feature.single "links" .reference (.ofClass ⟨"urn:sample", "Note"⟩)).many,
        .single "about" .reference (.ofClass (.ast "Position"))]⟩])

def noteType : NodeType :=
  { NodeType.ofName ⟨"sample", "Note"⟩ with
    properties := [⟨"parts", .child, .any, true, none⟩, ⟨"links", .reference, .any, true, none⟩,
      ⟨"about", .reference, .any, false, none⟩] }

def noteCatalog : TypeCatalog := TypeCatalog.initial.put noteType

/-- Of the notes in a note, the first has a part, and links to it twice, to the note above, to its
neighbour and to itself. -/
def notesRun : List Forest.Operation :=
  [.newNode noteType, .newNode noteType, .newNode noteType, .newNode noteType,
    .setChildren 0 "parts" [1, 2], .setChildren 1 "parts" [3],
    .setProperty 1 "links" (.references [3, 0, 3, 2, 1]), .setReference 1 "about" (some 2)]

def notes : Forest := notesRun.foldl (fun f op => op.edit.stateAfter f) Forest.empty

theorem reachable_notes : notes.Reachable :=
  Forest.Reachable.empty.after notesRun (by decide) (by decide)

def noteClass : ClassifierRef := ⟨"urn:sample", "Note"⟩

/-- A note with a part, which links to it, to a note outside and to itself. -/
def linkedNotes : ObjectStore :=
  let s := ((ObjectStore.empty.newObject noteClass).2.newObject noteClass).2
  ((s.newObject noteClass).2.set 0 "parts" (.containedMany [1])).set 0 "links"
    (.references [1, 2, 0])

theorem reachable_linkedNotes : linkedNotes.Reachable := by
  have two := (ObjectStore.Reachable.empty.newObject noteClass (by decide)).newObject noteClass
    (by decide)
  have parted := (two.newObject noteClass (by decide)).set 0 "parts" (.containedMany [1])
    (by decide) (by decide)
  exact parted.set 0 "links" (.references [1, 2, 0]) (by decide) (by decide)

theorem ObjectStore.listsOnce_of_lt {s : ObjectStore} (h : ∀ p < s.size, (s.contents p).Nodup) :
    s.ListsOnce := by
  intro p
  by_cases hp : p < s.size
  · exact h p hp
  · rw [contents, get_of_size_le (Nat.le_of_not_lt hp)]
    exact List.nodup_nil

theorem failOnDangling_onlyRefuses_notes :
    notes.Reachable ∧ ¬ notes.ReferencesWithin 1 ∧
    (∃ e, (notes.toObjects 1 noteModel ⟨true, true⟩ .empty).1 = .error e ∧ e.IsDangling) ∧
    (∃ t image, notes.toObjects 1 noteModel ⟨true, false⟩ .empty = (.ok (image 1), t) ∧
      ToObjects.Images notes noteModel 1 t image) ∧
    linkedNotes.Reachable ∧ linkedNotes.ListsOnce ∧
    ¬ linkedNotes.ReferencesWithin noteModel noteCatalog 0 ∧
    (∃ e, (linkedNotes.toNodes 0 noteModel noteCatalog ⟨true, true⟩ .empty).1 = .error e ∧
      e.IsDangling) ∧
    ∃ g image, linkedNotes.toNodes 0 noteModel noteCatalog ⟨true, false⟩ .empty =
        (.ok (image 0), g) ∧
      ToNodes.Images linkedNotes noteModel noteCatalog 0 g image := by
  obtain ⟨hobjects, hnodes⟩ := failOnDangling_onlyRefuses
  obtain ⟨hrefuses, himages⟩ := hobjects notes 1 noteModel true .empty reachable_notes (by decide)
  have honce : linkedNotes.ListsOnce := ObjectStore.listsOnce_of_lt (by decide)
  obtain ⟨hrefuses', himages'⟩ := hnodes linkedNotes 0 noteModel noteCatalog true .empty
    reachable_linkedNotes honce (by decide)
  have hout : ¬ notes.ReferencesWithin 1 := fun h =>
    absurd (h 1 (by decide) "links" _ rfl 0 (by decide)) (by decide)
  have hout' : ¬ linkedNotes.ReferencesWithin noteModel noteCatalog 0 := fun h =>
    absurd (h 0 (by decide) "links" _ rfl rfl 2 (by decide)) (by decide)
  have hok : notes.toObjects 1 noteModel ⟨true, false⟩ .empty =
      (.ok 0, (notes.toObjects 1 noteModel ⟨true, false⟩ .empty).2) := rfl
  have hok' : linkedNotes.toNodes 0 noteModel noteCatalog ⟨true, false⟩ .empty =
      (.ok 0, (linkedNotes.toNodes 0 noteModel noteCatalog ⟨true, false⟩ .empty).2) := rfl
  obtain ⟨image, hroot, hgiven⟩ := himages 0 _ hok
  obtain ⟨image', hroot', hgiven'⟩ := himages' 0 _ hok'
  refine ⟨reachable_notes, hout, hrefuses.refused ⟨0, congrArg Prod.fst hok⟩ hout,
    ⟨_, image, by rw [hroot]; exact hok, hgiven⟩, reachable_linkedNotes, honce, hout',
    hrefuses'.refused ⟨0, congrArg Prod.fst hok'⟩ hout', _, image', by rw [hroot']; exact hok',
    hgiven'⟩

/-- A note that is about its own position. -/
def placedNote : ObjectStore :=
  let s := ((ObjectStore.empty.newObject noteClass).2.newObject (.ast "Position")).2
  (s.set 0 "position" (.contained 1)).set 0 "about" (.reference 1)

/-- A reference to an object that is contained in the note, but in a feature that is not carried
over, is refused as one that leaves the tree. -/
theorem position_reference_dangles : placedNote.Reachable ∧ placedNote.ListsOnce ∧
    (∀ y ∈ placedNote.tree 0, ∀ name v, placedNote.value? y name = some v →
      ∀ d ∈ v.targets, d ∈ placedNote.tree 0) ∧
    (∃ root g, placedNote.toNodes 0 noteModel noteCatalog ⟨true, false⟩ .empty = (.ok root, g)) ∧
    (placedNote.toNodes 0 noteModel noteCatalog ⟨true, true⟩ .empty).1 =
      .error (.danglingReference "sample.Note" "about") := by
  have hreachable : placedNote.Reachable := by
    have two := (ObjectStore.Reachable.empty.newObject noteClass (by decide)).newObject
      (.ast "Position") (by decide)
    have placed := two.set 0 "position" (.contained 1) (by decide) (by decide)
    exact placed.set 0 "about" (.reference 1) (by decide) (by decide)
  have hentries : ∀ y ∈ placedNote.tree 0, ∀ e ∈ (placedNote.get y).values.entries,
      ∀ d ∈ e.2.targets, d ∈ placedNote.tree 0 := by decide
  exact ⟨hreachable, ObjectStore.listsOnce_of_lt (by decide),
    fun y hy name v hv => hentries y hy _ (Table.get?_eq_some_iff.1 hv), ⟨0, _, rfl⟩, rfl⟩

end Notes

end TreeInterchange
