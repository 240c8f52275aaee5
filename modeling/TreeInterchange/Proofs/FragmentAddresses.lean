import TreeInterchange.Proofs.ContainmentNesting

/-!
# Fragments as addresses

In a store where nothing contains itself, an object has a fragment relative to another just when
that one is the object itself or stands above it. The fragment then leads from there back to the
object, with or without a number sign in front. It is found by climbing from container to
container and is followed downwards from list to list, so each step of the way down undoes one
step of the way up.

Whatever text is followed from an object, it never leads to anything outside of it.
-/

namespace TreeInterchange

theorem Segment.parsePath?_append_hash {path : String} (h : Text.strip? "#" path = none) :
    parsePath? ("#" ++ path) = parsePath? path := by
  simp only [parsePath?, Text.strip?_append, h, Option.getD_some, Option.getD_none]

namespace ObjectStore

variable {s : ObjectStore} {root id x : ObjectId}

theorem isWithin_iff_reflTransGen :
    s.isWithin root x = true ↔ Relation.ReflTransGen s.IsContainer root x := by
  rw [isWithin_iff]
  constructor
  · rintro ⟨k, hk⟩
    cases k with
    | zero =>
      obtain rfl := Option.some.inj hk
      exact .refl
    | succ k => exact (above_of_climb? hk).to_reflTransGen
  · intro h
    induction h with
    | refl => exact ⟨0, rfl⟩
    | tail _ hstep ih =>
      obtain ⟨k, hk⟩ := ih
      exact ⟨k + 1, by rw [climb?, hstep, Option.bind_some, hk]⟩

theorem Owned.reflTransGen_of_resolve? (h : s.Owned) {path : String}
    (hpath : s.resolve? root path = some x) : Relation.ReflTransGen s.IsContainer root x := by
  obtain ⟨gs, -, hgs⟩ := Option.bind_eq_some_iff.1 hpath
  exact isWithin_iff_reflTransGen.1 (isWithin_of_way h hgs)

/-- A step that leads to an object on the way from `root` down to `x`, from the container of that
object. -/
def OnWay (s : ObjectStore) (root x : ObjectId) (g : Segment) : Prop :=
  ∃ y p, s.Above root y ∧ Relation.ReflTransGen s.IsContainer y x ∧ s.IsContainer p y ∧
    s.containingFeature? y = some g.feature ∧ ∀ i ∈ g.place, i < (s.contentsIn p g.feature).length

/-- Climbing from an object up to a root gives the steps that lead from the root down to it. -/
theorem Acyclic.exists_way (h : s.Acyclic) (hl : s.Listed)
    (hx : Relation.ReflTransGen s.IsContainer root x) :
    ∃ gs, s.segments? root x = some gs ∧ gs.foldlM s.step? root = some x ∧
      ∀ g ∈ gs, s.OnWay root x g := by
  induction hx with
  | refl => exact ⟨[], by rw [h.segments?_eq, if_pos rfl], rfl, by simp⟩
  | @tail p x hp hstep ih =>
    obtain ⟨gs, hgs, hfold, hway⟩ := ih
    have habove : s.Above root x := Relation.TransGen.tail' hp hstep
    have hne : x ≠ root := fun he => h root (he ▸ habove)
    obtain ⟨⟨owner, feature⟩, hc, rfl⟩ := Option.map_eq_some_iff.1 hstep
    obtain ⟨g, hg, rfl, hdown, hplace⟩ := exists_segment (hl owner feature x hc)
    refine ⟨gs ++ [g], ?_, ?_, fun d hd => ?_⟩
    · rw [h.segments?_eq, if_neg hne, hc]
      simp only [Option.bind_eq_bind, Option.bind_some, hg, hgs]
      rfl
    · rw [List.foldlM_append, hfold]
      simpa using hdown
    · rcases List.mem_append.1 hd with hd | hd
      · obtain ⟨y, q, hy, hyp, hfeature⟩ := hway d hd
        exact ⟨y, q, hy, hyp.tail hstep, hfeature⟩
      · obtain rfl := List.mem_singleton.1 hd
        exact ⟨x, owner, habove, .refl, hstep, by rw [containingFeature?, hc]; rfl, hplace⟩

/-- Places are numbers of 64 bits, and no list in memory is longer than they count. -/
def PlacesFit (s : ObjectStore) : Prop := ∀ p f, (s.contentsIn p f).length ≤ UInt64.size

/-- No feature on the way from `root` down to `x` has a name that the format divides. -/
def NamesUndivided (s : ObjectStore) (root x : ObjectId) : Prop :=
  ∀ y f, s.Above root y → Relation.ReflTransGen s.IsContainer y x →
    s.containingFeature? y = some f → '/' ∉ f.toList ∧ '.' ∉ f.toList

theorem parsePath?_of_onWay {gs : List Segment} (hfit : s.PlacesFit)
    (hnames : s.NamesUndivided root x) (h : ∀ g ∈ gs, s.OnWay root x g) :
    Segment.parsePath? (Segment.renderPath gs) = some gs := by
  have hname : ∀ g ∈ gs, '/' ∉ g.feature.toList ∧ '.' ∉ g.feature.toList := by
    intro g hg
    obtain ⟨y, p, habove, hbelow, -, hfeature, -⟩ := h g hg
    exact hnames y g.feature habove hbelow hfeature
  refine Segment.parsePath?_renderPath (fun g hg => (hname g hg).1) fun g hg => ?_
  refine Segment.parse?_render (hname g hg).2 fun i hi => ?_
  obtain ⟨y, p, -, -, -, -, hplace⟩ := h g hg
  exact Nat.lt_of_lt_of_le (hplace i hi) (hfit p g.feature)

/-- In a store where nothing contains itself, an object has a fragment from another just when that
one is the object or one of its containers; the fragment, also behind a number sign, leads back to
the object, if no name on the way is divided. No text leads out of the object where it starts. -/
theorem fragments_address_contents (hs : s.Reachable) (h : s.Acyclic) (root id : ObjectId) :
    ((s.fragmentFrom? root id).isSome ↔ Relation.ReflTransGen s.IsContainer root id) ∧
    (s.PlacesFit → s.NamesUndivided root id → ∀ p, s.fragmentFrom? root id = some p →
      s.resolve? root p = some id ∧ s.resolve? root ("#" ++ p) = some id) ∧
    ∀ p o, s.resolve? root p = some o → Relation.ReflTransGen s.IsContainer root o := by
  have hsome : (s.fragmentFrom? root id).isSome ↔ Relation.ReflTransGen s.IsContainer root id := by
    rw [fragmentFrom?, Option.isSome_map, h.isSome_segments? hs.listed, isWithin_iff_reflTransGen]
  refine ⟨hsome, fun hfit hnames p hp => ?_, fun p o => hs.owned.reflTransGen_of_resolve?⟩
  obtain ⟨gs, hgs, hfold, hway⟩ :=
    h.exists_way hs.listed (hsome.1 (Option.isSome_iff_exists.2 ⟨p, hp⟩))
  obtain rfl : Segment.renderPath gs = p := by simpa [fragmentFrom?, hgs] using hp
  have hparse := parsePath?_of_onWay hfit hnames hway
  constructor
  · rw [resolve?, hparse, Option.bind_some, hfold]
  · rw [resolve?, Segment.parsePath?_append_hash (Segment.strip?_renderPath gs), hparse,
      Option.bind_some, hfold]

/-- A chest with two boxes, of which the second has a lid. -/
def filledChest : ObjectStore :=
  let s := ((ObjectStore.empty.newObject default).2.newObject default).2
  (((s.newObject default).2.newObject default).2.set 1 "lid" (.contained 3)).set 0 "boxes"
    (.containedMany [2, 1])

theorem reachable_filledChest : filledChest.Reachable := by
  have two := (Reachable.empty.newObject default (by decide)).newObject default (by decide)
  have four := (two.newObject default (by decide)).newObject default (by decide)
  have closed := four.set 1 "lid" (.contained 3) (by decide) (by decide)
  exact closed.set 0 "boxes" (.containedMany [2, 1]) (by decide) (by decide)

theorem acyclic_filledChest : filledChest.Acyclic := acyclic_of_lt (by decide)

theorem fragments_address_filledChest : filledChest.Reachable ∧ filledChest.Acyclic ∧
    filledChest.fragmentFrom? 0 3 = some "//@boxes.1/@lid" ∧
    Relation.ReflTransGen filledChest.IsContainer 0 3 ∧
    filledChest.resolve? 0 "//@boxes.1/@lid" = some 3 ∧
    filledChest.resolve? 0 "#//@boxes.1/@lid" = some 3 := by
  have hpath : filledChest.fragmentFrom? 0 3 = some "//@boxes.1/@lid" := by decide
  have hfit : filledChest.PlacesFit := by
    have hall : ∀ p < filledChest.size, ∀ v ∈ (filledChest.get p).values.values,
        v.children.length ≤ 2 := by decide
    intro p f
    cases hv : filledChest.value? p f with
    | none => rw [contentsIn_eq_nil hv]; decide
    | some v =>
      rw [contentsIn_eq hv]
      exact (hall p (lt_size_of_value? hv) v (Table.mem_values_iff.2 ⟨f, hv⟩)).trans (by decide)
  have hnames : filledChest.NamesUndivided 0 3 := by
    have hall : ∀ y < filledChest.size, ∀ f ∈ filledChest.containingFeature? y,
        '/' ∉ f.toList ∧ '.' ∉ f.toList := by decide
    intro y f _ _ hf
    obtain ⟨c, hc, -⟩ := Option.map_eq_some_iff.1 hf
    exact hall y (lt_size_of_container hc) f hf
  obtain ⟨hsome, hback, -⟩ :=
    fragments_address_contents reachable_filledChest acyclic_filledChest 0 3
  obtain ⟨hplain, hhash⟩ := hback hfit hnames _ hpath
  exact ⟨reachable_filledChest, acyclic_filledChest, hpath, hsome.1 (by rw [hpath]; rfl), hplain,
    hhash⟩

end ObjectStore

end TreeInterchange
