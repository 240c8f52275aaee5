import TreeInterchange.ObjectStore.Fragment
import TreeInterchange.Proofs.StoreOwnership
import TreeInterchange.Proofs.TextCuts

/-!
# Fragment paths lead back

The text of a way down is read back as the same way where no feature name contains one of the
characters that the format uses. The way from a root down to an object of its tree exists,
and following it leads to the object, also in any other store that holds a renamed image of
the tree.
-/

namespace TreeInterchange

theorem Number.readUnsigned?_toString (i : Nat) :
    Number.readUnsigned? (toString i).toList = some i := by
  have hdigit : ∀ c ∈ Nat.toDigits 10 i, c.isDigit := fun c hc =>
    Nat.isDigit_of_mem_toDigits (by decide) (by decide) hc
  have hread : Number.readNat? (Nat.toDigits 10 i) = some i := by
    have hof : Number.ofDigits (Nat.toDigits 10 i) = i := by
      rw [Number.ofDigits, ← Nat.ofDigitChars_eq_foldl, Nat.ofDigitChars_ten_toDigits]
    rw [Number.readNat?, if_pos ⟨Nat.toDigits_ne_nil, List.all_eq_true.2 hdigit⟩, hof]
  rw [Nat.toString_eq_ofList_toDigits, String.toList_ofList]
  unfold Number.readUnsigned?
  split
  · rename_i cs hcs
    exact absurd (hdigit '+' (by rw [hcs]; simp)) (by decide)
  · exact hread

theorem Number.readIndex?_toString {i : Nat} (h : i < UInt64.size) :
    Number.readIndex? (toString i) = some i := by
  rw [Number.readIndex?, Number.readUnsigned?_toString]
  simp [Option.filter, h]

/-- A place that is too great is not read, but none is read as another. -/
theorem Number.eq_of_readIndex?_toString {i k : Nat} (h : Number.readIndex? (toString i) = some k) :
    k = i := by
  rw [Number.readIndex?, Number.readUnsigned?_toString, Option.filter_eq_some_iff] at h
  exact (Option.some.inj h.1).symm

theorem not_mem_toString {c : Char} (h : c.isDigit = false) (i : Nat) :
    c ∉ (toString i).toList := by
  rw [Nat.toString_eq_ofList_toDigits, String.toList_ofList]
  intro hc
  have hd := Nat.isDigit_of_mem_toDigits (by decide) (by decide) hc
  rw [h] at hd
  cases hd

namespace Segment

/-- A step whose text is read back: its feature has none of the characters of the format. -/
structure Plain (g : Segment) : Prop where
  slash : '/' ∉ g.feature.toList
  dot : '.' ∉ g.feature.toList
  hash : '#' ∉ g.feature.toList
  place : ∀ i ∈ g.place, i < UInt64.size

theorem parse?_render_none {feature : String} (h : '.' ∉ feature.toList) :
    parse? (render ⟨feature, none⟩) = some ⟨feature, none⟩ := by
  have hcut : Text.splitLast '.' feature = none := Text.splitLast_eq_none_iff.2 h
  simp [render, parse?, Text.strip?_append, hcut]

theorem parse?_render_some (feature : String) (i : Nat) :
    parse? (render ⟨feature, some i⟩) =
      (Number.readIndex? (toString i)).map fun k => ⟨feature, some k⟩ := by
  have hcut : Text.splitLast '.' (feature ++ "." ++ toString i) = some (feature, toString i) :=
    Text.splitLast_eq_some_iff.2 ⟨by simp, not_mem_toString (by decide) i⟩
  have hbody : render ⟨feature, some i⟩ = "@" ++ (feature ++ "." ++ toString i) := by
    simp [render, String.append_assoc]
  rw [hbody, parse?, Text.strip?_append]
  simp only [Option.bind_eq_bind, Option.bind_some, hcut]
  cases Number.readIndex? (toString i) <;> rfl

theorem parse?_render {g : Segment} (hdot : '.' ∉ g.feature.toList)
    (hplace : ∀ i ∈ g.place, i < UInt64.size) : parse? g.render = some g := by
  obtain ⟨feature, place⟩ := g
  cases place with
  | none => exact parse?_render_none hdot
  | some i =>
    rw [parse?_render_some, Number.readIndex?_toString (hplace i rfl)]
    rfl

theorem eq_of_parse?_render {g d : Segment} (hdot : '.' ∉ g.feature.toList)
    (h : parse? g.render = some d) : d = g := by
  obtain ⟨feature, place⟩ := g
  cases place with
  | none =>
    rw [parse?_render_none hdot] at h
    exact (Option.some.inj h).symm
  | some i =>
    rw [parse?_render_some] at h
    obtain ⟨k, hk, rfl⟩ := Option.map_eq_some_iff.1 h
    rw [Number.eq_of_readIndex?_toString hk]

theorem not_mem_render {g : Segment} {c : Char} (h : c ∉ g.feature.toList) (hat : c ≠ '@')
    (hdot : c ≠ '.') (hdigit : c.isDigit = false) : c ∉ g.render.toList := by
  obtain ⟨feature, place⟩ := g
  cases place with
  | none => simp [render, h, hat]
  | some i => simpa [render, h, hat, hdot] using not_mem_toString hdigit i

theorem mapM_parse?_render {gs : List Segment} (h : ∀ g ∈ gs, parse? g.render = some g) :
    (gs.map render).mapM parse? = some gs := by
  induction gs with
  | nil => rfl
  | cons g gs ih =>
    rw [List.map_cons, List.mapM_cons, h g (by simp), ih fun d hd => h d (by simp [hd])]
    rfl

theorem strip?_renderPath (gs : List Segment) : Text.strip? "#" (renderPath gs) = none := by
  cases gs with
  | nil => decide
  | cons g gs => simp [renderPath, Text.strip?, Text.dropLead]

theorem parsePath?_renderPath_eq_mapM {gs : List Segment}
    (h : ∀ g ∈ gs, '/' ∉ g.feature.toList) :
    parsePath? (renderPath gs) = (gs.map render).mapM parse? := by
  cases gs with
  | nil => decide
  | cons g gs =>
    have hpath : renderPath (g :: gs) = "//" ++ Text.join "/" ((g :: gs).map render) := rfl
    have hlist : (renderPath (g :: gs)).toList =
        '/' :: '/' :: (Text.join "/" ((g :: gs).map render)).toList := by
      rw [hpath]; simp
    have hlong : ¬ (renderPath (g :: gs) = "" ∨ renderPath (g :: gs) = "/") := by
      rintro (he | he) <;> rw [he] at hlist <;> simp at hlist
    have hsplit : Text.splitAll '/' (Text.join "/" ((g :: gs).map render)) =
        (g :: gs).map render := by
      apply Text.splitAll_join '/' _ (by simp)
      intro p hp
      obtain ⟨d, hd, rfl⟩ := List.mem_map.1 hp
      exact not_mem_render (h d hd) (by decide) (by decide) (by decide)
    rw [parsePath?, strip?_renderPath]
    simp only [Option.getD_none, hlong, if_false]
    rw [hpath, Text.strip?_append, Option.bind_some, hsplit]

theorem parsePath?_renderPath {gs : List Segment} (hslash : ∀ g ∈ gs, '/' ∉ g.feature.toList)
    (h : ∀ g ∈ gs, parse? g.render = some g) : parsePath? (renderPath gs) = some gs := by
  rw [parsePath?_renderPath_eq_mapM hslash, mapM_parse?_render h]

/-- The text of a way down is read as this way or not at all. -/
theorem eq_of_parsePath?_renderPath {gs ds : List Segment}
    (hslash : ∀ g ∈ gs, '/' ∉ g.feature.toList) (hdot : ∀ g ∈ gs, '.' ∉ g.feature.toList)
    (h : parsePath? (renderPath gs) = some ds) : ds = gs := by
  rw [parsePath?_renderPath_eq_mapM hslash] at h
  clear hslash
  induction gs generalizing ds with
  | nil => exact (Option.some.inj h).symm
  | cons g gs ih =>
    rw [List.map_cons, List.mapM_cons] at h
    obtain ⟨d, hd, h⟩ := Option.bind_eq_some_iff.1 h
    obtain ⟨rest, hrest, h⟩ := Option.bind_eq_some_iff.1 h
    rw [← Option.some.inj h, eq_of_parse?_render (hdot g (by simp)) hd,
      ih (fun c hc => hdot c (by simp [hc])) hrest]

theorem not_mem_renderPath {gs : List Segment} (h : ∀ g ∈ gs, '#' ∉ g.feature.toList) :
    '#' ∉ (renderPath gs).toList := by
  cases gs with
  | nil => decide
  | cons g gs =>
    have hpath : renderPath (g :: gs) = "//" ++ Text.join "/" ((g :: gs).map render) := rfl
    rw [hpath, String.toList_append, List.mem_append, not_or]
    refine ⟨by decide, Text.not_mem_join (by decide) fun p hp => ?_⟩
    obtain ⟨d, hd, rfl⟩ := List.mem_map.1 hp
    exact not_mem_render (h d hd) (by decide) (by decide) (by decide)

end Segment

namespace ObjectStore

variable {s t : ObjectStore} {root x y c : ObjectId} {feature : String}

theorem step?_eq_some {g : Segment} (h : s.step? x g = some y) :
    ∃ v, s.value? x g.feature = some v ∧ v.children[g.place.getD 0]? = some y := by
  unfold step? at h
  split at h
  · rename_i hv hp
    exact ⟨_, hv, by simpa [hp, FeatureValue.children] using h⟩
  · rename_i hv hp
    exact ⟨_, hv, by simpa [hp, FeatureValue.children] using h⟩
  · rename_i hv hp
    exact ⟨_, hv, by simpa [hp, FeatureValue.children] using h⟩
  · rename_i hv hp
    exact ⟨_, hv, by simpa [hp, FeatureValue.children, List.head?_eq_getElem?] using h⟩
  · cases h

theorem mem_contents_of_step? {g : Segment} (h : s.step? x g = some y) : y ∈ s.contents x := by
  obtain ⟨v, hv, hy⟩ := step?_eq_some h
  exact mem_contents_iff.2 ⟨g.feature, mem_contentsIn_iff.2 ⟨v, hv, List.mem_of_getElem? hy⟩⟩

theorem exists_segment (h : c ∈ s.contentsIn x feature) :
    ∃ g : Segment, s.segment? ⟨x, feature⟩ c = some g ∧ g.feature = feature ∧
      s.step? x g = some c ∧ ∀ i ∈ g.place, i < (s.contentsIn x feature).length := by
  obtain ⟨v, hv, hc⟩ := mem_contentsIn_iff.1 h
  rw [contentsIn_eq hv]
  cases v with
  | contained d =>
    obtain rfl : c = d := by simpa [FeatureValue.children] using hc
    exact ⟨⟨feature, none⟩, by simp [segment?, hv], rfl, by simp [step?, hv], by simp⟩
  | containedMany ids =>
    replace hc : c ∈ ids := hc
    cases hi : ids.findIdx? (· = c) with
    | none =>
      rw [List.findIdx?_eq_none_iff] at hi
      exact absurd (hi c hc) (by simp)
    | some i =>
      obtain ⟨hlt, hic, -⟩ := List.findIdx?_eq_some_iff_getElem.1 hi
      refine ⟨⟨feature, some i⟩, by simp [segment?, hv, hi], rfl, ?_, ?_⟩
      · simpa [step?, hv, List.getElem?_eq_getElem hlt] using hic
      · simpa [FeatureValue.children] using hlt
  | _ => simp [FeatureValue.children] at hc

/-- The way from `root` down to `x` by steps of which each holds, found within `n` steps up. -/
def HasWay (s : ObjectStore) (root : ObjectId) (good : Segment → Prop) (n : Nat) (x : ObjectId) :
    Prop :=
  ∃ gs : List Segment, (∀ m ≥ n, s.segmentsWithin root m x = some gs) ∧
    gs.foldlM s.step? root = some x ∧ ∀ g ∈ gs, good g

variable {good : Segment → Prop} {n : Nat}

theorem hasWay_root : s.HasWay root good 0 root := by
  refine ⟨[], fun m _ => ?_, rfl, by simp⟩
  cases m <;> simp [segmentsWithin]

theorem HasWay.step (hs : s.Owned) (hx : s.HasWay root good n x) (hc : c ∈ s.contentsIn x feature)
    (hroot : c ≠ root) (hgood : ∀ g : Segment, g.feature = feature →
      (∀ i ∈ g.place, i < (s.contentsIn x feature).length) → good g) :
    s.HasWay root good (n + 1) c := by
  obtain ⟨gs, hway, hfold, hall⟩ := hx
  obtain ⟨g, hg, hf, hstep, hplace⟩ := exists_segment hc
  refine ⟨gs ++ [g], fun m hm => ?_, ?_, fun d hd => ?_⟩
  · obtain ⟨m, rfl⟩ : ∃ k, m = k + 1 := ⟨m - 1, by omega⟩
    simp [segmentsWithin, hroot, hs x feature c hc, hg, hway m (by omega)]
  · rw [List.foldlM_append, hfold]
    simpa using hstep
  · rcases List.mem_append.1 hd with hd | hd
    · exact hall d hd
    · rw [List.mem_singleton.1 hd]
      exact hgood g hf hplace

/-- Every object of the tree of `root` has a way down to it. -/
theorem hasWay_of_mem (hs : s.Owned) {L : List ObjectId} (hroot : ∀ y ∈ L, root ∉ s.contents y)
    (hgood : ∀ y ∈ L, ∀ g : Segment, (∀ i ∈ g.place, i < (s.contentsIn y g.feature).length) →
      s.contentsIn y g.feature ≠ [] → good g) {k : Nat} (hx : s.HasWay root good n x)
    (hL : listing s.contents (k + 1) x ⊆ L) (hy : y ∈ listing s.contents (k + 1) x) :
    s.HasWay root good (n + k) y := by
  induction k generalizing n x with
  | zero =>
    rcases mem_listing_succ.1 hy with rfl | ⟨c, -, hc⟩
    · exact hx
    · simp [listing] at hc
  | succ k ih =>
    rcases mem_listing_succ.1 hy with rfl | ⟨c, hc, hy⟩
    · obtain ⟨gs, hway, hrest⟩ := hx
      exact ⟨gs, fun m hm => hway m (by omega), hrest⟩
    · have hxL : x ∈ L := hL (by simp [listing])
      obtain ⟨feature, hcf⟩ := mem_contents_iff.1 hc
      have hstep : s.HasWay root good (n + 1) c := by
        apply hx.step hs hcf (fun e => hroot x hxL (e ▸ hc))
        intro g hg hplace
        subst hg
        exact hgood x hxL g hplace (List.ne_nil_of_mem hcf)
      have hsub : listing s.contents (k + 1) c ⊆ L := fun z hz =>
        hL (mem_listing_succ.2 (.inr ⟨c, hc, hz⟩))
      have := ih hstep hsub hy
      rwa [Nat.add_assoc, Nat.add_comm 1 k] at this

theorem foldlM_step?_image {L : List ObjectId} {φ : ObjectId → ObjectId}
    (hclosed : ∀ y ∈ L, s.contents y ⊆ L)
    (himage : ∀ y ∈ L, ∀ g z, s.step? y g = some z → t.step? (φ y) g = some (φ z))
    {gs : List Segment} (hx : x ∈ L) (h : gs.foldlM s.step? x = some y) :
    gs.foldlM t.step? (φ x) = some (φ y) := by
  induction gs generalizing x with
  | nil =>
    obtain rfl : x = y := by simpa using h
    rfl
  | cons g gs ih =>
    rw [List.foldlM_cons] at h ⊢
    obtain ⟨z, hz, hrest⟩ := Option.bind_eq_some_iff.1 h
    rw [himage x hx g z hz]
    exact ih (hclosed x hx (mem_contents_of_step? hz)) hrest

/-- The text of a way down resolves to the image of the object it leads to. -/
theorem HasWay.resolve? {L : List ObjectId} {φ : ObjectId → ObjectId}
    (hclosed : ∀ y ∈ L, s.contents y ⊆ L)
    (himage : ∀ y ∈ L, ∀ g z, s.step? y g = some z → t.step? (φ y) g = some (φ z))
    (hroot : root ∈ L) (hx : s.HasWay root Segment.Plain n x) (hn : n ≤ s.size) :
    ∃ path, s.fragmentFrom? root x = some path ∧ '#' ∉ path.toList ∧
      t.resolve? (φ root) path = some (φ x) := by
  obtain ⟨gs, hway, hfold, hplain⟩ := hx
  refine ⟨Segment.renderPath gs, ?_, Segment.not_mem_renderPath fun g hg => (hplain g hg).hash, ?_⟩
  · simp [fragmentFrom?, segments?, hway s.size hn]
  · rw [ObjectStore.resolve?, Segment.parsePath?_renderPath (fun g hg => (hplain g hg).slash)
      fun g hg => Segment.parse?_render (hplain g hg).dot (hplain g hg).place]
    exact foldlM_step?_image hclosed himage hroot hfold

end ObjectStore

end TreeInterchange
