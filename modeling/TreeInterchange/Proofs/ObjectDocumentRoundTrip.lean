import TreeInterchange.Proofs.ObjectDocumentReading

/-!
# Object documents hold the tree they were written from

When all objects are there, the open references are resolved one after the other. Resolving
changes no containment, so the text of a reference leads to the same object all the time,
which is the copy of the object that the reference had.
-/

namespace TreeInterchange

namespace ObjectStore

/-- The tree of `root` and the tree of `φ root` in another store differ only in the names of the
objects and in the order in which an object stores its features. -/
structure IsCopy (s : ObjectStore) (root : ObjectId) (t : ObjectStore) (φ : ObjectId → ObjectId) :
    Prop where
  injective : ∀ x ∈ s.tree root, ∀ y ∈ s.tree root, φ x = φ y → x = y
  tree : (t.tree (φ root)).Perm ((s.tree root).map φ)
  type : ∀ x ∈ s.tree root, (t.get (φ x)).type = (s.get x).type
  present : ∀ x ∈ s.tree root, ∀ name,
    t.present? (φ x) name = (s.present? x name).map (FeatureValue.rename φ)

variable {m : Metamodel} {s : ObjectStore} {root : ObjectId}

theorem Conforms.height (hs : s.Owned) (hc : s.Conforms m root) :
    HeightAtMost s.contents s.size root := by
  apply heightAtMost_of_bounded hc.present (fun _ _ h => lt_size_of_mem_contents hs h)
  rw [← preorder_eq_listing]
  exact hc.nodup _

end ObjectStore

namespace ObjectDocument

variable {m : Metamodel} {s : ObjectStore} {root : ObjectId} {φ : ObjectId → Nat}

/-- Listing by features and listing by stored values give the same objects. -/
theorem declared_perm {x : ObjectId} {fs : List Feature} (hx : s.ObjectConforms m x fs) :
    (declared m s x).Perm (s.contents x) := by
  have hdecl : declared m s x = (fs.map (·.name)).flatMap (s.contentsIn x) := by
    rw [declared_eq hx.features, List.flatMap_map]
  rw [hdecl, ObjectStore.contents_eq]
  refine flatMap_perm_of_names _ (Metamodel.nodup_features hx.features) (s.get x).values.nodup
    fun name hne => ?_
  obtain ⟨c, hc⟩ := List.exists_mem_of_ne_nil _ hne
  obtain ⟨v, hv, -⟩ := ObjectStore.mem_contentsIn_iff.1 hc
  obtain ⟨f, hf, hfn, -⟩ := hx.stored name v hv
  exact iff_of_true (List.mem_map.2 ⟨f, hf, hfn⟩) (Table.mem_keys_iff.2 ⟨v, hv⟩)

/-- The walk in declared order, of which the reader makes a copy. -/
def walk (m : Metamodel) (s : ObjectStore) (root : ObjectId) : List ObjectId :=
  listing (declared m s) (s.size + 1) root

theorem declared_perm_of_mem (hc : s.Conforms m root) {x : ObjectId} (hx : x ∈ s.tree root) :
    (declared m s x).Perm (s.contents x) := by
  obtain ⟨fs, hfs⟩ := hc.objects x hx
  exact declared_perm hfs

theorem heightAtMost_declared (hs : s.Owned) (hc : s.Conforms m root) :
    HeightAtMost (declared m s) s.size root := by
  refine heightAtMost_congr (fun x hx => ?_) (hc.height hs)
  rw [← ObjectStore.tree_eq_listing] at hx
  exact (declared_perm_of_mem hc hx).subset

theorem walk_perm (hs : s.Owned) (hc : s.Conforms m root) :
    (walk m s root).Perm (s.tree root) := by
  rw [walk, listing_eq_of_height (heightAtMost_declared hs hc) (Nat.le_succ _),
    ObjectStore.tree_eq_listing]
  refine listing_perm fun x hx => declared_perm_of_mem hc ?_
  rwa [ObjectStore.tree_eq_listing]

theorem nodup_walk (hs : s.Owned) (hc : s.Conforms m root) : (walk m s root).Nodup :=
  (walk_perm hs hc).nodup_iff.2 (hc.nodup s.size)

theorem contents_subset_walk (hs : s.Owned) (hc : s.Conforms m root) {x : ObjectId}
    (hx : x ∈ walk m s root) : s.contents x ⊆ walk m s root := by
  have hperm := walk_perm hs hc
  have htree := hperm.subset hx
  intro c hcx
  apply hperm.symm.subset
  rw [ObjectStore.tree_eq_listing] at htree ⊢
  exact next_subset_listing (hc.height hs) htree hcx

/-- Every object of the tree has a way from the root whose text is read back. -/
theorem hasWay (hs : s.Reachable) (hc : s.Conforms m root) {x : ObjectId}
    (hx : x ∈ walk m s root) : s.HasWay root Segment.Plain s.size x := by
  have hheight := hc.height hs.owned
  have htree : ∀ y ∈ s.tree root, root ∉ s.contents y ∧ ∀ g : Segment,
      (∀ i ∈ g.place, i < (s.contentsIn y g.feature).length) →
        s.contentsIn y g.feature ≠ [] → g.Plain := by
    intro y hy
    have hy' := hy
    rw [ObjectStore.tree_eq_listing] at hy'
    refine ⟨not_mem_next_of_height hheight hy', fun g hplace hne => ?_⟩
    obtain ⟨fs, hfs⟩ := hc.objects y hy
    obtain ⟨c, hcy⟩ := List.exists_mem_of_ne_nil _ hne
    obtain ⟨v, hv, -⟩ := ObjectStore.mem_contentsIn_iff.1 hcy
    obtain ⟨f, hf, hname, -⟩ := hfs.stored _ v hv
    have hw := hfs.featuresWritable f hf
    refine ⟨hname ▸ hw.slash, hname ▸ hw.dot, hname ▸ hw.hash, fun i hi => ?_⟩
    -- a feature lists at most as many objects as the store has
    have hin : (s.contentsIn y g.feature).Sublist (s.contents y) := by
      have hkey : [g.feature].Sublist (s.get y).values.keys :=
        List.singleton_sublist.2 (Table.mem_keys_iff.2 ⟨v, hv⟩)
      have hone := hkey.flatMap (s.contentsIn y)
      rwa [List.flatMap_singleton, ← ObjectStore.contents_eq] at hone
    have hnodup : (s.contents y).Nodup :=
      nodup_next (fun d => by rw [← ObjectStore.preorder_eq_listing]; exact hc.nodup d) hy'
    have hrange : s.contents y ⊆ List.range s.size := fun d hd =>
      List.mem_range.2 (ObjectStore.lt_size_of_mem_contents hs.owned hd)
    have hlen := List.Nodup.length_le_of_subset hnodup hrange
    rw [List.length_range] at hlen
    calc i < (s.contentsIn y g.feature).length := hplace i hi
      _ ≤ (s.contents y).length := hin.length_le
      _ ≤ s.size := hlen
      _ ≤ UInt32.size := hs.size_le
      _ ≤ UInt64.size := by decide
  obtain ⟨k, hk⟩ : ∃ k, s.size = k + 1 :=
    ⟨s.size - 1, (Nat.succ_pred_eq_of_pos (Nat.zero_lt_of_lt hc.present)).symm⟩
  have hsub : listing s.contents (k + 1) root ⊆ s.tree root := by
    rw [← hk, ← ObjectStore.tree_eq_listing]
    exact fun _ h => h
  obtain ⟨gs, hway, hrest⟩ := ObjectStore.hasWay_of_mem hs.owned (fun y hy => (htree y hy).1)
    (fun y hy => (htree y hy).2) ObjectStore.hasWay_root hsub (by
      rw [← hk, ← ObjectStore.tree_eq_listing]
      exact (walk_perm hs.owned hc).subset hx)
  exact ⟨gs, fun n hn => hway n (by omega), hrest⟩

/-- Where the reader stands when the references in `rest` are still open. -/
structure Settling (m : Metamodel) (s : ObjectStore) (root : ObjectId) (φ : ObjectId → Nat)
    (L : List ObjectId) (s' : ObjectStore) (rest : List Pending) (u : ObjectStore) : Prop where
  size : u.size = s'.size + L.length
  kept : ∀ j < s'.size, u.get j = s'.get j
  type : ∀ y ∈ L, (u.get (φ y)).type = (s.get y).type
  keys : ∀ y ∈ L, ∀ fs, m.features (s.get y).type = .ok fs →
    (u.get (φ y)).values.keys = (firstEntries s φ fs y).map Prod.fst
  values : ∀ y ∈ L, ∀ name v, s.present? y name = some v →
    u.value? (φ y) name = some (v.rename φ) ∨
      u.value? (φ y) name = some (firstValue φ v) ∧
        ∃ f : Feature, f.name = name ∧ openReference s root φ y f v ∈ rest

theorem firstValue_of_not_reference {f : Feature} {v : FeatureValue} (hk : f.kind ≠ .reference)
    (hh : f.holds v = true) : firstValue φ v = v.rename φ := by
  cases hkind : f.kind <;> cases v <;>
    simp_all [Feature.holds, firstValue, FeatureValue.rename, FeatureType.stores]

theorem value?_of_copied {t : ObjectStore} {y : ObjectId} {fs : List Feature}
    (hy : s.ObjectConforms m y fs) (hcopy : Copied m s φ t y) {name : String} {v : FeatureValue}
    (hv : s.present? y name = some v) : t.value? (φ y) name = some (firstValue φ v) := by
  obtain ⟨f, hf, rfl, -⟩ := hy.stored name v (ObjectStore.present?_eq_some.1 hv).1
  refine Table.get?_eq_some_iff.2 ?_
  rw [hcopy.entries fs hy.features]
  exact List.mem_filterMap.2 ⟨f, hf, by rw [hv]; rfl⟩

theorem settling_of_extends {L : List ObjectId} {s' : ObjectStore} {st : ReadState}
    (hconf : ∀ y ∈ L, ∃ fs, s.ObjectConforms m y fs)
    (h : Extends m s root φ L ⟨s', []⟩ st) : Settling m s root φ L s' st.pending st.store := by
  refine ⟨h.size, h.kept, fun y hy => (h.copied y hy).type, fun y hy fs hfs => ?_,
    fun y hy name v hv => ?_⟩
  · rw [Table.keys, (h.copied y hy).entries fs hfs]
  · obtain ⟨fs, hy'⟩ := hconf y hy
    have hfirst := value?_of_copied hy' (h.copied y hy) hv
    obtain ⟨f, hf, hname, hholds, -⟩ := hy'.stored name v (ObjectStore.present?_eq_some.1 hv).1
    by_cases hk : f.kind = .reference
    · obtain ⟨ps, hps, hmem⟩ := h.pending
      refine .inr ⟨hfirst, f, hname, ?_⟩
      rw [hps, List.nil_append, hmem]
      exact ⟨y, hy, fs, hy'.features, f, hf, v, hk, hname ▸ hv, rfl⟩
    · exact .inl (firstValue_of_not_reference hk hholds ▸ hfirst)

theorem referenceValue_map {f : Feature} {v : FeatureValue} (hk : f.kind = .reference)
    (hh : f.holds v = true) (hv : v.isNull = false) :
    referenceValue f.isMany (v.targets.map φ) = v.rename φ := by
  cases v with
  | reference id =>
    have hsingle : f.isMany = false := by simpa [Feature.holds, hk] using hh
    simp [referenceValue, hsingle, FeatureValue.targets, FeatureValue.rename]
  | references ids =>
    have hmany : f.isMany = true := by simpa [Feature.holds, hk] using hh
    simp [referenceValue, hmany, FeatureValue.targets, FeatureValue.rename]
  | null => cases hv
  | _ => simp [Feature.holds, hk] at hh

section Settling

variable {L : List ObjectId} {s' u : ObjectStore} {rest : List Pending}

theorem Settling.step? (h : Settling m s root φ L s' rest u) {y z : ObjectId} (hy : y ∈ L)
    {g : Segment} (hg : s.step? y g = some z) : u.step? (φ y) g = some (φ z) := by
  have hcopied : ∀ v, s.value? y g.feature = some v → v.children ≠ [] →
      u.value? (φ y) g.feature = some (v.rename φ) := by
    intro v hv hne
    have hnull : v.isNull = false := by
      cases v <;> simp_all [FeatureValue.children, FeatureValue.isNull]
    rcases h.values y hy _ v (ObjectStore.present?_eq_some.2 ⟨hv, hnull⟩) with hr | ⟨hf, -⟩
    · exact hr
    · rw [hf]
      cases v <;> simp_all [firstValue, FeatureValue.rename, FeatureValue.children]
  have hz := ObjectStore.mem_contents_of_step? hg
  unfold ObjectStore.step? at hg ⊢
  split at hg
  · rename_i hv hp
    rw [hcopied _ hv (by simp [FeatureValue.children]), hp, ← Option.some.inj hg]
    rfl
  · rename_i hv hp
    rw [hcopied _ hv (by simp [FeatureValue.children]), hp, ← Option.some.inj hg]
    rfl
  · rename_i ids i hv hp
    have hne : ids ≠ [] := List.ne_nil_of_mem (List.mem_of_getElem? hg)
    rw [hcopied _ hv hne, hp]
    simp [FeatureValue.rename, hg]
  · rename_i ids hv hp
    have hne : ids ≠ [] := List.ne_nil_of_mem (List.mem_of_mem_head? hg)
    rw [hcopied _ hv hne, hp]
    simp [FeatureValue.rename, hg]
  · cases hg

theorem Settling.resolve? (hs : s.Reachable) (hc : s.Conforms m root)
    (h : Settling m s root φ (walk m s root) s' rest u) {x : ObjectId} (hx : x ∈ walk m s root) :
    u.resolve? (φ root) (fragmentOf (referenceText s root x)) = some (φ x) := by
  have hroot : root ∈ walk m s root :=
    self_mem_listing ((heightAtMost_declared hs.owned hc).mono (Nat.le_succ _))
  obtain ⟨path, hpath, hhash, hto⟩ := (hasWay hs hc hx).resolve?
    (fun y hy => contents_subset_walk hs.owned hc hy) (fun y hy g z hg => h.step? hy hg) hroot
    (Nat.le_refl _)
  have htext : referenceText s root x = path := by
    rw [referenceText, hpath]
    rfl
  have hfragment : fragmentOf path = path := by
    simp [fragmentOf, Text.splitFirst, Text.cutFirst_eq_none '#' _ hhash]
  rw [htext, hfragment]
  exact hto

theorem Settling.settle {y : ObjectId} {f : Feature} {v : FeatureValue}
    (h : Settling m s root φ L s' (openReference s root φ y f v :: rest) u)
    (hinj : ∀ x ∈ L, ∀ z ∈ L, φ x = φ z → x = z) (hfresh : ∀ x ∈ L, s'.size ≤ φ x ∧ φ x < u.size)
    (hy : y ∈ L) (hv : s.present? y f.name = some v) (hflat : v.children = []) :
    Settling m s root φ L s' rest (u.set (φ y) f.name (v.rename φ)) := by
  have hown : (v.rename φ).children = [] := by
    cases v <;> simp_all [FeatureValue.rename, FeatureValue.children]
  have hbefore : ∃ w, u.value? (φ y) f.name = some w ∧ w.children = [] := by
    rcases h.values y hy f.name v hv with hr | ⟨hr, -⟩
    · exact ⟨_, hr, hown⟩
    · exact ⟨_, hr, by rw [children_firstValue, hflat]; rfl⟩
  obtain ⟨w, hw, hwflat⟩ := hbefore
  have hn : (v.rename φ).children.Nodup := by rw [hown]; exact List.nodup_nil
  have hfree : ∀ c ∈ (v.rename φ).children, (u.get c).container = none := by rw [hown]; simp
  have hnone : u.contentsIn (φ y) f.name = [] := by rw [ObjectStore.contentsIn_eq hw, hwflat]
  have hset := ObjectStore.set_fresh hn hfree hnone
  have hother : ∀ j, j ≠ φ y → (u.set (φ y) f.name (v.rename φ)).get j = u.get j := fun j hj =>
    ObjectStore.get_set_fresh hn hfree hnone hj (by simp [hown])
  have hhere : ((u.set (φ y) f.name (v.rename φ)).get (φ y)).values =
      (u.get (φ y)).values.insert f.name (v.rename φ) := by
    rw [(hset (φ y)).2.1, if_pos ⟨rfl, (hfresh y hy).2⟩]
  refine ⟨?_, fun j hj => ?_, fun x hx => ?_, fun x hx fs hfs => ?_, fun x hx name w hxw => ?_⟩
  · rw [ObjectStore.size_set, h.size]
  · rw [hother j (Nat.ne_of_lt (Nat.lt_of_lt_of_le hj (hfresh y hy).1)), h.kept j hj]
  · rw [(hset (φ x)).1, h.type x hx]
  · by_cases hxy : φ x = φ y
    · rw [hinj x hx y hy hxy] at hfs ⊢
      rw [hhere, Table.keys_insert_of_mem (Table.mem_keys_iff.2 ⟨w, hw⟩), h.keys y hy fs hfs]
    · rw [hother _ hxy, h.keys x hx fs hfs]
  · by_cases hsame : φ x = φ y ∧ f.name = name
    · obtain ⟨hxy, rfl⟩ := hsame
      obtain rfl := hinj x hx y hy hxy
      rw [hxw, Option.some.injEq] at hv
      left
      rw [ObjectStore.value?, hhere, Table.get?_insert_self, hv]
    · have hvalue : (u.set (φ y) f.name (v.rename φ)).value? (φ x) name = u.value? (φ x) name := by
        rw [ObjectStore.value?_set_fresh hn hfree hnone, if_neg fun h => hsame ⟨h.1, h.2.1.symm⟩]
      rw [hvalue]
      rcases h.values x hx name w hxw with hr | ⟨hr, g, hg, hmem⟩
      · exact .inl hr
      · refine .inr ⟨hr, g, hg, ?_⟩
        rcases List.mem_cons.1 hmem with he | hmem
        · simp only [openReference, Pending.mk.injEq] at he
          exact absurd ⟨he.1, by rw [← he.2.1, hg]⟩ hsame
        · exact hmem

theorem filterMap_resolve? (hs : s.Reachable) (hc : s.Conforms m root)
    (h : Settling m s root φ (walk m s root) s' rest u) {ids : List ObjectId}
    (hids : ids ⊆ walk m s root) :
    (ids.map (referenceText s root)).filterMap (fun t => u.resolve? (φ root) (fragmentOf t)) =
      ids.map φ := by
  induction ids with
  | nil => rfl
  | cons id ids ih =>
    rw [List.cons_subset] at hids
    simp [h.resolve? hs hc hids.1, ih hids.2]

theorem Settling.settle_all (hs : s.Reachable) (hc : s.Conforms m root)
    (hinj : ∀ x ∈ walk m s root, ∀ z ∈ walk m s root, φ x = φ z → x = z)
    (hnew : ∀ x ∈ walk m s root, s'.size ≤ φ x ∧ φ x < s'.size + (walk m s root).length)
    (ps : List Pending) (hps : ∀ p ∈ ps, ∃ y ∈ walk m s root, ∃ fs,
      m.features (s.get y).type = .ok fs ∧ IsOpen s root φ fs y p)
    (h : Settling m s root φ (walk m s root) s' ps u) :
    Settling m s root φ (walk m s root) s' [] (ps.foldl (resolvePending (φ root)) u) := by
  induction ps generalizing u with
  | nil => exact h
  | cons p ps ih =>
    obtain ⟨y, hy, fs, hfs, f, hf, v, hk, hv, rfl⟩ := hps p (by simp)
    have htree := (walk_perm hs.owned hc).subset hy
    obtain ⟨fs', hy'⟩ := hc.objects y htree
    obtain rfl : fs = fs' := Except.ok.inj (hfs.symm.trans hy'.features)
    obtain ⟨hvalue, hnull⟩ := ObjectStore.present?_eq_some.1 hv
    have hholds := (hy'.holds hf hvalue).1
    have htargets : v.targets ⊆ walk m s root := fun t ht =>
      (walk_perm hs.owned hc).symm.subset (hc.targets y htree f.name v hvalue t ht)
    have hresolve : resolvePending (φ root) u (openReference s root φ y f v) =
        u.set (φ y) f.name (v.rename φ) := by
      rw [resolvePending, openReference, filterMap_resolve? hs hc h htargets,
        referenceValue_map hk hholds hnull]
    rw [List.foldl_cons, hresolve]
    apply ih (fun q hq => hps q (by simp [hq]))
    exact h.settle hinj (fun x hx => h.size ▸ hnew x hx) hy hv
      (children_eq_nil_of_holds (by simp [hk]) hholds)

/-- In the end an object stores exactly the renamed values of its original that are not null. -/
theorem Settling.value? (h : Settling m s root φ L s' [] u) {y : ObjectId} (hy : y ∈ L)
    {fs : List Feature} (hfs : m.features (s.get y).type = .ok fs) (name : String) :
    u.value? (φ y) name = (s.present? y name).map (FeatureValue.rename φ) := by
  cases hv : s.present? y name with
  | some v =>
    rcases h.values y hy name v hv with hr | ⟨-, f, -, hmem⟩
    · exact hr
    · simp at hmem
  | none =>
    have hnokey : name ∉ (u.get (φ y)).values.keys := by
      rw [h.keys y hy fs hfs]
      intro hm
      obtain ⟨⟨n, w⟩, he, rfl⟩ := List.mem_map.1 hm
      obtain ⟨f, -, hw⟩ := List.mem_filterMap.1 he
      obtain ⟨w', hw', he'⟩ := Option.map_eq_some_iff.1 hw
      rw [← (Prod.mk.inj he').1, hw'] at hv
      cases hv
    rw [ObjectStore.value?, Table.get?_eq_none_iff.2 hnokey]
    rfl

theorem Settling.present? (h : Settling m s root φ L s' [] u) {y : ObjectId} (hy : y ∈ L)
    {fs : List Feature} (hfs : m.features (s.get y).type = .ok fs) (name : String) :
    u.present? (φ y) name = (s.present? y name).map (FeatureValue.rename φ) := by
  rw [ObjectStore.present?, h.value? hy hfs]
  cases hv : s.present? y name with
  | none => rfl
  | some v =>
    have hnull := (ObjectStore.present?_eq_some.1 hv).2
    have hrenamed : (v.rename φ).isNull = false := by
      cases v <;> simp_all [FeatureValue.rename, FeatureValue.isNull]
    simp [Option.filter, hrenamed]

theorem children_rename (v : FeatureValue) : (v.rename φ).children = v.children.map φ := by
  cases v <;> rfl

theorem Settling.contents (h : Settling m s root φ L s' [] u) {y : ObjectId} (hy : y ∈ L)
    {fs : List Feature} (hfs : m.features (s.get y).type = .ok fs) :
    u.contents (φ y) = (declared m s y).map φ := by
  have hin : ∀ name, u.contentsIn (φ y) name = (s.contentsIn y name).map φ := by
    intro name
    rw [ObjectStore.contentsIn_present, ObjectStore.contentsIn_present, h.present? hy hfs]
    cases s.present? y name with
    | none => rfl
    | some v => exact children_rename v
  rw [ObjectStore.contents_eq, h.keys y hy fs hfs, declared_eq hfs, funext hin]
  simp only [firstEntries]
  clear hin hfs
  induction fs with
  | nil => rfl
  | cons f fs ih =>
    cases hv : s.present? y f.name with
    | none =>
      have hnil : s.contentsIn y f.name = [] := by
        rw [ObjectStore.contentsIn_present, hv]
        rfl
      simpa [hv, hnil] using ih
    | some v => simpa [hv] using ih

end Settling

theorem Settling.tree {s' u : ObjectStore} (hs : s.Owned) (hc : s.Conforms m root)
    (h : Settling m s root φ (walk m s root) s' [] u) :
    u.tree (φ root) = (walk m s root).map φ := by
  have hheight : HeightAtMost (declared m s) (s.size + 1) root :=
    (heightAtMost_declared hs hc).mono (Nat.le_succ _)
  have hall := listing_subset_of_height hheight
  -- the tree is no higher than it has objects, so the new store is large enough for its walk
  have hlow : HeightAtMost (declared m s) (walk m s root).length root :=
    heightAtMost_of_nodup (nodup_listing hheight (nodup_walk hs hc) _) (hall _)
  have hcontents : ∀ y ∈ listing (declared m s) (walk m s root).length root,
      u.contents (φ y) = (declared m s y).map φ := by
    intro y hy
    obtain ⟨fs, hy'⟩ := hc.objects y ((walk_perm hs hc).subset (hall _ hy))
    exact h.contents (hall _ hy) hy'.features
  have hsize : (walk m s root).length ≤ u.size := by
    rw [h.size]
    exact Nat.le_add_left _ _
  rw [ObjectStore.tree_eq_listing, listing_eq_of_height (hlow.map φ hcontents) hsize,
    listing_map φ hcontents]
  rw [listing_unique hlow hheight]
  rfl

/-- Reading the document of a conforming tree settles all its references. -/
theorem read_write_settles (hs : s.Reachable) (hc : s.Conforms m root) (s' : ObjectStore) :
    ∃ (φ : ObjectId → Nat) (t : ObjectStore), read m none (write s root) s' = (.ok (φ root), t) ∧
      (∀ x ∈ walk m s root, ∀ y ∈ walk m s root, φ x = φ y → x = y) ∧
      Settling m s root φ (walk m s root) s' [] t := by
  have hperm := walk_perm hs.owned hc
  have hnodup := nodup_walk hs.owned hc
  have hconf : ∀ y ∈ walk m s root, ∃ fs, s.ObjectConforms m y fs := fun y hy =>
    hc.objects y (hperm.subset hy)
  let φ : ObjectId → Nat := fun x => s'.size + (walk m s root).idxOf x
  have hnum : (walk m s root).map φ = List.range' s'.size (walk m s root).length :=
    map_idxOf_eq_range' hnodup s'.size
  have hinj : ∀ x ∈ walk m s root, ∀ y ∈ walk m s root, φ x = φ y → x = y := by
    intro x hx y hy hxy
    exact (List.idxOf_inj hx).1 (Nat.add_left_cancel hxy)
  have hheight : HeightAtMost (declared m s) (s.size + 1) root :=
    (heightAtMost_declared hs.owned hc).mono (Nat.le_succ _)
  have hback : ReadsBack m s root φ (s.size + 1) (write s root).depth root :=
    readsBack hheight hconf (Nat.le_refl _)
  obtain ⟨members, st, hw, hrun, hext, -⟩ := hback none ⟨s', []⟩ hnum
  have hps : ∀ p ∈ st.pending, ∃ y ∈ walk m s root, ∃ fs,
      m.features (s.get y).type = .ok fs ∧ IsOpen s root φ fs y p := by
    obtain ⟨ps, hps, hmem⟩ := hext.pending
    rw [hps, List.nil_append]
    exact fun p hp => (hmem p).1 hp
  have hdone := (settling_of_extends hconf hext).settle_all hs hc hinj
    (fun x hx => lt_of_numbered hnum hx) st.pending hps
  refine ⟨φ, st.pending.foldl (resolvePending (φ root)) st.store, ?_, hinj, hdone⟩
  rw [write, hw] at hrun ⊢
  rw [read]
  simp only [hrun]

/-- Reading the document of a conforming tree into any store makes a copy of the tree there and
changes nothing else. -/
theorem read_write_isCopy (hs : s.Reachable) (hc : s.Conforms m root) (s' : ObjectStore) :
    ∃ φ t, read m none (write s root) s' = (.ok (φ root), t) ∧
      (∀ j < s'.size, t.get j = s'.get j) ∧ s.IsCopy root t φ := by
  have hperm := walk_perm hs.owned hc
  obtain ⟨φ, t, hread, hinj, hdone⟩ := read_write_settles hs hc s'
  refine ⟨φ, t, hread, hdone.kept, fun x hx y hy => ?_, ?_, fun x hx => ?_, fun x hx name => ?_⟩
  · exact hinj x (hperm.symm.subset hx) y (hperm.symm.subset hy)
  · rw [hdone.tree hs.owned hc]
    exact hperm.map φ
  · exact hdone.type x (hperm.symm.subset hx)
  · obtain ⟨fs, hx'⟩ := hc.objects x hx
    exact hdone.present? (hperm.symm.subset hx) hx'.features name

/-- Shelves of books: a collection, an enumeration, and references of both kinds. -/
def libraryModel : Metamodel :=
  Metamodel.empty.add ((Package.ofName "library" "urn:library").addAll [
    .enumDecl ⟨"Mood", ["dark", "light"]⟩,
    .classDecl ⟨"Item", true, false, [], [.single "label" .plain (.ecore "EString")]⟩,
    .classDecl ⟨"Book", false, false, [⟨"urn:library", "Item"⟩],
      [.single "pages" .plain (.ecore "EInt"),
        (Feature.single "sequels" .reference (.ofClass ⟨"urn:library", "Book"⟩)).many]⟩,
    .classDecl ⟨"Shelf", false, false, [⟨"urn:library", "Item"⟩],
      [(Feature.single "moods" .plain (.ofEnum ⟨"urn:library", "Mood"⟩)).many,
        .single "featured" .reference (.ofClass ⟨"urn:library", "Book"⟩),
        (Feature.single "books" .containment (.ofClass ⟨"urn:library", "Item"⟩)).many]⟩])

/-- A shelf that features the second of its two books; the books refer to each other. -/
def shelf : ObjectStore :=
  let made := ((((ObjectStore.empty.newObject ⟨"urn:library", "Shelf"⟩).2.newObject
    ⟨"urn:library", "Book"⟩).2.newObject ⟨"urn:library", "Book"⟩).2)
  let shelved := made.set 0 "books" (.containedMany [2, 1])
  let lit := shelved.set 0 "moods" (.list [.enumeration 1, .null])
  let described := lit.set 2 "pages" (.integer 7)
  (described.set 0 "featured" (.reference 1)).set 1 "sequels" (.references [2, 1])

theorem reachable_shelf : shelf.Reachable := by
  have h1 := ObjectStore.Reachable.empty.newObject ⟨"urn:library", "Shelf"⟩ (by decide)
  have h2 := h1.newObject ⟨"urn:library", "Book"⟩ (by decide)
  have h3 := h2.newObject ⟨"urn:library", "Book"⟩ (by decide)
  have h4 := h3.set 0 "books" (.containedMany [2, 1]) (by decide) (by decide)
  have h5 := h4.set 0 "moods" (.list [.enumeration 1, .null]) (by decide) (by decide)
  have h6 := h5.set 2 "pages" (.integer 7) (by decide) (by decide)
  have h7 := h6.set 0 "featured" (.reference 1) (by decide) (by decide)
  exact h7.set 1 "sequels" (.references [2, 1]) (by decide) (by decide)

theorem conforms_shelf : shelf.Conforms libraryModel 0 := by
  have hclass : ∀ x ∈ shelf.tree 0, ∃ fs, libraryModel.features (shelf.get x).type = .ok fs ∧
      (shelf.get x).type.Writable ∧ (∀ f ∈ fs, f.Writable) ∧
      ∀ e ∈ (shelf.get x).values.entries,
        (∃ f ∈ fs, f.name = e.1 ∧ f.holds e.2 = true ∧ e.2.isFinite = true) ∧
          ∀ t ∈ e.2.targets, t ∈ shelf.tree 0 := by
    have htree : shelf.tree 0 = [0, 2, 1] := by decide
    simp only [htree, List.forall_mem_cons]
    exact ⟨⟨_, rfl, by decide, by decide, by decide⟩, ⟨_, rfl, by decide, by decide, by decide⟩,
      ⟨_, rfl, by decide, by decide, by decide⟩, by simp⟩
  refine ⟨by decide, fun depth => ?_, fun x hx => ?_, fun x hx name v hv => ?_⟩
  · rw [ObjectStore.preorder_eq_listing]
    exact nodup_listing (k := 2) (by decide) (by decide) depth
  · obtain ⟨fs, hfs, hc, hf, he⟩ := hclass x hx
    exact ⟨fs, hfs, fun name v hv => (he _ (Table.get?_eq_some_iff.1 hv)).1, hc, hf⟩
  · obtain ⟨fs, -, -, -, he⟩ := hclass x hx
    exact (he _ (Table.get?_eq_some_iff.1 hv)).2

theorem read_write_shelf : shelf.Reachable ∧ shelf.Conforms libraryModel 0 ∧
    ∃ φ t, read libraryModel none (write shelf 0) shelf = (.ok (φ 0), t) ∧
      (∀ j < shelf.size, t.get j = shelf.get j) ∧ shelf.IsCopy 0 t φ :=
  ⟨reachable_shelf, conforms_shelf, read_write_isCopy reachable_shelf conforms_shelf shelf⟩

end ObjectDocument

end TreeInterchange
