import TreeInterchange.Proofs.ContainmentTrees
import TreeInterchange.Proofs.ConversionRuns
import TreeInterchange.Proofs.DocumentConformity

/-!
# Reading as a run of the store

Reading a document changes the store only by making objects and by storing values that own
objects made just before. The store of a document of its own therefore consists of objects that
are listed where their containers say, each before what it contains.
-/

namespace TreeInterchange

namespace ObjectStore

variable {s t : ObjectStore}

theorem RunsTo.owned (h : s.RunsTo t) (hs : s.Owned) : t.Owned := by
  induction h with
  | refl => exact hs
  | newObject _ c ih => exact ih.newObject c
  | set _ id feature v _ hv ih => exact ih.set v hv

theorem RunsTo.listed (h : s.RunsTo t) (ho : s.Owned) (hs : s.Listed) : t.Listed := by
  induction h with
  | refl => exact hs
  | newObject _ c ih => exact ih.newObject c
  | set hrun id feature v hid hv ih => exact ih.set (hrun.owned ho) hid v hv

end ObjectStore

namespace ObjectDocument

open StatefulRuns

variable {m : Metamodel} {depth : Nat} {st st' : ReadState} {f : Feature} {members : JsonMembers}
  {id : ObjectId}

/-- Reading an object at one depth is a run of the store. -/
def RunsWell (m : Metamodel) (depth : Nat) : Prop :=
  ∀ ms expected st y st', readObject m depth ms expected st = .ok y st' →
    st.store.RunsTo st'.store

theorem readOwned_runs (hread : RunsWell m depth) {j : Json} {y : ObjectId}
    (h : readOwned (readObject m depth) f j st = .ok y st') : st.store.RunsTo st'.store := by
  cases j with
  | object ms => exact hread ms _ st y st' h
  | _ => cases h

theorem mapM_runs (hread : RunsWell m depth) {js : List Json} {ids : List ObjectId}
    (h : js.mapM (readOwned (readObject m depth) f) st = .ok ids st') :
    st.store.RunsTo st'.store := by
  induction js generalizing st ids with
  | nil =>
    cases h
    exact .refl
  | cons j js ih =>
    obtain ⟨y, st₁, rest, hj, hrest, -⟩ := of_mapM_cons_ok h
    exact (readOwned_runs hread hj).trans (ih hrest)

theorem owned_runs (hread : RunsWell m depth) {j : Json} {v : FeatureValue}
    (h : owned (readObject m depth) f j st = .ok v st') : st.store.RunsTo st'.store := by
  unfold owned at h
  split at h
  · cases h
    exact .refl
  · split at h
    · obtain ⟨ids, _, hids, hdone⟩ := of_bind_ok h
      cases hdone
      exact mapM_runs hread hids
    · obtain ⟨y, _, hy, hdone⟩ := of_bind_ok h
      cases hdone
      exact readOwned_runs hread hy
  · split at h
    all_goals
      obtain ⟨y, _, hy, hdone⟩ := of_bind_ok h
      cases hdone
      exact readOwned_runs hread hy

theorem readFeature_runs (hread : RunsWell m depth) (hid : id < st.store.size)
    (h : readFeature m (readObject m depth) id members f st = .ok () st') :
    st.store.RunsTo st'.store := by
  unfold readFeature at h
  cases hj : JsonMembers.get? members f.name with
  | none =>
    simp only [hj] at h
    cases h
    exact .refl
  | some j =>
    cases hk : f.kind with
    | plain =>
      simp only [hj, hk] at h
      obtain ⟨v, _, hv, hset⟩ := of_bind_ok h
      obtain ⟨hplain, rfl⟩ := of_lift_ok hv
      cases hset
      refine .set .refl id f.name v hid ?_
      rw [children_eq_nil_of_holds (by simp [hk]) (holds_of_plainValue hk hplain)]
      simp
    | containment =>
      simp only [hj, hk] at h
      obtain ⟨v, st₁, hv, hset⟩ := of_bind_ok h
      cases hset
      have hrun := owned_runs hread hv
      obtain ⟨-, hmade, -⟩ := owned_makes (readsWell m depth) hv
      have hchildren := hmade.children fun _ _ _ => ReadsObject.lt
      exact hrun.set id f.name v (Nat.lt_of_lt_of_le hid hrun.size_le)
        fun c hc => (hchildren.2.1 c hc).2
    | reference =>
      simp only [hj, hk] at h
      cases h
      exact .set .refl id f.name .null hid (by simp [FeatureValue.children])

theorem readFeatures_runs (hread : RunsWell m depth) {fs : List Feature}
    (hid : id < st.store.size)
    (h : fs.forM (readFeature m (readObject m depth) id members) st = .ok () st') :
    st.store.RunsTo st'.store := by
  induction fs generalizing st with
  | nil =>
    cases h
    exact .refl
  | cons f fs ih =>
    obtain ⟨st₁, hf, hrest⟩ := of_forM_cons_ok h
    have hrun := readFeature_runs hread hid hf
    exact hrun.trans (ih (Nat.lt_of_lt_of_le hid hrun.size_le) hrest)

theorem runsWell (m : Metamodel) (depth : Nat) : RunsWell m depth := by
  induction depth with
  | zero =>
    intro ms expected st y st' h
    cases h
  | succ depth ih =>
    intro ms expected st y st' h
    unfold readObject at h
    obtain ⟨c, _, hc, hclass⟩ := of_bind_ok h
    rw [(of_lift_ok hc).2] at hclass
    obtain ⟨fs, _, hfs, hkeys⟩ := of_bind_ok hclass
    rw [(of_lift_ok hfs).2] at hkeys
    cases hkey : strayKey? ms fs with
    | some key =>
      simp only [hkey] at hkeys
      cases hkeys
    | none =>
      simp only [hkey] at hkeys
      obtain ⟨_, _, hnew, hmake⟩ := of_bind_ok hkeys
      cases hnew
      obtain ⟨_, _, hfeatures, hdone⟩ := of_bind_ok hmake
      cases hdone
      have hin : st.store.size < (st.store.newObject c).2.size := by simp
      exact (ObjectStore.RunsTo.newObject .refl c).trans (readFeatures_runs ih hin hfeatures)

theorem runsTo_resolvePending (root : ObjectId) {ps : List Pending} {s : ObjectStore}
    (hps : ∀ p ∈ ps, p.owner < s.size) : s.RunsTo (ps.foldl (resolvePending root) s) := by
  induction ps generalizing s with
  | nil => exact .refl
  | cons p ps ih =>
    have hset : s.RunsTo (resolvePending root s p) := by
      refine .set .refl p.owner p.feature _ (hps p (by simp)) ?_
      rw [children_referenceValue]
      simp
    exact hset.trans (ih fun q hq => Nat.lt_of_lt_of_le (hps q (by simp [hq])) hset.size_le)

theorem runsTo_read {default : Option ClassifierRef} {document : Json} {s u : ObjectStore}
    {root : ObjectId} (h : read m default document s = (.ok root, u)) : s.RunsTo u := by
  cases document with
  | object ms =>
    unfold read at h
    dsimp only at h
    split at h
    · rename_i hrun
      cases h
      obtain ⟨ps, hps, hat, -⟩ := (readsWell m _ _ _ _ _ _ hrun).grows.pending
      refine (runsWell m _ _ _ _ _ _ hrun).trans (runsTo_resolvePending _ fun p hp => ?_)
      rw [hps, List.nil_append] at hp
      exact (hat p hp).2.lt_size
    · cases h
  | _ => simp [read] at h

/-- As long as there is room, reading a document into a store that calls have built leaves such a
store. -/
theorem reachable_read {default : Option ClassifierRef} {document : Json} {s u : ObjectStore}
    {root : ObjectId} (hs : s.Reachable) (h : read m default document s = (.ok root, u))
    (hroom : u.size ≤ arenaRoom) : u.Reachable :=
  (runsTo_read h).reachable hs hroom

/-- A document that is read on its own makes objects that all follow their containers. -/
theorem layered_read {default : Option ClassifierRef} {document : Json} {u : ObjectStore}
    {root : ObjectId} (h : read m default document .empty = (.ok root, u)) : u.Layered := by
  have hrun := runsTo_read h
  have howned := hrun.owned ObjectStore.owned_empty
  refine ⟨howned, hrun.listed ObjectStore.owned_empty ObjectStore.listed_empty, ?_⟩
  obtain ⟨hroot, -, -, ms, -, hms⟩ := read_reads h
  have htree : u.tree root = List.range' root (u.size - root) := hms.preorder_eq (Nat.sub_le _ _)
  intro x hx g v hv
  have hmem : x ∈ u.tree root := by
    rw [htree, hroot, List.mem_range'_1]
    exact ⟨Nat.zero_le x, by simpa [ObjectStore.size, ObjectStore.empty] using hx⟩
  obtain ⟨d, ms', b, hread⟩ := hms.of_mem_preorder hmem
  obtain ⟨-, f, j, -, -, -, -, hvalue⟩ := hread.value hv
  cases hk : f.kind with
  | containment =>
    obtain ⟨a, b, hxa, -, howns⟩ := hvalue.owned hk
    obtain ⟨hnodup, hchildren, -⟩ := howns.children fun _ _ _ => ReadsObject.lt
    refine ⟨hnodup, fun c hc => ⟨?_, Nat.lt_of_lt_of_le hxa (hchildren c hc).1⟩⟩
    exact ObjectStore.lt_size_of_mem_contents howned
      (ObjectStore.mem_contents_iff.2 ⟨g, ObjectStore.mem_contentsIn_iff.2 ⟨v, hv, hc⟩⟩)
  | plain =>
    rw [children_eq_nil_of_holds (by simp [hk]) (holds_of_plainValue hk (hvalue.plain hk))]
    simp
  | reference =>
    rw [show v = resolvedValue u root f.isMany (targets j) from hvalue.reference hk, resolvedValue,
      children_referenceValue]
    simp

end ObjectDocument

end TreeInterchange
