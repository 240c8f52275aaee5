import TreeInterchange.Proofs.ForestRuns
import TreeInterchange.Proofs.TreeListings

/-!
# Where positions come from

A node without a position of its own has the one that its origin leads to. In every reachable
forest origins lead to nodes that exist, and since a way through origins either ends within as
many steps as there are nodes or goes round forever, nodes that are added later do not change
the position of a node.
-/

namespace TreeInterchange

namespace Forest

variable {f g : Forest} {id j k : NodeId} {name : String}

/-- Two forests of the same size whose nodes have the same positions and origins. -/
structure SamePlaces (f g : Forest) : Prop where
  size : g.size = f.size
  position : ∀ j, (g.get j).position = (f.get j).position
  origin : ∀ j, (g.get j).origin = (f.get j).origin

theorem SamePlaces.refl (f : Forest) : f.SamePlaces f := ⟨rfl, fun _ => rfl, fun _ => rfl⟩

theorem SamePlaces.trans {h : Forest} (hfg : f.SamePlaces g) (hgh : g.SamePlaces h) :
    f.SamePlaces h :=
  ⟨hgh.size.trans hfg.size, fun j => (hgh.position j).trans (hfg.position j),
    fun j => (hgh.origin j).trans (hfg.origin j)⟩

theorem samePlaces_update (f : Forest) (id : NodeId) {h : Node → Node}
    (hh : ∀ n, (h n).position = n.position ∧ (h n).origin = n.origin) :
    f.SamePlaces (f.update id h) := by
  have hnode : ∀ j, ((f.update id h).get j).position = (f.get j).position ∧
      ((f.update id h).get j).origin = (f.get j).origin := by
    intro j
    rw [get_update]
    split
    · exact hh _
    · exact ⟨rfl, rfl⟩
  exact ⟨size_update f id h, fun j => (hnode j).1, fun j => (hnode j).2⟩

theorem samePlaces_setSlot (f : Forest) (id : NodeId) (name : String) (v : Value) :
    f.SamePlaces (f.setSlot id name v) := samePlaces_update f id fun _ => ⟨rfl, rfl⟩

theorem samePlaces_setHolder (f : Forest) (id : NodeId) (h : Option Holder) :
    f.SamePlaces (f.setHolder id h) := samePlaces_update f id fun _ => ⟨rfl, rfl⟩

theorem samePlaces_detach (f : Forest) (id : NodeId) : f.SamePlaces (f.detach id) := by
  unfold detach
  split
  · exact (samePlaces_setHolder f id none).trans (samePlaces_update _ _ fun _ => ⟨rfl, rfl⟩)
  · exact .refl f

theorem samePlaces_adopt (f : Forest) (id : NodeId) (name : String) (c : NodeId) :
    f.SamePlaces (f.adopt id name c) :=
  (samePlaces_detach f c).trans (samePlaces_setHolder _ _ _)

theorem samePlaces_evict (f : Forest) (id : NodeId) (name : String) (v : Value) :
    f.SamePlaces (f.evict id name v) := by
  unfold evict
  generalize f.childrenIn id name = olds
  have hstart := samePlaces_setSlot f id name v
  generalize f.setSlot id name v = h at hstart
  induction olds generalizing h with
  | nil => exact hstart
  | cons old olds ih => exact ih _ (hstart.trans (samePlaces_setHolder h old none))

theorem samePlaces_pushChild (f : Forest) (id : NodeId) (name : String) (c : NodeId) :
    f.SamePlaces (f.pushChild id name c) := by
  unfold pushChild
  split <;> exact samePlaces_setSlot _ _ _ _

theorem samePlaces_pushReference (f : Forest) (id : NodeId) (name : String) (c : NodeId) :
    f.SamePlaces (f.pushReference id name c) := by
  unfold pushReference
  split <;> exact samePlaces_setSlot _ _ _ _

end Forest

namespace Edit

variable {α β : Type}

/-- Whether made or refused, the edit leaves all positions and origins as they are. -/
def KeepsPlaces (e : Edit α) : Prop := ∀ f,
  match e f with
  | .ok _ g => f.SamePlaces g
  | .error _ g => f.SamePlaces g

theorem KeepsPlaces.bind {x : Edit α} {k : α → Edit β} (hx : x.KeepsPlaces)
    (hk : ∀ a, (k a).KeepsPlaces) : (x >>= k : Edit β).KeepsPlaces := by
  intro f
  have hf := hx f
  cases h : x f with
  | error e g =>
    rw [h] at hf
    rw [StatefulRuns.bind_error h]
    exact hf
  | ok a g =>
    rw [h] at hf
    rw [StatefulRuns.bind_ok h]
    have hg := hk a g
    cases h' : k a g with
    | ok b u => rw [h'] at hg; exact hf.trans hg
    | error e u => rw [h'] at hg; exact hf.trans hg

theorem keepsPlaces_check (test : Forest → Except ModelError α) :
    (Edit.check test).KeepsPlaces := by
  intro f
  cases h : test f with
  | ok a => rw [check_ok h]; exact .refl f
  | error e => rw [check_error h]; exact .refl f

theorem keepsPlaces_modify {h : Forest → Forest} (hh : ∀ f : Forest, f.SamePlaces (h f)) :
    (modify h : Edit Unit).KeepsPlaces := hh

theorem keepsPlaces_forM {step : α → Edit Unit} (hstep : ∀ a, (step a).KeepsPlaces)
    (as : List α) : (as.forM step : Edit Unit).KeepsPlaces := by
  induction as with
  | nil => exact fun f => .refl f
  | cons a as ih => exact (hstep a).bind fun _ => ih

theorem keepsPlaces_setChild (id : NodeId) (name : String) (child : Option NodeId) :
    (Forest.setChild id name child).KeepsPlaces := by
  apply (keepsPlaces_check _).bind
  intro p
  cases child with
  | none => exact keepsPlaces_modify fun f => f.samePlaces_evict id name .null
  | some c =>
    refine (keepsPlaces_check _).bind fun _ => keepsPlaces_modify fun f => ?_
    exact ((f.samePlaces_evict id name .null).trans (Forest.samePlaces_adopt _ _ _ _)).trans
      (Forest.samePlaces_setSlot _ _ _ _)

theorem keepsPlaces_addChild (id : NodeId) (name : String) (c : NodeId) :
    (Forest.addChild id name c).KeepsPlaces :=
  (keepsPlaces_check _).bind fun p => (keepsPlaces_check _).bind fun _ =>
    keepsPlaces_modify fun f =>
      (f.samePlaces_adopt id p.name c).trans (Forest.samePlaces_pushChild _ _ _ _)

theorem keepsPlaces_setChildren (id : NodeId) (name : String) (cs : List NodeId) :
    (Forest.setChildren id name cs).KeepsPlaces :=
  (keepsPlaces_check _).bind fun _ => (keepsPlaces_check _).bind fun _ =>
    (keepsPlaces_modify fun f => f.samePlaces_evict id name (.nodes [])).bind fun _ =>
      keepsPlaces_forM (keepsPlaces_addChild id name) cs

theorem keepsPlaces_setValue (id : NodeId) (name : String) (v : Value) :
    (Forest.setValue id name v).KeepsPlaces :=
  (keepsPlaces_check _).bind fun _ => keepsPlaces_modify fun f => f.samePlaces_setSlot id name v

theorem keepsPlaces_setReference (id : NodeId) (name : String) (target : Option NodeId) :
    (Forest.setReference id name target).KeepsPlaces :=
  (keepsPlaces_check _).bind fun _ => keepsPlaces_modify fun f => f.samePlaces_setSlot id name _

theorem keepsPlaces_addReference (id : NodeId) (name : String) (target : NodeId) :
    (Forest.addReference id name target).KeepsPlaces :=
  (keepsPlaces_check _).bind fun _ =>
    keepsPlaces_modify fun f => f.samePlaces_pushReference id name target

theorem keepsPlaces_setReferences (id : NodeId) (name : String) (targets : List NodeId) :
    (Forest.setReferences id name targets).KeepsPlaces :=
  (keepsPlaces_check _).bind fun _ => keepsPlaces_modify fun f => f.samePlaces_setSlot id name _

theorem keepsPlaces_setProperty (id : NodeId) (name : String) (v : Value) :
    (Forest.setProperty id name v).KeepsPlaces := by
  apply (keepsPlaces_check _).bind
  intro p
  split
  · exact keepsPlaces_setChild _ _ _
  · exact keepsPlaces_setChild _ _ _
  · exact keepsPlaces_setChildren _ _ _
  · exact keepsPlaces_setChildren _ _ _
  · exact keepsPlaces_setReference _ _ _
  · exact keepsPlaces_setReference _ _ _
  · exact keepsPlaces_setReferences _ _ _
  · exact keepsPlaces_setReferences _ _ _
  · exact keepsPlaces_setValue _ _ _
  · exact keepsPlaces_check _

theorem KeepsPlaces.stateAfter {e : Edit Unit} (h : e.KeepsPlaces) (f : Forest) :
    f.SamePlaces (e.stateAfter f) := by
  have hf := h f
  unfold Edit.stateAfter
  cases he : e f with
  | ok a g => rw [he] at hf; exact hf
  | error err g => rw [he] at hf; exact hf

end Edit

namespace Forest

variable {f g : Forest} {id j k : NodeId}

/-- Only three operations do more than change slots and holders. -/
theorem samePlaces_or (op : Operation) (f : Forest) :
    (∃ t, op = .newNode t) ∨ (∃ id p, op = .setPosition id p) ∨ (∃ id o, op = .setOrigin id o) ∨
      f.SamePlaces (op.edit.stateAfter f) := by
  cases op with
  | newNode t => exact .inl ⟨t, rfl⟩
  | setPosition id p => exact .inr (.inl ⟨id, p, rfl⟩)
  | setOrigin id o => exact .inr (.inr (.inl ⟨id, o, rfl⟩))
  | setChild id name c =>
    exact .inr (.inr (.inr ((Edit.keepsPlaces_setChild id name c).stateAfter f)))
  | addChild id name c =>
    exact .inr (.inr (.inr ((Edit.keepsPlaces_addChild id name c).stateAfter f)))
  | setChildren id name cs =>
    exact .inr (.inr (.inr ((Edit.keepsPlaces_setChildren id name cs).stateAfter f)))
  | setValue id name v =>
    exact .inr (.inr (.inr ((Edit.keepsPlaces_setValue id name v).stateAfter f)))
  | setReference id name target =>
    exact .inr (.inr (.inr ((Edit.keepsPlaces_setReference id name target).stateAfter f)))
  | addReference id name target =>
    exact .inr (.inr (.inr ((Edit.keepsPlaces_addReference id name target).stateAfter f)))
  | setProperty id name v =>
    exact .inr (.inr (.inr ((Edit.keepsPlaces_setProperty id name v).stateAfter f)))
  | detach id => exact .inr (.inr (.inr (f.samePlaces_detach id)))

theorem size_le_stateAfter (op : Operation) (f : Forest) :
    f.size ≤ (op.edit.stateAfter f).size := by
  obtain ⟨t, rfl⟩ | ⟨id, p, rfl⟩ | ⟨id, o, rfl⟩ | h := samePlaces_or op f
  · exact Nat.le_of_lt (f.size_newNode t ▸ Nat.lt_succ_self f.size)
  · exact Nat.le_of_eq (f.size_update id _).symm
  · exact Nat.le_of_eq (f.size_update id _).symm
  · exact Nat.le_of_eq h.size.symm

/-- Origins lead to nodes of the forest. -/
def OriginsKnown (f : Forest) : Prop := ∀ j k, (f.get j).origin = some (.node k) → k < f.size

theorem OriginsKnown.congr (hf : f.OriginsKnown) (h : f.SamePlaces g) : g.OriginsKnown :=
  fun j k hk => by
    rw [h.size]
    exact hf j k (h.origin j ▸ hk)

theorem OriginsKnown.step (hf : f.OriginsKnown) {op : Operation} (ha : op.Admissible f) :
    (op.edit.stateAfter f).OriginsKnown := by
  obtain ⟨t, rfl⟩ | ⟨id, p, rfl⟩ | ⟨id, o, rfl⟩ | h := samePlaces_or op f
  · intro j k hk
    change ((f.newNode t).2.get j).origin = _ at hk
    change k < (f.newNode t).2.size
    rw [size_newNode]
    rw [get_newNode] at hk
    split at hk
    · cases hk
    · exact Nat.lt_succ_of_lt (hf j k hk)
  · intro j k hk
    change ((f.setPosition id p).get j).origin = _ at hk
    change k < (f.setPosition id p).size
    rw [setPosition, get_update] at hk
    rw [setPosition, size_update]
    split at hk
    · exact hf j k hk
    · exact hf j k hk
  · intro j k hk
    change ((f.setOrigin id o).get j).origin = _ at hk
    change k < (f.setOrigin id o).size
    rw [setOrigin, get_update] at hk
    rw [setOrigin, size_update]
    split at hk
    · have hk' : o = some (.node k) := hk
      subst hk'
      exact ha.2 k (by simp [Operation.nodes])
    · exact hf j k hk
  · exact hf.congr h

theorem Reachable.originsKnown (h : f.Reachable) : f.OriginsKnown := by
  induction h with
  | empty =>
    intro j k hk
    rw [get_of_size_le (Nat.zero_le j)] at hk
    cases hk
  | step op _ ha _ ih => exact ih.step ha

/-- Where the search for the position of a node goes on. -/
def onward (f : Forest) (j : NodeId) : List NodeId :=
  match (f.get j).position, (f.get j).origin with
  | none, some (.node k) => [k]
  | _, _ => []

theorem onward_cases (f : Forest) (j : NodeId) :
    (∃ k, (f.get j).origin = some (.node k) ∧ f.onward j = [k] ∧
      ∀ n, f.positionWithin (n + 1) j = f.positionWithin n k) ∨
    f.onward j = [] ∧ ∃ p, ∀ n, f.positionWithin (n + 1) j = p := by
  cases hp : (f.get j).position with
  | some p => exact .inr ⟨by simp [onward, hp], some p, fun n => by simp [positionWithin, hp]⟩
  | none =>
    cases ho : (f.get j).origin with
    | none => exact .inr ⟨by simp [onward, hp, ho], none, fun n => by simp [positionWithin, hp, ho]⟩
    | some o =>
      cases o with
      | node k =>
        exact .inl ⟨k, rfl, by simp [onward, hp, ho], fun n => by simp [positionWithin, hp, ho]⟩
      | position p =>
        exact .inr ⟨by simp [onward, hp, ho], some p, fun n => by simp [positionWithin, hp, ho]⟩
      | parseTree o =>
        exact .inr ⟨by simp [onward, hp, ho], o.position, fun n => by simp [positionWithin, hp, ho]⟩

theorem positionWithin_of_height {m n : Nat} (h : HeightAtMost f.onward m j) (hmn : m ≤ n) :
    f.positionWithin n j = f.positionWithin m j := by
  induction m generalizing j n with
  | zero => exact h.elim
  | succ m ih =>
    obtain ⟨n, rfl⟩ : ∃ l, n = l + 1 := ⟨n - 1, by omega⟩
    rcases f.onward_cases j with ⟨k, -, hk, hstep⟩ | ⟨-, p, hp⟩
    · rw [hstep, hstep, ih (h k (by simp [hk])) (by omega)]
    · rw [hp, hp]

theorem positionWithin_of_endless (h : ∀ m, ¬ HeightAtMost f.onward m j) (n : Nat) :
    f.positionWithin n j = none := by
  induction n generalizing j with
  | zero => rfl
  | succ n ih =>
    rcases f.onward_cases j with ⟨k, -, hk, hstep⟩ | ⟨hnil, -⟩
    · rw [hstep]
      refine ih fun m hm => h (m + 1) fun b hb => ?_
      rw [hk, List.mem_singleton] at hb
      exact hb ▸ hm
    · exact absurd (fun b hb => by simp [hnil] at hb) (h 1)

theorem nodup_onward {m : Nat} (h : HeightAtMost f.onward m j) : (listing f.onward m j).Nodup := by
  induction m generalizing j with
  | zero => exact h.elim
  | succ m ih =>
    rw [listing]
    rcases f.onward_cases j with ⟨k, -, hk, -⟩ | ⟨hnil, -⟩
    · have hkm := h k (by simp [hk])
      rw [hk, List.flatMap_singleton, List.nodup_cons]
      exact ⟨fun hj => not_mem_next_of_height hkm hj (by simp [hk]), ih hkm⟩
    · rw [hnil]
      simp

/-- More steps than there are nodes make no difference. -/
theorem positionWithin_stable (hf : f.OriginsKnown) {n : Nat} (hn : f.size < n) (hj : j < f.size) :
    f.positionWithin n j = f.position j := by
  have hin : ∀ m l, l < f.size → listing f.onward m l ⊆ List.range f.size := by
    intro m
    induction m with
    | zero => simp [listing]
    | succ m ih =>
      intro l hl z hz
      rcases mem_listing_succ.1 hz with rfl | ⟨c, hc, hz⟩
      · exact List.mem_range.2 hl
      · rcases f.onward_cases l with ⟨k, hk, hk', -⟩ | ⟨hnil, -⟩
        · rw [hk', List.mem_singleton] at hc
          exact ih k (hf l k hk) (hc ▸ hz)
        · simp [hnil] at hc
  by_cases hend : ∃ m, HeightAtMost f.onward m j
  · obtain ⟨m, hm⟩ := hend
    have hshort : HeightAtMost f.onward (List.range f.size).length j :=
      heightAtMost_of_nodup (nodup_listing hm (nodup_onward hm) _) (hin _ j hj)
    rw [List.length_range] at hshort
    rw [position, positionWithin_of_height hshort (Nat.le_of_lt hn),
      positionWithin_of_height hshort (Nat.le_succ _)]
  · rw [not_exists] at hend
    rw [position, positionWithin_of_endless hend, positionWithin_of_endless hend]

/-- Nodes that are added later do not change the position of a node. -/
theorem positionWithin_of_kept (hf : f.OriginsKnown) (hkept : ∀ j < f.size, g.get j = f.get j)
    {n : Nat} (hn : f.size < n) (hj : j < f.size) : g.positionWithin n j = f.position j := by
  rw [← positionWithin_stable hf hn hj]
  clear hn
  induction n generalizing j with
  | zero => rfl
  | succ n ih =>
    simp only [positionWithin, hkept j hj]
    split
    · rfl
    · rfl
    · rfl
    · rename_i k _ hk
      exact ih (hf j k hk)
    · rfl

end Forest

end TreeInterchange
