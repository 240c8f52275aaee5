import TreeInterchange.Proofs.ContainmentNesting

/-!
# Objects that are listed twice

A value is kept as it was given, so a list that names an object twice is stored with both
entries. This is the only way in which an object comes to be listed twice: storing a value takes
its objects out of all other features, wherever and however often they were listed. Along a run
no object is listed twice just when no stored value names an object twice.
-/

namespace TreeInterchange.ObjectStore

/-- A call that changes a store. -/
inductive Change where
  | newObject (c : ClassifierRef)
  | set (id : ObjectId) (feature : String) (v : FeatureValue)

namespace Change

def apply (s : ObjectStore) : Change → ObjectStore
  | .newObject c => (s.newObject c).2
  | .set id feature v => s.set id feature v

/-- The objects that the call stores, as often as the value names them. -/
def stored : Change → List ObjectId
  | .newObject _ => []
  | .set _ _ v => v.children

end Change

/-- The objects of a call exist, and none of them is put below itself. -/
def Allows (s : ObjectStore) : Change → Prop
  | .newObject _ => True
  | .set id _ v => id < s.size ∧ (∀ c ∈ v.children, c < s.size) ∧
      ∀ c ∈ v.children, c ≠ id ∧ ¬ s.Above c id

/-- Each call is allowed by the store that the calls before it have made. -/
def AllowsAll (s : ObjectStore) : List Change → Prop
  | [] => True
  | c :: cs => s.Allows c ∧ (c.apply s).AllowsAll cs

/-- The store that a list of calls makes. -/
def after (s : ObjectStore) (changes : List Change) : ObjectStore := changes.foldl Change.apply s

variable {s : ObjectStore} {id : ObjectId} {feature : String}

theorem Nested.apply (h : s.Nested) {c : Change} (hc : s.Allows c) : (c.apply s).Nested := by
  cases c with
  | newObject c => exact h.newObject c
  | set id feature v =>
    obtain ⟨hid, hv, hnot⟩ := hc
    exact h.set id feature v hid hv hnot

/-- No object is listed twice. -/
def ListsOnce (s : ObjectStore) : Prop := ∀ p, (s.contents p).Nodup

theorem Owned.listsOnce_iff (h : s.Owned) : s.ListsOnce ↔ ∀ p g, (s.contentsIn p g).Nodup :=
  forall_congr' fun _ => h.nodup_contents_iff_contentsIn

theorem listsOnce_empty : ObjectStore.empty.ListsOnce := by
  refine owned_empty.listsOnce_iff.2 fun p g => ?_
  have hnone : ObjectStore.empty.value? p g = none := by
    rw [value?, get_of_size_le (Nat.zero_le p)]
    rfl
  rw [contentsIn_eq_nil hnone]
  exact List.nodup_nil

/-- A call leaves every object listed once just when the value that it stores names every object
once. -/
theorem ListsOnce.apply_iff (hs : s.ListsOnce) (h : s.Nested) {c : Change} (hc : s.Allows c) :
    (c.apply s).ListsOnce ↔ c.stored.Nodup := by
  rw [(h.apply hc).owned.listsOnce_iff]
  rw [h.owned.listsOnce_iff] at hs
  cases c with
  | newObject c => simpa [Change.apply, Change.stored] using hs
  | set id feature v =>
    obtain ⟨hid, hv, -⟩ := hc
    simp only [Change.apply, Change.stored]
    constructor
    · intro hall
      have hthis := hall id feature
      rwa [h.owned.contentsIn_set v hv, if_pos ⟨rfl, rfl, hid⟩] at hthis
    · intro hnodup p g
      rw [h.owned.contentsIn_set v hv]
      split
      · exact hnodup
      · exact (hs p g).filter _

theorem ListsOnce.after_iff (hs : s.ListsOnce) (h : s.Nested) {changes : List Change}
    (hrun : s.AllowsAll changes) :
    (∀ k, (s.after (changes.take k)).ListsOnce) ↔ ∀ c ∈ changes, c.stored.Nodup := by
  induction changes generalizing s with
  | nil => simpa [after] using hs
  | cons c cs ih =>
    obtain ⟨hc, hcs⟩ := hrun
    have hstep := hs.apply_iff h hc
    rw [List.forall_mem_cons]
    constructor
    · intro hall
      have hnext : (c.apply s).ListsOnce := hall 1
      exact ⟨hstep.1 hnext, (ih hnext (h.apply hc) hcs).1 fun k => hall (k + 1)⟩
    · rintro ⟨hthis, hothers⟩ k
      cases k with
      | zero => exact hs
      | succ k => exact (ih (hstep.2 hthis) (h.apply hc) hcs).2 hothers k

/-- From the empty store on, no object is ever listed twice just when no value that is stored names
an object twice. -/
theorem nodup_contents_iff {changes : List Change} (h : ObjectStore.empty.AllowsAll changes) :
    (∀ k p, ((ObjectStore.empty.after (changes.take k)).contents p).Nodup) ↔
      ∀ c ∈ changes, c.stored.Nodup :=
  listsOnce_empty.after_iff .empty h

theorem allows_set {v : FeatureValue} (hid : id < s.size)
    (hv : ∀ c ∈ v.children, c < s.size ∧ c ≠ id) (hroot : s.container? id = none) :
    s.Allows (.set id feature v) :=
  ⟨hid, fun c hc => (hv c hc).1, fun c hc => ⟨(hv c hc).2, not_above_of_container? hroot c⟩⟩

/-- A box with a lid goes into a chest, next to another box, and then the lid moves to the chest. -/
def packing : List Change := [.newObject default, .newObject default, .newObject default,
  .newObject default, .set 1 "lid" (.contained 3), .set 0 "boxes" (.containedMany [2, 1]),
  .set 0 "lid" (.contained 3)]

theorem nodup_contents_packing : ObjectStore.empty.AllowsAll packing ∧
    (∀ k p, ((ObjectStore.empty.after (packing.take k)).contents p).Nodup) ∧
    (ObjectStore.empty.after packing).contents 0 = [2, 1, 3] := by
  have hrun : ObjectStore.empty.AllowsAll packing := by
    refine ⟨trivial, trivial, trivial, trivial, ?_, ?_, ?_, trivial⟩
    · exact allows_set (by decide) (by decide) rfl
    · exact allows_set (by decide) (by decide) rfl
    · exact allows_set (by decide) (by decide) rfl
  exact ⟨hrun, (nodup_contents_iff hrun).2 (by decide), by decide⟩

/-- A chest whose list of boxes names the same box twice. -/
def doubling : List Change := [.newObject default, .newObject default,
  .set 0 "boxes" (.containedMany [1, 1])]

/-- The chest lists its box twice. -/
theorem not_nodup_contents_doubling : ObjectStore.empty.AllowsAll doubling ∧
    (ObjectStore.empty.after doubling).contents 0 = [1, 1] ∧
    ¬ ((ObjectStore.empty.after doubling).contents 0).Nodup := by
  have hrun : ObjectStore.empty.AllowsAll doubling :=
    ⟨trivial, trivial, allows_set (by decide) (by decide) rfl, trivial⟩
  exact ⟨hrun, by decide, by decide⟩

end TreeInterchange.ObjectStore
