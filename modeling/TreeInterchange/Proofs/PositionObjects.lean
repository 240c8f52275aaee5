import TreeInterchange.Conversion.Objects
import TreeInterchange.Proofs.ObjectConformity

/-!
# Positions as objects

A position becomes three new objects, from which it can be read again. Nothing that was in
the store before changes.
-/

namespace TreeInterchange

namespace ObjectStore

variable {s t : ObjectStore} {id : ObjectId}

theorem get_newObject_of_lt (c : ClassifierRef) (h : id < s.size) :
    (s.newObject c).2.get id = s.get id := by
  rw [get_newObject, if_neg (Nat.ne_of_lt h)]

theorem get_newObject_self (s : ObjectStore) (c : ClassifierRef) :
    (s.newObject c).2.get s.size = .ofType c := by
  rw [get_newObject, if_pos rfl]

theorem value?_newObject_self (s : ObjectStore) (c : ClassifierRef) (feature : String) :
    (s.newObject c).2.value? s.size feature = none := by
  rw [value?, get_newObject_self]
  rfl

theorem set_flat (s : ObjectStore) {id : Nat} {feature : String} {v : FeatureValue}
    (hid : id < s.size) (hv : v.children = []) (hnone : s.value? id feature = none) :
    (∀ (j : Nat) g, (s.set id feature v).value? j g =
      if j = id ∧ g = feature then some v else s.value? j g) ∧
    (∀ j : Nat, j ≠ id → (s.set id feature v).get j = s.get j) ∧
    ∀ j, ((s.set id feature v).get j).type = (s.get j).type ∧
      ((s.set id feature v).get j).container = (s.get j).container := by
  have hn : v.children.Nodup := by rw [hv]; exact List.nodup_nil
  have hfree : ∀ c ∈ v.children, (s.get c).container = none := by rw [hv]; simp
  have hin := contentsIn_eq_nil hnone
  refine ⟨fun j g => ?_, fun j hj => get_set_fresh hn hfree hin hj (by simp [hv]),
    fun j => ⟨(set_fresh hn hfree hin j).1, ?_⟩⟩
  · rw [value?_set_fresh hn hfree hin]
    simp [hid]
  · rw [(set_fresh hn hfree hin j).2.2]
    simp [hv]

theorem set_contained (s : ObjectStore) {id : Nat} {feature : String} {c : Nat}
    (hid : id < s.size) (hc : id ≠ c) (hfree : (s.get c).container = none)
    (hnone : s.value? id feature = none) :
    (∀ (j : Nat) g, (s.set id feature (.contained c)).value? j g =
      if j = id ∧ g = feature then some (.contained c) else s.value? j g) ∧
    (∀ j : Nat, j ≠ id → j ≠ c → (s.set id feature (.contained c)).get j = s.get j) ∧
    ((s.set id feature (.contained c)).get id).container = (s.get id).container ∧
    ∀ j : Nat, ((s.set id feature (.contained c)).get j).type = (s.get j).type ∧
      (j ≠ id → ((s.set id feature (.contained c)).get j).values = (s.get j).values) := by
  have hn : (FeatureValue.contained c).children.Nodup := List.nodup_singleton c
  have hfree' : ∀ d ∈ (FeatureValue.contained c).children, (s.get d).container = none := by
    simpa [FeatureValue.children] using hfree
  have hin := contentsIn_eq_nil hnone
  refine ⟨fun j g => ?_, fun j hj hjc => ?_, ?_,
    fun j => ⟨(set_fresh hn hfree' hin j).1, fun hj => ?_⟩⟩
  · rw [value?_set_fresh hn hfree' hin]
    simp [hid]
  · exact get_set_fresh hn hfree' hin hj (by simpa [FeatureValue.children] using hjc)
  · rw [(set_fresh hn hfree' hin id).2.2, if_neg]
    simp [FeatureValue.children, hc]
  · rw [(set_fresh hn hfree' hin j).2.1, if_neg fun h => hj h.1]

end ObjectStore

theorem Number.toUInt32?_ofNat (n : UInt32) :
    Number.toUInt32? (Int64.ofNat n.toNat).toInt = some n := by
  have hlt : n.toNat < UInt32.size := n.toNat_lt_size
  have hsize : UInt32.size = 4294967296 := rfl
  have hint : (Int64.ofNat n.toNat).toInt = (n.toNat : Int) :=
    Int64.toInt_ofNat_of_lt (by omega)
  rw [hint, Number.toUInt32?_toNat]

namespace ToObjects

/-- The object of a point: its line and its column, and nothing else. -/
structure PointAt (t : ObjectStore) (x : Nat) (p : Point) : Prop where
  type : (t.get x).type = .ast "Point"
  values : ∀ g, t.value? x g =
    if g = "line" then some (.integer (Int64.ofNat p.line.toNat))
    else if g = "column" then some (.integer (Int64.ofNat p.column.toNat)) else none

theorem PointAt.congr {s t : ObjectStore} {x : Nat} {p : Point} (h : PointAt s x p)
    (htype : (t.get x).type = (s.get x).type) (hvalues : (t.get x).values = (s.get x).values) :
    PointAt t x p := by
  refine ⟨htype.trans h.type, fun g => ?_⟩
  rw [ObjectStore.value?, hvalues]
  exact h.values g

theorem PointAt.point? {t : ObjectStore} {x : Nat} {p : Point} (h : PointAt t x p) :
    t.point? x = some p := by
  have hline := h.values "line"
  have hcolumn := h.values "column"
  simp only [if_true, String.reduceEq, if_false] at hline hcolumn
  simp only [ObjectStore.point?, hline, hcolumn, FeatureValue.integer?, Option.bind_eq_bind,
    Option.bind_some, Number.toUInt32?_ofNat]
  rfl

/-- What making an object for a point leaves. -/
theorem pointObject_spec (s : ObjectStore) (p : Point) :
    (pointObject s p).1 = s.size ∧ (pointObject s p).2.size = s.size + 1 ∧
    (∀ j < s.size, (pointObject s p).2.get j = s.get j) ∧
    ((pointObject s p).2.get s.size).container = none ∧
    PointAt (pointObject s p).2 s.size p := by
  obtain ⟨s₁, hs₁⟩ : ∃ s₁, s₁ = (s.newObject (.ast "Point")).2 := ⟨_, rfl⟩
  obtain ⟨s₂, hs₂⟩ : ∃ s₂, s₂ = s₁.set s.size "line" (.integer (Int64.ofNat p.line.toNat)) :=
    ⟨_, rfl⟩
  obtain ⟨s₃, hs₃⟩ : ∃ s₃, s₃ = s₂.set s.size "column" (.integer (Int64.ofNat p.column.toNat)) :=
    ⟨_, rfl⟩
  have hmade : pointObject s p = (s.size, s₃) := by
    rw [hs₃, hs₂, hs₁]
    rfl
  have hsize₁ : s₁.size = s.size + 1 := by simp [hs₁]
  have hsize₂ : s₂.size = s.size + 1 := by rw [hs₂, ObjectStore.size_set, hsize₁]
  have hnone : ∀ g, s₁.value? s.size g = none := by
    rw [hs₁]
    exact s.value?_newObject_self _
  obtain ⟨hvalue₂, hget₂, hsame₂⟩ := hs₂ ▸ s₁.set_flat (v := .integer (Int64.ofNat p.line.toNat))
    (by rw [hsize₁]; exact Nat.lt_succ_self _) rfl (hnone "line")
  have hnone₂ : s₂.value? s.size "column" = none := by rw [hvalue₂, hnone]; simp
  obtain ⟨hvalue₃, hget₃, hsame₃⟩ := hs₃ ▸ s₂.set_flat
    (v := .integer (Int64.ofNat p.column.toNat)) (by rw [hsize₂]; exact Nat.lt_succ_self _) rfl
    hnone₂
  rw [hmade]
  refine ⟨rfl, ?_, fun j hj => ?_, ?_, ?_, fun g => ?_⟩
  · simp only [hs₃, ObjectStore.size_set, hsize₂]
  · have hne : j ≠ s.size := Nat.ne_of_lt hj
    rw [hget₃ j hne, hget₂ j hne, hs₁, ObjectStore.get_newObject_of_lt _ hj]
  · rw [(hsame₃ _).2, (hsame₂ _).2, hs₁, ObjectStore.get_newObject_self]
    rfl
  · rw [(hsame₃ _).1, (hsame₂ _).1, hs₁, ObjectStore.get_newObject_self]
    rfl
  · rw [hvalue₃, hvalue₂, hnone]
    by_cases hline : g = "line"
    · simp [hline]
    · simp [hline]

/-- The objects of a position: the first holds the other two, and nothing else. -/
structure PositionAt (t : ObjectStore) (o : Nat) (p : Position) : Prop where
  type : (t.get o).type = .ast "Position"
  values : ∀ g, t.value? o g =
    if g = "start" then some (.contained (o + 1))
    else if g = "end" then some (.contained (o + 2)) else none
  first : PointAt t (o + 1) p.first
  last : PointAt t (o + 2) p.last

theorem PositionAt.congr {s t : ObjectStore} {o : Nat} {p : Position} (h : PositionAt s o p)
    (hsame : ∀ j, o ≤ j → j ≤ o + 2 →
      (t.get j).type = (s.get j).type ∧ (t.get j).values = (s.get j).values) :
    PositionAt t o p := by
  obtain ⟨htype, hvalues⟩ := hsame o (by omega) (by omega)
  obtain ⟨htype₁, hvalues₁⟩ := hsame (o + 1) (by omega) (by omega)
  obtain ⟨htype₂, hvalues₂⟩ := hsame (o + 2) (by omega) (by omega)
  refine ⟨htype.trans h.type, fun g => ?_, h.first.congr htype₁ hvalues₁,
    h.last.congr htype₂ hvalues₂⟩
  rw [ObjectStore.value?, hvalues]
  exact h.values g

theorem PositionAt.position? {t : ObjectStore} {x o : Nat} {p : Position} (h : PositionAt t o p)
    (hx : t.value? x "position" = some (.contained o)) : t.position? x = some p := by
  simp [ObjectStore.position?, ObjectStore.contained?, hx, h.values, h.first.point?, h.last.point?]

theorem positionObject_spec (s : ObjectStore) (p : Position) :
    (positionObject p s).1 = s.size ∧ (positionObject p s).2.size = s.size + 3 ∧
    (∀ j < s.size, (positionObject p s).2.get j = s.get j) ∧
    ((positionObject p s).2.get s.size).container = none ∧
    PositionAt (positionObject p s).2 s.size p := by
  obtain ⟨s₁, hs₁⟩ : ∃ s₁, s₁ = (s.newObject (.ast "Position")).2 := ⟨_, rfl⟩
  obtain ⟨s₂, hs₂⟩ : ∃ s₂, s₂ = (pointObject s₁ p.first).2 := ⟨_, rfl⟩
  obtain ⟨s₃, hs₃⟩ : ∃ s₃, s₃ = s₂.set s.size "start" (.contained (s.size + 1)) := ⟨_, rfl⟩
  obtain ⟨s₄, hs₄⟩ : ∃ s₄, s₄ = (pointObject s₃ p.last).2 := ⟨_, rfl⟩
  obtain ⟨s₅, hs₅⟩ : ∃ s₅, s₅ = s₄.set s.size "end" (.contained (s.size + 2)) := ⟨_, rfl⟩
  have hnew : s.newObject (.ast "Position") = (s.size, s₁) := Prod.ext rfl hs₁.symm
  have hsize₁ : s₁.size = s.size + 1 := by simp [hs₁]
  obtain ⟨hid₂, hsize₂, hget₂, hcont₂, hpoint₂⟩ := hs₂ ▸ pointObject_spec s₁ p.first
  rw [hsize₁] at hid₂ hsize₂ hget₂ hcont₂ hpoint₂
  have hsize₃ : s₃.size = s.size + 2 := by rw [hs₃, ObjectStore.size_set, hsize₂]
  obtain ⟨hid₄, hsize₄, hget₄, hcont₄, hpoint₄⟩ := hs₄ ▸ pointObject_spec s₃ p.last
  rw [hsize₃] at hid₄ hsize₄ hget₄ hcont₄ hpoint₄
  have hmade : positionObject p s = (s.size, s₅) := by
    have hfirst : pointObject s₁ p.first = (s.size + 1, s₂) := Prod.ext hid₂ hs₂.symm
    have hlast : pointObject s₃ p.last = (s.size + 2, s₄) := Prod.ext hid₄ hs₄.symm
    simp only [positionObject, hnew, hfirst, ← hs₃, hlast, ← hs₅]
  -- the object of the position has no values until the points are put into it
  have hhead₂ : s₂.get s.size = .ofType (.ast "Position") := by
    rw [hget₂ _ (Nat.lt_succ_self _), hs₁, ObjectStore.get_newObject_self]
  have hempty : ∀ g, s₂.value? s.size g = none := by
    intro g
    rw [ObjectStore.value?, hhead₂]
    rfl
  have hlt₂ : s.size < s₂.size := by omega
  have hlt₄ : s.size < s₄.size := by omega
  have hne₁ : s.size ≠ s.size + 1 := by omega
  have hne₂ : s.size ≠ s.size + 2 := by omega
  obtain ⟨hvalue₃, hother₃, hcont₃, hrest₃⟩ := hs₃ ▸ s₂.set_contained hlt₂ hne₁ hcont₂
    (hempty "start")
  have hhead₄ : s₄.get s.size = s₃.get s.size := hget₄ _ (by omega)
  have hvalue₄ : ∀ g, s₄.value? s.size g = s₃.value? s.size g := by
    intro g
    rw [ObjectStore.value?, hhead₄]
    rfl
  have hend : s₄.value? s.size "end" = none := by
    rw [hvalue₄, hvalue₃, hempty]
    simp
  obtain ⟨hvalue₅, hother₅, hcont₅, hrest₅⟩ := hs₅ ▸ s₄.set_contained hlt₄ hne₂ hcont₄ hend
  rw [hmade]
  refine ⟨rfl, ?_, fun j hj => ?_, ?_, ?_, fun g => ?_, ?_, ?_⟩
  · simp only [hs₅, ObjectStore.size_set, hsize₄]
  · rw [hother₅ j (by omega) (by omega), hget₄ j (by omega), hother₃ j (by omega) (by omega),
      hget₂ j (by omega), hs₁, ObjectStore.get_newObject_of_lt _ hj]
  · rw [hcont₅, hhead₄, hcont₃, hhead₂]
    rfl
  · rw [(hrest₅ _).1, hhead₄, (hrest₃ _).1, hhead₂]
    rfl
  · rw [hvalue₅, hvalue₄, hvalue₃, hempty]
    by_cases hstart : g = "start"
    · simp [hstart]
    · simp [hstart]
  · apply hpoint₂.congr
    · rw [(hrest₅ _).1, hget₄ _ (by omega), (hrest₃ _).1]
    · rw [(hrest₅ _).2 (by omega), hget₄ _ (by omega), (hrest₃ _).2 (by omega)]
  · apply hpoint₄.congr
    · exact (hrest₅ _).1
    · exact (hrest₅ _).2 (by omega)

end ToObjects

end TreeInterchange
