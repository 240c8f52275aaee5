import TreeInterchange.Forest.Comparison
import TreeInterchange.Proofs.ConversionRoundTrip
import TreeInterchange.Proofs.ForestTraversals

/-!
# Structural equality of trees

Two trees are structurally equal when they have the same shape: nodes of the same types, equal
plain values, references to nodes of the same types, and children that are structurally equal one
by one, with or without positions. The comparison of two trees decides this relation. It is
guided by the declarations of one side only, so it is symmetric and transitive only where nodes
of one type name have one declaration; it is reflexive except where a NaN stands.
-/

namespace TreeInterchange

namespace Binary64

variable {x y z : Binary64}

theorem same_iff : x.same y = true ↔ x.isNaN = false ∧ y.isNaN = false ∧
    (x.bits = y.bits ∨ x.magnitude = 0 ∧ y.magnitude = 0) := by
  simp [same, and_assoc]

theorem same_self (h : x.isNaN = false) : x.same x = true := same_iff.2 ⟨h, h, .inl rfl⟩

theorem same_symm (h : x.same y = true) : y.same x = true := by
  obtain ⟨hx, hy, hbits | ⟨hx₀, hy₀⟩⟩ := same_iff.1 h
  · exact same_iff.2 ⟨hy, hx, .inl hbits.symm⟩
  · exact same_iff.2 ⟨hy, hx, .inr ⟨hy₀, hx₀⟩⟩

theorem same_trans (h : x.same y = true) (h' : y.same z = true) : x.same z = true := by
  obtain ⟨hx, -, hxy⟩ := same_iff.1 h
  obtain ⟨-, hz, hyz⟩ := same_iff.1 h'
  refine same_iff.2 ⟨hx, hz, ?_⟩
  -- equal bits have equal magnitudes, so zeros stay zeros along either kind of equality
  have hmagnitude : ∀ {u v : Binary64}, u.bits = v.bits → u.magnitude = v.magnitude := fun hb => by
    rw [magnitude, hb, magnitude]
  rcases hxy with hxy | ⟨hx₀, hy₀⟩ <;> rcases hyz with hyz | ⟨hy₁, hz₀⟩
  · exact .inl (hxy.trans hyz)
  · exact .inr ⟨(hmagnitude hxy).trans hy₁, hz₀⟩
  · exact .inr ⟨hx₀, (hmagnitude hyz).symm.trans hy₀⟩
  · exact .inr ⟨hx₀, hz₀⟩

end Binary64

namespace Value

/-- Equal values: reals are equal as numbers, lists item by item, and all else only if it is the
same. -/
inductive Equals : Value → Value → Prop
  | real {x y : Binary64} (h : x.same y = true) : Equals (.real x) (.real y)
  | nil : Equals (.list []) (.list [])
  | cons {v w : Value} {vs ws : List Value} (h : Equals v w) (hs : Equals (.list vs) (.list ws)) :
      Equals (.list (v :: vs)) (.list (w :: ws))
  | other {v : Value} (hreal : ∀ x, v ≠ .real x) (hlist : ∀ items, v ≠ .list items) : Equals v v

mutual

/-- Whether the value is a NaN or a list with one in it. -/
def holdsNaN : Value → Bool
  | .real x => x.isNaN
  | .list items => anyNaN items
  | _ => false

def anyNaN : List Value → Bool
  | [] => false
  | v :: vs => v.holdsNaN || anyNaN vs

end

mutual

theorem equals_of_same : ∀ {v w : Value}, v.same w = true → v.Equals w := by
  intro v w h
  cases v <;> cases w <;> simp only [same, Bool.false_eq_true, beq_iff_eq] at h
  case real.real => exact .real h
  case list.list => exact equals_of_sameList h
  case null.null => exact .other (by simp) (by simp)
  all_goals
    subst h
    exact .other (by simp) (by simp)

theorem equals_of_sameList : ∀ {vs ws : List Value}, sameList vs ws = true →
    (Value.list vs).Equals (.list ws)
  | [], [], _ => .nil
  | [], _ :: _, h => by simp [sameList] at h
  | _ :: _, [], h => by simp [sameList] at h
  | v :: vs, w :: ws, h => by
    simp only [sameList, Bool.and_eq_true] at h
    exact .cons (equals_of_same h.1) (equals_of_sameList h.2)

end

theorem same_of_equals {v w : Value} (h : v.Equals w) : v.same w = true := by
  induction h with
  | real h => exact h
  | nil => simp [same, sameList]
  | cons _ _ ih ihs =>
    simp only [same] at ihs ⊢
    simp [sameList, ih, ihs]
  | @other v hreal hlist => cases v <;> simp_all [same]

theorem same_iff_equals {v w : Value} : v.same w = true ↔ v.Equals w :=
  ⟨equals_of_same, same_of_equals⟩

theorem Equals.symm {v w : Value} (h : v.Equals w) : w.Equals v := by
  induction h with
  | real h => exact .real (Binary64.same_symm h)
  | nil => exact .nil
  | cons _ _ ih ihs => exact .cons ih ihs
  | other hreal hlist => exact .other hreal hlist

theorem Equals.trans {u v w : Value} (h : u.Equals v) (h' : v.Equals w) : u.Equals w := by
  induction h generalizing w with
  | real h =>
    cases h' with
    | real h' => exact .real (Binary64.same_trans h h')
    | other hreal _ => exact absurd rfl (hreal _)
  | nil => exact h'
  | cons _ _ ih ihs =>
    cases h' with
    | cons h' hs' => exact .cons (ih h') (ihs hs')
    | other _ hlist => exact absurd rfl (hlist _)
  | other _ _ => exact h'

mutual

theorem equals_self : ∀ {v : Value}, v.holdsNaN = false → v.Equals v
  | .real _, h => .real (Binary64.same_self h)
  | .list _, h => equals_self_list h
  | .null, _ | .string _, _ | .integer _, _ | .boolean _, _ | .enumeration _, _ | .node _, _
  | .nodes _, _ | .reference _, _ | .references _, _ => .other (by simp) (by simp)

theorem equals_self_list : ∀ {items : List Value}, anyNaN items = false →
    (Value.list items).Equals (.list items)
  | [], _ => .nil
  | _ :: _, h => by
    obtain ⟨hv, hvs⟩ := (Bool.or_eq_false_iff).1 h
    exact .cons (equals_self hv) (equals_self_list hvs)

end

end Value

namespace NodeView

/-- The trees below two nodes are structurally equal, with or without positions. -/
inductive Equals (positions : Bool) : NodeView → NodeView → Prop
  | mk {a b : NodeView}
      (type : a.node.type.name = b.node.type.name)
      (position : positions = true → a.position = b.position)
      (count : ∀ p ∈ a.node.type.properties, p.kind = .child →
        (a.childrenIn p.name).length = (b.childrenIn p.name).length)
      (children : ∀ p ∈ a.node.type.properties, p.kind = .child → ∀ (i : Nat) (c d : NodeView),
        (a.childrenIn p.name)[i]? = some c → (b.childrenIn p.name)[i]? = some d →
        Equals positions c d)
      (targets : ∀ p ∈ a.node.type.properties, p.kind = .reference →
        a.targetTypes p.name = b.targetTypes p.name)
      (values : ∀ p ∈ a.node.type.properties, p.kind = .value →
        (a.slot p.name).Equals (b.slot p.name)) : Equals positions a b

/-- A node of a forest that edits have built. -/
structure Present (a : NodeView) : Prop where
  reachable : a.forest.Reachable
  lt_size : a.id < a.forest.size

/-- Whatever bears the same type name in both trees is of the same type. -/
def SameTypes (a b : NodeView) : Prop :=
  ∀ x ∈ a.forest.walk a.id, ∀ y ∈ b.forest.walk b.id,
    (a.forest.get x).type.name = (b.forest.get y).type.name →
      (a.forest.get x).type = (b.forest.get y).type

instance (a b : NodeView) : Decidable (a.SameTypes b) :=
  inferInstanceAs (Decidable (∀ x ∈ a.forest.walk a.id, ∀ y ∈ b.forest.walk b.id,
    (a.forest.get x).type.name = (b.forest.get y).type.name →
      (a.forest.get x).type = (b.forest.get y).type))

/-- No slot in the tree holds a NaN. -/
def FreeOfNaN (a : NodeView) : Prop :=
  ∀ x ∈ a.forest.walk a.id, ∀ name v, a.forest.slot? x name = some v → v.holdsNaN = false

variable {positions : Bool} {a b c : NodeView} {name : String}

theorem exists_of_mem_childrenIn {d : NodeView} (h : d ∈ a.childrenIn name) :
    ∃ x ∈ a.forest.children a.id, d = ⟨a.forest, x⟩ := by
  obtain ⟨x, hx, rfl⟩ := List.mem_map.1 h
  exact ⟨x, Forest.mem_children_iff.2 ⟨name, hx⟩, rfl⟩

namespace Present

variable (h : a.Present)
include h

theorem heightAtMost : HeightAtMost a.forest.children a.forest.size a.id :=
  h.reachable.isForest.heightAtMost h.lt_size

theorem mem_walk : a.id ∈ a.forest.walk a.id := h.reachable.isForest.self_mem_walk h.lt_size

theorem child {d : NodeView} (hd : d ∈ a.childrenIn name) :
    d.Present ∧ d.forest = a.forest ∧ a.forest.walk d.id ⊆ a.forest.walk a.id := by
  obtain ⟨x, hx, rfl⟩ := exists_of_mem_childrenIn hd
  refine ⟨⟨h.reachable, h.reachable.isForest.lt_size_of_mem_children hx⟩, rfl, ?_⟩
  rw [h.reachable.isForest.walk_eq h.lt_size]
  exact fun z hz => List.mem_cons_of_mem _ (List.mem_flatMap.2 ⟨x, hx, hz⟩)

end Present

theorem SameTypes.child (h : a.SameTypes b) (ha : a.Present) (hb : b.Present) {c d : NodeView}
    (hc : c ∈ a.childrenIn name) (hd : d ∈ b.childrenIn name) : c.SameTypes d := by
  obtain ⟨-, hcf, hcw⟩ := ha.child hc
  obtain ⟨-, hdf, hdw⟩ := hb.child hd
  intro x hx y hy
  rw [hcf] at hx ⊢
  rw [hdf] at hy ⊢
  exact h x (hcw hx) y (hdw hy)

theorem Equals.symm (h : a.Equals positions b) (ha : a.Present) (hb : b.Present)
    (hab : a.SameTypes b) : b.Equals positions a := by
  induction h with
  | @mk a b type position count _ targets values ih =>
    have htype : b.node.type = a.node.type := (hab a.id ha.mem_walk b.id hb.mem_walk type).symm
    refine .mk type.symm (fun hp => (position hp).symm) (fun p hp hk => ?_)
      (fun p hp hk i d c hd hc => ?_) (fun p hp hk => ?_) (fun p hp hk => ?_)
    all_goals rw [htype] at hp
    · exact (count p hp hk).symm
    · have hc' := List.mem_of_getElem? hc
      have hd' := List.mem_of_getElem? hd
      exact ih p hp hk i c d hc hd (ha.child hc').1 (hb.child hd').1 (hab.child ha hb hc' hd')
    · exact (targets p hp hk).symm
    · exact (values p hp hk).symm

theorem Equals.trans (h : a.Equals positions b) (h' : b.Equals positions c) (ha : a.Present)
    (hb : b.Present) (hab : a.SameTypes b) : a.Equals positions c := by
  induction h generalizing c with
  | @mk a b type position count _ targets values ih =>
    cases h' with
    | mk type' position' count' children' targets' values' =>
    have htype : a.node.type = b.node.type := hab a.id ha.mem_walk b.id hb.mem_walk type
    rw [← htype] at count' children' targets' values'
    refine .mk (type.trans type') (fun hp => (position hp).trans (position' hp))
      (fun p hp hk => (count p hp hk).trans (count' p hp hk)) (fun p hp hk i x z hx hz => ?_)
      (fun p hp hk => (targets p hp hk).trans (targets' p hp hk))
      (fun p hp hk => (values p hp hk).trans (values' p hp hk))
    -- the lists have the same length, so there is a child of the middle tree at this place
    have hi : i < (b.childrenIn p.name).length := by
      rw [← count p hp hk]
      exact (List.getElem?_eq_some_iff.1 hx).1
    have hy := List.getElem?_eq_getElem hi
    have hx' := List.mem_of_getElem? hx
    have hy' := List.mem_of_getElem? hy
    exact ih p hp hk i x _ hx hy (children' p hp hk i _ z hy hz) (ha.child hx').1 (hb.child hy').1
      (hab.child ha hb hx' hy')

theorem Equals.withoutPositions (h : a.Equals positions b) : a.Equals false b := by
  induction h with
  | mk type _ count _ targets values ih => exact .mk type (by simp) count ih targets values

theorem FreeOfNaN.equals (h : a.FreeOfNaN) (ha : a.Present) : a.Equals positions a := by
  have hall : ∀ k (a : NodeView), HeightAtMost a.forest.children k a.id → a.Present → a.FreeOfNaN →
      a.Equals positions a := by
    intro k
    induction k with
    | zero => exact fun _ hk => hk.elim
    | succ k ih =>
      intro a hk ha h
      refine .mk rfl (fun _ => rfl) (fun _ _ _ => rfl) (fun p _ _ i c d hc hd => ?_)
        (fun _ _ _ => rfl) (fun p _ _ => ?_)
      · obtain rfl := Option.some.inj (hc.symm.trans hd)
        have hc := List.mem_of_getElem? hc
        obtain ⟨hpresent, -, hwalk⟩ := ha.child hc
        obtain ⟨x, hx, rfl⟩ := exists_of_mem_childrenIn hc
        exact ih _ (hk x hx) hpresent fun y hy => h y (hwalk hy)
      · apply Value.equals_self
        unfold slot
        cases hv : a.node.slots.get? p.name with
        | none => rfl
        | some v => exact h a.id ha.mem_walk p.name v hv
  exact hall a.forest.size a ha.heightAtMost ha h

end NodeView

namespace Comparison

variable {compare : String → NodeView → NodeView → Except Mismatch Unit} {positions : Bool}
  {R : NodeView → NodeView → Prop} {path : String} {a b : NodeView} {p : Property}

theorem differ_ne_ok (path message : String) : differ path message ≠ .ok () := nofun

theorem pairs_eq_ok_iff {ls rs : List NodeView}
    (h : ∀ l ∈ ls, ∀ path r, compare path l r = .ok () ↔ R l r) (index : Nat) :
    pairs compare path p index ls rs = .ok () ↔
      ∀ (i : Nat) (l r : NodeView), ls[i]? = some l → rs[i]? = some r → R l r := by
  induction ls generalizing index rs with
  | nil => simp [pairs]
  | cons l ls ih =>
    obtain ⟨hl, hls⟩ := List.forall_mem_cons.1 h
    cases rs with
    | nil => simp [pairs]
    | cons r rs =>
      have hfirst := hl (childPath path p index) r
      have hrest : pairs compare path p (index + 1) ls rs = .ok () ↔
          ∀ (i : Nat) (l r : NodeView), ls[i]? = some l → rs[i]? = some r → R l r :=
        ih hls (index + 1)
      unfold pairs
      constructor
      · intro hok
        obtain ⟨_, hhead, htail⟩ := StatefulRuns.of_except_bind_ok hok
        intro i x y hx hy
        cases i with
        | zero =>
          cases hx
          cases hy
          exact hfirst.1 hhead
        | succ i => exact hrest.1 htail i x y hx hy
      · intro hall
        rw [hfirst.2 (hall 0 l r rfl rfl)]
        exact hrest.2 fun i x y hx hy => hall (i + 1) x y hx hy

theorem property_eq_ok_iff
    (h : ∀ l ∈ a.childrenIn p.name, ∀ path r, compare path l r = .ok () ↔ R l r) :
    property compare path a b p = .ok () ↔
      (p.kind = .child → (a.childrenIn p.name).length = (b.childrenIn p.name).length) ∧
      (p.kind = .child → ∀ (i : Nat) (c d : NodeView), (a.childrenIn p.name)[i]? = some c →
        (b.childrenIn p.name)[i]? = some d → R c d) ∧
      (p.kind = .reference → a.targetTypes p.name = b.targetTypes p.name) ∧
      (p.kind = .value → (a.slot p.name).Equals (b.slot p.name)) := by
  unfold property
  cases hk : p.kind with
  | child =>
    by_cases hlength : (a.childrenIn p.name).length = (b.childrenIn p.name).length
    · simp [hlength, pairs_eq_ok_iff h]
    · simp [hlength, differ_ne_ok]
  | reference =>
    by_cases htargets : a.targetTypes p.name = b.targetTypes p.name
    · simp [htargets]
    · simp [htargets, differ_ne_ok]
  | value =>
    by_cases hequal : (a.slot p.name).Equals (b.slot p.name)
    · simp [Value.same_iff_equals.2 hequal, hequal]
    · simp [mt Value.same_iff_equals.1 hequal, hequal, differ_ne_ok]

/-- A comparison that goes as deep as the tree is high decides structural equality. -/
theorem trees_eq_ok_iff {k : Nat} (hk : HeightAtMost a.forest.children k a.id) :
    trees positions k path a b = .ok () ↔ a.Equals positions b := by
  induction k generalizing a b path with
  | zero => exact hk.elim
  | succ k ih =>
    have hchild : ∀ {name : String}, ∀ l ∈ a.childrenIn name, ∀ path r,
        trees positions k path l r = .ok () ↔ l.Equals positions r := by
      intro name l hl path r
      obtain ⟨x, hx, rfl⟩ := NodeView.exists_of_mem_childrenIn hl
      exact ih (hk x hx)
    have hforM : a.node.type.properties.forM (property (trees positions k) path a b) = .ok () ↔
        ∀ p ∈ a.node.type.properties, property (trees positions k) path a b p = .ok () :=
      ⟨StatefulRuns.of_forM_tests_ok, StatefulRuns.forM_tests_ok⟩
    unfold trees
    constructor
    · intro hok
      split at hok
      · exact absurd hok (differ_ne_ok _ _)
      split at hok
      · exact absurd hok (differ_ne_ok _ _)
      rename_i htype hposition
      have hproperty := fun p hp => (property_eq_ok_iff hchild).1 (hforM.1 hok p hp)
      refine .mk (not_not.1 htype) (fun hp => ?_) (fun p hp => (hproperty p hp).1)
        (fun p hp => (hproperty p hp).2.1) (fun p hp => (hproperty p hp).2.2.1)
        (fun p hp => (hproperty p hp).2.2.2)
      by_contra hne
      exact hposition ⟨hp, hne⟩
    · rintro ⟨type, position, count, children, targets, values⟩
      have hposition : ¬ (positions = true ∧ a.position ≠ b.position) := fun h => h.2 (position h.1)
      rw [if_neg (not_not.2 type), if_neg hposition, hforM]
      exact fun p hp => (property_eq_ok_iff hchild).2
        ⟨count p hp, children p hp, targets p hp, values p hp⟩

end Comparison

namespace NodeView

theorem compare_eq_ok_iff {positions : Bool} {a b : NodeView} (ha : a.Present) :
    a.compare b positions = .ok () ↔ a.Equals positions b :=
  Comparison.trees_eq_ok_iff ha.heightAtMost

/-- The comparison of two trees decides structural equality. So it is symmetric and transitive
where type names have one meaning, finds no difference between a tree without NaN and itself, and
finds none without positions where it finds none with them. -/
theorem compare_decides_equality (positions : Bool) :
    (∀ a b : NodeView, a.Present → b.Present → a.SameTypes b →
      (a.compare b positions = .ok () ↔ a.Equals positions b)) ∧
    (∀ a b : NodeView, a.Present → b.Present → a.SameTypes b →
      a.compare b positions = .ok () → b.compare a positions = .ok ()) ∧
    (∀ a b c : NodeView, a.Present → b.Present → c.Present → a.SameTypes b → b.SameTypes c →
      a.compare b positions = .ok () → b.compare c positions = .ok () →
        a.compare c positions = .ok ()) ∧
    (∀ a : NodeView, a.Present → a.FreeOfNaN → a.compare a positions = .ok ()) ∧
    ∀ a b : NodeView, a.Present → b.Present → a.SameTypes b →
      a.compare b true = .ok () → a.compare b false = .ok () := by
  refine ⟨fun a b ha _ _ => compare_eq_ok_iff ha, fun a b ha hb hab h => ?_,
    fun a b c ha hb _ hab _ h h' => ?_, fun a ha hnan => ?_, fun a b ha _ _ h => ?_⟩
  · rw [compare_eq_ok_iff ha] at h
    rw [compare_eq_ok_iff hb]
    exact h.symm ha hb hab
  · rw [compare_eq_ok_iff ha] at h ⊢
    rw [compare_eq_ok_iff hb] at h'
    exact h.trans h' ha hb hab
  · rw [compare_eq_ok_iff ha]
    exact hnan.equals ha
  · rw [compare_eq_ok_iff ha] at h ⊢
    exact h.withoutPositions

/-- The garden without the one position in it. -/
def unplacedGarden : Forest := Conversion.garden.setPosition 1 none

theorem compare_gardens :
    ((mk Conversion.garden 0).Present ∧ (mk unplacedGarden 0).Present ∧
      (mk Conversion.garden 0).SameTypes ⟨unplacedGarden, 0⟩) ∧
    (mk Conversion.garden 0).Equals false ⟨unplacedGarden, 0⟩ ∧
    (mk unplacedGarden 0).compare ⟨Conversion.garden, 0⟩ false = .ok () ∧
    ¬ (mk Conversion.garden 0).Equals true ⟨unplacedGarden, 0⟩ ∧
    (mk Conversion.garden 0).compare ⟨Conversion.garden, 0⟩ true = .ok () := by
  have hplaced : (mk Conversion.garden 0).Present := ⟨Conversion.reachable_garden, by decide⟩
  have hunplaced : (mk unplacedGarden 0).Present :=
    ⟨Conversion.reachable_garden.step (.setPosition 1 none) ⟨by simp, by decide⟩ (by decide),
      by decide⟩
  have htypes : (mk Conversion.garden 0).SameTypes ⟨unplacedGarden, 0⟩ := by decide
  have hnan : (mk Conversion.garden 0).FreeOfNaN := by
    have hentries : ∀ x ∈ Conversion.garden.walk 0, ∀ e ∈ (Conversion.garden.get x).slots.entries,
        e.2.holdsNaN = false := by decide
    exact fun x hx name v hv => hentries x hx _ (Table.get?_eq_some_iff.1 hv)
  have hok : (mk Conversion.garden 0).compare ⟨unplacedGarden, 0⟩ false = .ok () := by rfl
  have hdiffer : (mk Conversion.garden 0).compare ⟨unplacedGarden, 0⟩ true ≠ .ok () := by
    intro h
    have hfails : ((mk Conversion.garden 0).compare ⟨unplacedGarden, 0⟩ true).isOk = false := rfl
    rw [h] at hfails
    cases hfails
  obtain ⟨hiff, hsymm, -, -, -⟩ := compare_decides_equality false
  obtain ⟨hiff', -, -, hrefl, -⟩ := compare_decides_equality true
  exact ⟨⟨hplaced, hunplaced, htypes⟩, (hiff _ _ hplaced hunplaced htypes).1 hok,
    hsymm _ _ hplaced hunplaced htypes hok,
    fun h => hdiffer ((hiff' _ _ hplaced hunplaced htypes).2 h), hrefl _ hplaced hnan⟩

end NodeView

end TreeInterchange
