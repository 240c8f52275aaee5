import TreeInterchange.ObjectStore.Fragment
import TreeInterchange.Proofs.ForestEdits
import TreeInterchange.Proofs.TreeListings

/-!
# Arenas after arenas

A store of objects can be placed after another one, and a forest after another one, when
everything in it names objects and nodes by their new places. Whatever is done to the arena
alone can then be done to it where it has been placed, with the same outcome; what stands
before it takes no part.
-/

namespace TreeInterchange

namespace Arena

variable {α : Type} {φ g g' : α → α}

theorem getD_append (xs ys : Array α) {a : α} (ha : φ a = a) (j : Nat) :
    (xs ++ ys.map φ).getD (xs.size + j) a = φ (ys.getD j a) := by
  simp only [Array.getD_eq_getD_getElem?]
  rw [Array.getElem?_append_right (Nat.le_add_right xs.size j), Nat.add_sub_cancel_left,
    Array.getElem?_map]
  cases ys[j]? with
  | none => exact ha.symm
  | some b => rfl

theorem modify_append (h : ∀ a, g' (φ a) = φ (g a)) (xs ys : Array α) (j : Nat) :
    (xs ++ ys.map φ).modify (xs.size + j) g' = xs ++ (ys.modify j g).map φ := by
  refine Array.ext (by simp) fun i hi _ => ?_
  rw [Array.getElem_modify]
  rcases Nat.lt_or_ge i xs.size with hlt | hge
  · rw [if_neg (by omega), Array.getElem_append_left hlt, Array.getElem_append_left hlt]
  · obtain ⟨x, rfl⟩ := Nat.exists_eq_add_of_le hge
    simp only [Array.getElem_append_right hge, Array.getElem_map, Array.getElem_modify,
      Nat.add_left_cancel_iff, Nat.add_sub_cancel_left]
    split
    · exact h _
    · rfl

end Arena

namespace FeatureValue

mutual

/-- The value with each object, those in items of lists included, moved up by `k` places. -/
def shift (k : Nat) : FeatureValue → FeatureValue
  | .contained id => .contained (k + id)
  | .containedMany ids => .containedMany (ids.map (k + ·))
  | .reference id => .reference (k + id)
  | .references ids => .references (ids.map (k + ·))
  | .list items => .list (shiftAll k items)
  | v => v

def shiftAll (k : Nat) : List FeatureValue → List FeatureValue
  | [] => []
  | v :: vs => v.shift k :: shiftAll k vs

end

mutual

/-- The objects that the value names, owned or not, those in items of lists included. -/
def mentions : FeatureValue → List ObjectId
  | .contained id | .reference id => [id]
  | .containedMany ids | .references ids => ids
  | .list items => mentionsAll items
  | _ => []

def mentionsAll : List FeatureValue → List ObjectId
  | [] => []
  | v :: vs => v.mentions ++ mentionsAll vs

end

mutual

theorem mentions_shift (k : Nat) (v : FeatureValue) :
    (v.shift k).mentions = v.mentions.map (k + ·) := by
  cases v with
  | list items =>
    rw [shift, mentions, mentions]
    exact mentionsAll_shiftAll k items
  | _ => simp [shift, mentions]

theorem mentionsAll_shiftAll (k : Nat) (vs : List FeatureValue) :
    mentionsAll (shiftAll k vs) = (mentionsAll vs).map (k + ·) := by
  cases vs with
  | nil => rfl
  | cons v vs =>
    rw [shiftAll, mentionsAll, mentionsAll, List.map_append, mentions_shift k v,
      mentionsAll_shiftAll k vs]

end

mutual

theorem shift_of_mentions_nil {k : Nat} {v : FeatureValue} (h : v.mentions = []) :
    v.shift k = v := by
  cases v with
  | list items =>
    rw [mentions] at h
    rw [shift, shiftAll_of_mentionsAll_nil h]
  | _ => simp_all [shift, mentions]

theorem shiftAll_of_mentionsAll_nil {k : Nat} {vs : List FeatureValue} (h : mentionsAll vs = []) :
    shiftAll k vs = vs := by
  cases vs with
  | nil => rfl
  | cons v vs =>
    rw [mentionsAll, List.append_eq_nil_iff] at h
    rw [shiftAll, shift_of_mentions_nil h.1, shiftAll_of_mentionsAll_nil h.2]

end

theorem mentionsAll_eq_nil {vs : List FeatureValue} (h : ∀ v ∈ vs, v.mentions = []) :
    mentionsAll vs = [] := by
  induction vs with
  | nil => rfl
  | cons v vs ih =>
    rw [mentionsAll, h v (by simp), ih fun w hw => h w (by simp [hw])]
    rfl

@[simp] theorem children_shift (k : Nat) (v : FeatureValue) :
    (v.shift k).children = v.children.map (k + ·) := by
  cases v <;> simp [shift, children]

theorem without_shift (k : Nat) (c : ObjectId) (v : FeatureValue) :
    (v.shift k).without (k + c) = (v.without c).shift k := by
  cases v with
  | contained id => by_cases h : id = c <;> simp [shift, without, h]
  | containedMany ids => simp [shift, without, List.filter_map, Function.comp_def]
  | _ => simp [shift, without]

end FeatureValue

def Container.shift (k : Nat) (c : Container) : Container := ⟨k + c.owner, c.feature⟩

namespace Object

def shift (k : Nat) (o : Object) : Object where
  type := o.type
  values := o.values.mapValues (FeatureValue.shift k)
  container := o.container.map (Container.shift k)

def mentions (o : Object) : List ObjectId :=
  o.values.values.flatMap FeatureValue.mentions ++ (o.container.map (·.owner)).toList

theorem le_of_mem_mentions_shift {k : Nat} {o : Object} {x : ObjectId}
    (h : x ∈ (o.shift k).mentions) : k ≤ x := by
  rcases List.mem_append.1 h with hv | hc
  · simp only [shift, Table.values_mapValues, List.mem_flatMap, List.mem_map] at hv
    obtain ⟨_, ⟨v, -, rfl⟩, hx⟩ := hv
    rw [FeatureValue.mentions_shift] at hx
    obtain ⟨y, -, rfl⟩ := List.mem_map.1 hx
    exact Nat.le_add_right k y
  · simp only [shift, Option.mem_toList, Option.map_map,
      Option.map_eq_some_iff] at hc
    obtain ⟨c, -, rfl⟩ := hc
    exact Nat.le_add_right k c.owner

end Object

namespace ObjectStore

/-- The objects of `t` after those of `s`. -/
def append (s t : ObjectStore) : ObjectStore := ⟨s.objects ++ t.objects.map (Object.shift s.size)⟩

variable (s t : ObjectStore)

@[simp] theorem append_empty : s.append .empty = s := by
  simp [append, empty]

@[simp] theorem size_append : (s.append t).size = s.size + t.size := by
  simp [append, size]

theorem get_append_left {j : ObjectId} (h : j < s.size) : (s.append t).get j = s.get j := by
  simp only [get, append, Array.getD_eq_getD_getElem?]
  rw [Array.getElem?_append_left h]

@[simp] theorem get_append (j : ObjectId) :
    (s.append t).get (s.size + j) = (t.get j).shift s.size :=
  Arena.getD_append s.objects t.objects rfl j

theorem append_update {g g' : Object → Object}
    (h : ∀ o, g' (o.shift s.size) = (g o).shift s.size) (x : ObjectId) :
    (s.append t).update (s.size + x) g' = s.append (t.update x g) :=
  congrArg ObjectStore.mk (Arena.modify_append h s.objects t.objects x)

theorem append_newObject (c : ClassifierRef) :
    (s.append t).newObject c = (s.size + (t.newObject c).1, s.append (t.newObject c).2) := by
  have hshift : .ofType c = (Object.ofType c).shift s.objects.size := rfl
  simp [newObject, append, size, ← hshift]

theorem value?_append (x : ObjectId) (feature : String) :
    (s.append t).value? (s.size + x) feature = (t.value? x feature).map (·.shift s.size) := by
  simp [value?, Object.shift]

theorem append_setContainer (x : ObjectId) (c : Option Container) :
    (s.append t).setContainer (s.size + x) (c.map (Container.shift s.size)) =
      s.append (t.setContainer x c) := by
  refine s.append_update t (fun o => ?_) x
  rfl

theorem append_setValue (x : ObjectId) (feature : String) (v : FeatureValue) :
    (s.append t).setValue (s.size + x) feature (v.shift s.size) =
      s.append (t.setValue x feature v) := by
  refine s.append_update t (fun o => ?_) x
  simp only [Object.shift, Table.insert_mapValues]

theorem append_release (c : ObjectId) :
    (s.append t).release (s.size + c) = s.append (t.release c) := by
  unfold release
  rw [get_append]
  cases hc : (t.get c).container with
  | none => simp [Object.shift, hc]
  | some held =>
    have hfree := s.append_setContainer t c none
    simp only [Object.shift, hc, Option.map_some, Container.shift] at hfree ⊢
    rw [Option.map_none] at hfree
    rw [hfree]
    refine s.append_update _ (fun o => ?_) held.owner
    simp only [Object.shift, Table.adjust_mapValues _ (FeatureValue.without_shift s.size c)]

theorem append_claim (x : ObjectId) (feature : String) (c : ObjectId) :
    claim (s.size + x) feature (s.append t) (s.size + c) = s.append (claim x feature t c) := by
  rw [claim, append_release]
  exact s.append_setContainer _ c (some ⟨x, feature⟩)

theorem append_foldl {step step' : ObjectStore → ObjectId → ObjectStore}
    (h : ∀ t c, step' (s.append t) (s.size + c) = s.append (step t c)) (cs : List ObjectId) :
    (cs.map (s.size + ·)).foldl step' (s.append t) = s.append (cs.foldl step t) := by
  rw [List.foldl_map]
  exact List.foldl_hom _ fun t c => h t c

theorem append_set (x : ObjectId) (feature : String) (v : FeatureValue) :
    (s.append t).set (s.size + x) feature (v.shift s.size) = s.append (t.set x feature v) := by
  unfold set
  dsimp only
  -- first the new contents are claimed, then the former ones that are lost are let go
  rw [FeatureValue.children_shift, s.append_foldl t fun t c => s.append_claim t x feature c]
  generalize v.children.foldl (claim x feature) t = claimed
  have hformer : (((claimed.value? x feature).map (·.shift s.size)).map
      FeatureValue.children).getD [] =
        (((claimed.value? x feature).map FeatureValue.children).getD []).map (s.size + ·) := by
    cases claimed.value? x feature <;> simp
  rw [value?_append, hformer, append_setValue, List.filter_map]
  have hlost : ((fun c => decide (c ∉ v.children.map (s.size + ·))) ∘ (s.size + ·)) =
      fun c => decide (c ∉ v.children) := by
    funext c
    have hinj : Function.Injective (s.size + ·) := fun _ _ h => Nat.add_left_cancel h
    simp only [Function.comp_apply, List.mem_map_of_injective hinj]
  rw [hlost]
  exact s.append_foldl _ (fun t c => s.append_setContainer t c none) _

theorem step?_append (x : ObjectId) (g : Segment) :
    (s.append t).step? (s.size + x) g = (t.step? x g).map (s.size + ·) := by
  unfold step?
  rw [value?_append]
  cases t.value? x g.feature with
  | none => rfl
  | some v =>
    cases v <;> rcases g.place with _ | _ | i <;> simp [FeatureValue.shift]

theorem resolve?_append (root : ObjectId) (path : String) :
    (s.append t).resolve? (s.size + root) path = (t.resolve? root path).map (s.size + ·) := by
  have hway : ∀ (gs : List Segment) (x : ObjectId),
      gs.foldlM (s.append t).step? (s.size + x) = (gs.foldlM t.step? x).map (s.size + ·) := by
    intro gs
    induction gs with
    | nil => exact fun _ => rfl
    | cons g gs ih =>
      intro x
      rw [List.foldlM_cons, List.foldlM_cons, step?_append]
      cases t.step? x g with
      | none => rfl
      | some y => exact ih y
  unfold resolve?
  cases Segment.parsePath? path with
  | none => rfl
  | some gs => exact hway gs root

end ObjectStore

namespace Value

mutual

def shift (k : Nat) : Value → Value
  | .node id => .node (k + id)
  | .nodes ids => .nodes (ids.map (k + ·))
  | .reference id => .reference (k + id)
  | .references ids => .references (ids.map (k + ·))
  | .list items => .list (shiftAll k items)
  | v => v

def shiftAll (k : Nat) : List Value → List Value
  | [] => []
  | v :: vs => v.shift k :: shiftAll k vs

end

mutual

def mentions : Value → List NodeId
  | .node id | .reference id => [id]
  | .nodes ids | .references ids => ids
  | .list items => mentionsAll items
  | _ => []

def mentionsAll : List Value → List NodeId
  | [] => []
  | v :: vs => v.mentions ++ mentionsAll vs

end

mutual

theorem mentions_shift (k : Nat) (v : Value) : (v.shift k).mentions = v.mentions.map (k + ·) := by
  cases v with
  | list items =>
    rw [shift, mentions, mentions]
    exact mentionsAll_shiftAll k items
  | _ => simp [shift, mentions]

theorem mentionsAll_shiftAll (k : Nat) (vs : List Value) :
    mentionsAll (shiftAll k vs) = (mentionsAll vs).map (k + ·) := by
  cases vs with
  | nil => rfl
  | cons v vs =>
    rw [shiftAll, mentionsAll, mentionsAll, List.map_append, mentions_shift k v,
      mentionsAll_shiftAll k vs]

end

mutual

theorem shift_of_mentions_nil {k : Nat} {v : Value} (h : v.mentions = []) : v.shift k = v := by
  cases v with
  | list items =>
    rw [mentions] at h
    rw [shift, shiftAll_of_mentionsAll_nil h]
  | _ => simp_all [shift, mentions]

theorem shiftAll_of_mentionsAll_nil {k : Nat} {vs : List Value} (h : mentionsAll vs = []) :
    shiftAll k vs = vs := by
  cases vs with
  | nil => rfl
  | cons v vs =>
    rw [mentionsAll, List.append_eq_nil_iff] at h
    rw [shiftAll, shift_of_mentions_nil h.1, shiftAll_of_mentionsAll_nil h.2]

end

theorem mentionsAll_eq_nil {vs : List Value} (h : ∀ v ∈ vs, v.mentions = []) :
    mentionsAll vs = [] := by
  induction vs with
  | nil => rfl
  | cons v vs ih =>
    rw [mentionsAll, h v (by simp), ih fun w hw => h w (by simp [hw])]
    rfl

@[simp] theorem children_shift (k : Nat) (v : Value) :
    (v.shift k).children = v.children.map (k + ·) := by
  cases v <;> simp [shift, children]

@[simp] theorem holdsNodes_shift (k : Nat) (v : Value) : (v.shift k).holdsNodes = v.holdsNodes := by
  cases v <;> simp [shift, holdsNodes]

theorem without_shift (k : Nat) (c : NodeId) (v : Value) :
    (v.shift k).without (k + c) = (v.without c).shift k := by
  cases v with
  | node id => by_cases h : id = c <;> simp [shift, without, h]
  | nodes ids => simp [shift, without, List.filter_map, Function.comp_def]
  | _ => simp [shift, without]

end Value

def Origin.shift (k : Nat) : Origin → Origin
  | .node id => .node (k + id)
  | o => o

def Origin.node? : Origin → Option NodeId
  | .node id => some id
  | _ => none

def Holder.shift (k : Nat) (h : Holder) : Holder := ⟨k + h.parent, h.role⟩

namespace Node

def shift (k : Nat) (n : Node) : Node where
  type := n.type
  slots := n.slots.mapValues (Value.shift k)
  position := n.position
  origin := n.origin.map (Origin.shift k)
  holder := n.holder.map (Holder.shift k)

@[simp] theorem type_shift (k : Nat) (n : Node) : (n.shift k).type = n.type := rfl

def mentions (n : Node) : List NodeId :=
  n.slots.values.flatMap Value.mentions ++ (n.origin.bind (·.node?)).toList ++ n.parent?.toList

theorem le_of_mem_mentions_shift {k : Nat} {n : Node} {x : NodeId}
    (h : x ∈ (n.shift k).mentions) : k ≤ x := by
  simp only [mentions, List.mem_append, shift, parent?, Table.values_mapValues, List.mem_flatMap,
    List.mem_map, Option.mem_toList, Option.map_map] at h
  obtain (⟨_, ⟨v, -, rfl⟩, hx⟩ | ho) | hh := h
  · rw [Value.mentions_shift] at hx
    obtain ⟨y, -, rfl⟩ := List.mem_map.1 hx
    exact Nat.le_add_right k y
  · obtain ⟨_, ho, hx⟩ := Option.bind_eq_some_iff.1 ho
    obtain ⟨o, -, rfl⟩ := Option.map_eq_some_iff.1 ho
    cases o with
    | node id =>
      obtain rfl := Option.some.inj hx
      exact Nat.le_add_right k id
    | _ => cases hx
  · obtain ⟨h, -, rfl⟩ := Option.map_eq_some_iff.1 hh
    exact Nat.le_add_right k h.parent

theorem shift_ofType (k : Nat) (t : NodeType) : (ofType t).shift k = ofType t := by
  have hslots : (ofType t).slots.mapValues (Value.shift k) = (ofType t).slots := by
    refine Table.mapValues_eq_self fun v hv => ?_
    have hv := Table.mem_values_ofList hv
    simp only [List.map_map, List.mem_map, Function.comp_apply] at hv
    obtain ⟨p, -, rfl⟩ := hv
    refine Value.shift_of_mentions_nil ?_
    unfold Property.emptySlot
    split
    · split <;> rfl
    · rfl
  simp only [shift, hslots]
  rfl

end Node

namespace Forest

/-- The nodes of `t` after those of `f`. -/
def append (f t : Forest) : Forest := ⟨f.nodes ++ t.nodes.map (Node.shift f.size)⟩

variable (f t : Forest)

@[simp] theorem append_empty : f.append .empty = f := by
  simp [append, empty]

@[simp] theorem size_append : (f.append t).size = f.size + t.size := by
  simp [append, size]

theorem get_append_left {j : NodeId} (h : j < f.size) : (f.append t).get j = f.get j := by
  simp only [get, append, Array.getD_eq_getD_getElem?]
  rw [Array.getElem?_append_left h]

@[simp] theorem get_append (j : NodeId) :
    (f.append t).get (f.size + j) = (t.get j).shift f.size :=
  Arena.getD_append f.nodes t.nodes rfl j

theorem append_update {g g' : Node → Node} (h : ∀ n, g' (n.shift f.size) = (g n).shift f.size)
    (x : NodeId) : (f.append t).update (f.size + x) g' = f.append (t.update x g) :=
  congrArg Forest.mk (Arena.modify_append h f.nodes t.nodes x)

theorem append_newNode (type : NodeType) :
    (f.append t).newNode type = (f.size + (t.newNode type).1, f.append (t.newNode type).2) := by
  simp [newNode, append, size, Node.shift_ofType]

theorem append_setPosition (x : NodeId) (p : Option Position) :
    (f.append t).setPosition (f.size + x) p = f.append (t.setPosition x p) := by
  refine f.append_update t (fun n => ?_) x
  rfl

theorem append_setHolder (c : NodeId) (h : Option Holder) :
    (f.append t).setHolder (f.size + c) (h.map (Holder.shift f.size)) =
      f.append (t.setHolder c h) := by
  refine f.append_update t (fun n => ?_) c
  rfl

theorem append_setSlot (x : NodeId) (name : String) (v : Value) :
    (f.append t).setSlot (f.size + x) name (v.shift f.size) = f.append (t.setSlot x name v) := by
  refine f.append_update t (fun n => ?_) x
  simp only [Node.shift, Table.insert_mapValues]

theorem append_detach (c : NodeId) : (f.append t).detach (f.size + c) = f.append (t.detach c) := by
  unfold detach
  rw [get_append]
  cases hc : (t.get c).holder with
  | none => simp [Node.shift, hc]
  | some held =>
    have hfree := f.append_setHolder t c none
    simp only [Node.shift, hc, Option.map_some, Holder.shift] at hfree ⊢
    rw [Option.map_none] at hfree
    rw [hfree]
    refine f.append_update _ (fun n => ?_) held.parent
    simp only [Node.shift, Table.adjust_mapValues _ (Value.without_shift f.size c)]

theorem append_adopt (x : NodeId) (role : String) (c : NodeId) :
    (f.append t).adopt (f.size + x) role (f.size + c) = f.append (t.adopt x role c) := by
  rw [adopt, append_detach]
  exact f.append_setHolder _ c (some ⟨x, role⟩)

theorem slot?_append (x : NodeId) (name : String) :
    (f.append t).slot? (f.size + x) name = (t.slot? x name).map (·.shift f.size) := by
  simp [slot?, Node.shift]

theorem childrenIn_append (x : NodeId) (name : String) :
    (f.append t).childrenIn (f.size + x) name = (t.childrenIn x name).map (f.size + ·) := by
  unfold childrenIn
  rw [slot?_append]
  cases t.slot? x name <;> simp

theorem append_evict (x : NodeId) (name : String) (v : Value) :
    (f.append t).evict (f.size + x) name (v.shift f.size) = f.append (t.evict x name v) := by
  rw [evict, childrenIn_append, append_setSlot, List.foldl_map]
  exact List.foldl_hom _ fun t c => f.append_setHolder t c none

theorem append_pushChild (x : NodeId) (name : String) (c : NodeId) :
    (f.append t).pushChild (f.size + x) name (f.size + c) = f.append (t.pushChild x name c) := by
  have hset := fun ids => f.append_setSlot t x name (.nodes ids)
  unfold pushChild
  rw [slot?_append]
  cases t.slot? x name with
  | none => exact hset [c]
  | some v =>
    cases v with
    | nodes ids =>
      simpa [Value.shift] using hset (ids ++ [c])
    | _ => exact hset [c]

theorem append_pushReference (x : NodeId) (name : String) (target : NodeId) :
    (f.append t).pushReference (f.size + x) name (f.size + target) =
      f.append (t.pushReference x name target) := by
  have hset := fun ids => f.append_setSlot t x name (.references ids)
  unfold pushReference
  rw [slot?_append]
  cases t.slot? x name with
  | none => exact hset [target]
  | some v =>
    cases v with
    | references ids =>
      simpa [Value.shift] using hset (ids ++ [target])
    | _ => exact hset [target]

theorem mem_parentChain_iff {f : Forest} {n : Nat} {x a : NodeId} :
    a ∈ f.parentChain n x ↔ ∃ k < n, wayUp (fun y => (f.get y).parent?) (k + 1) x = some a := by
  induction n generalizing x with
  | zero => simp [parentChain]
  | succ n ih =>
    unfold parentChain
    cases hp : (f.get x).parent? with
    | none => simp [wayUp, hp]
    | some p =>
      simp only [List.mem_cons, ih, wayUp, hp, Option.bind_some]
      constructor
      · rintro (rfl | ⟨k, hk, hway⟩)
        · exact ⟨0, Nat.succ_pos n, rfl⟩
        · exact ⟨k + 1, Nat.succ_lt_succ hk, hway⟩
      · rintro ⟨k, hk, hway⟩
        cases k with
        | zero => exact .inl (Option.some.inj hway).symm
        | succ k => exact .inr ⟨k, Nat.lt_of_succ_lt_succ hk, hway⟩

/-- Looking further up than the forest is large finds nothing more. -/
theorem mem_parentChain_iff_of_le {f : Forest} {n : Nat} {x a : NodeId} (h : f.size ≤ n) :
    a ∈ f.parentChain n x ↔ a ∈ f.ancestors x := by
  rw [ancestors, mem_parentChain_iff, mem_parentChain_iff]
  constructor
  · rintro ⟨k, -, hway⟩
    have hup : ∀ y p, (f.get y).parent? = some p → y < f.size := by
      intro y p hp
      obtain ⟨held, hheld, -⟩ := Option.map_eq_some_iff.1 hp
      exact lt_size_of_holder hheld
    obtain ⟨j, hj, hpos, hway⟩ := exists_wayUp_le hup hway
    obtain ⟨i, rfl⟩ := Nat.exists_eq_add_one_of_ne_zero (hpos (Nat.succ_pos k)).ne'
    exact ⟨i, hj, hway⟩
  · rintro ⟨k, hk, hway⟩
    exact ⟨k, Nat.lt_of_lt_of_le hk h, hway⟩

theorem parentChain_append (n : Nat) (x : NodeId) :
    (f.append t).parentChain n (f.size + x) = (t.parentChain n x).map (f.size + ·) := by
  induction n generalizing x with
  | zero => rfl
  | succ n ih =>
    unfold parentChain
    have hparent : ((f.append t).get (f.size + x)).parent? =
        (t.get x).parent?.map (f.size + ·) := by
      rw [get_append]
      simp [Node.parent?, Node.shift, Holder.shift, Function.comp_def]
    rw [hparent]
    cases (t.get x).parent? with
    | none => rfl
    | some p =>
      show (f.size + p) :: (f.append t).parentChain n (f.size + p) = _
      rw [ih p]
      rfl

theorem mem_ancestors_append (x c : NodeId) :
    f.size + c ∈ (f.append t).ancestors (f.size + x) ↔ c ∈ t.ancestors x := by
  have hinj : Function.Injective (f.size + ·) := fun _ _ h => Nat.add_left_cancel h
  rw [ancestors, parentChain_append, List.mem_map_of_injective hinj, size_append]
  -- the larger forest looks further up, past the end of every way in `t`
  exact mem_parentChain_iff_of_le (Nat.le_add_left t.size f.size)

end Forest

def ModelError.shift (k : Nat) : ModelError → ModelError
  | .cycle parent child => .cycle (k + parent) (k + child)
  | e => e

/-- After the nodes of `f`, `y` makes the edit that `x` makes alone. -/
abbrev Edit.Alike {α : Type} (f : Forest) (x y : Edit α) : Prop :=
  StatefulRuns.Tracks (ModelError.shift f.size) f.append id x y

theorem Edit.check_alike {α : Type} {f : Forest} {test test' : Forest → Except ModelError α}
    (h : ∀ t, test' (f.append t) = (test t).mapError (.shift f.size)) :
    Alike f (check test) (check test') := by
  intro t
  unfold check
  rw [h]
  cases test t <;> rfl

namespace Forest

open StatefulRuns

variable (f : Forest) (x : NodeId) (name : String)

theorem property_append (t : Forest) :
    (f.append t).property (f.size + x) name =
      (t.property x name).mapError (.shift f.size) := by
  unfold property
  rw [get_append, Node.type_shift]
  cases (t.get x).type.property? name <;> rfl

theorem propertyOf_append (kind : PropertyKind) (multiple : Bool) (expected : Expectation)
    (t : Forest) :
    (f.append t).propertyOf (f.size + x) name kind multiple expected =
      (t.propertyOf x name kind multiple expected).mapError (.shift f.size) := by
  unfold propertyOf
  rw [property_append, get_append, Node.type_shift]
  cases t.property x name with
  | error e => rfl
  | ok p =>
    by_cases h : p.kind = kind ∧ p.multiple = multiple
    · simp only [bind, Except.bind, Except.mapError, h, and_self, if_true]
      rfl
    · simp only [bind, Except.bind, Except.mapError, h, if_false]
      rfl

theorem attachable_append (c : NodeId) (t : Forest) :
    (f.append t).attachable (f.size + x) (f.size + c) =
      (t.attachable x c).mapError (.shift f.size) := by
  unfold attachable
  have hiff : f.size + c = f.size + x ∨ f.size + c ∈ (f.append t).ancestors (f.size + x) ↔
      c = x ∨ c ∈ t.ancestors x := by
    rw [mem_ancestors_append, Nat.add_left_cancel_iff]
  by_cases h : c = x ∨ c ∈ t.ancestors x
  · rw [if_pos (hiff.2 h), if_pos h]
    rfl
  · rw [if_neg fun hc => h (hiff.1 hc), if_neg h]
    rfl

theorem forM_attachable_append (cs : List NodeId) (t : Forest) :
    (cs.map (f.size + ·)).forM ((f.append t).attachable (f.size + x)) =
      (cs.forM (t.attachable x)).mapError (.shift f.size) := by
  induction cs with
  | nil => rfl
  | cons c cs ih =>
    show ((f.append t).attachable (f.size + x) (f.size + c) >>= fun _ =>
      (cs.map (f.size + ·)).forM ((f.append t).attachable (f.size + x))) =
        Except.mapError _ (t.attachable x c >>= fun _ => cs.forM (t.attachable x))
    rw [attachable_append, ih]
    cases t.attachable x c <;> rfl

theorem setChild_alike (child : Option NodeId) :
    Edit.Alike f (setChild x name child)
      (setChild (f.size + x) name (child.map (f.size + ·))) := by
  refine (Edit.check_alike (f.propertyOf_append x name _ _ _)).bind fun p => ?_
  cases child with
  | none => exact tracks_modify fun t => f.append_evict t x name .null
  | some c =>
    refine (Edit.check_alike (f.attachable_append x c)).bind fun _ => tracks_modify fun t => ?_
    have hevict : (f.append t).evict (f.size + x) name .null = f.append (t.evict x name .null) :=
      f.append_evict t x name .null
    rw [hevict, append_adopt]
    exact f.append_setSlot _ x name (.node c)

theorem addChild_alike (c : NodeId) :
    Edit.Alike f (addChild x name c) (addChild (f.size + x) name (f.size + c)) := by
  refine (Edit.check_alike (f.propertyOf_append x name _ _ _)).bind fun p => ?_
  refine (Edit.check_alike (f.attachable_append x c)).bind fun _ => tracks_modify fun t => ?_
  show ((f.append t).adopt (f.size + x) p.name (f.size + c)).pushChild _ name _ = _
  rw [append_adopt, append_pushChild]

theorem setChildren_alike (cs : List NodeId) :
    Edit.Alike f (setChildren x name cs)
      (setChildren (f.size + x) name (cs.map (f.size + ·))) := by
  refine (Edit.check_alike (f.propertyOf_append x name _ _ _)).bind fun p => ?_
  refine (Edit.check_alike (f.forM_attachable_append x cs)).bind fun _ => ?_
  refine Tracks.bind (tracks_modify fun t => f.append_evict t x name (.nodes [])) fun _ => ?_
  exact Tracks.forM _ fun c _ => f.addChild_alike x name c

theorem setValue_alike (v : Value) :
    Edit.Alike f (setValue x name v) (setValue (f.size + x) name (v.shift f.size)) := by
  refine (Edit.check_alike fun t => ?_).bind fun _ =>
    tracks_modify fun t => f.append_setSlot t x name v
  rw [property_append, Value.holdsNodes_shift, get_append, Node.type_shift]
  cases t.property x name with
  | error e => rfl
  | ok p =>
    by_cases h : p.kind ≠ .value ∨ v.holdsNodes = true
    · simp only [bind, Except.bind, Except.mapError, h, if_true]
      rfl
    · simp only [bind, Except.bind, Except.mapError, h, if_false]
      rfl

theorem setReference_alike (target : Option NodeId) :
    Edit.Alike f (setReference x name target)
      (setReference (f.size + x) name (target.map (f.size + ·))) := by
  refine (Edit.check_alike (f.propertyOf_append x name _ _ _)).bind fun _ =>
    tracks_modify fun t => ?_
  cases target with
  | none => exact f.append_setSlot t x name .null
  | some c => exact f.append_setSlot t x name (.reference c)

theorem addReference_alike (target : NodeId) :
    Edit.Alike f (addReference x name target)
      (addReference (f.size + x) name (f.size + target)) :=
  (Edit.check_alike (f.propertyOf_append x name _ _ _)).bind fun _ =>
    tracks_modify fun t => f.append_pushReference t x name target

end Forest

end TreeInterchange
