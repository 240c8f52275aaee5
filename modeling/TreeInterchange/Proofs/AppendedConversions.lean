import TreeInterchange.Conversion.Nodes
import TreeInterchange.Conversion.Objects
import TreeInterchange.Metamodel.Builtin
import TreeInterchange.Proofs.AppendedArenas
import TreeInterchange.Proofs.ObjectConformity

/-!
# Conversions append

Reading a document and converting a tree make new objects at the end of a store, and converting
an object makes new nodes at the end of a forest. What stood there before is neither changed
nor named by what is new, and it has no influence: the outcome, result or error, and the new
entries are those of the same conversion into an empty arena, with every new place moved up
by the number of entries that stood there. All this holds of conversions that fail as well.

Each step is followed in two runs at once, one alone and one after other entries.
-/

namespace TreeInterchange

open StatefulRuns

theorem FeatureType.mentions_of_stores {t : FeatureType} {v : FeatureValue}
    (h : t.stores v = true) : v.mentions = [] := by
  unfold stores at h
  split at h
  · split at h <;> simp_all [FeatureValue.mentions]
  · split at h <;> simp_all [FeatureValue.mentions]

theorem Feature.mentions_of_holds {f : Feature} {v : FeatureValue} (hk : f.kind = .plain)
    (h : f.holds v = true) : v.mentions = [] := by
  cases v with
  | null => rfl
  | list items =>
    simp only [holds, hk, Bool.and_eq_true, List.all_eq_true, Bool.or_eq_true] at h
    rw [FeatureValue.mentions]
    refine FeatureValue.mentionsAll_eq_nil fun i hi => ?_
    rcases h.2 i hi with hnull | hs
    · rw [FeatureValue.isNull_iff.1 hnull]
      rfl
    · exact FeatureType.mentions_of_stores hs
  | _ =>
    simp only [holds, hk] at h
    exact FeatureType.mentions_of_stores h

namespace ObjectDocument

def Pending.shift (k : Nat) (p : Pending) : Pending := { p with owner := k + p.owner }

/-- The state of a reading, with its objects placed after those of `s`. -/
def ReadState.after (s : ObjectStore) (st : ReadState) : ReadState :=
  ⟨s.append st.store, st.pending.map (Pending.shift s.size)⟩

/-- After the objects of `s`, `y` reads as `x` does alone. -/
abbrev Alike {α : Type} (s : ObjectStore) (onResult : α → α) (x y : Reading α) : Prop :=
  Tracks id (ReadState.after s) onResult x y

variable (s : ObjectStore) {α : Type}

theorem lift_alike {onResult : α → α} {e e' : Except MetamodelError α} (h : e.map onResult = e') :
    Alike s onResult (lift e) (lift e') := by
  subst h
  intro st
  cases e <;> rfl

theorem lift_alike_id (e : Except MetamodelError α) : Alike s id (lift e) (lift e) :=
  lift_alike s (by cases e <;> rfl)

theorem newObject_alike (c : ClassifierRef) :
    Alike s (s.size + ·) (newObject c) (newObject c) := by
  intro st
  simp only [newObject, ReadState.after, ObjectStore.append_newObject, carry]

theorem setValue_alike (x : ObjectId) (feature : String) (v : FeatureValue) :
    Alike s id (setValue x feature v) (setValue (s.size + x) feature (v.shift s.size)) := by
  refine tracks_modify fun st => ?_
  simp only [ReadState.after, ObjectStore.append_set]

theorem plainValue_shift {m : Metamodel} {f : Feature} (hk : f.kind = .plain) (v : Json) (k : Nat) :
    (plainValue m f v).map (FeatureValue.shift k) = plainValue m f v := by
  cases h : plainValue m f v with
  | error e => rfl
  | ok w =>
    have hw := Feature.mentions_of_holds hk (holds_of_plainValue hk h)
    exact congrArg Except.ok (FeatureValue.shift_of_mentions_nil hw)

section Contained

variable {read : JsonMembers → Option ClassifierRef → Reading ObjectId}
  (hread : ∀ members expected,
    Alike s (s.size + ·) (read members expected) (read members expected))
include hread

theorem readOwned_alike (f : Feature) (v : Json) :
    Alike s (s.size + ·) (readOwned read f v) (readOwned read f v) := by
  unfold readOwned
  split
  · exact hread _ _
  · exact lift_alike s rfl

theorem owned_alike (f : Feature) (v : Json) :
    Alike s (FeatureValue.shift s.size) (owned read f v) (owned read f v) := by
  have hone := readOwned_alike s hread f
  unfold owned
  split
  · exact tracks_pure rfl
  · split
    · exact (Tracks.mapM fun v _ => hone v).map fun _ => by rw [FeatureValue.shift]
    · exact (hone _).map fun _ => by rw [FeatureValue.shift]
  · split
    · exact (hone _).map fun _ => by rw [FeatureValue.shift]; rfl
    · exact (hone _).map fun _ => by rw [FeatureValue.shift]

theorem readFeature_alike (m : Metamodel) (x : ObjectId) (members : JsonMembers) (f : Feature) :
    Alike s id (readFeature m read x members f) (readFeature m read (s.size + x) members f) := by
  unfold readFeature
  cases members.get? f.name with
  | none => exact tracks_pure rfl
  | some v =>
    cases hk : f.kind with
    | plain =>
      exact (lift_alike s (plainValue_shift hk v s.size)).bind fun w => setValue_alike s x f.name w
    | containment => exact (owned_alike s hread f v).bind fun w => setValue_alike s x f.name w
    | reference =>
      refine (setValue_alike s x f.name .null).bind fun _ => tracks_modify fun st => ?_
      simp [ReadState.after, Pending.shift]

end Contained

theorem readObject_alike (m : Metamodel) (depth : Nat) (members : JsonMembers)
    (expected : Option ClassifierRef) :
    Alike s (s.size + ·) (readObject m depth members expected)
      (readObject m depth members expected) := by
  induction depth generalizing members expected with
  | zero => exact lift_alike s rfl
  | succ depth ih =>
    unfold readObject
    refine (lift_alike_id s _).bind fun c => (lift_alike_id s _).bind fun features => ?_
    dsimp only [id]
    cases strayKey? members features with
    | some key => exact lift_alike s rfl
    | none =>
      refine (newObject_alike s c).bind fun x => ?_
      refine (Tracks.forM_same fun f _ => readFeature_alike s ih m x members f).bind fun _ => ?_
      exact tracks_pure rfl

theorem referenceValue_shift (k : Nat) (many : Bool) (ids : List ObjectId) :
    (referenceValue many ids).shift k = referenceValue many (ids.map (k + ·)) := by
  cases many with
  | true => simp [referenceValue, FeatureValue.shift]
  | false => cases ids <;> simp [referenceValue, FeatureValue.shift]

theorem append_resolvePending (root : ObjectId) (t : ObjectStore) (p : Pending) :
    resolvePending (s.size + root) (s.append t) (p.shift s.size) =
      s.append (resolvePending root t p) := by
  have hfound : (p.targets.filterMap fun a =>
      (s.append t).resolve? (s.size + root) (fragmentOf a)) =
        (p.targets.filterMap fun a => t.resolve? root (fragmentOf a)).map (s.size + ·) := by
    simp only [ObjectStore.resolve?_append, List.map_filterMap]
  unfold resolvePending
  rw [← ObjectStore.append_set, referenceValue_shift, ← hfound]
  rfl

/-- Reading after the objects of a store. -/
theorem read_after (m : Metamodel) (default : Option ClassifierRef) (document : Json) :
    read m default document s = ((read m default document .empty).1.map (s.size + ·),
      s.append (read m default document .empty).2) := by
  unfold read
  split
  · rename_i members
    have hstart : ReadState.mk s [] = ReadState.after s ⟨.empty, []⟩ := by
      rw [ReadState.after, ObjectStore.append_empty]
      rfl
    have hrun := readObject_alike s m (Json.object members).depth members default ⟨.empty, []⟩
    rw [hstart, hrun]
    cases readObject m (Json.object members).depth members default ⟨.empty, []⟩ with
    | error e st => rfl
    | ok root st =>
      have hsettled : (st.pending.map (Pending.shift s.size)).foldl (resolvePending (s.size + root))
          (s.append st.store) = s.append (st.pending.foldl (resolvePending root) st.store) := by
        rw [List.foldl_map]
        exact List.foldl_hom _ fun t p => append_resolvePending s root t p
      exact congrArg (Prod.mk (Except.ok (s.size + root))) hsettled
  · simp [Except.map]

end ObjectDocument

namespace ToObjects

def Pending.shift (k : Nat) (p : Pending) : Pending := { p with owner := k + p.owner }

def State.after (s : ObjectStore) (st : State) : State :=
  ⟨s.append st.store, st.created.mapValues (s.size + ·), st.pending.map (Pending.shift s.size)⟩

/-- After the objects of `s`, `y` converts as `x` does alone. -/
abbrev Alike {α : Type} (s : ObjectStore) (onResult : α → α) (x y : Convert α) : Prop :=
  Tracks id (State.after s) onResult x y

variable (s : ObjectStore) {α : Type}

theorem lift_alike {onResult : α → α} {e e' : Except ConversionError α} (h : e.map onResult = e') :
    Alike s onResult (lift e) (lift e') := by
  subst h
  intro st
  cases e <;> rfl

theorem lift_alike_id (e : Except ConversionError α) : Alike s id (lift e) (lift e) :=
  lift_alike s (by cases e <;> rfl)

theorem onStore_alike {onResult : α → α} {g g' : ObjectStore → α × ObjectStore}
    (h : ∀ t, g' (s.append t) = (onResult (g t).1, s.append (g t).2)) :
    Alike s onResult (onStore g) (onStore g') := by
  intro st
  simp only [onStore, State.after, h, carry]

theorem setValue_alike (x : ObjectId) (feature : String) (v : FeatureValue) :
    Alike s id (setValue x feature v) (setValue (s.size + x) feature (v.shift s.size)) :=
  onStore_alike s fun t => congrArg (Prod.mk ()) (s.append_set t x feature v)

theorem pointObject_append (t : ObjectStore) (p : Point) :
    pointObject (s.append t) p = (s.size + (pointObject t p).1, s.append (pointObject t p).2) := by
  have hset : ∀ t x name n, (s.append t).set (s.size + x) name (.integer n) =
      s.append (t.set x name (.integer n)) := fun t x name n => s.append_set t x name (.integer n)
  simp only [pointObject, ObjectStore.append_newObject, hset]

theorem positionObject_append (p : Position) (t : ObjectStore) :
    positionObject p (s.append t) =
      (s.size + (positionObject p t).1, s.append (positionObject p t).2) := by
  have hset : ∀ t x name y, (s.append t).set (s.size + x) name (.contained (s.size + y)) =
      s.append (t.set x name (.contained y)) := fun t x name y => s.append_set t x name (.contained y)
  simp only [positionObject, ObjectStore.append_newObject, pointObject_append, hset]

theorem mentions_enumValue {m : Metamodel} {c : ClassifierRef} {e : EnumValue} {w : FeatureValue}
    (h : enumValue m c e = .ok w) : w.mentions = [] := by
  unfold enumValue at h
  dsimp only at h
  split at h
  · cases h
    rfl
  · cases h

theorem mentions_plainValue {m : Metamodel} {c : ClassifierRef} {f : Feature} {v : Value}
    {w : FeatureValue} (h : plainValue m c f v = .ok w) : w.mentions = [] := by
  unfold plainValue at h
  dsimp only at h
  split at h
  case h_6 | h_7 | h_8 | h_9 =>
    -- any scalar fits an untyped attribute
    split at h
    · cases h
      rfl
    · cases h
  case h_10 => exact mentions_enumValue h
  all_goals cases h <;> rfl

theorem plainValue_shift (m : Metamodel) (c : ClassifierRef) (f : Feature) (v : Value) (k : Nat) :
    (plainValue m c f v).map (FeatureValue.shift k) = plainValue m c f v := by
  cases h : plainValue m c f v with
  | error e => rfl
  | ok w => exact congrArg Except.ok (FeatureValue.shift_of_mentions_nil (mentions_plainValue h))

theorem mapM_plainValue_shift (m : Metamodel) (c : ClassifierRef) (f : Feature) (vs : List Value)
    (k : Nat) :
    (vs.mapM (plainValue m c f)).map (FeatureValue.shiftAll k) = vs.mapM (plainValue m c f) := by
  cases h : vs.mapM (plainValue m c f) with
  | error e => rfl
  | ok ws =>
    have hws : FeatureValue.mentionsAll ws = [] := by
      refine FeatureValue.mentionsAll_eq_nil fun w hw => ?_
      obtain ⟨v, -, hv⟩ := exists_of_mem_mapM_ok h hw
      exact mentions_plainValue hv
    exact congrArg Except.ok (FeatureValue.shiftAll_of_mentionsAll_nil hws)

def Converted.shift (k : Nat) : Converted → Converted
  | .value v => .value (v.shift k)
  | .later targets => .later targets

section Children

variable {child : NodeId → Convert ObjectId}
  (hchild : ∀ n, Alike s (s.size + ·) (child n) (child n))
include hchild

theorem slotValue_alike (m : Metamodel) (c : ClassifierRef) (f : Feature) (v : Value) :
    Alike s (Converted.shift s.size) (slotValue m c f child v) (slotValue m c f child v) := by
  unfold slotValue
  split
  · exact (hchild _).map fun _ => by rw [Converted.shift, FeatureValue.shift]
  · exact (Tracks.mapM fun n _ => hchild n).map fun _ => by
      rw [Converted.shift, FeatureValue.shift]
  · exact tracks_pure rfl
  · exact tracks_pure rfl
  · exact (lift_alike s (mapM_plainValue_shift m c f _ s.size)).map fun _ => by
      rw [Converted.shift, FeatureValue.shift]
  · exact (lift_alike s (plainValue_shift m c f _ s.size)).map fun _ => by rw [Converted.shift]
  · exact lift_alike s rfl

theorem convertSlot_alike (m : Metamodel) (c : ClassifierRef) (features : List Feature)
    (x : ObjectId) (name : String) (v : Value) :
    Alike s id (convertSlot m c features x child name v)
      (convertSlot m c features (s.size + x) child name v) := by
  unfold convertSlot
  split
  · exact tracks_pure rfl
  · cases features.find? (·.name = name) with
    | none => exact lift_alike_id s _
    | some f =>
      refine (slotValue_alike s hchild m c f v).bind fun converted => ?_
      cases converted with
      | value w => exact setValue_alike s x f.name w
      | later targets =>
        refine tracks_modify fun st => ?_
        simp [State.after, Pending.shift]

end Children

theorem convertPosition_alike (options : ConversionOptions) (features : List Feature)
    (x : ObjectId) (position : Option Position) :
    Alike s id (convertPosition options features x position)
      (convertPosition options features (s.size + x) position) := by
  unfold convertPosition
  cases position with
  | none => exact tracks_pure rfl
  | some p =>
    dsimp only
    split
    · refine (onStore_alike s (positionObject_append s p)).bind fun y => ?_
      exact setValue_alike s x "position" (.contained y)
    · exact tracks_pure rfl

theorem convert_alike (f : Forest) (m : Metamodel) (options : ConversionOptions) (depth : Nat)
    (n : NodeId) :
    Alike s (s.size + ·) (convert f m options depth n) (convert f m options depth n) := by
  induction depth generalizing n with
  | zero => exact lift_alike s rfl
  | succ depth ih =>
    unfold convert
    refine (lift_alike_id s _).bind fun c => (lift_alike_id s _).bind fun features => ?_
    refine (onStore_alike s fun t => s.append_newObject t c).bind fun x => ?_
    refine Tracks.bind (tracks_modify fun st => ?_) fun _ => ?_
    · simp only [State.after, Table.insert_mapValues]
    refine (convertPosition_alike s options features x (f.position n)).bind fun _ => ?_
    -- the slots are those of the tree, which both runs read
    refine (Tracks.forM_same fun e _ => ?_).bind fun _ => tracks_pure rfl
    exact convertSlot_alike s ih m c features x e.1 e.2

theorem found_after (options : ConversionOptions) (created : Table NodeId ObjectId) (p : Pending)
    (k : Nat) :
    (found options created p).map (List.map (k + ·)) =
      found options (created.mapValues (k + ·)) (p.shift k) := by
  simp only [found, Pending.shift, Table.contains_mapValues, Table.get?_mapValues]
  split
  · rfl
  · simp [Except.map, List.map_filterMap]

theorem settle_alike (options : ConversionOptions) (p : Pending) :
    Alike s id (settle options p) (settle options (p.shift s.size)) := by
  unfold settle
  refine tracks_get.bind fun st => ?_
  refine (lift_alike s (found_after options st.created p s.size)).bind fun ids => ?_
  have hvalue := ObjectDocument.referenceValue_shift s.size p.many ids
  simp only [ObjectDocument.referenceValue] at hvalue
  have hset := setValue_alike s p.owner p.feature
    (if p.many then .references ids else (ids.head?.map .reference).getD .null)
  rw [hvalue] at hset
  exact hset

theorem convertTree_alike (f : Forest) (m : Metamodel) (options : ConversionOptions) (n : NodeId) :
    Alike s (s.size + ·) (convertTree f m options n) (convertTree f m options n) := by
  unfold convertTree
  refine (convert_alike s f m options (f.size + 1) n).bind fun root => ?_
  refine tracks_get.bind fun st => ?_
  refine (Tracks.forM (Pending.shift s.size) fun p _ => ?_).bind fun _ => tracks_pure rfl
  exact settle_alike s options p

end ToObjects

/-- Converting a tree after the objects of a store. -/
theorem Forest.toObjects_after (f : Forest) (n : NodeId) (m : Metamodel)
    (options : ConversionOptions) (s : ObjectStore) :
    f.toObjects n m options s = ((f.toObjects n m options .empty).1.map (s.size + ·),
      s.append (f.toObjects n m options .empty).2) := by
  have hstart : ToObjects.State.mk s .empty [] = ToObjects.State.after s ⟨.empty, .empty, []⟩ := by
    rw [ToObjects.State.after, ObjectStore.append_empty]
    rfl
  have hrun := ToObjects.convertTree_alike s f m options n ⟨.empty, .empty, []⟩
  unfold toObjects
  rw [hstart, hrun]
  cases ToObjects.convertTree f m options n ⟨.empty, .empty, []⟩ <;> rfl

def ConversionError.shift (k : Nat) : ConversionError → ConversionError
  | .model e => .model (e.shift k)
  | e => e

namespace ToNodes

def Pending.shift (k : Nat) (p : Pending) : Pending := { p with node := k + p.node }

def State.after (f : Forest) (st : State) : State :=
  ⟨f.append st.forest, st.created.mapValues (f.size + ·), st.pending.map (Pending.shift f.size)⟩

/-- After the nodes of `f`, `y` converts as `x` does alone. -/
abbrev Alike {α : Type} (f : Forest) (onResult : α → α) (x y : Convert α) : Prop :=
  Tracks (ConversionError.shift f.size) (State.after f) onResult x y

variable (f : Forest) {α : Type}

theorem lift_alike {onResult : α → α} {e e' : Except ConversionError α}
    (h : (e.map onResult).mapError (.shift f.size) = e') :
    Alike f onResult (lift e) (lift e') := by
  subst h
  intro st
  cases e <;> rfl

theorem lift_alike_of_fixed {onResult : α → α} {e : Except ConversionError α}
    (h : Gives (fun e => e.shift f.size = e) (fun a => onResult a = a) e) :
    Alike f onResult (lift e) (lift e) := by
  refine lift_alike f ?_
  cases e with
  | ok a => exact congrArg Except.ok h
  | error e => exact congrArg Except.error h

theorem edit_alike {x y : Edit α} (h : Edit.Alike f x y) : Alike f id (edit x) (edit y) := by
  intro st
  have hy : y (f.append st.forest) = carry (ModelError.shift f.size) f.append id (x st.forest) :=
    h st.forest
  unfold edit
  dsimp only [State.after]
  rw [hy]
  cases x st.forest <;> rfl

theorem newNode_alike (t : NodeType) : Alike f (f.size + ·) (newNode t) (newNode t) := by
  intro st
  simp only [newNode, State.after, Forest.append_newNode, carry]

theorem typeOf_fixed (m : Metamodel) (catalog : TypeCatalog) (c : ClassifierRef) (k : Nat) :
    Gives (fun e => e.shift k = e) (fun t => id t = t) (typeOf m catalog c) := by
  unfold typeOf
  cases m.qualifiedName c with
  | error e => exact rfl
  | ok name =>
    simp only [Except.mapError, bind, Except.bind]
    split <;> exact rfl

theorem mapError_metamodel_fixed (e : Except MetamodelError α) (k : Nat) :
    Gives (fun e => e.shift k = e) (fun a => id a = a) (e.mapError ConversionError.metamodel) := by
  cases e <;> exact rfl

theorem plainValue_fixed (catalog : TypeCatalog) (t : NodeType) (p : Property) (v : FeatureValue)
    (k : Nat) :
    Gives (fun e => e.shift k = e) (fun w => w.mentions = []) (plainValue catalog t p v) := by
  cases v with
  | integer n =>
    show (if p.type = .data .real then Value.real _ else .integer n).mentions = []
    split <;> rfl
  | enumeration ordinal =>
    simp only [plainValue]
    split
    · split <;> exact rfl
    · exact rfl
  | _ => exact rfl

theorem setChildren_alike (x : NodeId) (p : Property) (ids : List NodeId) :
    Alike f id (setChildren x p ids) (setChildren (f.size + x) p (ids.map (f.size + ·))) := by
  unfold setChildren
  split
  · exact edit_alike f (f.setChildren_alike x p.name ids)
  · rw [List.head?_map]
    exact edit_alike f (f.setChild_alike x p.name ids.head?)

theorem wait_alike (x : NodeId) (t : NodeType) (name : String) (targets : List ObjectId) :
    Alike f id (wait x t name targets) (wait (f.size + x) t name targets) := by
  refine tracks_modify fun st => ?_
  simp [State.after, Pending.shift]

section Children

variable {child : ObjectId → Convert NodeId}
  (hchild : ∀ o, Alike f (f.size + ·) (child o) (child o))
include hchild

theorem convertProperty_alike (catalog : TypeCatalog) (t : NodeType) (x : NodeId) (p : Property)
    (v : FeatureValue) :
    Alike f id (convertProperty catalog t x p child v)
      (convertProperty catalog t (f.size + x) p child v) := by
  have hplain := fun v => (plainValue_fixed catalog t p v f.size).imp fun w hw =>
    Value.shift_of_mentions_nil (k := f.size) hw
  have hitems := fun items : List FeatureValue =>
    (Gives.mapM fun v (_ : v ∈ items) => plainValue_fixed catalog t p v f.size).imp fun ws hws =>
      Value.shiftAll_of_mentionsAll_nil (k := f.size) (Value.mentionsAll_eq_nil hws)
  unfold convertProperty
  split
  · exact (hchild _).bind fun c => setChildren_alike f x p [c]
  · exact (Tracks.mapM fun o _ => hchild o).bind fun cs => setChildren_alike f x p cs
  · exact wait_alike f x t p.name _
  · exact wait_alike f x t p.name _
  · refine (lift_alike_of_fixed f (hitems _)).bind fun ws => ?_
    exact edit_alike f (f.setValue_alike x p.name (.list ws))
  · refine (lift_alike_of_fixed f (hplain _)).bind fun w => ?_
    exact edit_alike f (f.setValue_alike x p.name w)
  · exact lift_alike f rfl

theorem convertValue_alike (s : ObjectStore) (catalog : TypeCatalog) (options : ConversionOptions)
    (o : ObjectId) (features : List OwnedFeature) (t : NodeType) (x : NodeId) (name : String)
    (v : FeatureValue) :
    Alike f id (convertValue s catalog options o features t x child name v)
      (convertValue s catalog options o features t (f.size + x) child name v) := by
  unfold convertValue
  split
  · exact tracks_pure rfl
  split
  · split
    · refine tracks_modify fun st => ?_
      simp only [State.after, Forest.append_setPosition]
    · exact tracks_pure rfl
  · cases t.property? name with
    | some p => exact convertProperty_alike f hchild catalog t x p v
    | none =>
      dsimp only
      split
      · exact tracks_pure rfl
      · exact lift_alike f rfl

end Children

theorem convert_alike (s : ObjectStore) (m : Metamodel) (catalog : TypeCatalog)
    (options : ConversionOptions) (depth : Nat) (o : ObjectId) :
    Alike f (f.size + ·) (convert s m catalog options depth o)
      (convert s m catalog options depth o) := by
  induction depth generalizing o with
  | zero => exact lift_alike f rfl
  | succ depth ih =>
    unfold convert
    refine (lift_alike_of_fixed f (typeOf_fixed m catalog _ f.size)).bind fun t => ?_
    refine (lift_alike_of_fixed f (mapError_metamodel_fixed _ f.size)).bind fun features => ?_
    refine (newNode_alike f t).bind fun x => ?_
    refine Tracks.bind (tracks_modify fun st => ?_) fun _ => ?_
    · simp only [State.after, Table.insert_mapValues]
    refine (Tracks.forM_same fun e _ => ?_).bind fun _ => tracks_pure rfl
    exact convertValue_alike f ih s catalog options o features t x e.1 e.2

theorem found_after (options : ConversionOptions) (created : Table ObjectId NodeId) (p : Pending)
    (k : Nat) :
    ((found options created p).map (List.map (k + ·))).mapError (.shift k) =
      found options (created.mapValues (k + ·)) (p.shift k) := by
  simp only [found, Pending.shift, Table.contains_mapValues, Table.get?_mapValues]
  split
  · rfl
  · simp [Except.map, Except.mapError, List.map_filterMap]

theorem settle_alike (options : ConversionOptions) (p : Pending) :
    Alike f id (settle options p) (settle options (p.shift f.size)) := by
  unfold settle
  refine tracks_get.bind fun st => ?_
  refine (lift_alike f (found_after options st.created p f.size)).bind fun ids => ?_
  have hsame : ((p.shift f.size).type.property? (p.shift f.size).name).any (·.multiple) =
      (p.type.property? p.name).any (·.multiple) := rfl
  by_cases hmany : (p.type.property? p.name).any (·.multiple) = true
  · rw [if_pos hmany, if_pos (hsame.trans hmany)]
    exact Tracks.forM _ fun c _ => edit_alike f (f.addReference_alike p.node p.name c)
  · rw [if_neg hmany, if_neg (hsame ▸ hmany), List.head?_map]
    exact edit_alike f (f.setReference_alike p.node p.name ids.head?)

theorem convertTree_alike (s : ObjectStore) (m : Metamodel) (catalog : TypeCatalog)
    (options : ConversionOptions) (o : ObjectId) :
    Alike f (f.size + ·) (convertTree s m catalog options o)
      (convertTree s m catalog options o) := by
  unfold convertTree
  refine (convert_alike f s m catalog options (s.size + 1) o).bind fun root => ?_
  refine tracks_get.bind fun st => ?_
  refine (Tracks.forM (Pending.shift f.size) fun p _ => ?_).bind fun _ => tracks_pure rfl
  exact settle_alike f options p

end ToNodes

/-- Converting an object after the nodes of a forest. -/
theorem ObjectStore.toNodes_after (s : ObjectStore) (o : ObjectId) (m : Metamodel)
    (catalog : TypeCatalog) (options : ConversionOptions) (f : Forest) :
    s.toNodes o m catalog options f =
      (((s.toNodes o m catalog options .empty).1.map (f.size + ·)).mapError (.shift f.size),
        f.append (s.toNodes o m catalog options .empty).2) := by
  have hstart : ToNodes.State.mk f .empty [] = ToNodes.State.after f ⟨.empty, .empty, []⟩ := by
    rw [ToNodes.State.after, Forest.append_empty]
    rfl
  have hrun := ToNodes.convertTree_alike f s m catalog options o ⟨.empty, .empty, []⟩
  unfold toNodes
  rw [hstart, hrun]
  cases ToNodes.convertTree s m catalog options o ⟨.empty, .empty, []⟩ <;> rfl

/-- There is room for the objects that a conversion makes beside those of the store. -/
def ObjectStore.HasRoomFor {ε : Type} (s : ObjectStore)
    (convert : ObjectStore → Except ε ObjectId × ObjectStore) : Prop :=
  s.size + (convert .empty).2.size ≤ arenaRoom

/-- There is room for the nodes that a conversion makes beside those of the forest. -/
def Forest.HasRoomFor (f : Forest)
    (convert : Forest → Except ConversionError NodeId × Forest) : Prop :=
  f.size + (convert .empty).2.size ≤ arenaRoom

/-- A conversion into a store that only appends, and in a way that what was there does not bear
on. -/
structure ObjectStore.Appends {ε : Type} (s : ObjectStore)
    (convert : ObjectStore → Except ε ObjectId × ObjectStore) : Prop where
  /-- The objects that were there stay as they were. -/
  kept : ∀ x < s.size, (convert s).2.get x = s.get x
  /-- A new object contains, refers to and is contained in new objects only. -/
  apart : ∀ x, s.size ≤ x → ∀ y ∈ ((convert s).2.get x).mentions, s.size ≤ y
  /-- As many new objects are made as in an empty store, and there is room for them. -/
  size : (convert s).2.size = s.size + (convert .empty).2.size ∧ (convert s).2.size ≤ arenaRoom
  /-- Each of them is the one made in an empty store, up to the places of new objects. -/
  entries : ∀ x, (convert s).2.get (s.size + x) = ((convert .empty).2.get x).shift s.size
  /-- So is the result; errors are the same. -/
  result : (convert s).1 = (convert .empty).1.map (s.size + ·)

/-- A conversion into a forest that only appends, and in a way that what was there does not bear
on. -/
structure Forest.Appends (f : Forest)
    (convert : Forest → Except ConversionError NodeId × Forest) : Prop where
  /-- The nodes that were there stay as they were. -/
  kept : ∀ x < f.size, (convert f).2.get x = f.get x
  /-- A new node has new nodes only as children, targets, origin and parent. -/
  apart : ∀ x, f.size ≤ x → ∀ y ∈ ((convert f).2.get x).mentions, f.size ≤ y
  /-- As many new nodes are made as in an empty forest, and there is room for them. -/
  size : (convert f).2.size = f.size + (convert .empty).2.size ∧ (convert f).2.size ≤ arenaRoom
  /-- Each of them is the one made in an empty forest, up to the places of new nodes. -/
  entries : ∀ x, (convert f).2.get (f.size + x) = ((convert .empty).2.get x).shift f.size
  /-- So is the result, and so is the error, which may name nodes. -/
  result : (convert f).1 = ((convert .empty).1.map (f.size + ·)).mapError (.shift f.size)

theorem ObjectStore.appends_of_after {ε : Type} {s : ObjectStore}
    {convert : ObjectStore → Except ε ObjectId × ObjectStore}
    (h : convert s = ((convert .empty).1.map (s.size + ·), s.append (convert .empty).2))
    (hroom : s.HasRoomFor convert) : s.Appends convert where
  kept x hx := by
    rw [h]
    exact s.get_append_left _ hx
  apart x hx y hy := by
    obtain ⟨j, rfl⟩ := Nat.exists_eq_add_of_le hx
    rw [h, get_append] at hy
    exact Object.le_of_mem_mentions_shift hy
  size := by
    rw [h, s.size_append]
    exact ⟨rfl, hroom⟩
  entries x := by
    rw [h]
    exact s.get_append _ x
  result := by
    rw [h]

theorem Forest.appends_of_after {f : Forest}
    {convert : Forest → Except ConversionError NodeId × Forest}
    (h : convert f = (((convert .empty).1.map (f.size + ·)).mapError (.shift f.size),
      f.append (convert .empty).2))
    (hroom : f.HasRoomFor convert) : f.Appends convert where
  kept x hx := by
    rw [h]
    exact f.get_append_left _ hx
  apart x hx y hy := by
    obtain ⟨j, rfl⟩ := Nat.exists_eq_add_of_le hx
    rw [h, get_append] at hy
    exact Node.le_of_mem_mentions_shift hy
  size := by
    rw [h, f.size_append]
    exact ⟨rfl, hroom⟩
  entries x := by
    rw [h]
    exact f.get_append _ x
  result := by
    rw [h]

/-- Every conversion only appends, whether it succeeds or fails, as long as there is room for what
it makes. -/
theorem conversions_append (m : Metamodel) (options : ConversionOptions) :
    (∀ default document (s : ObjectStore), s.HasRoomFor (ObjectDocument.read m default document) →
      s.Appends (ObjectDocument.read m default document)) ∧
    (∀ (f : Forest) (n : NodeId) (s : ObjectStore), s.HasRoomFor (f.toObjects n m options) →
      s.Appends (f.toObjects n m options)) ∧
    ∀ (s : ObjectStore) (o : ObjectId) (catalog : TypeCatalog) (f : Forest),
      f.HasRoomFor (s.toNodes o m catalog options) → f.Appends (s.toNodes o m catalog options) := by
  refine ⟨fun default document s => ?_, fun f n s => ?_, fun s o catalog f => ?_⟩
  · exact ObjectStore.appends_of_after (ObjectDocument.read_after s m default document)
  · exact ObjectStore.appends_of_after (f.toObjects_after n m options s)
  · exact Forest.appends_of_after (s.toNodes_after o m catalog options f)

def statementType : NodeType := NodeType.ofName ⟨"StrumentaLanguageSupport", "Statement"⟩

def statements : Forest := ((Forest.empty.newNode statementType).2.newNode statementType).2

def statementObjects : ObjectStore :=
  ((ObjectStore.empty.newObject (.ast "Statement")).2.newObject (.ast "Statement")).2

def statementDocument : Json :=
  .object [("eClass", .string (ClassifierRef.ast "Result").render),
    ("root", .object [("eClass", .string (ClassifierRef.ast "Statement").render)])]

/-- Each conversion puts what it makes behind two statements, which stay as they are. -/
theorem conversions_append_statements :
    statementObjects.HasRoomFor (ObjectDocument.read .initial none statementDocument) ∧
    (ObjectDocument.read .initial none statementDocument statementObjects).1 = .ok 2 ∧
    (∀ x < 2, (ObjectDocument.read .initial none statementDocument statementObjects).2.get x =
      statementObjects.get x) ∧
    statementObjects.HasRoomFor (statements.toObjects 1 .initial .default) ∧
    (statements.toObjects 1 .initial .default statementObjects).1 = .ok 2 ∧
    statements.HasRoomFor (statementObjects.toNodes 1 .initial
      (TypeCatalog.initial.put statementType) .default) ∧
    (statementObjects.toNodes 1 .initial (TypeCatalog.initial.put statementType) .default
      statements).1 = .ok 2 := by
  have hread : (ObjectDocument.read .initial none statementDocument .empty).1 = .ok 0 :=
    StatefulRuns.toOption_eq_some_iff.1 (by decide +kernel)
  have htree : (statements.toObjects 1 .initial .default .empty).1 = .ok 0 :=
    StatefulRuns.toOption_eq_some_iff.1 (by decide +kernel)
  have hobject : (statementObjects.toNodes 1 .initial (TypeCatalog.initial.put statementType)
      .default .empty).1 = .ok 0 := StatefulRuns.toOption_eq_some_iff.1 (by decide +kernel)
  have hroom : statementObjects.HasRoomFor
      (ObjectDocument.read .initial none statementDocument) := by
    unfold ObjectStore.HasRoomFor
    decide +kernel
  have hroom' : statementObjects.HasRoomFor (statements.toObjects 1 .initial .default) := by
    unfold ObjectStore.HasRoomFor
    decide +kernel
  have hroom'' : statements.HasRoomFor (statementObjects.toNodes 1 .initial
      (TypeCatalog.initial.put statementType) .default) := by
    unfold Forest.HasRoomFor
    decide +kernel
  obtain ⟨hreads, htrees, hobjects⟩ := conversions_append .initial .default
  have happends := hreads none statementDocument statementObjects hroom
  refine ⟨hroom, ?_, happends.kept, hroom', ?_, hroom'', ?_⟩
  · rw [happends.result, hread]
    rfl
  · rw [(htrees statements 1 statementObjects hroom').result, htree]
    rfl
  · rw [(hobjects statementObjects 1 _ statements hroom'').result, hobject]
    rfl

end TreeInterchange
