import TreeInterchange.Proofs.ExportedPackages
import TreeInterchange.Proofs.TreeConvertibility

/-!
# Which trees the exported packages can hold

Let all packages of a catalog be derived into one metamodel, and take a tree of registered types
whose plain values have the forms that their properties declare. Classes and features are found
for all of it, and references that leave the tree are dropped. What can go wrong is the look-up of
a literal, because an attribute asks for its enumeration in the package of the class: the tree is
converted exactly if that package has an enumeration of the declared name with such a literal, or
at least with one at the same place.
-/

namespace TreeInterchange

/-- Whether a single plain value has the form of the type; a type that names none takes any
scalar, and where reals are asked for an integer will do. -/
def PropertyType.takes : PropertyType → Value → Bool
  | .data .string, .string _ => true
  | .data .integer, .integer _ => true
  | .data .real, .real _ => true
  | .data .real, .integer _ => true
  | .data .boolean, .boolean _ => true
  | .enumeration _, .enumeration _ => true
  | .any, v | .node _, v =>
    match v with
    | .string _ | .integer _ | .real _ | .boolean _ => true
    | _ => false
  | _, _ => false

/-- Whether the value of a plain property has the form of its type: nothing, one value or a list
of them. -/
def Property.takes (p : Property) : Value → Bool
  | .null => true
  | .list items => items.all p.type.takes
  | v => p.type.takes v

def Value.literal? : Value → Option EnumValue
  | .enumeration e => some e
  | _ => none

def Value.literals : Value → List EnumValue
  | .list items => items.filterMap literal?
  | v => v.literal?.toList

/-- The enumeration of that name has the literal, or at least one at the same place. -/
def TypeCatalog.Offers (c : TypeCatalog) (name : QualifiedName) (e : EnumValue) : Prop :=
  ∃ d, c.enum? name = some d ∧ (e.literal ∈ d.literals ∨ e.ordinal.toNat < d.literals.length)

/-- A package has what the literals in the value of a property need, under the name that the
property declares. -/
def Property.Served (c : TypeCatalog) (package : String) (p : Property) (v : Value) : Prop :=
  ∀ name, p.type = .enumeration name → ∀ e ∈ v.literals, c.Offers ⟨package, name.name⟩ e

/-- A tree of registered types with plain values of the declared forms. -/
structure Forest.Typed (c : TypeCatalog) (f : Forest) (n : NodeId) : Prop where
  present : n < f.size
  registered : ∀ y ∈ f.walk n, c.get? (f.get y).type.name = some (f.get y).type
  values : ∀ y ∈ f.walk n, ∀ p ∈ (f.get y).type.properties, p.kind = .value →
    ∀ v, f.slot? y p.name = some v → p.takes v = true

/-- All literals that a node holds are served by the package of its type. -/
def Forest.Served (c : TypeCatalog) (f : Forest) (y : NodeId) : Prop :=
  ∀ p ∈ (f.get y).type.properties, p.kind = .value → ∀ v, f.slot? y p.name = some v →
    p.Served c (f.get y).type.name.package v

namespace ToObjects

open StatefulRuns TreeInterchange.Derivation

theorem succeeds_lift {α : Type} (e : Except ConversionError α) :
    Succeeds (lift e) (∃ a, e = .ok a) := by
  intro st
  cases e with
  | ok a => exact iff_of_true ⟨a, st, rfl⟩ ⟨a, rfl⟩
  | error e =>
    refine iff_of_false ?_ ?_
    · rintro ⟨a, t, h⟩
      cases h
    · rintro ⟨a, h⟩
      cases h

theorem succeeds_lift_bind {α β : Type} {e : Except ConversionError α} {a : α}
    {k : α → Convert β} {Q : Prop} (he : e = .ok a) (hk : Succeeds (k a) Q) :
    Succeeds (lift e >>= k) Q := by
  subst he
  exact hk

theorem succeeds_onStore {α : Type} (g : ObjectStore → α × ObjectStore) :
    Succeeds (onStore g) True :=
  succeeds_of_ok fun _ => ⟨_, _, rfl⟩

theorem succeeds_pure {α : Type} (a : α) : Succeeds (pure a : Convert α) True :=
  succeeds_of_ok fun st => ⟨a, st, rfl⟩

theorem succeeds_modify (g : State → State) : Succeeds (modify g : Convert PUnit) True :=
  succeeds_of_ok fun _ => ⟨_, _, rfl⟩

theorem enumValue_ok_iff {m : Metamodel} {x : ClassifierRef} {e : EnumValue} :
    (∃ w, enumValue m x e = .ok w) ↔
      ∃ d, m.enum? x = some d ∧ (e.literal ∈ d.literals ∨ e.ordinal.toNat < d.literals.length) := by
  unfold enumValue
  cases hd : m.enum? x with
  | none => simp
  | some d =>
    simp only [Option.bind_some, Option.some.injEq, exists_eq_left']
    cases hi : d.literals.findIdx? (· = e.literal) with
    | none =>
      have hnot : e.literal ∉ d.literals := fun hmem => by
        simpa using List.findIdx?_eq_none_iff.1 hi _ hmem
      by_cases hlt : e.ordinal.toNat < d.literals.length <;>
        simp [EnumDecl.ordinal?, EnumDecl.literal?, hi, hnot, hlt]
    | some i =>
      obtain ⟨hlt, hat, -⟩ := List.findIdx?_eq_some_iff_getElem.1 hi
      have hmem : e.literal ∈ d.literals := by
        rw [← of_decide_eq_true hat]
        exact List.getElem_mem hlt
      -- the place is cut to 32 bits, which can only make it smaller
      have hplace : i % 4294967296 < d.literals.length := Nat.lt_of_le_of_lt (Nat.mod_le i _) hlt
      simp [EnumDecl.ordinal?, EnumDecl.literal?, hi, hmem, hplace]

variable {c : TypeCatalog} {f : Forest} {m : Metamodel} {package uri : String} {q : Property}
  {v : Value}

/-- A scalar of the declared form is converted, if it is no literal that goes unserved. -/
theorem plainValue_ok_iff (r : ClassifierRef) (hk : q.kind = .value)
    (hv : q.type.takes v = true) :
    (∃ w, plainValue m r (featureOf package uri q) v = .ok w) ↔
      ∀ name, q.type = .enumeration name → ∀ e, v.literal? = some e →
        ∃ w, enumValue m ⟨uri, name.name⟩ e = .ok w := by
  unfold plainValue
  rw [type_featureOf hk]
  cases ht : q.type with
  | enumeration name =>
    rw [ht] at hv
    cases v with
    | enumeration e => simp [attributeType, Value.literal?]
    | _ => cases hv
  | data d =>
    rw [ht] at hv
    cases d <;> cases v <;> first
      | exact iff_of_true ⟨_, rfl⟩ (by simp)
      | cases hv
  | any =>
    rw [ht] at hv
    cases v <;> first
      | exact iff_of_true ⟨_, rfl⟩ (by simp)
      | cases hv
  | node name =>
    rw [ht] at hv
    cases v <;> first
      | exact iff_of_true ⟨_, rfl⟩ (by simp)
      | cases hv

section Tree

variable {places : List Place} (h : Exports c places) {p : Place} (hp : p ∈ places)
include h hp

theorem plainValue_exported_iff (r : ClassifierRef) (hk : q.kind = .value)
    (hv : q.type.takes v = true) :
    (∃ w, plainValue (exported c places) r (featureOf p.package p.uri q) v = .ok w) ↔
      ∀ name, q.type = .enumeration name → ∀ e, v.literal? = some e →
        c.Offers ⟨p.package, name.name⟩ e := by
  rw [plainValue_ok_iff r hk hv]
  refine forall₂_congr fun name _ => forall₂_congr fun e _ => ?_
  rw [enumValue_ok_iff, h.enum?_exported hp]
  cases he : c.enum? ⟨p.package, name.name⟩ <;> simp [TypeCatalog.Offers, he]

theorem succeeds_slotValue (r : ClassifierRef) {child : NodeId → Convert ObjectId}
    {R : NodeId → Prop} (hchild : ∀ d ∈ v.children, Succeeds (child d) (R d))
    (hadmits : q.Admits v) (hnull : v.isNull = false)
    (htakes : q.kind = .value → q.takes v = true) :
    Succeeds (slotValue (exported c places) r (featureOf p.package p.uri q) child v)
      ((∀ d ∈ v.children, R d) ∧ (q.kind = .value → q.Served c p.package v)) := by
  have hkind : (featureOf p.package p.uri q).kind = _ := kind_featureOf q
  rcases hadmits.of_not_null hnull with ⟨hk, hplain⟩ | ⟨hk, hnode⟩ | ⟨hk, href⟩
  · rw [hk] at hkind
    have hchildren : v.children = [] := Value.children_eq_nil hplain
    have htaken := htakes hk
    cases v with
    | list items =>
      have hitems : ∀ i ∈ items, q.type.takes i = true := List.all_eq_true.1 htaken
      simp only [slotValue, hkind]
      refine ((succeeds_lift _).before fun ws => succeeds_pure _).congr ?_
      rw [exists_mapM_ok_iff]
      trans ∀ i ∈ items, ∀ name, q.type = .enumeration name → ∀ e, i.literal? = some e →
        c.Offers ⟨p.package, name.name⟩ e
      · exact forall₂_congr fun i hi => plainValue_exported_iff h hp r hk (hitems i hi)
      · simp only [hchildren, List.not_mem_nil, false_implies, implies_true, true_and, hk,
          forall_const, Property.Served, Value.literals, List.mem_filterMap]
        grind
    | null => cases hnull
    | node d => cases hplain
    | nodes ds => cases hplain
    | reference t => cases hplain
    | references ts => cases hplain
    | _ =>
      simp only [slotValue, hkind]
      refine ((succeeds_lift _).before fun w => succeeds_pure _).congr ?_
      rw [plainValue_exported_iff h hp r hk htaken]
      simp [hchildren, hk, Property.Served, Value.literals]
  · rw [hk] at hkind
    rcases hnode with ⟨-, d, rfl⟩ | ⟨-, ds, rfl⟩
    · simp only [slotValue, hkind]
      refine ((hchild d (by simp [Value.children])).before fun o => succeeds_pure _).congr ?_
      simp [Value.children, hk]
    · simp only [slotValue, hkind]
      refine ((Succeeds.mapM fun d hd => hchild d hd).before fun os => succeeds_pure _).congr ?_
      simp [Value.children, hk]
  · rw [hk] at hkind
    rcases href with ⟨-, t, rfl⟩ | ⟨-, ts, rfl⟩
    · simp only [slotValue, hkind]
      exact (succeeds_pure _).congr (by simp [Value.children, hk])
    · simp only [slotValue, hkind]
      exact (succeeds_pure _).congr (by simp [Value.children, hk])

theorem succeeds_convertSlot {fs : List Feature} {r : ClassifierRef} (object : ObjectId)
    {child : NodeId → Convert ObjectId} {R : NodeId → Prop}
    (hchild : ∀ d ∈ v.children, Succeeds (child d) (R d)) (hadmits : q.Admits v)
    (htakes : q.kind = .value → q.takes v = true)
    (hq : fs.find? (·.name = q.name) = some (featureOf p.package p.uri q)) :
    Succeeds (convertSlot (exported c places) r fs object child q.name v)
      ((∀ d ∈ v.children, R d) ∧ (q.kind = .value → q.Served c p.package v)) := by
  unfold convertSlot
  split
  · rename_i hnull
    cases v with
    | null =>
      exact (succeeds_pure _).congr (by simp [Value.children, Property.Served, Value.literals,
        Value.literal?])
    | _ => cases hnull
  · rename_i hnull
    simp only [hq]
    refine (succeeds_slotValue h hp r hchild hadmits (by simpa using hnull) htakes).before ?_
    rintro (w | targets)
    · exact succeeds_onStore _
    · exact succeeds_modify _

omit h hp in
theorem succeeds_convertPosition (options : ConversionOptions) (fs : List Feature)
    (object : ObjectId) (position : Option Position) :
    Succeeds (convertPosition options fs object position) True := by
  unfold convertPosition
  split
  · split
    · exact (succeeds_onStore _).after fun _ => succeeds_onStore _
    · exact succeeds_pure _
  · exact succeeds_pure _

omit h hp in
theorem succeeds_settle (w : Pending) : Succeeds (settle .default w) True :=
  succeeds_of_ok fun _ => ⟨_, _, rfl⟩

end Tree

section Trees

variable {places : List Place} (h : Exports c places) (hf : f.IsForest)
include h hf

theorem succeeds_slots {p : Place} (hp : p ∈ places) {y : NodeId} (hy : y < f.size)
    (hregistered : c.get? (f.get y).type.name = some (f.get y).type)
    (hpackage : (f.get y).type.name.package = p.package)
    (hvalues : ∀ q ∈ (f.get y).type.properties, q.kind = .value →
      ∀ v, f.slot? y q.name = some v → q.takes v = true)
    {fs : List Feature} (hfs : ∀ q ∈ (f.get y).type.properties,
      fs.find? (·.name = q.name) = some (featureOf p.package p.uri q))
    (r : ClassifierRef) (object : ObjectId) {child : NodeId → Convert ObjectId}
    {R : NodeId → Prop} (hchild : ∀ d ∈ f.children y, Succeeds (child d) (R d)) :
    Succeeds ((f.get y).slots.entries.forM fun (name, v) =>
        convertSlot (exported c places) r fs object child name v)
      (f.Served c y ∧ ∀ d ∈ f.children y, R d) := by
  have hnames := h.defined.filled.named.names hregistered
  have hslot : ∀ e ∈ (f.get y).slots.entries, ∃ q ∈ (f.get y).type.properties, q.name = e.1 ∧
      f.slot? y q.name = some e.2 := by
    intro e he
    have hkey : e.1 ∈ (f.get y).slots.keys := List.mem_map_of_mem he
    rw [hf.names y hy] at hkey
    obtain ⟨q, hq, hname⟩ := List.mem_map.1 hkey
    refine ⟨q, hq, hname, ?_⟩
    rw [hname]
    exact Table.get?_eq_some_iff.2 he
  have hloop : Succeeds ((f.get y).slots.entries.forM fun (name, v) =>
        convertSlot (exported c places) r fs object child name v)
      (∀ e ∈ (f.get y).slots.entries, (∀ d ∈ e.2.children, R d) ∧
        ∀ q ∈ (f.get y).type.properties, q.name = e.1 → q.kind = .value →
          q.Served c p.package e.2) := by
    refine Succeeds.forM fun e he => ?_
    obtain ⟨q, hq, hname, hv⟩ := hslot e he
    have hone := succeeds_convertSlot h hp (r := r) object
      (fun d hd => hchild d
        (Forest.mem_children_iff.2 ⟨q.name, Forest.mem_childrenIn_iff.2 ⟨e.2, hv, hd⟩⟩))
      (hf.shapes y hy q hq e.2 hv) (fun hk => hvalues q hq hk e.2 hv) (hfs q hq)
    rw [hname] at hone
    refine hone.congr (and_congr_right fun _ => ⟨fun hs q' hq' hn hk => ?_, fun hs => hs q hq hname⟩)
    obtain rfl := eq_of_name_eq hnames hq' hq (hn.trans hname.symm)
    exact hs hk
  refine hloop.congr ⟨fun hall => ⟨fun q hq hk v hv => ?_, fun d hd => ?_⟩, ?_⟩
  · rw [hpackage]
    exact (hall (q.name, v) (Table.get?_eq_some_iff.1 hv)).2 q hq rfl hk
  · obtain ⟨name, hd⟩ := Forest.mem_children_iff.1 hd
    obtain ⟨v, hv, hd⟩ := Forest.mem_childrenIn_iff.1 hd
    exact (hall (name, v) (Table.get?_eq_some_iff.1 hv)).1 d hd
  · rintro ⟨hserved, hchildren⟩ ⟨name, v⟩ he
    have hv : f.slot? y name = some v := Table.get?_eq_some_iff.2 he
    refine ⟨fun d hd => hchildren d (Forest.mem_children_iff.2 ⟨name, ?_⟩), ?_⟩
    · exact Forest.mem_childrenIn_iff.2 ⟨v, hv, hd⟩
    · rintro q hq rfl hk
      exact hpackage ▸ hserved q hq hk v hv

/-- A tree is converted exactly if all its nodes hold literals that are served. -/
theorem succeeds_convert {depth : Nat} {y : NodeId} (hheight : HeightAtMost f.children depth y)
    (hsize : ∀ z ∈ listing f.children depth y, z < f.size)
    (hregistered : ∀ z ∈ listing f.children depth y,
      c.get? (f.get z).type.name = some (f.get z).type)
    (hvalues : ∀ z ∈ listing f.children depth y, ∀ q ∈ (f.get z).type.properties,
      q.kind = .value → ∀ v, f.slot? z q.name = some v → q.takes v = true) :
    Succeeds (convert f (exported c places) .default depth y)
      (∀ z ∈ listing f.children depth y, f.Served c z) := by
  induction depth generalizing y with
  | zero => exact hheight.elim
  | succ depth ih =>
    have hself : y ∈ listing f.children (depth + 1) y := self_mem_listing hheight
    have hbelow : ∀ d ∈ f.children y, listing f.children depth d ⊆
        listing f.children (depth + 1) y :=
      fun d hd z hz => mem_listing_succ.2 (.inr ⟨d, hd, hz⟩)
    have hchild : ∀ d ∈ f.children y, Succeeds (convert f (exported c places) .default depth d)
        (∀ z ∈ listing f.children depth d, f.Served c z) := fun d hd =>
      ih (hheight d hd) (fun z hz => hsize z (hbelow d hd hz))
        (fun z hz => hregistered z (hbelow d hd hz)) fun z hz => hvalues z (hbelow d hd hz)
    obtain ⟨p, hp, hpackage⟩ := h.exists_place (hregistered y hself)
    have hclass : classOf (exported c places) (f.get y).type.name =
        .ok ⟨p.uri, (f.get y).type.name.name⟩ := by
      rw [classOf, h.classNamed?_exported hp (hregistered y hself) hpackage.symm]
    obtain ⟨fs, hfs, hfind⟩ := h.features_exported hp (hregistered y hself) hpackage.symm
    have hslots := succeeds_slots h hf hp (hsize y hself) (hregistered y hself) hpackage.symm
      (hvalues y hself) hfind
    have hmapped : ((exported c places).features ⟨p.uri, (f.get y).type.name.name⟩).mapError
        ConversionError.metamodel = .ok fs := by
      rw [hfs]
      rfl
    refine Succeeds.congr (P := f.Served c y ∧
      ∀ d ∈ f.children y, ∀ z ∈ listing f.children depth d, f.Served c z) ?_ ?_
    · unfold convert
      refine succeeds_lift_bind hclass (succeeds_lift_bind hmapped ?_)
      refine (succeeds_onStore _).after fun object => (succeeds_modify _).after fun _ => ?_
      refine (succeeds_convertPosition _ _ _ _).after fun _ => ?_
      exact (hslots _ object hchild).before fun _ => succeeds_pure object
    · simp only [listing, List.forall_mem_cons, List.forall_mem_flatMap]

theorem succeeds_convertTree {n : NodeId} (hn : f.Typed c n) :
    Succeeds (convertTree f (exported c places) .default n) (∀ y ∈ f.walk n, f.Served c y) := by
  have hheight := hf.heightAtMost hn.present
  have hwalk := hf.listing_succ_eq_walk hn.present
  have hconvert := succeeds_convert h hf (hheight.mono (Nat.le_succ _))
    (fun z => hf.lt_size_of_mem_listing hn.present) (hwalk ▸ hn.registered) (hwalk ▸ hn.values)
  rw [hwalk] at hconvert
  refine hconvert.before fun root => ?_
  refine (succeeds_of_ok fun st => ⟨st, st, rfl⟩).after fun st => ?_
  have hloop : Succeeds (st.pending.forM (settle .default)) True :=
    (Succeeds.forM fun w _ => succeeds_settle w).congr (by simp)
  exact hloop.after fun _ => succeeds_pure root

end Trees

end ToObjects

namespace Forest

theorem exists_toObjects_ok {f : Forest} {n : NodeId} {m : Metamodel} {options : ConversionOptions}
    {P : Prop} (h : StatefulRuns.Succeeds (ToObjects.convertTree f m options n) P)
    (s : ObjectStore) : (∃ o u, f.toObjects n m options s = (.ok o, u)) ↔ P := by
  rw [← h ⟨s, .empty, []⟩]
  unfold toObjects
  constructor
  · rintro ⟨o, u, hrun⟩
    split at hrun
    · exact ⟨_, _, ‹_›⟩
    · cases hrun
  · rintro ⟨o, st, hrun⟩
    exact ⟨o, st.store, by rw [hrun]⟩

/-- A tree of registered types with values of the declared forms is converted to objects of the
exported packages exactly if, for every literal in it, the package of the node that holds it has an
enumeration of the declared name with that literal, or with one at its place. -/
theorem toObjects_exported_iff {c : TypeCatalog} {places : List Derivation.Place} {f : Forest}
    {n : NodeId} (h : Derivation.Exports c places) (hf : f.Reachable) (hn : f.Typed c n)
    (s : ObjectStore) :
    (∃ o u, f.toObjects n (Derivation.exported c places) .default s = (.ok o, u)) ↔
      ∀ y ∈ f.walk n, ∀ p ∈ (f.get y).type.properties, p.kind = .value →
        ∀ name, p.type = .enumeration name → ∀ v, f.slot? y p.name = some v → ∀ e ∈ v.literals,
          ∃ d, c.enum? ⟨(f.get y).type.name.package, name.name⟩ = some d ∧
            (e.literal ∈ d.literals ∨ e.ordinal.toNat < d.literals.length) := by
  rw [exists_toObjects_ok (ToObjects.succeeds_convertTree h hf.isForest hn) s]
  refine forall₂_congr fun y _ => forall₃_congr fun p _ _ => ?_
  exact ⟨fun hall name hname v hv => hall v hv name hname,
    fun hall v hv name hname => hall name hname v hv⟩

end Forest

section Paint

def colorType : EnumType := ⟨⟨"palette", "Color"⟩, ["red", "green"]⟩

def colored (package name : String) : NodeType :=
  (NodeType.ofName ⟨package, name⟩).withProperty
    ⟨"color", .value, .enumeration colorType.name, false, none⟩

/-- A type beside the enumeration, and one of another package. -/
def paintCatalog : TypeCatalog :=
  ((TypeCatalog.initial.registerEnum colorType).put (colored "palette" "Swatch")).put
    (colored "shapes" "Shape")

def paintPlaces : List Derivation.Place :=
  [⟨"astbridge", "urn:astbridge"⟩, ⟨"palette", "urn:palette"⟩, ⟨"shapes", "urn:shapes"⟩]

/-- A green swatch and a green shape. -/
def paintRun : List Forest.Operation :=
  let green : Value := .enumeration ⟨colorType.name, "green", 1⟩
  [.newNode (colored "palette" "Swatch"), .newNode (colored "shapes" "Shape"),
    .setValue 0 "color" green, .setValue 1 "color" green]

def painted : Forest := paintRun.foldl (fun f op => op.edit.stateAfter f) Forest.empty

theorem exports_paint : Derivation.Exports paintCatalog paintPlaces := by
  have hdefined : paintCatalog.Defined := by
    refine .define (t := colored "shapes" "Shape") (.define (t := colored "palette" "Swatch")
      (.registerEnum .initial colorType) (by simp [colored, NodeType.ofName,
          NodeType.withProperty]) rfl) (by simp [colored, NodeType.ofName,
          NodeType.withProperty]) rfl
  have htypes : ∀ e ∈ paintCatalog.nodeTypes.entries, e.2.tags = [] ∧
      e.1.package ∈ paintPlaces.map (·.package) := by decide
  have henums : ∀ e ∈ paintCatalog.enumTypes.entries, paintCatalog.get? e.1 = none := by decide
  refine ⟨hdefined, fun ht => (htypes _ (Table.get?_eq_some_iff.1 ht)).1, fun he => ?_, ?_,
    by decide, by decide, fun ht => (htypes _ (Table.get?_eq_some_iff.1 ht)).2⟩
  · obtain ⟨d, hd⟩ := Option.isSome_iff_exists.1 he
    exact henums _ (Table.get?_eq_some_iff.1 hd)
  · intro p hp
    simp only [paintPlaces, List.mem_cons, List.not_mem_nil, or_false] at hp
    rcases hp with rfl | rfl | rfl <;> constructor <;> decide

theorem reachable_painted : painted.Reachable :=
  Forest.Reachable.empty.after paintRun (by decide) (by decide)

theorem typed_painted : ∀ n ∈ [0, 1], painted.Typed paintCatalog n := by
  have hvalues : ∀ n ∈ [0, 1], ∀ y ∈ painted.walk n, ∀ p ∈ (painted.get y).type.properties,
      p.kind = .value → (painted.slot? y p.name).all p.takes = true := by decide
  have hregistered : ∀ n ∈ [0, 1], ∀ y ∈ painted.walk n,
      paintCatalog.get? (painted.get y).type.name = some (painted.get y).type := by decide
  have hpresent : ∀ n ∈ [0, 1], n < painted.size := by decide
  refine fun n hn => ⟨hpresent n hn, hregistered n hn, fun y hy p hp hk v hv => ?_⟩
  have hall := hvalues n hn y hy p hp hk
  rwa [hv] at hall

theorem served_painted_iff {y : NodeId} (hy : y ∈ [0, 1]) : painted.Served paintCatalog y ↔
    paintCatalog.Offers ⟨(painted.get y).type.name.package, "Color"⟩
      ⟨colorType.name, "green", 1⟩ := by
  have hslots : ∀ y ∈ [0, 1], (painted.get y).type.properties =
      [⟨"color", .value, .enumeration colorType.name, false, none⟩] ∧
      (painted.slot? y "color").map Value.literals = some [⟨colorType.name, "green", 1⟩] := by
    decide
  obtain ⟨hproperties, hslot⟩ := hslots y hy
  obtain ⟨v, hv, hliterals⟩ := Option.map_eq_some_iff.1 hslot
  simp [Forest.Served, Property.Served, hproperties, hv, hliterals, colorType]

theorem toObjects_exported_iff_painted :
    (∃ o u, painted.toObjects 0 (Derivation.exported paintCatalog paintPlaces) .default .empty =
      (.ok o, u)) ∧
    ¬ ∃ o u, painted.toObjects 1 (Derivation.exported paintCatalog paintPlaces) .default .empty =
      (.ok o, u) := by
  have hfirst := Forest.toObjects_exported_iff exports_paint reachable_painted
    (typed_painted 0 (by simp)) .empty
  have hsecond := Forest.toObjects_exported_iff exports_paint reachable_painted
    (typed_painted 1 (by simp)) .empty
  have hwalks : ∀ n ∈ [0, 1], painted.walk n = [n] := by decide
  constructor
  · rw [hfirst, hwalks 0 (by simp), List.forall_mem_singleton]
    have hserved : painted.Served paintCatalog 0 :=
      (served_painted_iff (by simp)).2 ⟨colorType, rfl, .inl (by decide)⟩
    exact fun p hp hk name hname v hv => hserved p hp hk v hv name hname
  · rw [hsecond, hwalks 1 (by simp), List.forall_mem_singleton]
    intro hall
    obtain ⟨d, hd, -⟩ := (served_painted_iff (y := 1) (by simp)).1
      fun p hp hk v hv name hname => hall p hp hk name hname v hv
    cases hd

/-- The green of the shape is a literal of the enumeration that its property declares, and the
shape cannot be converted all the same. -/
theorem toObjects_green_shape : Derivation.Exports paintCatalog paintPlaces ∧ painted.Reachable ∧
    painted.Typed paintCatalog 1 ∧
    (∀ y ∈ painted.walk 1, ∀ p ∈ (painted.get y).type.properties, p.kind = .value →
      ∀ v, painted.slot? y p.name = some v → p.fits paintCatalog v = true) ∧
    ¬ ∃ o u, painted.toObjects 1 (Derivation.exported paintCatalog paintPlaces) .default .empty =
      (.ok o, u) := by
  have htyped := typed_painted 1 (by simp)
  refine ⟨exports_paint, reachable_painted, htyped, fun y hy p hp hk v hv => ?_, ?_⟩
  · have hfits : ∀ y ∈ painted.walk 1, ∀ p ∈ (painted.get y).type.properties, p.kind = .value →
        (painted.slot? y p.name).all (p.fits paintCatalog) = true := by decide
    have hall := hfits y hy p hp hk
    rwa [hv] at hall
  · rw [Forest.exists_toObjects_ok (ToObjects.succeeds_convertTree exports_paint
      reachable_painted.isForest htyped)]
    intro hall
    obtain ⟨d, hd, -⟩ := (served_painted_iff (by simp)).1 (hall 1 (by decide))
    cases hd

end Paint

end TreeInterchange
