import TreeInterchange.Conversion.Nodes
import TreeInterchange.Conversion.Objects
import TreeInterchange.Proofs.DerivedPackages
import TreeInterchange.Proofs.ForestWalks

/-!
# Trees that survive a conversion

A tree can come back from its objects when its types belong to the package that a metamodel
was derived from and its values are what the declared types say. Such a value has one picture
as a value of an object, and each of the two conversions goes from one to the other.
-/

namespace TreeInterchange

/-- Whether a single plain value is what the type says; a type that names none takes any scalar. -/
def PropertyType.fits (c : TypeCatalog) : PropertyType → Value → Bool
  | .data .string, .string _ => true
  | .data .integer, .integer _ => true
  | .data .real, .real x => !x.isNaN
  | .data .boolean, .boolean _ => true
  | .enumeration name, .enumeration e =>
    e.enumeration == name && (c.enum? name).bind (·.literal? e.ordinal) == some e.literal
  | .any, v | .node _, v =>
    match v with
    | .string _ | .integer _ | .boolean _ => true
    | .real x => !x.isNaN
    | _ => false
  | _, _ => false

/-- Whether the value of a plain property is what the property declares; where there may be many,
there is a list. -/
def Property.fits (c : TypeCatalog) (p : Property) : Value → Bool
  | .null => !p.multiple
  | .list items => items.all (p.type.fits c)
  | v => !p.multiple && p.type.fits c v

/-- A tree whose nodes have types of one package of a catalog, and values that fit them. -/
structure Convertible (c : TypeCatalog) (package : String) (f : Forest) (n : NodeId) : Prop where
  present : n < f.size
  registered : ∀ y ∈ f.walk n, c.get? (f.get y).type.name = some (f.get y).type ∧
    (f.get y).type.name.package = package
  noPosition : ∀ y ∈ f.walk n, ∀ p ∈ (f.get y).type.properties, p.name ≠ "position"
  enums : ∀ y ∈ f.walk n, ∀ p ∈ (f.get y).type.properties, ∀ name, p.type = .enumeration name →
    name.package = package ∧ ∃ e, c.enum? name = some e ∧ e.literals.Nodup
  values : ∀ y ∈ f.walk n, ∀ p ∈ (f.get y).type.properties, p.kind = .value →
    ∀ v, f.slot? y p.name = some v → p.fits c v = true
  references : ∀ y ∈ f.walk n, ∀ name v, f.slot? y name = some v → ∀ t ∈ v.targets, t ∈ f.walk n

namespace Value

/-- The picture of a scalar among the values of objects. -/
def depictScalar : Value → FeatureValue
  | .string s => .string s
  | .integer n => .integer n
  | .real x => .real x
  | .boolean b => .boolean b
  | .enumeration e => .enumeration e.ordinal
  | _ => .null

/-- The picture of a value, where nodes are named by the objects that stand for them. -/
def depict (φ : NodeId → ObjectId) : Value → FeatureValue
  | .node id => .contained (φ id)
  | .nodes ids => .containedMany (ids.map φ)
  | .reference id => .reference (φ id)
  | .references ids => .references (ids.map φ)
  | .list items => .list (items.map depictScalar)
  | v => v.depictScalar

def rename (ψ : NodeId → NodeId) : Value → Value
  | .node id => .node (ψ id)
  | .nodes ids => .nodes (ids.map ψ)
  | .reference id => .reference (ψ id)
  | .references ids => .references (ids.map ψ)
  | v => v

def isReference : Value → Bool
  | .reference _ | .references _ => true
  | _ => false

def isReferences : Value → Bool
  | .references _ => true
  | _ => false

theorem isReference_eq_false {v : Value} (h : v.holdsNodes = false) : v.isReference = false := by
  cases v <;> simp_all [isReference, holdsNodes]

theorem children_eq_nil {v : Value} (h : v.holdsNodes = false) : v.children = [] := by
  cases v <;> simp_all [children, holdsNodes]

theorem children_depict (φ : NodeId → ObjectId) (v : Value) :
    (v.depict φ).children = v.children.map φ := by
  cases v <;> rfl

theorem isNull_depict (φ : NodeId → ObjectId) {v : Value} (h : v.isNull = false) :
    (v.depict φ).isNull = false := by
  cases v <;> simp_all [depict, depictScalar, isNull, FeatureValue.isNull]

theorem children_rename (ψ : NodeId → NodeId) (v : Value) :
    (v.rename ψ).children = v.children.map ψ := by
  cases v <;> rfl

theorem targets_rename (ψ : NodeId → NodeId) (v : Value) :
    (v.rename ψ).targets = v.targets.map ψ := by
  cases v <;> rfl

end Value

namespace Derivation

variable {c : TypeCatalog} {package uri : String}

theorem kind_featureOf (p : Property) : (featureOf package uri p).kind =
    match p.kind with
    | .child => .containment
    | .reference => .reference
    | .value => .plain := by
  unfold featureOf
  cases p.kind <;> cases p.multiple <;> rfl

theorem type_featureOf {p : Property} (h : p.kind = .value) :
    (featureOf package uri p).type = attributeType uri p.type := by
  unfold featureOf
  rw [h]
  cases p.multiple <;> rfl

/-- A literal keeps its ordinal, because it stands at that place of the catalog's enumeration. -/
theorem enumValue_model (hc : c.WellKept) {name : QualifiedName} (hp : name.package = package)
    {e : EnumType} (he : c.enum? name = some e) (hn : e.literals.Nodup) {v : EnumValue}
    (hv : e.literal? v.ordinal = some v.literal) {w : FeatureValue}
    (h : ToObjects.enumValue (model c package uri) ⟨uri, name.name⟩ v = .ok w) :
    w = .enumeration v.ordinal := by
  unfold ToObjects.enumValue at h
  cases hd : (model c package uri).enum? ⟨uri, name.name⟩ with
  | none => simp [hd] at h
  | some d =>
    obtain ⟨e', he', hlits⟩ := enum?_model hc.toNamed hd
    have hee : e' = e := by
      have hname : (⟨package, name.name⟩ : QualifiedName) = name := by rw [← hp]
      rw [hname, he] at he'
      exact (Option.some.inj he').symm
    rw [hee] at hlits
    have hidx : d.literals.findIdx? (· = v.literal) = some v.ordinal.toNat := by
      have hget : e.literals[v.ordinal.toNat]? = some v.literal := hv
      rw [hlits, List.findIdx?_eq_some_iff_getElem]
      obtain ⟨hlt, hat⟩ := List.getElem?_eq_some_iff.1 hget
      refine ⟨hlt, by simpa using hat, fun j hj => ?_⟩
      have hne : e.literals[j] ≠ e.literals[v.ordinal.toNat] := fun heq =>
        absurd ((hn.getElem_inj_iff).1 heq) (by omega)
      simpa [← hat] using hne
    have hord : d.ordinal? v.literal = some v.ordinal := by
      rw [EnumDecl.ordinal?, hidx]
      simp
    simp only [hd, Option.bind_some, hord, Option.getD_some] at h
    split at h
    · exact (Except.ok.inj h).symm
    · cases h

theorem plainValue_model (hc : c.WellKept) {p : Property} (hk : p.kind = .value)
    (he : ∀ name, p.type = .enumeration name →
      name.package = package ∧ ∃ e, c.enum? name = some e ∧ e.literals.Nodup)
    {v : Value} (hv : p.type.fits c v = true) {r : ClassifierRef} {w : FeatureValue}
    (h : ToObjects.plainValue (model c package uri) r (featureOf package uri p) v = .ok w) :
    w = v.depictScalar := by
  unfold ToObjects.plainValue at h
  rw [type_featureOf hk] at h
  cases ht : p.type with
  | enumeration name =>
    rw [ht] at hv h
    cases v with
    | enumeration e =>
      obtain ⟨hp, d, hd, hn⟩ := he name ht
      simp only [PropertyType.fits, hd, Option.bind_some, Bool.and_eq_true, beq_iff_eq] at hv
      exact enumValue_model hc hp hd hn hv.2 h
    | _ => simp [PropertyType.fits] at hv
  | data d =>
    rw [ht] at hv h
    cases d with
    | string =>
      cases v with
      | string s => exact (Except.ok.inj h).symm
      | _ => simp [PropertyType.fits] at hv
    | integer =>
      cases v with
      | integer n => exact (Except.ok.inj h).symm
      | _ => simp [PropertyType.fits] at hv
    | real =>
      cases v with
      | real x => exact (Except.ok.inj h).symm
      | _ => simp [PropertyType.fits] at hv
    | boolean =>
      cases v with
      | boolean b => exact (Except.ok.inj h).symm
      | _ => simp [PropertyType.fits] at hv
  | any =>
    rw [ht] at hv h
    cases v with
    | string s => exact (Except.ok.inj h).symm
    | integer n => exact (Except.ok.inj h).symm
    | real x => exact (Except.ok.inj h).symm
    | boolean b => exact (Except.ok.inj h).symm
    | _ => simp [PropertyType.fits] at hv
  | node name =>
    rw [ht] at hv h
    cases v with
    | string s => exact (Except.ok.inj h).symm
    | integer n => exact (Except.ok.inj h).symm
    | real x => exact (Except.ok.inj h).symm
    | boolean b => exact (Except.ok.inj h).symm
    | _ => simp [PropertyType.fits] at hv

theorem mapM_plainValue_model (hc : c.WellKept) {p : Property} (hk : p.kind = .value)
    (he : ∀ name, p.type = .enumeration name →
      name.package = package ∧ ∃ e, c.enum? name = some e ∧ e.literals.Nodup)
    {items : List Value} (hv : ∀ v ∈ items, p.type.fits c v = true) {r : ClassifierRef}
    {ws : List FeatureValue} (h : items.mapM (ToObjects.plainValue (model c package uri) r
      (featureOf package uri p)) = .ok ws) : ws = items.map Value.depictScalar := by
  induction items generalizing ws with
  | nil => exact (Except.ok.inj h).symm
  | cons v items ih =>
    rw [List.mapM_cons] at h
    cases hw : ToObjects.plainValue (model c package uri) r (featureOf package uri p) v with
    | error e => rw [hw] at h; cases h
    | ok w =>
      cases hws : items.mapM (ToObjects.plainValue (model c package uri) r
          (featureOf package uri p)) with
      | error e => simp [bind, Except.bind, hw, hws] at h
      | ok us =>
        simp only [bind, Except.bind, hw, hws, pure, Except.pure, Except.ok.injEq] at h
        rw [← h, plainValue_model hc hk he (hv v (by simp)) hw,
          ih (fun u hu => hv u (by simp [hu])) hws, List.map_cons]

end Derivation

theorem ToNodes.plainValue_depictScalar {c : TypeCatalog} {t : NodeType} {p : Property} {v : Value}
    (hv : p.type.fits c v = true) : plainValue c t p v.depictScalar = .ok v := by
  cases v with
  | string s => rfl
  | integer n =>
    have hreal : p.type ≠ .data .real := by
      intro ht
      rw [ht] at hv
      cases hv
    simp [Value.depictScalar, plainValue, hreal]
  | real x => rfl
  | boolean b => rfl
  | enumeration e =>
    cases ht : p.type with
    | enumeration name =>
      rw [ht] at hv
      simp only [PropertyType.fits, Bool.and_eq_true, beq_iff_eq] at hv
      obtain ⟨rfl, hliteral⟩ := hv
      simp [Value.depictScalar, plainValue, ht, hliteral]
    | data d => rw [ht] at hv; cases d <;> cases hv
    | _ => rw [ht] at hv; cases hv
  | _ =>
    cases ht : p.type with
    | data d => rw [ht] at hv; cases d <;> cases hv
    | _ => rw [ht] at hv; cases hv

theorem ToNodes.mapM_plainValue_depictScalar {c : TypeCatalog} {t : NodeType} {p : Property}
    {items : List Value} (hv : ∀ v ∈ items, p.type.fits c v = true) :
    (items.map Value.depictScalar).mapM (plainValue c t p) = .ok items := by
  induction items with
  | nil => rfl
  | cons v items ih =>
    rw [List.map_cons, List.mapM_cons, plainValue_depictScalar (hv v (by simp)),
      ih fun u hu => hv u (by simp [hu])]
    rfl

end TreeInterchange
