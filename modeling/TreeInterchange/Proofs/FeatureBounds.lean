import TreeInterchange.Proofs.ObjectConformity
import TreeInterchange.Proofs.PackageReading
import TreeInterchange.Proofs.PackageTables

/-!
# Bounds of features

A document gives a bound as a number or as a decimal text, and both are read as 64-bit integers.
The feature keeps the low 32 bits. So a bound arrives as it was given just when it fits 32 bits;
any other bound is taken for the one that it wraps round to, and no bound is ever refused.
-/

namespace TreeInterchange

namespace Number

/-- A text of digits, with a sign in front or without, and the integer that it denotes. -/
inductive IsDecimal : List Char → Int → Prop
  | digits {ds : List Char} (hne : ds ≠ []) (hds : ds.all Char.isDigit = true) :
      IsDecimal ds (ofDigits ds)
  | plus {ds : List Char} (hne : ds ≠ []) (hds : ds.all Char.isDigit = true) :
      IsDecimal ('+' :: ds) (ofDigits ds)
  | minus {ds : List Char} (hne : ds ≠ []) (hds : ds.all Char.isDigit = true) :
      IsDecimal ('-' :: ds) (-(ofDigits ds : Int))

theorem readNat?_eq_some_iff {ds : List Char} {k : Nat} :
    readNat? ds = some k ↔ (ds ≠ [] ∧ ds.all Char.isDigit = true) ∧ ofDigits ds = k := by
  unfold readNat?
  split
  · rename_i h
    rw [Option.some.injEq, and_iff_right h]
  · rename_i h
    simp only [reduceCtorEq, false_iff]
    exact fun hk => h hk.1

theorem ne_sign_of_all_isDigit {c : Char} {ds : List Char}
    (h : (c :: ds).all Char.isDigit = true) : c ≠ '-' ∧ c ≠ '+' := by
  have hc : c.isDigit = true := by
    rw [List.all_cons, Bool.and_eq_true] at h
    exact h.1
  constructor
  · rintro rfl
    exact absurd hc (by decide)
  · rintro rfl
    exact absurd hc (by decide)

theorem readSigned?_eq_some_iff {cs : List Char} {n : Int} :
    readSigned? cs = some n ↔ IsDecimal cs n := by
  constructor
  · intro h
    unfold readSigned? at h
    split at h
    · obtain ⟨_, hread, rfl⟩ := Option.map_eq_some_iff.1 h
      obtain ⟨k, hk, hcast⟩ := Option.bind_eq_some_iff.1 hread
      obtain rfl := Option.some.inj hcast
      obtain ⟨hds, rfl⟩ := readNat?_eq_some_iff.1 hk
      exact .minus hds.1 hds.2
    · obtain ⟨k, hk, rfl⟩ := Option.map_eq_some_iff.1 h
      unfold readUnsigned? at hk
      split at hk
      · obtain ⟨hds, rfl⟩ := readNat?_eq_some_iff.1 hk
        exact .plus hds.1 hds.2
      · obtain ⟨hds, rfl⟩ := readNat?_eq_some_iff.1 hk
        exact .digits hds.1 hds.2
  · intro h
    cases h with
    | digits hne hds =>
      have hread : readNat? cs = some (ofDigits cs) := readNat?_eq_some_iff.2 ⟨⟨hne, hds⟩, rfl⟩
      obtain ⟨c, ds, rfl⟩ := List.exists_cons_of_ne_nil hne
      obtain ⟨hminus, hplus⟩ := ne_sign_of_all_isDigit hds
      simp [readSigned?, readUnsigned?, hminus, hplus, hread]
    | @plus ds hne hds =>
      have hread : readNat? ds = some (ofDigits ds) := readNat?_eq_some_iff.2 ⟨⟨hne, hds⟩, rfl⟩
      simp [readSigned?, readUnsigned?, hread]
    | @minus ds hne hds =>
      have hread : readNat? ds = some (ofDigits ds) := readNat?_eq_some_iff.2 ⟨⟨hne, hds⟩, rfl⟩
      simp [readSigned?, hread]

theorem toInt64?_eq_some_iff {n : Int} {k : Int64} : toInt64? n = some k ↔ k.toInt = n := by
  constructor
  · intro h
    unfold toInt64? at h
    split at h
    · rename_i hrange
      obtain rfl := Option.some.inj h
      rw [Int64.toInt_minValue, Int64.toInt_maxValue] at hrange
      exact Int64.toInt_ofInt_of_le hrange.1 (by omega)
    · cases h
  · rintro rfl
    exact toInt64?_toInt k

end Number

/-- The value is the integer `n`, or a decimal text of it, and `n` fits 64 bits. -/
def Json.Gives (v : Json) (n : Int) : Prop :=
  (v = .integer n ∨ ∃ s, v = .string s ∧ Number.IsDecimal s.toList n) ∧
    Int64.minValue.toInt ≤ n ∧ n ≤ Int64.maxValue.toInt

theorem Json.lenientInt64?_eq_some_iff {v : Json} {k : Int64} :
    v.lenientInt64? = some k ↔ v.Gives k.toInt := by
  have hrange : Int64.minValue.toInt ≤ k.toInt ∧ k.toInt ≤ Int64.maxValue.toInt :=
    ⟨Int64.minValue_le_toInt k, Int64.toInt_le k⟩
  have htext : ∀ s, Number.readInt64? s = some k ↔ Number.IsDecimal s.toList k.toInt := by
    intro s
    simp only [Number.readInt64?, Option.bind_eq_some_iff, Number.toInt64?_eq_some_iff,
      Number.readSigned?_eq_some_iff, exists_eq_right']
  unfold Gives
  rw [and_iff_left hrange]
  cases v with
  | number x =>
    cases x with
    | int n =>
      cases hn : Number.toInt64? n with
      | none =>
        have hne : ¬ n = k.toInt := fun h => by
          rw [Number.toInt64?_eq_some_iff.2 h.symm] at hn
          cases hn
        simp [lenientInt64?, int64?, hn, text?, integer, hne]
      | some l =>
        obtain rfl := Number.toInt64?_eq_some_iff.1 hn
        simp [lenientInt64?, int64?, hn, integer, Int64.toInt_inj]
    | real x => simp [lenientInt64?, int64?, text?, integer]
  | string s => simp [lenientInt64?, int64?, text?, integer, htext]
  | _ => simp [lenientInt64?, int64?, text?, integer]

def Number.Fits32 (n : Int) : Prop := Int32.minValue.toInt ≤ n ∧ n ≤ Int32.maxValue.toInt

instance (n : Int) : Decidable (Number.Fits32 n) := inferInstanceAs (Decidable (_ ∧ _))

/-- Wrapping round keeps exactly the integers that fit. -/
theorem Number.bmod_eq_self_iff (n : Int) : n.bmod Int32.size = n ↔ Number.Fits32 n := by
  rw [Fits32, Int32.size, Int32.toInt_minValue, Int32.toInt_maxValue, Int.bmod_eq_iff (by decide)]
  simp only [Int.sub_self, Int.dvd_zero, and_true]
  omega

theorem Feature.isMany_iff (f : Feature) :
    f.isMany = true ↔ f.upper.toInt = -1 ∨ 1 < f.upper.toInt := by
  have hminus : f.upper = -1 ↔ f.upper.toInt = -1 := by rw [← Int32.toInt_inj]; rfl
  have hone : 1 < f.upper ↔ 1 < f.upper.toInt := by rw [Int32.lt_iff_toInt_lt]; rfl
  rw [isMany, Bool.or_eq_true, beq_iff_eq, decide_eq_true_eq, hminus, hone]

namespace MetamodelDocument

open StatefulRuns

variable {resolve : String → Except MetamodelError FeatureType} {owner : String}
  {members : JsonMembers} {key : String} {n : Int}

/-- The object gives the integer `n` under the key. -/
def GivesBound (members : JsonMembers) (key : String) (n : Int) : Prop :=
  ∃ v, JsonMembers.get? members key = some v ∧ v.Gives n

theorem toInt_bound (default : Int32) (h : GivesBound members key n) :
    (bound members key default).toInt = n.bmod Int32.size := by
  obtain ⟨v, hv, hn⟩ := h
  obtain ⟨k, rfl⟩ : ∃ k : Int64, k.toInt = n :=
    ⟨Int64.ofInt n, Number.toInt64?_eq_some_iff.1 (by rw [Number.toInt64?, if_pos hn.2])⟩
  have hk := Json.lenientInt64?_eq_some_iff.2 hn
  simp only [bound, hv, Option.bind_some, hk, Int64.toInt_toInt32]

theorem bound_of_not_given {default : Int32} (h : ∀ n, ¬ GivesBound members key n) :
    bound members key default = default := by
  unfold bound
  split
  · rename_i k hk
    obtain ⟨v, hv, hn⟩ := Option.bind_eq_some_iff.1 hk
    exact absurd ⟨v, hv, Json.lenientInt64?_eq_some_iff.1 hn⟩ (h k.toInt)
  · rfl

/-- What becomes of a bound: wrapped round to 32 bits, so that it is kept just when it fits, and
the default if the object gives no integer. -/
structure KeepsBound (members : JsonMembers) (key : String) (default b : Int32) : Prop where
  wrapped : ∀ n, GivesBound members key n → b.toInt = n.bmod Int32.size
  exact_iff : ∀ n, GivesBound members key n → (b.toInt = n ↔ Number.Fits32 n)
  absent : (∀ n, ¬ GivesBound members key n) → b = default

theorem keepsBound_bound (members : JsonMembers) (key : String) (default : Int32) :
    KeepsBound members key default (bound members key default) where
  wrapped _ h := toInt_bound default h
  exact_iff n h := by rw [toInt_bound default h, Number.bmod_eq_self_iff]
  absent := bound_of_not_given

/-- A feature with the bounds that the object it was read from gives, as far as they fit. -/
structure KeepsBounds (members : JsonMembers) (f : Feature) : Prop where
  lower : KeepsBound members "lowerBound" 0 f.lower
  upper : KeepsBound members "upperBound" 1 f.upper
  many : ∀ n, GivesBound members "upperBound" n → Number.Fits32 n →
    (f.isMany = true ↔ n = -1 ∨ 1 < n)

/-- The kind of a feature of a type, if the object does not ask for another kind of type. -/
def featureKind? (members : JsonMembers) (type : FeatureType) : Option FeatureKind :=
  match saysReference members type, type with
  | true, .ofClass _ =>
    some (if JsonMembers.flag members "containment" then .containment else .reference)
  | false, .ofData _ _ => some .plain
  | false, .ofEnum _ => some .plain
  | _, _ => none

/-- What an accepted feature is made of. -/
theorem readFeature_eq_ok_iff {f : Feature} : readFeature resolve owner (.object members) = .ok f ↔
    ∃ reference, JsonMembers.text? members "name" = some f.name ∧
      typeReference? members = some reference ∧ resolve reference = .ok f.type ∧
      featureKind? members f.type = some f.kind ∧
      f.lower = bound members "lowerBound" 0 ∧ f.upper = bound members "upperBound" 1 := by
  obtain ⟨name, kind, type, lower, upper⟩ := f
  rw [readFeature]
  cases hname : JsonMembers.text? members "name" with
  | none => simp [throw, throwThe, MonadExceptOf.throw]
  | some name' =>
    cases href : typeReference? members with
    | none => simp [throw, throwThe, MonadExceptOf.throw]
    | some reference =>
      cases htype : resolve reference with
      | error e => simp [htype, bind, Except.bind]
      | ok type' =>
        simp only [htype, bind, Except.bind, pure, Except.pure, Option.some.injEq]
        constructor
        · intro h
          refine ⟨reference, ?_⟩
          split at h <;> cases h <;> simp_all [featureKind?]
        · rintro ⟨_, rfl, rfl, ht, hkind, rfl, rfl⟩
          rw [htype] at ht
          obtain rfl := Except.ok.inj ht
          unfold featureKind? at hkind
          split at hkind <;> cases hkind <;> simp_all

theorem keepsBounds_of_readFeature {v : Json} {f : Feature}
    (h : readFeature resolve owner v = .ok f) : ∃ members, v = .object members ∧
      JsonMembers.text? members "name" = some f.name ∧ KeepsBounds members f := by
  cases v with
  | object members =>
    obtain ⟨-, hname, -, -, -, hlower, hupper⟩ := readFeature_eq_ok_iff.1 h
    have hkept : KeepsBound members "upperBound" 1 f.upper := hupper ▸ keepsBound_bound _ _ _
    refine ⟨members, rfl, hname, hlower ▸ keepsBound_bound _ _ _, hkept, fun n hn hfits => ?_⟩
    rw [Feature.isMany_iff, (hkept.exact_iff n hn).2 hfits]
  | _ => cases h

/-- The features of a class, one by one, keep the bounds that the items of the document give. -/
def ClassKeepsBounds (members : JsonMembers) (c : Classifier) : Prop :=
  ClassifierOutline.kindOf members = .ofClass → ∃ d, c = .classDecl d ∧
    List.Forall₂ (fun v f => ∃ ms, v = .object ms ∧ JsonMembers.text? ms "name" = some f.name ∧
      KeepsBounds ms f) (JsonMembers.items members "eStructuralFeatures") d.features

theorem classKeepsBounds_of_readClassifier {o : ClassifierOutline} {c : Classifier}
    (hkind : o.kind = ClassifierOutline.kindOf o.members)
    (h : readClassifier resolve o = .ok c) : ClassKeepsBounds o.members c := by
  intro hclass
  unfold readClassifier at h
  rw [hkind, hclass] at h
  obtain ⟨supertypes, -, h⟩ := of_except_bind_ok h
  obtain ⟨features, hfeatures, h⟩ := of_except_bind_ok h
  cases h
  exact ⟨_, rfl, (forall₂_of_mapM_ok hfeatures).imp fun _ _ => keepsBounds_of_readFeature⟩

/-- The package has the classifiers of the document, the last one of each name, and their features
keep the bounds. -/
def PackageKeepsBounds (members : JsonMembers) (p : Package) : Prop :=
  ∃ classifiers, p.classifiers = .ofList (classifiers.map fun c => (c.name, c)) ∧
    List.Forall₂ (fun v c => ∃ ms, v = .object ms ∧ ClassKeepsBounds ms c)
      (JsonMembers.items members "eClassifiers") classifiers

theorem packageKeepsBounds_of_read {m : Metamodel} {ps : List PackageOutline} {i : Nat}
    {members : JsonMembers} {p : PackageOutline} {q : Package}
    (hp : PackageOutline.read members = .ok p) (hq : readPackage m ps i p = .ok q) :
    PackageKeepsBounds members q := by
  obtain ⟨classifiers, hclassifiers, hdone⟩ := of_except_bind_ok hq
  cases hdone
  refine ⟨classifiers, Package.classifiers_addAll _ _, ?_⟩
  have hpasses := forall₂_comp (PackageOutline.read_eq_ok_iff.1 hp).2.2.2
    (forall₂_of_mapM_ok hclassifiers)
  refine hpasses.imp fun v c => ?_
  rintro ⟨o, ho, hc⟩
  obtain ⟨rfl, -, hkind⟩ := ClassifierOutline.read_eq_ok_iff.1 ho
  exact ⟨o.members, rfl, classKeepsBounds_of_readClassifier hkind hc⟩

theorem packagesKeepBounds_of_read {m : Metamodel} {document : Json} {objects : List JsonMembers}
    {packages : List Package} (hobjects : packageMembers document = .ok objects)
    (h : readPackages m document = .ok packages) :
    List.Forall₂ PackageKeepsBounds objects packages := by
  obtain ⟨ps, hps, hlength, hplaces⟩ := readPackages_eq_ok_iff.1 h
  rw [outlines, hobjects] at hps
  have hpackages : List.Forall₂ (fun p q => ∃ i, readPackage m ps i p = .ok q) ps packages :=
    forall₂_iff_getElem?.2 ⟨hlength, fun i p q hp hq => ⟨i, hplaces i p q hp hq⟩⟩
  refine (forall₂_comp (forall₂_of_mapM_ok hps) hpackages).imp ?_
  rintro members q ⟨p, hp, i, hq⟩
  exact packageKeepsBounds_of_read hp hq

/-- Two objects have the same members, those under certain keys apart. -/
def SameBut (keys : List String) (members members' : JsonMembers) : Prop :=
  ∀ key ∉ keys, JsonMembers.get? members' key = JsonMembers.get? members key

namespace SameBut

variable {keys : List String} {members' : JsonMembers}

theorem text?_eq (h : SameBut keys members members') (hkey : key ∉ keys) :
    JsonMembers.text? members' key = JsonMembers.text? members key := by
  rw [JsonMembers.text?, JsonMembers.text?, h key hkey]

theorem items_eq (h : SameBut keys members members') (hkey : key ∉ keys) :
    JsonMembers.items members' key = JsonMembers.items members key := by
  rw [JsonMembers.items, JsonMembers.items, h key hkey]

theorem flag_eq (h : SameBut keys members members') (hkey : key ∉ keys) :
    JsonMembers.flag members' key = JsonMembers.flag members key := by
  rw [JsonMembers.flag, JsonMembers.flag, h key hkey]

end SameBut

/-- The same feature with bounds of any kind, or none. -/
def FeatureRebound (v v' : Json) : Prop := ∃ members members', v = .object members ∧
  v' = .object members' ∧ SameBut ["lowerBound", "upperBound"] members members'

/-- The same classifier, its features with bounds of any kind. -/
structure ClassifierRebound (members members' : JsonMembers) : Prop where
  others : SameBut ["eStructuralFeatures"] members members'
  features : List.Forall₂ FeatureRebound (JsonMembers.items members "eStructuralFeatures")
    (JsonMembers.items members' "eStructuralFeatures")

structure PackageRebound (members members' : JsonMembers) : Prop where
  others : SameBut ["eClassifiers"] members members'
  classifiers : List.Forall₂ (fun v v' => ∃ ms ms', v = .object ms ∧ v' = .object ms' ∧
      ClassifierRebound ms ms')
    (JsonMembers.items members "eClassifiers") (JsonMembers.items members' "eClassifiers")

theorem exists_readFeature_rebound {v v' : Json} (hv : FeatureRebound v v')
    (h : ∃ f, readFeature resolve owner v = .ok f) :
    ∃ f, readFeature resolve owner v' = .ok f := by
  obtain ⟨members, members', rfl, rfl, hsame⟩ := hv
  obtain ⟨f, hf⟩ := h
  obtain ⟨reference, hn, hr, ht, hk, -, -⟩ := readFeature_eq_ok_iff.1 hf
  have hkind : featureKind? members' f.type = featureKind? members f.type := by
    unfold featureKind? saysReference
    rw [hsame.text?_eq (by decide), hsame.flag_eq (by decide)]
  have hreference : typeReference? members' = typeReference? members := by
    rw [typeReference?, typeReference?, hsame "eType" (by decide),
      hsame "eGenericType" (by decide)]
  exact ⟨⟨f.name, f.kind, f.type, bound members' "lowerBound" 0, bound members' "upperBound" 1⟩,
    readFeature_eq_ok_iff.2 ⟨reference, (hsame.text?_eq (by decide)).trans hn,
      hreference.trans hr, ht, hkind.trans hk, rfl, rfl⟩⟩

/-- A classifier after the first pass, and the same one with other bounds. -/
structure OutlineRebound (c c' : ClassifierOutline) : Prop where
  name : c'.name = c.name
  kind : c'.kind = c.kind
  members : ClassifierRebound c.members c'.members

theorem exists_readClassifier_rebound {c c' : ClassifierOutline} (hc : OutlineRebound c c')
    (h : ∃ d, readClassifier resolve c = .ok d) : ∃ d, readClassifier resolve c' = .ok d := by
  obtain ⟨d, hd⟩ := h
  unfold readClassifier at hd ⊢
  rw [hc.kind]
  cases hkind : c.kind with
  | ofClass =>
    rw [hkind] at hd
    obtain ⟨supertypes, hsupers, hd⟩ := of_except_bind_ok hd
    obtain ⟨features, hfeatures, -⟩ := of_except_bind_ok hd
    have hread : ∃ fs, (JsonMembers.items c'.members "eStructuralFeatures").mapM
        (readFeature resolve c'.name) = .ok fs := by
      refine exists_mapM_ok fun v' hv' => ?_
      obtain ⟨v, hv, hrebound⟩ := exists_of_mem_forall₂ hc.members.features.flip hv'
      obtain ⟨f, -, hf⟩ := exists_mem_of_mapM_ok hfeatures hv
      exact exists_readFeature_rebound hrebound ⟨f, hc.name ▸ hf⟩
    obtain ⟨fs, hfs⟩ := hread
    rw [← hc.name, ← hc.members.others.items_eq (by decide)] at hsupers
    simp only [hsupers, hfs]
    exact ⟨_, rfl⟩
  | _ => exact ⟨_, rfl⟩

structure PackageOutlineRebound (p p' : PackageOutline) : Prop where
  uri : p'.uri = p.uri
  name : p'.name = p.name
  shortName : p'.shortName = p.shortName
  classifiers : List.Forall₂ OutlineRebound p.classifiers p'.classifiers

theorem PackageOutlineRebound.bare_eq {p p' : PackageOutline} (h : PackageOutlineRebound p p') :
    p.bare = p'.bare := by
  have hclassifiers : p.bare.classifiers = p'.bare.classifiers :=
    map_eq_of_forall₂ (h.classifiers.imp fun c c' hc => by rw [hc.name, hc.kind])
  exact (PackageOutline.mk.injEq ..).mpr ⟨h.name.symm, h.uri.symm, h.shortName.symm, hclassifiers⟩

theorem exists_readPackage_rebound {m : Metamodel} {ps ps' : List PackageOutline} {i : Nat}
    {p p' : PackageOutline} (hps : ps.map PackageOutline.bare = ps'.map PackageOutline.bare)
    (hp : PackageOutlineRebound p p') (h : ∃ q, readPackage m ps i p = .ok q) :
    ∃ q, readPackage m ps' i p' = .ok q := by
  have hresolve : MetamodelDocument.resolve m ps' i = MetamodelDocument.resolve m ps i := by
    funext r
    rw [← resolve_bare, ← hps, resolve_bare]
  obtain ⟨q, hq⟩ := h
  obtain ⟨classifiers, hclassifiers, -⟩ := of_except_bind_ok hq
  have hread : ∃ cs, p'.classifiers.mapM
      (readClassifier (MetamodelDocument.resolve m ps' i)) = .ok cs := by
    refine exists_mapM_ok fun c' hc' => ?_
    obtain ⟨c, hc, hrebound⟩ := exists_of_mem_forall₂ hp.classifiers.flip hc'
    obtain ⟨d, -, hd⟩ := exists_mem_of_mapM_ok hclassifiers hc
    exact exists_readClassifier_rebound hrebound ⟨d, hresolve ▸ hd⟩
  obtain ⟨cs, hcs⟩ := hread
  rw [readPackage, hcs]
  exact ⟨_, rfl⟩

theorem exists_classifier_rebound {package : String} {v v' : Json} {c : ClassifierOutline}
    (hv : ∃ ms ms', v = .object ms ∧ v' = .object ms' ∧ ClassifierRebound ms ms')
    (h : ClassifierOutline.read package v = .ok c) :
    ∃ c', ClassifierOutline.read package v' = .ok c' ∧ OutlineRebound c c' := by
  obtain ⟨ms, ms', rfl, rfl, hms⟩ := hv
  obtain ⟨hobject, hname, hkind⟩ := ClassifierOutline.read_eq_ok_iff.1 h
  cases hobject
  have hkindOf : ClassifierOutline.kindOf ms' = ClassifierOutline.kindOf c.members := by
    unfold ClassifierOutline.kindOf
    rw [hms.others.text?_eq (by decide), hms.others.text?_eq (by decide)]
  refine ⟨⟨c.name, c.kind, ms'⟩, ClassifierOutline.read_eq_ok_iff.2 ⟨rfl, ?_, ?_⟩, rfl, rfl, hms⟩
  · exact (hms.others.text?_eq (by decide)).trans hname
  · exact hkind.trans hkindOf.symm

theorem exists_package_rebound {members' : JsonMembers} {p : PackageOutline}
    (hp : PackageRebound members members') (h : PackageOutline.read members = .ok p) :
    ∃ p', PackageOutline.read members' = .ok p' ∧ PackageOutlineRebound p p' := by
  obtain ⟨hname, huri, hshort, hclassifiers⟩ := PackageOutline.read_eq_ok_iff.1 h
  obtain ⟨cs, hcs, hrebound⟩ := forall₂_transfer hp.classifiers hclassifiers
    fun _ _ _ => exists_classifier_rebound
  refine ⟨⟨p.name, p.uri, p.shortName, cs⟩, PackageOutline.read_eq_ok_iff.2 ⟨?_, ?_, ?_, hcs⟩,
    rfl, rfl, rfl, hrebound⟩
  · exact (hp.others.text?_eq (by decide)).trans hname
  · rw [hp.others.text?_eq (by decide)]
    exact huri
  · exact hshort.trans (hp.others.text?_eq (by decide)).symm

theorem exists_readPackages_rebound {m : Metamodel} {document document' : Json}
    {objects objects' : List JsonMembers} {packages : List Package}
    (hobjects : packageMembers document = .ok objects)
    (hobjects' : packageMembers document' = .ok objects')
    (hrebound : List.Forall₂ PackageRebound objects objects')
    (h : readPackages m document = .ok packages) :
    ∃ packages', readPackages m document' = .ok packages' := by
  obtain ⟨ps, hps, hlength, hplaces⟩ := readPackages_eq_ok_iff.1 h
  rw [outlines, hobjects] at hps
  obtain ⟨ps', hps', houtlines⟩ := forall₂_transfer hrebound (forall₂_of_mapM_ok hps)
    fun _ _ _ => exists_package_rebound
  have hread : outlines document' = .ok ps' := by
    rw [outlines, hobjects']
    exact mapM_ok_of_forall₂ hps'
  have hbare : ps.map PackageOutline.bare = ps'.map PackageOutline.bare :=
    map_eq_of_forall₂ (houtlines.imp fun _ _ hp => hp.bare_eq)
  refine exists_readPackages hread fun i p' hp' => ?_
  have hi : i < ps.length := houtlines.length_eq ▸ (List.getElem?_eq_some_iff.1 hp').1
  have hp : ps[i]? = some ps[i] := List.getElem?_eq_getElem hi
  have hq : packages[i]? = some (packages[i]) := List.getElem?_eq_getElem (hlength ▸ hi)
  exact exists_readPackage_rebound hbare (of_forall₂_getElem? houtlines hp hp')
    ⟨_, hplaces i _ _ hp hq⟩

/-- Reading a document builds every feature with the bounds that the document gives, wrapped round
to 32 bits. So a bound arrives as it was given just when it fits 32 bits, and the feature then
holds many values just when the upper bound says so. A bound that does not fit is not refused: the
document is accepted with any other bounds in place of its own. -/
theorem readPackages_keepsBounds {m : Metamodel} {document : Json} {packages : List Package}
    (h : readPackages m document = .ok packages) :
    ∃ objects, packageMembers document = .ok objects ∧
      List.Forall₂ PackageKeepsBounds objects packages ∧
      ∀ document' objects', packageMembers document' = .ok objects' →
        List.Forall₂ PackageRebound objects objects' →
        ∃ packages', readPackages m document' = .ok packages' ∧
          List.Forall₂ PackageKeepsBounds objects' packages' := by
  obtain ⟨ps, hps, -⟩ := readPackages_eq_ok_iff.1 h
  obtain ⟨objects, hobjects, -⟩ := of_except_bind_ok hps
  refine ⟨objects, hobjects, packagesKeepBounds_of_read hobjects h, ?_⟩
  intro document' objects' hobjects' hrebound
  obtain ⟨packages', hread⟩ := exists_readPackages_rebound hobjects hobjects' hrebound h
  exact ⟨packages', hread, packagesKeepBounds_of_read hobjects' hread⟩

def labelsMembers (bounds : JsonMembers) : JsonMembers :=
  [("eClass", .string (ecoreUri ++ "#//EAttribute")), ("name", .string "labels"),
    ("eType", .string (ecoreUri ++ "#//EString"))] ++ bounds

def boxesMembers (bounds : JsonMembers) : JsonMembers :=
  [("name", .string "boxes"), ("nsURI", .string "urn:boxes"), ("eClassifiers", .array [.object [
    ("eClass", .string (ecoreUri ++ "#//EClass")), ("name", .string "Box"),
    ("eStructuralFeatures", .array [.object (labelsMembers bounds)])]])]

def labelsFeature (lower upper : Int32) : Feature :=
  ⟨"labels", .plain, .ecore "EString", lower, upper⟩

def boxesPackage (lower upper : Int32) : Package :=
  (Package.ofName "boxes" "urn:boxes").addAll
    [.classDecl ⟨"Box", false, false, [], [labelsFeature lower upper]⟩]

def twoOrMore : JsonMembers := [("lowerBound", .integer 2), ("upperBound", .string "-1")]

theorem keepsBounds_boxes :
    readPackages .empty (.object (boxesMembers twoOrMore)) = .ok [boxesPackage 2 (-1)] ∧
      PackageKeepsBounds (boxesMembers twoOrMore) (boxesPackage 2 (-1)) := by
  have hread : readPackages .empty (.object (boxesMembers twoOrMore)) =
      .ok [boxesPackage 2 (-1)] := rfl
  obtain ⟨objects, hobjects, hkeeps, -⟩ := readPackages_keepsBounds hread
  cases hobjects
  cases hkeeps with
  | cons hbox _ => exact ⟨hread, hbox⟩

/-- Bounds just above 32 bits. -/
def wideBounds : JsonMembers :=
  [("lowerBound", .integer 4294967296), ("upperBound", .string "4294967297")]

/-- The bounds are accepted, and the feature becomes an optional one that holds a single value. -/
theorem wrapsBounds_boxes :
    GivesBound (labelsMembers wideBounds) "lowerBound" 4294967296 ∧
      GivesBound (labelsMembers wideBounds) "upperBound" 4294967297 ∧
      readPackages .empty (.object (boxesMembers wideBounds)) = .ok [boxesPackage 0 1] ∧
      (labelsFeature 0 1).isMany = false := by
  have hlower : (Json.integer 4294967296).lenientInt64? = some 4294967296 := by decide
  have hupper : (Json.string "4294967297").lenientInt64? = some 4294967297 := by decide
  exact ⟨⟨_, rfl, Json.lenientInt64?_eq_some_iff.1 hlower⟩,
    ⟨_, rfl, Json.lenientInt64?_eq_some_iff.1 hupper⟩, rfl, rfl⟩

end MetamodelDocument

end TreeInterchange
