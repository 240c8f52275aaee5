import TreeInterchange.Metamodel.Builtin
import TreeInterchange.Metamodel.Reading
import TreeInterchange.Metamodel.Writing
import TreeInterchange.Proofs.FragmentPaths
import TreeInterchange.Proofs.ObjectConformity
import TreeInterchange.Proofs.PackageTables
import TreeInterchange.Proofs.StatefulRuns

/-!
# Metamodel documents hold the packages they were written from

The first pass over a written document takes down an outline of every package, and looking a
name up in the outline of a package finds the type that the classifier of this name makes. So
a reference is resolved to what it was written for: one without a URI within its own package,
one with a URI in the package of the document with this URI, and only if there is none in the
metamodel. The second pass then reads every classifier back as it was.

The text of a reference to a package outside the document is cut at its first number sign, and
some texts are kept for primitive types and for places. What a package of the metamodel has
under such names can be mentioned, but not be read back.
-/

namespace TreeInterchange

/-- The package has a classifier that makes the type. -/
def Package.Provides (p : Package) (t : FeatureType) : Prop :=
  (p.classifiers.get? t.classifier.name).map (Classifier.type p) = some t

instance (p : Package) (t : FeatureType) : Decidable (p.Provides t) :=
  inferInstanceAs (Decidable (_ = _))

/-- Attributes have the type of data or of an enumeration, and all else has the type of a class. -/
def Feature.WellTyped (f : Feature) : Prop :=
  match f.kind, f.type with
  | .plain, .ofClass _ => False
  | .plain, _ => True
  | _, .ofClass _ => True
  | _, _ => False

instance (f : Feature) : Decidable f.WellTyped :=
  match f with
  | ⟨_, .plain, .ofClass _, _, _⟩ => inferInstanceAs (Decidable False)
  | ⟨_, .plain, .ofEnum _, _, _⟩ => inferInstanceAs (Decidable True)
  | ⟨_, .plain, .ofData _ _, _, _⟩ => inferInstanceAs (Decidable True)
  | ⟨_, .containment, .ofClass _, _, _⟩ => inferInstanceAs (Decidable True)
  | ⟨_, .containment, .ofEnum _, _, _⟩ => inferInstanceAs (Decidable False)
  | ⟨_, .containment, .ofData _ _, _, _⟩ => inferInstanceAs (Decidable False)
  | ⟨_, .reference, .ofClass _, _, _⟩ => inferInstanceAs (Decidable True)
  | ⟨_, .reference, .ofEnum _, _, _⟩ => inferInstanceAs (Decidable False)
  | ⟨_, .reference, .ofData _ _, _, _⟩ => inferInstanceAs (Decidable False)

/-- A data type is stored as the class that implements it says. -/
def Classifier.StoredAsImplemented : Classifier → Prop
  | .dataDecl d => d.storage = instanceStorage (d.implementation.getD "")
  | _ => True

instance (c : Classifier) : Decidable c.StoredAsImplemented :=
  match c with
  | .classDecl _ => inferInstanceAs (Decidable True)
  | .enumDecl _ => inferInstanceAs (Decidable True)
  | .dataDecl _ => inferInstanceAs (Decidable (_ = _))

namespace MetamodelDocument

/-- What a package of a document may refer to: a primitive type, a classifier of its own, one of
another package of the document, or one of a package of the metamodel that is not in the
document and that `reach` admits. The URI may be empty only within a package. -/
inductive Names (m : Metamodel) (ps : List Package) (reach : ClassifierRef → Prop) (p : Package) :
    FeatureType → Prop
  | ecore (name : String) : Names m ps reach p (.ecore name)
  | own {t : FeatureType} (h : p.Provides t) : Names m ps reach p t
  | listed {t : FeatureType} {q : Package} (hq : q ∈ ps) (h : q.Provides t)
      (huri : t.classifier.uri ≠ "") : Names m ps reach p t
  | loaded {t : FeatureType} {q : Package} (hnew : ∀ r ∈ ps, r.uri ≠ t.classifier.uri)
      (hq : m.package? t.classifier.uri = some q) (h : q.Provides t)
      (huri : t.classifier.uri ≠ "") (hreach : reach t.classifier) : Names m ps reach p t

/-- A classifier that the text of a reference can tell from all others. -/
structure Addressable (c : ClassifierRef) : Prop where
  hash : '#' ∉ c.uri.toList
  notEcore : c.uri ≠ ecoreUri
  notPlace : Text.strip? "@eClassifiers." c.name = none

theorem addressable_iff (c : ClassifierRef) : Addressable c ↔ '#' ∉ c.uri.toList ∧
    c.uri ≠ ecoreUri ∧ Text.strip? "@eClassifiers." c.name = none :=
  ⟨fun h => ⟨h.hash, h.notEcore, h.notPlace⟩, fun h => ⟨h.1, h.2.1, h.2.2⟩⟩

instance (c : ClassifierRef) : Decidable (Addressable c) := decidable_of_iff _ (addressable_iff c).symm

/-- Packages that refer only to what their document and the metamodel have. -/
structure Documented (m : Metamodel) (ps : List Package) (reach : ClassifierRef → Prop) : Prop where
  distinct : (ps.map (·.uri)).Nodup
  addressable : ∀ p ∈ ps, '#' ∉ p.uri.toList ∧ p.uri ≠ ecoreUri
  names : ∀ p ∈ ps, ∀ c ∈ p.classifiers.values, Text.strip? "@eClassifiers." c.name = none
  storage : ∀ p ∈ ps, ∀ c ∈ p.classifiers.values, c.StoredAsImplemented
  supertypes : ∀ p ∈ ps, ∀ c ∈ p.classes, ∀ s ∈ c.supertypes, Names m ps reach p (.ofClass s)
  features : ∀ p ∈ ps, ∀ c ∈ p.classes, ∀ f ∈ c.features,
    f.WellTyped ∧ Names m ps reach p f.type

variable {m : Metamodel} {ps : List Package} {reach : ClassifierRef → Prop} {p : Package}

theorem names_iff {t : FeatureType} : Names m ps reach p t ↔
    t = .ecore t.classifier.name ∨ p.Provides t ∨
    (t.classifier.uri ≠ "" ∧ ∃ q ∈ ps, q.Provides t) ∨
    ((∀ r ∈ ps, r.uri ≠ t.classifier.uri) ∧ (∃ q ∈ m.package? t.classifier.uri, q.Provides t) ∧
      t.classifier.uri ≠ "" ∧ reach t.classifier) := by
  constructor
  · intro h
    cases h with
    | ecore name => exact .inl rfl
    | own h => exact .inr (.inl h)
    | listed hq h huri => exact .inr (.inr (.inl ⟨huri, _, hq, h⟩))
    | loaded hnew hq h huri hr => exact .inr (.inr (.inr ⟨hnew, ⟨_, hq, h⟩, huri, hr⟩))
  · rintro (h | h | ⟨huri, q, hq, h⟩ | ⟨hnew, ⟨q, hq, h⟩, huri, hr⟩)
    · exact h ▸ .ecore _
    · exact .own h
    · exact .listed hq h huri
    · exact .loaded hnew hq h huri hr

instance [DecidablePred reach] (t : FeatureType) : Decidable (Names m ps reach p t) :=
  decidable_of_iff _ names_iff.symm

theorem documented_iff : Documented m ps reach ↔
    (ps.map (·.uri)).Nodup ∧
    (∀ p ∈ ps, '#' ∉ p.uri.toList ∧ p.uri ≠ ecoreUri) ∧
    (∀ p ∈ ps, ∀ c ∈ p.classifiers.values, Text.strip? "@eClassifiers." c.name = none) ∧
    (∀ p ∈ ps, ∀ c ∈ p.classifiers.values, c.StoredAsImplemented) ∧
    (∀ p ∈ ps, ∀ c ∈ p.classes, ∀ s ∈ c.supertypes, Names m ps reach p (.ofClass s)) ∧
    (∀ p ∈ ps, ∀ c ∈ p.classes, ∀ f ∈ c.features, f.WellTyped ∧ Names m ps reach p f.type) :=
  ⟨fun h => ⟨h.distinct, h.addressable, h.names, h.storage, h.supertypes, h.features⟩,
    fun ⟨h1, h2, h3, h4, h5, h6⟩ => ⟨h1, h2, h3, h4, h5, h6⟩⟩

instance [DecidablePred reach] : Decidable (Documented m ps reach) :=
  decidable_of_iff _ documented_iff.symm

@[simp] theorem get?_nil (key : String) : JsonMembers.get? [] key = none := rfl

@[simp] theorem get?_cons (k : String) (v : Json) (ms : JsonMembers) (key : String) :
    JsonMembers.get? ((k, v) :: ms) key = if k = key then some v else JsonMembers.get? ms key := by
  by_cases h : k = key
  · simp [JsonMembers.get?, h]
  · have hb : (key == k) = false := by simpa using fun e => h e.symm
    simp [JsonMembers.get?, List.lookup_cons, hb, h]

@[simp] theorem get?_append (ms ns : JsonMembers) (key : String) :
    JsonMembers.get? (ms ++ ns) key =
      (JsonMembers.get? ms key).or (JsonMembers.get? ns key) := by
  simp [JsonMembers.get?, List.lookup_append]

@[simp] theorem get?_flagMember (k : String) (on : Bool) (key : String) :
    JsonMembers.get? (flagMember k on) key =
      if k = key ∧ on = true then some (.bool true) else none := by
  by_cases h : k = key <;> cases on <;> simp [flagMember, h]

@[simp] theorem get?_optional (k : String) (text : Option String) (key : String) :
    JsonMembers.get? (text.map fun s => (k, Json.string s)).toList key =
      if k = key then text.map .string else none := by
  by_cases h : k = key <;> cases text <;> simp [h]

def classifierMembers (p : Package) (c : Classifier) : JsonMembers :=
  match writeClassifier p c with
  | .object members => members
  | _ => []

theorem writeClassifier_eq (p : Package) (c : Classifier) :
    writeClassifier p c = .object (classifierMembers p c) := by
  cases c <;> rfl

def outlineKind : Classifier → OutlineKind
  | .classDecl _ => .ofClass
  | .enumDecl _ => .ofEnum
  | .dataDecl d => .ofData d.storage

/-- What the first pass makes of a written classifier. -/
def classifierOutline (p : Package) (c : Classifier) : ClassifierOutline :=
  ⟨c.name, outlineKind c, classifierMembers p c⟩

def packageOutline (p : Package) : PackageOutline :=
  ⟨p.name, p.uri, p.shortName, p.classifiers.values.map (classifierOutline p)⟩

theorem type_classifierOutline (p : Package) (c : Classifier) :
    (classifierOutline p c).type p.uri = c.type p := by
  cases c <;> rfl

theorem text?_classifierMembers_name (p : Package) (c : Classifier) :
    JsonMembers.text? (classifierMembers p c) "name" = some c.name := by
  cases c <;> simp [JsonMembers.text?, classifierMembers, writeClassifier, Classifier.name]

theorem text?_instanceClassName (p : Package) (d : DataDecl) :
    JsonMembers.text? (classifierMembers p (.dataDecl d)) "instanceClassName" =
      d.implementation := by
  cases h : d.implementation <;>
    simp [JsonMembers.text?, classifierMembers, writeClassifier, metaclass, h]

theorem kindOf_classifierMembers (p : Package) {c : Classifier} (hc : c.StoredAsImplemented) :
    ClassifierOutline.kindOf (classifierMembers p c) = outlineKind c := by
  cases c with
  | classDecl c =>
    have heclass : JsonMembers.text? (classifierMembers p (.classDecl c)) "eClass" =
        some (ClassifierRef.ecore "EClass").render := by
      simp [JsonMembers.text?, classifierMembers, writeClassifier, metaclass]
    have hclass : Text.endsWith "EEnum" (ClassifierRef.ecore "EClass").render = false ∧
        Text.endsWith "EDataType" (ClassifierRef.ecore "EClass").render = false := by decide
    simp [ClassifierOutline.kindOf, heclass, hclass, outlineKind]
  | enumDecl e =>
    have heclass : JsonMembers.text? (classifierMembers p (.enumDecl e)) "eClass" =
        some (ClassifierRef.ecore "EEnum").render := by
      simp [JsonMembers.text?, classifierMembers, writeClassifier, metaclass]
    have henum : Text.endsWith "EEnum" (ClassifierRef.ecore "EEnum").render = true := by decide
    simp [ClassifierOutline.kindOf, heclass, henum, outlineKind]
  | dataDecl d =>
    have heclass : JsonMembers.text? (classifierMembers p (.dataDecl d)) "eClass" =
        some (ClassifierRef.ecore "EDataType").render := by
      simp [JsonMembers.text?, classifierMembers, writeClassifier, metaclass]
    have hdata : Text.endsWith "EEnum" (ClassifierRef.ecore "EDataType").render = false ∧
        Text.endsWith "EDataType" (ClassifierRef.ecore "EDataType").render = true := by decide
    simp [ClassifierOutline.kindOf, heclass, hdata, text?_instanceClassName, outlineKind,
      show d.storage = _ from hc]

theorem read_writeClassifier (p : Package) {c : Classifier} (hc : c.StoredAsImplemented) :
    ClassifierOutline.read p.name (writeClassifier p c) = .ok (classifierOutline p c) := by
  rw [writeClassifier_eq, ClassifierOutline.read]
  simp only [text?_classifierMembers_name, kindOf_classifierMembers p hc]
  rfl

def writtenPackage (p : Package) : JsonMembers :=
  [("eClass", metaclass "EPackage"), ("name", .string p.name), ("nsURI", .string p.uri)] ++
    (p.shortName.map fun s => ("nsPrefix", Json.string s)).toList ++
    [("eClassifiers", .array (p.classifiers.values.map (writeClassifier p)))]

theorem packageMembers_writePackages (ps : List Package) :
    packageMembers (writePackages ps) = .ok (ps.map writtenPackage) := by
  have hall : ∀ ps : List Package,
      packageMembers (.array (ps.map writePackage)) = .ok (ps.map writtenPackage) := by
    intro ps
    exact StatefulRuns.mapM_map_ok fun _ _ => rfl
  match ps with
  | [] => exact hall []
  | [p] => rfl
  | p :: q :: rest => exact hall (p :: q :: rest)

theorem read_writtenPackage (hp : ∀ c ∈ p.classifiers.values, c.StoredAsImplemented) :
    PackageOutline.read (writtenPackage p) = .ok (packageOutline p) := by
  have hname : JsonMembers.text? (writtenPackage p) "name" = some p.name := by
    simp [JsonMembers.text?, writtenPackage]
  have huri : JsonMembers.text? (writtenPackage p) "nsURI" = some p.uri := by
    simp [JsonMembers.text?, writtenPackage]
  have hshort : JsonMembers.text? (writtenPackage p) "nsPrefix" = p.shortName := by
    cases hs : p.shortName <;> simp [JsonMembers.text?, writtenPackage, hs]
  have hitems : JsonMembers.items (writtenPackage p) "eClassifiers" =
      p.classifiers.values.map (writeClassifier p) := by
    cases hs : p.shortName <;> simp [JsonMembers.items, writtenPackage, hs]
  have hread : (p.classifiers.values.map (writeClassifier p)).mapM
      (ClassifierOutline.read p.name) = .ok (p.classifiers.values.map (classifierOutline p)) :=
    StatefulRuns.mapM_map_ok fun c hc => read_writeClassifier p (hp c hc)
  simp only [PackageOutline.read, hname, hitems, hread, huri, hshort]
  rfl

theorem find?_packageOutline (p : Package) (name : String) :
    (packageOutline p).find? name =
      (p.classifiers.get? name).map (Classifier.type p) := by
  have hlookup : ∀ es : List (String × Classifier), (∀ e ∈ es, e.1 = e.2.name) →
      (((es.map Prod.snd).map (classifierOutline p)).find? (·.name = name)).map
          (·.type p.uri) = (es.lookup name).map (Classifier.type p) := by
    intro es
    induction es with
    | nil => exact fun _ => rfl
    | cons e es ih =>
      obtain ⟨k, c⟩ := e
      intro hes
      have hc : (classifierOutline p c).name = k := (hes (k, c) (by simp)).symm
      have ih' := ih fun d hd => hes d (by simp [hd])
      by_cases hn : k = name
      · simp [hc, hn, type_classifierOutline]
      · have hb : (name == k) = false := by simpa using fun h => hn h.symm
        simpa [hc, hn, List.lookup_cons, hb] using ih'
  exact hlookup p.classifiers.entries p.keyed

theorem resolve_ecore (m : Metamodel) (outlines : List PackageOutline) (i : Nat) (name : String) :
    resolve m outlines i (ClassifierRef.ecore name).render = .ok (.ecore name) := by
  have hsplit : Text.splitFirst '#' (ClassifierRef.ecore name).render =
      some (ecoreUri, "//" ++ name) :=
    ClassifierRef.splitFirst_render (by decide : '#' ∉ ecoreUri.toList)
  simp only [resolve, hsplit, Option.getD_some, Text.strip?_append, if_true]

theorem resolve_named {outlines : List PackageOutline} {i : Nat} {c : ClassifierRef}
    {t : FeatureType} (hc : Addressable c)
    (ht : byName? (candidates outlines i c.uri) (loaded m c.uri) c.name = some t) :
    resolve m outlines i c.render = .ok t := by
  simp only [resolve, ClassifierRef.splitFirst_render hc.hash, Option.getD_some,
    Text.strip?_append, hc.notEcore, if_false, hc.notPlace, ht]

/-- A classifier as it is called from within a package. -/
def called (p : Package) (c : ClassifierRef) : ClassifierRef :=
  if c.uri = p.uri then ⟨"", c.name⟩ else c

theorem reference?_reference (p : Package) (c : ClassifierRef) :
    reference? (reference p c) = some (called p c).render := by
  by_cases h : c.uri = p.uri <;>
    simp [reference?, reference, called, h, JsonMembers.text?, ClassifierRef.render]

theorem classifier_eq_of_provides {t : FeatureType} (h : p.Provides t) :
    t.classifier.uri = p.uri ∧
      ∃ c ∈ p.classifiers.values, c.name = t.classifier.name ∧ c.type p = t := by
  obtain ⟨c, hc, ht⟩ := Option.map_eq_some_iff.1 h
  have hname : c.name = t.classifier.name := Package.name_eq hc
  have huri : (c.type p).classifier.uri = p.uri := by cases c <;> rfl
  exact ⟨ht ▸ huri, c, List.mem_map_of_mem (f := Prod.snd) (Table.get?_eq_some_iff.1 hc), hname, ht⟩

theorem find?_of_provides {t : FeatureType} (h : p.Provides t) :
    (packageOutline p).find? t.classifier.name = some t := by
  rw [find?_packageOutline]
  exact h

theorem filter_uri_eq {q : Package} (hd : (ps.map (·.uri)).Nodup) (hq : q ∈ ps) :
    ps.filter (·.uri = q.uri) = [q] := by
  induction ps with
  | nil => cases hq
  | cons r rs ih =>
    rw [List.map_cons, List.nodup_cons] at hd
    have hrest : ∀ x ∈ rs, x.uri ≠ r.uri := fun x hx he => hd.1 (he ▸ List.mem_map_of_mem hx)
    rcases List.mem_cons.1 hq with rfl | hq
    · have hnone : rs.filter (·.uri = q.uri) = [] := by simpa using hrest
      simp [hnone]
    · have hne : r.uri ≠ q.uri := fun he => hrest q hq he.symm
      simpa [hne] using ih hd.2 hq

theorem candidates_listed {q : Package} (hd : (ps.map (·.uri)).Nodup) (hq : q ∈ ps) (i : Nat)
    (hne : q.uri ≠ "") : candidates (ps.map packageOutline) i q.uri = [packageOutline q] := by
  rw [candidates, if_neg hne, List.filter_map, ← List.map_singleton, ← filter_uri_eq hd hq]
  rfl

/-- A reference to what a package may name is resolved to it. -/
theorem resolve_called (hdoc : Documented m ps reach) (hreach : ∀ c, reach c → Addressable c)
    {i : Nat} (hi : ps[i]? = some p) {t : FeatureType} (ht : Names m ps reach p t) :
    resolve m (ps.map packageOutline) i (called p t.classifier).render = .ok t := by
  have hp : p ∈ ps := List.mem_of_getElem? hi
  have hown : ∀ t, p.Provides t →
      resolve m (ps.map packageOutline) i (called p t.classifier).render = .ok t := by
    intro t h
    obtain ⟨huri, c, hc, hname, -⟩ := classifier_eq_of_provides h
    have haddr : Addressable ⟨"", t.classifier.name⟩ :=
      ⟨List.not_mem_nil, (by decide : "" ≠ ecoreUri), hname ▸ hdoc.names p hp c hc⟩
    have hcands : candidates (ps.map packageOutline) i "" =
        packageOutline p :: (ps.map packageOutline).eraseIdx i := by
      simp [candidates, hi]
    rw [called, if_pos huri]
    refine resolve_named haddr ?_
    simp [byName?, hcands, find?_of_provides h]
  cases ht with
  | ecore name =>
    have hne : (FeatureType.ecore name).classifier.uri ≠ p.uri :=
      fun h => (hdoc.addressable p hp).2 h.symm
    rw [called, if_neg hne]
    exact resolve_ecore m _ i name
  | own h => exact hown t h
  | @listed _ q hq h huri =>
    obtain ⟨he, c, hc, hname, -⟩ := classifier_eq_of_provides h
    by_cases hsame : t.classifier.uri = p.uri
    · have hqp : q = p := List.inj_on_of_nodup_map hdoc.distinct hq hp (he.symm.trans hsame)
      exact hown t (hqp ▸ h)
    · have haddr : Addressable t.classifier :=
        ⟨he ▸ (hdoc.addressable q hq).1, he ▸ (hdoc.addressable q hq).2,
          hname ▸ hdoc.names q hq c hc⟩
      rw [called, if_neg hsame]
      refine resolve_named haddr ?_
      rw [he, candidates_listed hdoc.distinct hq i (he ▸ huri)]
      simp [byName?, find?_of_provides h]
  | @loaded _ q hnew hq h huri hr =>
    have hnone : candidates (ps.map packageOutline) i t.classifier.uri = [] := by
      simpa [candidates, huri, packageOutline] using hnew
    rw [called, if_neg fun hs => hnew p hp hs.symm]
    refine resolve_named (hreach _ hr) ?_
    simp only [byName?, hnone, loaded, huri, hq, if_false, Option.toList_some,
      List.findSome?_nil, List.findSome?_singleton]
    exact h

theorem lenientInt64?_integer (n : Int32) :
    (Json.integer n.toInt).lenientInt64?.map Int64.toInt32 = some n := by
  have hint : (Json.integer n.toInt).int64? = some n.toInt64 := by
    rw [← Int32.toInt_toInt64]
    exact Number.toInt64?_toInt n.toInt64
  simp [Json.lenientInt64?, hint]

def featureMembers (p : Package) (f : Feature) : JsonMembers :=
  [("eClass", metaclass (if f.isReference then "EReference" else "EAttribute")),
    ("name", .string f.name)] ++
  flagMember "containment" f.isContainment ++
  [("eType", reference p f.type.classifier)] ++
  (if f.lower = 0 then [] else [("lowerBound", .integer f.lower.toInt)]) ++
  [("upperBound", .integer f.upper.toInt)]

theorem bound_upper (p : Package) (f : Feature) :
    bound (featureMembers p f) "upperBound" 1 = f.upper := by
  have hget : JsonMembers.get? (featureMembers p f) "upperBound" =
      some (.integer f.upper.toInt) := by
    by_cases h : f.lower = 0 <;> simp [featureMembers, h]
  obtain ⟨n, hn, hf⟩ := Option.map_eq_some_iff.1 (lenientInt64?_integer f.upper)
  simp [bound, hget, hn, hf]

theorem bound_lower (p : Package) (f : Feature) :
    bound (featureMembers p f) "lowerBound" 0 = f.lower := by
  by_cases h : f.lower = 0
  · have hget : JsonMembers.get? (featureMembers p f) "lowerBound" = none := by
      simp [featureMembers, h]
    simp [bound, hget, h]
  · have hget : JsonMembers.get? (featureMembers p f) "lowerBound" =
        some (.integer f.lower.toInt) := by
      simp [featureMembers, h]
    obtain ⟨n, hn, hf⟩ := Option.map_eq_some_iff.1 (lenientInt64?_integer f.lower)
    simp [bound, hget, hn, hf]

theorem saysReference_featureMembers (p : Package) (f : Feature) (t : FeatureType) :
    saysReference (featureMembers p f) t = f.isReference := by
  have heclass : JsonMembers.text? (featureMembers p f) "eClass" =
      some (ClassifierRef.ecore (if f.isReference then "EReference" else "EAttribute")).render := by
    simp [JsonMembers.text?, featureMembers, metaclass]
  have hreference : Text.endsWith "EReference" (ClassifierRef.ecore "EReference").render = true := by
    decide
  have hattribute : Text.endsWith "EReference" (ClassifierRef.ecore "EAttribute").render = false ∧
      Text.endsWith "EAttribute" (ClassifierRef.ecore "EAttribute").render = true := by
    decide
  cases h : f.isReference <;>
    simp [saysReference, heclass, h, hreference, hattribute]

theorem readFeature_writeFeature {resolve : String → Except MetamodelError FeatureType}
    {f : Feature} (owner : String) (hw : f.WellTyped)
    (ht : resolve (called p f.type.classifier).render = .ok f.type) :
    readFeature resolve owner (writeFeature p f) = .ok f := by
  have hname : JsonMembers.text? (featureMembers p f) "name" = some f.name := by
    simp [JsonMembers.text?, featureMembers]
  have htype : typeReference? (featureMembers p f) = some (called p f.type.classifier).render := by
    simp [typeReference?, featureMembers, reference?_reference]
  have hcontains : JsonMembers.flag (featureMembers p f) "containment" = f.isContainment := by
    by_cases hc : f.isContainment = true <;> by_cases h : f.lower = 0 <;>
      simp [JsonMembers.flag, featureMembers, hc, h]
  have hshape : writeFeature p f = .object (featureMembers p f) := rfl
  simp only [hshape, readFeature, hname, htype, ht, hcontains, saysReference_featureMembers,
    bound_lower, bound_upper, bind, Except.bind]
  obtain ⟨name, kind, type, lower, upper⟩ := f
  cases kind <;> cases type <;>
    simp_all [Feature.WellTyped, Feature.isReference, Feature.isContainment] <;> rfl

theorem readSupertype_reference {resolve : String → Except MetamodelError FeatureType}
    {c : ClassifierRef} (owner : String)
    (hc : resolve (called p c).render = .ok (.ofClass c)) :
    readSupertype resolve owner (reference p c) = .ok c := by
  simp only [readSupertype, reference?_reference, hc]
  rfl

theorem filterMap_literal? (literals : List String) :
    (literals.zipIdx.map fun (literal, i) =>
      Json.object [("name", .string literal), ("value", .integer i)]).filterMap literal? =
      literals := by
  have hone : ∀ e : String × Nat, literal? (.object
      [("name", .string e.1), ("value", .integer e.2)]) = some e.1 := by
    simp [literal?, JsonMembers.text?]
  rw [List.filterMap_map]
  calc literals.zipIdx.filterMap _ = literals.zipIdx.filterMap (some ∘ Prod.fst) :=
        List.filterMap_congr fun e _ => hone e
    _ = literals := by rw [List.filterMap_eq_map, List.zipIdx_map_fst]

/-- The second pass reads a classifier back whose references are resolved to what they name. -/
theorem readClassifier_classifierOutline {resolve : String → Except MetamodelError FeatureType}
    {c : Classifier}
    (hs : ∀ d, c = .classDecl d → ∀ s ∈ d.supertypes,
      resolve (called p s).render = .ok (.ofClass s))
    (hf : ∀ d, c = .classDecl d → ∀ f ∈ d.features, f.WellTyped ∧
      resolve (called p f.type.classifier).render = .ok f.type) :
    readClassifier resolve (classifierOutline p c) = .ok c := by
  cases c with
  | classDecl c =>
    have hsupers : JsonMembers.items (classifierMembers p (.classDecl c)) "eSuperTypes" =
        c.supertypes.map (reference p) := by
      by_cases h : c.supertypes = [] <;>
        simp [JsonMembers.items, classifierMembers, writeClassifier, h]
    have hfeatures : JsonMembers.items (classifierMembers p (.classDecl c)) "eStructuralFeatures" =
        c.features.map (writeFeature p) := by
      by_cases h : c.supertypes = [] <;>
        simp [JsonMembers.items, classifierMembers, writeClassifier, h]
    have habstract : JsonMembers.flag (classifierMembers p (.classDecl c)) "abstract" =
        c.isAbstract := by
      cases ha : c.isAbstract <;> by_cases h : c.supertypes = [] <;>
        simp [JsonMembers.flag, classifierMembers, writeClassifier, ha, h]
    have hinterface : JsonMembers.flag (classifierMembers p (.classDecl c)) "interface" =
        c.isInterface := by
      cases hi : c.isInterface <;> by_cases h : c.supertypes = [] <;>
        simp [JsonMembers.flag, classifierMembers, writeClassifier, hi, h]
    have hreadSupers : (c.supertypes.map (reference p)).mapM (readSupertype resolve c.name) =
        .ok (c.supertypes.map id) :=
      StatefulRuns.mapM_map_ok fun s h => readSupertype_reference c.name (hs c rfl s h)
    have hreadFeatures : (c.features.map (writeFeature p)).mapM (readFeature resolve c.name) =
        .ok (c.features.map id) :=
      StatefulRuns.mapM_map_ok fun f h =>
        readFeature_writeFeature c.name (hf c rfl f h).1 (hf c rfl f h).2
    simp only [readClassifier, classifierOutline, outlineKind, Classifier.name, hsupers, hfeatures,
      habstract, hinterface, hreadSupers, hreadFeatures, List.map_id]
    rfl
  | enumDecl e =>
    have hliterals : JsonMembers.items (classifierMembers p (.enumDecl e)) "eLiterals" =
        e.literals.zipIdx.map fun (literal, i) =>
          Json.object [("name", .string literal), ("value", .integer i)] := by
      simp [JsonMembers.items, classifierMembers, writeClassifier]
    simp only [readClassifier, classifierOutline, outlineKind, Classifier.name, hliterals,
      filterMap_literal?]
    rfl
  | dataDecl d =>
    simp only [readClassifier, classifierOutline, outlineKind, Classifier.name,
      text?_instanceClassName]
    rfl

theorem readPackage_packageOutline (hdoc : Documented m ps reach)
    (hreach : ∀ c, reach c → Addressable c) {i : Nat} (hi : ps[i]? = some p) :
    readPackage m (ps.map packageOutline) i (packageOutline p) = .ok p := by
  have hp : p ∈ ps := List.mem_of_getElem? hi
  have hclass : ∀ d, Classifier.classDecl d ∈ p.classifiers.values → d ∈ p.classes :=
    fun d hd => List.mem_filterMap.2 ⟨_, hd, rfl⟩
  have hread : (p.classifiers.values.map (classifierOutline p)).mapM
      (readClassifier (resolve m (ps.map packageOutline) i)) = .ok (p.classifiers.values.map id) := by
    refine StatefulRuns.mapM_map_ok fun c hc => ?_
    refine readClassifier_classifierOutline ?_ ?_
    · rintro d rfl s hs
      have hnames := hdoc.supertypes p hp d (hclass d hc) s hs
      have ht := resolve_called hdoc hreach hi hnames
      rwa [FeatureType.classifier] at ht
    · rintro d rfl f hf
      have hwell := hdoc.features p hp d (hclass d hc) f hf
      exact ⟨hwell.1, resolve_called hdoc hreach hi hwell.2⟩
  have hback := p.addAll_values
  have hshape : (packageOutline p).classifiers = p.classifiers.values.map (classifierOutline p) := rfl
  rw [readPackage, hshape, hread, List.map_id]
  exact congrArg Except.ok hback

/-- A document is read back as the packages it was written from, if the packages outside it that
it refers to can be addressed. -/
theorem readPackages_writePackages (hdoc : Documented m ps Addressable) :
    readPackages m (writePackages ps) = .ok ps := by
  have houtlines : (ps.map writtenPackage).mapM PackageOutline.read = .ok (ps.map packageOutline) :=
    StatefulRuns.mapM_map_ok fun p hp => read_writtenPackage (hdoc.storage p hp)
  have hpackages : (ps.map packageOutline).zipIdx.mapM (fun e =>
      readPackage m (ps.map packageOutline) e.2 e.1) = .ok (ps.zipIdx.map Prod.fst) := by
    rw [List.zipIdx_map]
    refine StatefulRuns.mapM_map_ok fun e he => ?_
    exact readPackage_packageOutline hdoc (fun c h => h) (List.mem_zipIdx_iff_getElem?.1 he)
  simp only [readPackages, packageMembers_writePackages, houtlines, bind, Except.bind, hpackages,
    List.zipIdx_map_fst]

/-- Two packages that refer to each other and to the built-in nodes. -/
def drawing : List Package :=
  [{ Package.ofName "shapes" "urn:shapes" with shortName := some "sh" }.addAll [
      .classDecl ⟨"Shape", true, false, [.ast "ASTNode"], [
        ⟨"label", .plain, .ecore "EString", 1, 1⟩,
        ⟨"colour", .plain, .ofEnum ⟨"urn:shapes", "Colour"⟩, 0, 1⟩,
        ⟨"parts", .containment, .ofClass ⟨"urn:shapes", "Shape"⟩, 0, -1⟩,
        ⟨"style", .reference, .ofClass ⟨"urn:styles", "Style"⟩, 0, 3⟩]⟩,
      .enumDecl ⟨"Colour", ["red", "green"]⟩,
      .dataDecl ⟨"Length", some "int", .integer⟩],
    (Package.ofName "styles" "urn:styles").addAll [
      .classDecl ⟨"Style", false, true, [⟨"urn:shapes", "Shape"⟩], [
        ⟨"width", .plain, .ofData ⟨"urn:shapes", "Length"⟩ .integer, 0, 1⟩]⟩]]

theorem readPackages_drawing : Documented .initial drawing Addressable ∧
    readPackages .initial (writePackages drawing) = .ok drawing := by
  have hdoc : Documented .initial drawing Addressable := by decide +kernel
  exact ⟨hdoc, readPackages_writePackages hdoc⟩

def hosting (c : ClassifierRef) : Metamodel :=
  Metamodel.initial.add ((Package.ofName "outside" c.uri).addAll [Builtin.plainClass c.name []])

/-- A package that extends a class. -/
def extending (c : ClassifierRef) : Package :=
  (Package.ofName "inside" "urn:inside").addAll [.classDecl ⟨"Derived", false, false, [c], []⟩]

/-- The package extends a class that the metamodel has, but its document is not read back. -/
def LosesSupertype (c : ClassifierRef) (e : MetamodelError) : Prop :=
  Documented (hosting c) [extending c] (fun _ => True) ∧
    readPackages (hosting c) (writePackages [extending c]) = .error e

/-- A reference to a class outside the document is not read back if the URI of its package has a
number sign or is that of the primitive types, or if its name says a place. -/
theorem losesSupertype_unaddressable :
    LosesSupertype ⟨"urn:a#b", "Base"⟩ (.unresolved "urn:a#b#//Base") ∧
    LosesSupertype (.ecore "Base")
      (.invalid (.supertypeKind "Derived" (ClassifierRef.ecore "Base").render)) ∧
    LosesSupertype ⟨"urn:outside", "@eClassifiers.Base"⟩
      (.unresolved "urn:outside#//@eClassifiers.Base") := by
  refine ⟨⟨?_, ?_⟩, ⟨?_, ?_⟩, ⟨?_, ?_⟩⟩
  · decide +kernel
  · rfl
  · decide +kernel
  · rfl
  · decide +kernel
  · rfl

end MetamodelDocument

end TreeInterchange
