import Mathlib.Data.List.InsertIdx
import TreeInterchange.Metamodel.Reading
import TreeInterchange.Proofs.StatefulRuns

/-!
# The two passes over a package document

What an accepted document is made of, pass by pass. The first pass takes down packages and
classifiers one by one and looks at nothing else; the second reads each package at its place, and
takes from the others only the types that the references of its classes resolve to.
-/

namespace TreeInterchange

open StatefulRuns

theorem ClassifierOutline.read_eq_ok_iff {package : String} {v : Json} {c : ClassifierOutline} :
    read package v = .ok c ↔ v = .object c.members ∧
      JsonMembers.text? c.members "name" = some c.name ∧ c.kind = kindOf c.members := by
  obtain ⟨name, kind, members⟩ := c
  cases v with
  | object members' =>
    simp only [read, Json.object.injEq]
    cases hname : JsonMembers.text? members' "name" with
    | none =>
      simp only [reduceCtorEq, false_iff]
      rintro ⟨rfl, htext, -⟩
      rw [hname] at htext
      cases htext
    | some name' =>
      simp only [Except.ok.injEq, ClassifierOutline.mk.injEq]
      constructor
      · rintro ⟨rfl, rfl, rfl⟩
        exact ⟨rfl, hname, rfl⟩
      · rintro ⟨rfl, htext, rfl⟩
        exact ⟨Option.some.inj (hname.symm.trans htext), rfl, rfl⟩
  | _ => simp [read]

theorem PackageOutline.read_eq_ok_iff {members : JsonMembers} {p : PackageOutline} :
    read members = .ok p ↔ JsonMembers.text? members "name" = some p.name ∧
      (JsonMembers.text? members "nsURI").getD "" = p.uri ∧
      p.shortName = JsonMembers.text? members "nsPrefix" ∧
      List.Forall₂ (fun v c => ClassifierOutline.read p.name v = .ok c)
        (JsonMembers.items members "eClassifiers") p.classifiers := by
  obtain ⟨name, uri, shortName, classifiers⟩ := p
  unfold read
  constructor
  · intro h
    split at h
    · cases h
    · rename_i hname
      obtain ⟨cs, hcs, hdone⟩ := of_except_bind_ok h
      cases hdone
      exact ⟨hname, rfl, rfl, forall₂_of_mapM_ok hcs⟩
  · rintro ⟨hname, rfl, rfl, hclassifiers⟩
    simp only [hname, mapM_ok_of_forall₂ hclassifiers]
    rfl

/-- A package after the first pass without what its classifiers contain. -/
def PackageOutline.bare (p : PackageOutline) : PackageOutline :=
  { p with classifiers := p.classifiers.map fun c => { c with members := [] } }

theorem PackageOutline.find?_bare (p : PackageOutline) (name : String) :
    p.bare.find? name = p.find? name := by
  simp [find?, bare, List.find?_map, Function.comp_def, Option.map_map, ClassifierOutline.type]

namespace MetamodelDocument

def outlines (document : Json) : Except MetamodelError (List PackageOutline) := do
  (← packageMembers document).mapM PackageOutline.read

theorem candidates_bare (ps : List PackageOutline) (i : Nat) (uri : String) :
    candidates (ps.map PackageOutline.bare) i uri =
      (candidates ps i uri).map PackageOutline.bare := by
  unfold candidates
  split
  · rw [List.map_append, List.getElem?_map, Option.toList_map, List.eraseIdx_map]
  · rw [List.filter_map]
    rfl

theorem byPlace?_bare (ps : List PackageOutline) (place : String) :
    byPlace? (ps.map PackageOutline.bare) place = byPlace? ps place := by
  unfold byPlace?
  cases ps with
  | nil => rfl
  | cons p ps =>
    cases Number.readIndex? place with
    | none => rfl
    | some i =>
      simp only [List.map_cons, List.head?_cons, Option.bind_eq_bind, Option.bind_some,
        PackageOutline.bare, List.getElem?_map]
      cases p.classifiers[i]? <;> rfl

theorem byName?_bare (ps : List PackageOutline) (packages : List Package) (name : String) :
    byName? (ps.map PackageOutline.bare) packages name = byName? ps packages name := by
  simp only [byName?, List.findSome?_map, Function.comp_def, PackageOutline.find?_bare]

theorem resolve_bare (m : Metamodel) (ps : List PackageOutline) (i : Nat) (r : String) :
    resolve m (ps.map PackageOutline.bare) i r = resolve m ps i r := by
  simp only [resolve, candidates_bare, byPlace?_bare, byName?_bare]

theorem readPackages_eq_bind (m : Metamodel) (document : Json) : readPackages m document =
    outlines document >>= fun ps => ps.zipIdx.mapM fun e => readPackage m ps e.2 e.1 := by
  rw [readPackages, outlines, bind_assoc]

/-- Every package is read at its place among the outlines. -/
theorem readPackages_eq_ok_iff {m : Metamodel} {document : Json} {packages : List Package} :
    readPackages m document = .ok packages ↔ ∃ ps, outlines document = .ok ps ∧
      ps.length = packages.length ∧ ∀ i p q, ps[i]? = some p → packages[i]? = some q →
        readPackage m ps i p = .ok q := by
  rw [readPackages_eq_bind]
  constructor
  · intro h
    obtain ⟨ps, hps, h⟩ := of_except_bind_ok h
    exact ⟨ps, hps, mapM_zipIdx_eq_ok_iff.1 h⟩
  · rintro ⟨ps, hps, h⟩
    rw [hps]
    exact mapM_zipIdx_eq_ok_iff.2 h

theorem exists_readPackages {m : Metamodel} {document : Json} {ps : List PackageOutline}
    (hps : outlines document = .ok ps)
    (h : ∀ i p, ps[i]? = some p → ∃ q, readPackage m ps i p = .ok q) :
    ∃ packages, readPackages m document = .ok packages := by
  rw [readPackages_eq_bind, hps]
  exact exists_mapM_ok fun e he => h e.2 e.1 (List.mem_zipIdx_iff_getElem?.1 he)

variable {resolve resolve' : String → Except MetamodelError FeatureType}

/-- The reference to the type of a feature, if the item of the document is an object with one. -/
def featureReference? : Json → Option String
  | .object members => typeReference? members
  | _ => none

def references (c : ClassifierOutline) : List String :=
  match c.kind with
  | .ofClass =>
    (JsonMembers.items c.members "eSuperTypes").filterMap reference? ++
      (JsonMembers.items c.members "eStructuralFeatures").filterMap featureReference?
  | _ => []

theorem readFeature_congr (owner : String) (v : Json)
    (h : ∀ r ∈ featureReference? v, resolve r = resolve' r) :
    readFeature resolve owner v = readFeature resolve' owner v := by
  cases v with
  | object members =>
    cases htype : typeReference? members with
    | none => simp only [readFeature, htype]
    | some reference => simp only [readFeature, htype, h reference htype]
  | _ => rfl

theorem readSupertype_congr (owner : String) (v : Json)
    (h : ∀ r ∈ reference? v, resolve r = resolve' r) :
    readSupertype resolve owner v = readSupertype resolve' owner v := by
  cases hr : reference? v with
  | none => simp only [readSupertype, hr]
  | some reference => simp only [readSupertype, hr, h reference hr]

theorem readClassifier_congr {c : ClassifierOutline}
    (h : ∀ r ∈ references c, resolve r = resolve' r) :
    readClassifier resolve c = readClassifier resolve' c := by
  unfold readClassifier
  cases hkind : c.kind with
  | ofClass =>
    simp only [references, hkind, List.mem_append, List.mem_filterMap] at h
    have hsupers : (JsonMembers.items c.members "eSuperTypes").mapM
        (readSupertype resolve c.name) = (JsonMembers.items c.members "eSuperTypes").mapM
        (readSupertype resolve' c.name) :=
      mapM_congr fun v hv => readSupertype_congr _ v fun r hr => h r (.inl ⟨v, hv, hr⟩)
    have hfeatures : (JsonMembers.items c.members "eStructuralFeatures").mapM
        (readFeature resolve c.name) = (JsonMembers.items c.members "eStructuralFeatures").mapM
        (readFeature resolve' c.name) :=
      mapM_congr fun v hv => readFeature_congr _ v fun r hr => h r (.inr ⟨v, hv, hr⟩)
    simp only [hsupers, hfeatures]
  | _ => rfl

end MetamodelDocument

end TreeInterchange
