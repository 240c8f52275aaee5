import Mathlib.Data.List.Nodup
import Mathlib.Data.List.Perm.Basic
import TreeInterchange.Metamodel.Builtin
import TreeInterchange.Proofs.PackageReading

/-!
# Packages in another order

The packages of a document may come in any order, as long as their URIs tell them apart and a
reference without a URI stays in its own package. A reference with a URI is looked up in the one
package of that URI, wherever it stands; a reference without one finds its classifier in the
current package, before any other is searched. So each package is read alike at every place.
-/

namespace TreeInterchange

open StatefulRuns

/-- The entries of a list at the places that `order` lists. -/
def arranged {α : Type} (order : List Nat) (xs : List α) : List α := order.filterMap (xs[·]?)

section Arranged

variable {α β : Type} {order : List Nat}

theorem arranged_range (xs : List α) : arranged (List.range xs.length) xs = xs := by
  induction xs with
  | nil => rfl
  | cons x xs ih =>
    have htail : (List.map Nat.succ (List.range xs.length)).filterMap ((x :: xs)[·]?) = xs := by
      rw [List.filterMap_map]
      exact ih
    rw [arranged, List.length_cons, List.range_succ_eq_map,
      List.filterMap_cons_some List.getElem?_cons_zero, htail]

theorem arranged_perm {xs : List α} (h : order.Perm (List.range xs.length)) :
    (arranged order xs).Perm xs := by
  have hperm := h.filterMap (xs[·]?)
  rwa [show (List.range xs.length).filterMap (xs[·]?) = xs from arranged_range xs] at hperm

theorem forall₂_arranged {R : α → β → Prop} {as : List α} {bs : List β}
    (h : List.Forall₂ R as bs) (order : List Nat) :
    List.Forall₂ R (arranged order as) (arranged order bs) := by
  obtain ⟨hlength, hplaces⟩ := forall₂_iff_getElem?.1 h
  induction order with
  | nil => exact .nil
  | cons i order ih =>
    unfold arranged at ih ⊢
    by_cases hi : i < as.length
    · have ha : as[i]? = some as[i] := List.getElem?_eq_getElem hi
      have hb : bs[i]? = some (bs[i]) := List.getElem?_eq_getElem (hlength ▸ hi)
      rw [List.filterMap_cons_some ha, List.filterMap_cons_some hb]
      exact .cons (hplaces i _ _ ha hb) ih
    · have ha : as[i]? = none := List.getElem?_eq_none (by omega)
      have hb : bs[i]? = none := List.getElem?_eq_none (by omega)
      rw [List.filterMap_cons_none ha, List.filterMap_cons_none hb]
      exact ih

end Arranged

namespace MetamodelDocument

variable {m : Metamodel} {ps ps' : List PackageOutline} {p : PackageOutline} {i j : Nat}

/-- The URI of a reference, which is empty if it has none, and the rest. -/
def referenceParts (r : String) : String × String := (Text.splitFirst '#' r).getD ("", r)

/-- A path names a classifier of the package, or gives the place of one. -/
def Declares (p : PackageOutline) (path : String) : Prop :=
  (∃ c ∈ p.classifiers, c.name = path) ∨
    ∃ place ∈ Text.strip? "@eClassifiers." path, ∃ i ∈ Number.readIndex? place,
      i < p.classifiers.length

instance (p : PackageOutline) (path : String) : Decidable (Declares p path) :=
  inferInstanceAs (Decidable (_ ∨ _))

/-- A reference of the package that has no URI names or indexes one of its own classifiers. -/
def StaysIn (p : PackageOutline) (r : String) : Prop :=
  (referenceParts r).1 = "" →
    ∃ path ∈ Text.strip? "//" (referenceParts r).2, Declares p path

instance (p : PackageOutline) (r : String) : Decidable (StaysIn p r) :=
  inferInstanceAs (Decidable (_ → _))

/-- The URIs tell the packages apart, and no reference without a URI leaves its package. -/
structure OrderFree (ps : List PackageOutline) : Prop where
  uris : (ps.map (·.uri)).Nodup
  own : ∀ p ∈ ps, ∀ c ∈ p.classifiers, ∀ r ∈ references c, StaysIn p r

instance (ps : List PackageOutline) : Decidable (OrderFree ps) :=
  decidable_of_iff ((ps.map (·.uri)).Nodup ∧
    ∀ p ∈ ps, ∀ c ∈ p.classifiers, ∀ r ∈ references c, StaysIn p r)
    ⟨fun h => ⟨h.1, h.2⟩, fun h => ⟨h.uris, h.own⟩⟩

theorem filter_uri_eq_of_perm (hperm : ps'.Perm ps) (hnodup : (ps.map (·.uri)).Nodup)
    (uri : String) : ps'.filter (·.uri = uri) = ps.filter (·.uri = uri) := by
  have hfound : (ps'.filter (·.uri = uri)).Perm (ps.filter (·.uri = uri)) := hperm.filter _
  cases hps : ps.filter (·.uri = uri) with
  | nil => exact List.perm_nil.1 (hps ▸ hfound)
  | cons p rest =>
    have hrest : rest = [] := by
      refine List.eq_nil_iff_forall_not_mem.2 fun q hq => ?_
      have hmem : ∀ x ∈ p :: rest, x ∈ ps ∧ x.uri = uri := by
        intro x hx
        rw [← hps] at hx
        simpa using hx
      obtain ⟨hp, hpu⟩ := hmem p List.mem_cons_self
      obtain ⟨hq', hqu⟩ := hmem q (List.mem_cons_of_mem _ hq)
      have hsame : q = p := List.inj_on_of_nodup_map hnodup hq' hp (hqu.trans hpu.symm)
      have hdistinct : (p :: rest).Nodup := hps ▸ hnodup.of_map.filter _
      exact (List.nodup_cons.1 hdistinct).1 (hsame ▸ hq)
    rw [hps, hrest] at hfound
    rw [hrest]
    exact List.perm_singleton.1 hfound

theorem byPlace?_cons (p : PackageOutline) (rest rest' : List PackageOutline) (place : String) :
    byPlace? (p :: rest) place = byPlace? (p :: rest') place := rfl

theorem byName?_cons {name : String} (h : ∃ c ∈ p.classifiers, c.name = name)
    (rest rest' : List PackageOutline) (packages : List Package) :
    byName? (p :: rest) packages name = byName? (p :: rest') packages name := by
  obtain ⟨c, hc, rfl⟩ := h
  have hfound : (p.classifiers.find? (·.name = c.name)).isSome :=
    List.find?_isSome.2 ⟨c, hc, by simp⟩
  obtain ⟨d, hd⟩ := Option.isSome_iff_exists.1 hfound
  have hfind : p.find? c.name = some (d.type p.uri) := by rw [PackageOutline.find?, hd]; rfl
  simp only [byName?, List.findSome?_cons, hfind]

/-- A reference of a package resolves alike wherever the package and the others stand. -/
theorem resolve_eq_of_perm (hperm : ps'.Perm ps) (hnodup : (ps.map (·.uri)).Nodup)
    (hi : ps[i]? = some p) (hj : ps'[j]? = some p) {r : String} (hown : StaysIn p r) :
    resolve m ps' j r = resolve m ps i r := by
  have hhead : ∀ qs : List PackageOutline, ∀ k : Nat, qs[k]? = some p →
      candidates qs k "" = p :: qs.eraseIdx k := by
    intro qs k hk
    rw [candidates, if_pos rfl, hk]
    rfl
  unfold StaysIn at hown
  unfold resolve
  rw [show (Text.splitFirst '#' r).getD ("", r) = referenceParts r from rfl]
  generalize referenceParts r = parts at hown ⊢
  obtain ⟨uri, fragment⟩ := parts
  by_cases huri : uri = ""
  · subst huri
    obtain ⟨path, hpath, hdeclares⟩ := hown rfl
    simp only [Option.mem_def] at hpath
    simp only [hpath, hhead ps i hi, hhead ps' j hj]
    cases hplace : Text.strip? "@eClassifiers." path with
    | some place => simp only [byPlace?_cons p _ (ps.eraseIdx i)]
    | none =>
      have hnamed : ∃ c ∈ p.classifiers, c.name = path := by
        simpa [Declares, hplace] using hdeclares
      simp only [byName?_cons hnamed _ (ps.eraseIdx i)]
  · simp only [candidates, if_neg huri, filter_uri_eq_of_perm hperm hnodup]

theorem readPackage_eq_of_perm (hperm : ps'.Perm ps) (hfree : OrderFree ps)
    (hi : ps[i]? = some p) (hj : ps'[j]? = some p) :
    readPackage m ps' j p = readPackage m ps i p := by
  have hp : p ∈ ps := List.mem_of_getElem? hi
  have hclassifiers : p.classifiers.mapM (readClassifier (resolve m ps' j)) =
      p.classifiers.mapM (readClassifier (resolve m ps i)) :=
    mapM_congr fun c hc => readClassifier_congr fun r hr =>
      resolve_eq_of_perm hperm hfree.uris hi hj (hfree.own p hp c hc r hr)
  rw [readPackage, readPackage, hclassifiers]

theorem outlines_arranged {items : List Json} (h : outlines (.array items) = .ok ps)
    (order : List Nat) : outlines (.array (arranged order items)) = .ok (arranged order ps) := by
  obtain ⟨objects, hobjects, hps⟩ := of_except_bind_ok h
  have hobjects' : packageMembers (.array (arranged order items)) = .ok (arranged order objects) :=
    mapM_ok_of_forall₂ (forall₂_arranged (forall₂_of_mapM_ok hobjects) order)
  rw [outlines, hobjects']
  exact mapM_ok_of_forall₂ (forall₂_arranged (forall₂_of_mapM_ok hps) order)

/-- The packages of a document may come in any order: they are accepted in every other one, and
read as the same packages in that order. -/
theorem readPackages_arranged {items : List Json} {packages : List Package} {order : List Nat}
    (hps : outlines (.array items) = .ok ps) (hfree : OrderFree ps)
    (h : readPackages m (.array items) = .ok packages)
    (horder : order.Perm (List.range items.length)) :
    readPackages m (.array (arranged order items)) = .ok (arranged order packages) := by
  obtain ⟨ps₁, hps₁, hlength, hplaces⟩ := readPackages_eq_ok_iff.1 h
  obtain rfl : ps₁ = ps := Except.ok.inj (hps₁.symm.trans hps)
  have hread : List.Forall₂ (fun p q => ∃ i, ps₁[i]? = some p ∧ readPackage m ps₁ i p = .ok q)
      ps₁ packages :=
    forall₂_iff_getElem?.2 ⟨hlength, fun i p q hp hq => ⟨i, hp, hplaces i p q hp hq⟩⟩
  have hsize : items.length = ps₁.length := by
    obtain ⟨objects, hobjects, hps⟩ := of_except_bind_ok hps
    rw [(forall₂_of_mapM_ok hobjects).length_eq, (forall₂_of_mapM_ok hps).length_eq]
  have hperm : (arranged order ps₁).Perm ps₁ := arranged_perm (hsize ▸ horder)
  have hread' := forall₂_arranged hread order
  refine readPackages_eq_ok_iff.2
    ⟨arranged order ps₁, outlines_arranged hps order, hread'.length_eq, fun j p q hp hq => ?_⟩
  obtain ⟨i, hi, hq⟩ := of_forall₂_getElem? hread' hp hq
  rw [readPackage_eq_of_perm hperm hfree hi hp, hq]

/-- A class of a document, with its supertypes and the references to the types of its features. -/
def classItem (name : String) (supertypes : List String) (features : List (String × String)) :
    Json :=
  .object [("eClass", .string "#//EClass"), ("name", .string name),
    ("eSuperTypes", .array (supertypes.map .string)),
    ("eStructuralFeatures", .array (features.map fun f =>
      .object [("name", .string f.1), ("eType", .string f.2)]))]

/-- Two packages that refer to each other, to themselves by name and by place, and to the built-in
nodes; both have a class of the same name. -/
def loans : List Json :=
  [.object [("name", .string "library"), ("nsURI", .string "urn:library"),
      ("eClassifiers", .array [
        classItem "Item" [(ClassifierRef.ast "ASTNode").render] [("parts", "#//Item")],
        classItem "Loan" ["//@eClassifiers.0"]
          [("item", "//Item"), ("reader", "urn:people#//Reader"),
            ("note", (ClassifierRef.ecore "EString").render)]])],
    .object [("name", .string "people"), ("nsURI", .string "urn:people"),
      ("eClassifiers", .array [
        classItem "Reader" [] [("loans", "urn:library#//@eClassifiers.1"), ("badge", "#//Item")],
        classItem "Item" [] []])]]

def loanPackages : List Package := (readPackages .initial (.array loans)).toOption.getD []

def loanOutlines : List PackageOutline := (outlines (.array loans)).toOption.getD []

theorem readPackages_loans :
    OrderFree loanOutlines ∧ loanPackages.map (·.name) = ["library", "people"] ∧
      readPackages .initial (.array loans) = .ok loanPackages ∧
      readPackages .initial (.array loans.reverse) = .ok loanPackages.reverse := by
  have hfree : OrderFree loanOutlines := by decide +kernel
  have hread : readPackages .initial (.array loans) = .ok loanPackages := rfl
  have horder : [1, 0].Perm (List.range loans.length) := by decide
  exact ⟨hfree, rfl, hread, readPackages_arranged rfl hfree hread horder⟩

end MetamodelDocument

end TreeInterchange
