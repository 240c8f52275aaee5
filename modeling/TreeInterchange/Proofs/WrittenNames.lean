import Mathlib.Data.Set.Function
import TreeInterchange.Proofs.ObjectConformity

/-!
# Written names

A classifier is written with `#//` between the URI of its package and its name. A qualified name is
written with a dot between the package and the simple name, or as the simple name alone if the
package is empty. Reading cuts at the first number sign and at the last dot. So no number sign is
left in what stands before the cut, no dot in what stands behind it, and just the names that are of
this form come back from what was written for them.
-/

namespace TreeInterchange

namespace ClassifierRef

/-- Just the texts that are written for writable classifiers are read, each as the classifier that
it was written for. -/
theorem parse?_eq_some_iff {s : String} {c : ClassifierRef} :
    parse? s = some c ↔ s = c.render ∧ c.Writable := by
  constructor
  · intro h
    obtain ⟨⟨uri, fragment⟩, hsplit, h⟩ := Option.bind_eq_some_iff.1 h
    obtain ⟨name, hname, h⟩ := Option.bind_eq_some_iff.1 h
    split at h
    · cases h
    rename_i hplain
    obtain rfl := Option.some.inj h
    obtain ⟨hs, huri⟩ := Text.splitFirst_eq_some_iff.1 hsplit
    obtain rfl := Text.strip?_eq_some_iff.1 hname
    have htext : s.toList = (render ⟨uri, name⟩).toList := by simpa [render] using hs
    exact ⟨String.toList_inj.1 htext, huri, fun he => hplain (.inl he), fun hm => hplain (.inr hm)⟩
  · rintro ⟨rfl, hc⟩
    exact parse?_render hc

theorem parse?_render_iff (c : ClassifierRef) : parse? c.render = some c ↔ c.Writable :=
  parse?_eq_some_iff.trans (and_iff_right rfl)

end ClassifierRef

namespace QualifiedName

theorem dot_notMem_name_parse (s : String) : '.' ∉ (parse s).name.toList := by
  unfold parse
  split
  · rename_i hsplit
    exact (Text.splitLast_eq_some_iff.1 hsplit).2
  · rename_i hsplit
    exact Text.splitLast_eq_none_iff.1 hsplit

theorem parse_render {n : QualifiedName} (h : '.' ∉ n.name.toList) : parse n.render = n := by
  obtain ⟨package, name⟩ := n
  by_cases hp : package = ""
  · have hsplit : Text.splitLast '.' name = none := Text.splitLast_eq_none_iff.2 h
    simp [parse, render, hp, hsplit]
  · have hsplit : Text.splitLast '.' (package ++ "." ++ name) = some (package, name) :=
      Text.splitLast_eq_some_iff.2 ⟨by simp, h⟩
    simp [parse, render, hp, hsplit]

theorem parse_render_iff (n : QualifiedName) : parse n.render = n ↔ '.' ∉ n.name.toList :=
  ⟨fun h => h ▸ dot_notMem_name_parse n.render, parse_render⟩

theorem injOn_render : Set.InjOn render {n | '.' ∉ n.name.toList} := by
  intro n hn k hk he
  rw [← parse_render hn, he, parse_render hk]

end QualifiedName

/-- Just the classifiers with no number sign in the URI and a name that is not empty and has no
slash come back from what is written for them, and whatever is read as a classifier is written as
it was read. Just the qualified names with no dot in the simple name come back, and so no two of
them are written alike. -/
theorem written_names_come_back :
    (∀ c : ClassifierRef, ClassifierRef.parse? c.render = some c ↔
      '#' ∉ c.uri.toList ∧ c.name ≠ "" ∧ '/' ∉ c.name.toList) ∧
    (∀ (s : String) (c : ClassifierRef), ClassifierRef.parse? s = some c → c.render = s) ∧
    (∀ n : QualifiedName, QualifiedName.parse n.render = n ↔ '.' ∉ n.name.toList) ∧
    Set.InjOn QualifiedName.render {n | '.' ∉ n.name.toList} := by
  refine ⟨fun c => ?_, fun s c h => ?_, QualifiedName.parse_render_iff, QualifiedName.injOn_render⟩
  · rw [ClassifierRef.parse?_render_iff, ClassifierRef.writable_iff]
  · exact (ClassifierRef.parse?_eq_some_iff.1 h).1.symm

/-- A URI with dots and slashes, a name with a dot and a number sign, a package with a dot and, beside
them, a URI and a simple name that are cut at the wrong place. -/
theorem written_names_come_back_layers :
    ClassifierRef.parse? "urn:a.b/c#//Item.#Kind" = some ⟨"urn:a.b/c", "Item.#Kind"⟩ ∧
    (ClassifierRef.mk "urn:a.b/c" "Item.#Kind").render = "urn:a.b/c#//Item.#Kind" ∧
    ClassifierRef.parse? (ClassifierRef.mk "urn:a#b" "Item").render ≠ some ⟨"urn:a#b", "Item"⟩ ∧
    QualifiedName.parse (QualifiedName.mk "a.b" "C").render = ⟨"a.b", "C"⟩ ∧
    QualifiedName.parse (QualifiedName.mk "a" "b.C").render ≠ ⟨"a", "b.C"⟩ ∧
    (QualifiedName.mk "a.b" "C").render ≠ (QualifiedName.mk "a" "b").render := by
  obtain ⟨hclass, hagain, hname, hinj⟩ := written_names_come_back
  have hread : ClassifierRef.parse? "urn:a.b/c#//Item.#Kind" =
      some ⟨"urn:a.b/c", "Item.#Kind"⟩ := by decide
  have hundotted : ∀ n ∈ [QualifiedName.mk "a.b" "C", QualifiedName.mk "a" "b"],
      '.' ∉ n.name.toList := by decide
  refine ⟨hread, hagain _ _ hread, ?_, (hname _).2 (by decide), ?_, fun he => ?_⟩
  · rw [ne_eq, hclass]
    decide
  · rw [ne_eq, hname]
    decide
  · have hsame := hinj (hundotted _ (by simp)) (hundotted _ (by simp)) he
    exact absurd hsame (by decide)

end TreeInterchange
