import TreeInterchange.Text.Split

/-!
# Cuts undo joins

What is cut at a separator are the texts that stood before and behind it, just when the one before
the first separator, or the one behind the last, has no separator in it. Texts without a separator
are found again between the separators.
-/

namespace TreeInterchange.Text

variable {sep : Char} {s a b lead : String}

theorem dropLead_append (l r : List Char) : dropLead l (l ++ r) = some r := by
  induction l with
  | nil => rfl
  | cons c l ih => simp [dropLead, ih]

theorem strip?_append (l r : String) : strip? l (l ++ r) = some r := by
  simp [strip?, dropLead_append]

theorem eq_append_of_dropLead {ls cs rest : List Char} (h : dropLead ls cs = some rest) :
    cs = ls ++ rest := by
  fun_induction dropLead ls cs with
  | case1 cs => exact Option.some.inj h
  | case2 => cases h
  | case3 l ls cs ih => rw [List.cons_append, ← ih h]
  | case4 => cases h

theorem strip?_eq_some_iff : strip? lead s = some b ↔ s = lead ++ b := by
  constructor
  · intro h
    obtain ⟨rest, hrest, rfl⟩ := Option.map_eq_some_iff.1 h
    apply String.toList_inj.1
    simpa using eq_append_of_dropLead hrest
  · rintro rfl
    exact strip?_append lead b

theorem cutFirst_eq_none (sep : Char) (cs : List Char) (h : sep ∉ cs) : cutFirst sep cs = none := by
  induction cs with
  | nil => rfl
  | cons c cs ih =>
    have hc : ¬ c = sep := fun e => h (by simp [e])
    simp [cutFirst, hc, ih fun e => h (by simp [e])]

theorem splitFirst_eq_some_iff :
    splitFirst sep s = some (a, b) ↔ s.toList = a.toList ++ sep :: b.toList ∧ sep ∉ a.toList := by
  rw [splitFirst, Option.map_eq_some_iff]
  constructor
  · rintro ⟨⟨as, bs⟩, hcut, hab⟩
    obtain ⟨rfl, rfl⟩ := Prod.mk.inj hab
    simpa using cutFirst_eq_some hcut
  · rintro ⟨hs, hnot⟩
    exact ⟨(a.toList, b.toList), by rw [hs, cutFirst_append _ _ _ hnot], by simp⟩

theorem splitLast_eq_some_iff :
    splitLast sep s = some (a, b) ↔ s.toList = a.toList ++ sep :: b.toList ∧ sep ∉ b.toList := by
  rw [splitLast, Option.map_eq_some_iff]
  constructor
  · rintro ⟨⟨as, bs⟩, hcut, hab⟩
    obtain ⟨rfl, rfl⟩ := Prod.mk.inj hab
    simpa using cutLast_eq_some hcut
  · rintro ⟨hs, hnot⟩
    exact ⟨(a.toList, b.toList), by rw [hs, cutLast_append _ _ _ hnot], by simp⟩

theorem splitLast_eq_none_iff : splitLast sep s = none ↔ sep ∉ s.toList := by
  rw [splitLast, Option.map_eq_none_iff, cutLast_eq_none_iff]

theorem cutAll_of_not_mem (sep : Char) (cs : List Char) (h : sep ∉ cs) : cutAll sep cs = [cs] := by
  induction cs with
  | nil => rfl
  | cons c cs ih =>
    have hc : ¬ c = sep := fun e => h (by simp [e])
    simp [cutAll, hc, ih fun e => h (by simp [e])]

theorem cutAll_append (sep : Char) (a b : List Char) (h : sep ∉ a) :
    cutAll sep (a ++ sep :: b) = a :: cutAll sep b := by
  induction a with
  | nil => simp [cutAll]
  | cons c cs ih =>
    have hc : ¬ c = sep := fun e => h (by simp [e])
    simp [cutAll, hc, ih fun e => h (by simp [e])]

/-- Pieces without the separator are found again between the separators. -/
theorem splitAll_join (sep : Char) (ps : List String) (hne : ps ≠ [])
    (h : ∀ p ∈ ps, sep ∉ p.toList) : splitAll sep (join (String.singleton sep) ps) = ps := by
  induction ps with
  | nil => exact absurd rfl hne
  | cons p ps ih =>
    cases ps with
    | nil => simp [splitAll, join, cutAll_of_not_mem sep _ (h p (by simp))]
    | cons q ps =>
      have ih' := ih (by simp) fun r hr => h r (by simp [hr])
      unfold splitAll at ih' ⊢
      have hlist : (join (String.singleton sep) (p :: q :: ps)).toList =
          p.toList ++ sep :: (join (String.singleton sep) (q :: ps)).toList := by
        simp [join]
      rw [hlist, cutAll_append sep _ _ (h p (by simp)), List.map_cons, ih', String.ofList_toList]

theorem not_mem_join {c : Char} {sep : String} {ps : List String} (hs : c ∉ sep.toList)
    (h : ∀ p ∈ ps, c ∉ p.toList) : c ∉ (join sep ps).toList := by
  induction ps with
  | nil => simp [join]
  | cons p ps ih =>
    cases ps with
    | nil => exact h p (by simp)
    | cons q ps =>
      have ih' := ih fun r hr => h r (by simp [hr])
      simp only [join, String.toList_append, List.mem_append, not_or]
      exact ⟨⟨h p (by simp), hs⟩, ih'⟩

end TreeInterchange.Text
