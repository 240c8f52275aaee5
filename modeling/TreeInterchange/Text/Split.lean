/-!
# Cutting texts at separators

Qualified names are cut at their last separator, references at their first, fragment paths
at every one. The cuts are functions on lists of characters with the text versions on top,
so that facts about them go by induction over the characters.
-/

namespace TreeInterchange.Text

/-- What stands before and after the first `sep`. -/
def cutFirst (sep : Char) : List Char → Option (List Char × List Char)
  | [] => none
  | c :: cs =>
    if c = sep then some ([], cs)
    else (cutFirst sep cs).map fun p => (c :: p.1, p.2)

/-- What stands before and after the last `sep`. -/
def cutLast (sep : Char) : List Char → Option (List Char × List Char)
  | [] => none
  | c :: cs =>
    match cutLast sep cs with
    | some p => some (c :: p.1, p.2)
    | none => if c = sep then some ([], cs) else none

/-- The pieces between all occurrences of `sep`; there is always at least one. -/
def cutAll (sep : Char) : List Char → List (List Char)
  | [] => [[]]
  | c :: cs =>
    if c = sep then [] :: cutAll sep cs
    else match cutAll sep cs with
      | piece :: pieces => (c :: piece) :: pieces
      | [] => [[c]]

/-- What follows `lead`, if the characters begin with it. -/
def dropLead : List Char → List Char → Option (List Char)
  | [], cs => some cs
  | _ :: _, [] => none
  | l :: ls, c :: cs => if l = c then dropLead ls cs else none

theorem cutFirst_eq_some {sep : Char} {cs a b : List Char} (h : cutFirst sep cs = some (a, b)) :
    cs = a ++ sep :: b ∧ sep ∉ a := by
  induction cs generalizing a with
  | nil => simp [cutFirst] at h
  | cons c cs ih =>
    by_cases hc : c = sep
    · simp only [cutFirst, hc, if_true, Option.some.injEq, Prod.mk.injEq] at h
      obtain ⟨rfl, rfl⟩ := h
      simp [hc]
    · simp only [cutFirst, hc, if_false, Option.map_eq_some_iff] at h
      obtain ⟨⟨a', b'⟩, h1, h2⟩ := h
      simp only [Prod.mk.injEq] at h2
      obtain ⟨rfl, rfl⟩ := h2
      obtain ⟨rfl, hn⟩ := ih h1
      refine ⟨rfl, fun hm => ?_⟩
      rcases List.mem_cons.1 hm with e | e
      · exact hc e.symm
      · exact hn e

theorem cutFirst_append (sep : Char) (a b : List Char) (h : sep ∉ a) :
    cutFirst sep (a ++ sep :: b) = some (a, b) := by
  induction a with
  | nil => simp [cutFirst]
  | cons c cs ih =>
    have hc : ¬ c = sep := fun e => h (by simp [e])
    simp [cutFirst, hc, ih (fun e => h (by simp [e]))]

theorem cutLast_eq_none (sep : Char) (cs : List Char) (h : sep ∉ cs) : cutLast sep cs = none := by
  induction cs with
  | nil => rfl
  | cons c cs ih =>
    have hc : ¬ c = sep := fun e => h (by simp [e])
    simp [cutLast, ih (fun e => h (by simp [e])), hc]

theorem cutLast_eq_none_iff {sep : Char} {cs : List Char} : cutLast sep cs = none ↔ sep ∉ cs := by
  refine ⟨fun h => ?_, cutLast_eq_none sep cs⟩
  induction cs with
  | nil => exact List.not_mem_nil
  | cons c cs ih =>
    unfold cutLast at h
    split at h
    · cases h
    · rename_i hrest
      split at h
      · cases h
      · rename_i hc
        intro hm
        rcases List.mem_cons.1 hm with e | hm
        · exact hc e.symm
        · exact ih hrest hm

theorem cutLast_eq_some {sep : Char} {cs a b : List Char} (h : cutLast sep cs = some (a, b)) :
    cs = a ++ sep :: b ∧ sep ∉ b := by
  induction cs generalizing a with
  | nil => cases h
  | cons c cs ih =>
    unfold cutLast at h
    split at h
    · rename_i p hp
      obtain ⟨rfl, rfl⟩ := Prod.mk.inj (Option.some.inj h)
      obtain ⟨hcs, hnot⟩ := ih hp
      exact ⟨congrArg (c :: ·) hcs, hnot⟩
    · rename_i hrest
      split at h
      · rename_i hc
        obtain ⟨rfl, rfl⟩ := Prod.mk.inj (Option.some.inj h)
        exact ⟨congrArg (· :: cs) hc, cutLast_eq_none_iff.1 hrest⟩
      · cases h

theorem cutLast_append (sep : Char) (a b : List Char) (h : sep ∉ b) :
    cutLast sep (a ++ sep :: b) = some (a, b) := by
  induction a with
  | nil => simp [cutLast, cutLast_eq_none sep b h]
  | cons c cs ih => simp [cutLast, ih]

def splitFirst (sep : Char) (s : String) : Option (String × String) :=
  (cutFirst sep s.toList).map fun p => (String.ofList p.1, String.ofList p.2)

def splitLast (sep : Char) (s : String) : Option (String × String) :=
  (cutLast sep s.toList).map fun p => (String.ofList p.1, String.ofList p.2)

def splitAll (sep : Char) (s : String) : List String :=
  (cutAll sep s.toList).map String.ofList

def strip? (lead s : String) : Option String :=
  (dropLead lead.toList s.toList).map String.ofList

def endsWith (tail s : String) : Bool := tail.toList.isSuffixOf s.toList

def join (sep : String) : List String → String
  | [] => ""
  | [s] => s
  | s :: t :: rest => s ++ sep ++ join sep (t :: rest)

end TreeInterchange.Text
