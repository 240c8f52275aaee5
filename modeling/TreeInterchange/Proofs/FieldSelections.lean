import TreeInterchange.Proofs.ForestRuns
import TreeInterchange.Transformer

/-!
# Which children fields select

A field selects the children whose kind has the key of its name, where a key knows neither case
nor underscores. A type is tested for two child properties that name the same field letter by
letter. So two properties of a valid type never share a child if their fields have different keys,
and share all of them if the names differ in case and underscores alone.
-/

namespace TreeInterchange

/-- No valid type fills two child properties from fields that are spelled alike. -/
theorem NodeType.validateAfter_sources {type : QualifiedName} {earlier ps : List Property}
    (hn : ((earlier.filter (·.isChild)).map (·.source)).Nodup)
    (h : validateAfter type earlier ps = .ok ()) :
    (((earlier ++ ps).filter (·.isChild)).map (·.source)).Nodup := by
  induction ps generalizing earlier with
  | nil => simpa using hn
  | cons p ps ih =>
    unfold validateAfter at h
    split at h
    · cases h
    split at h
    · cases h
    rename_i hnew
    rw [← List.singleton_append, ← List.append_assoc]
    refine ih ?_ h
    rw [List.filter_append, List.map_append, List.nodup_append]
    refine ⟨hn, (List.nodup_singleton p).sublist List.filter_sublist |>.map_on ?_, ?_⟩
    · simp
    · rintro a ha b hb rfl
      obtain ⟨q, hq, rfl⟩ := List.mem_map.1 ha
      obtain ⟨r, hr, hsource⟩ := List.mem_map.1 hb
      obtain ⟨hr, hchild⟩ := List.mem_filter.1 hr
      obtain rfl := List.mem_singleton.1 hr
      obtain ⟨hq, hqchild⟩ := List.mem_filter.1 hq
      apply hnew
      rw [hchild, Bool.true_and, List.any_eq_true]
      exact ⟨q, hq, by simp [hqchild, hsource]⟩

theorem NodeType.sources_nodup_of_validate {t : NodeType} (h : t.validate = .ok ()) :
    (t.childProperties.map (·.source)).Nodup := by
  simpa [childProperties] using validateAfter_sources (by simp) h

namespace SourceTree

variable {s : SourceTree} {name other : String}

theorem toList_field (s : SourceTree) (h : fieldMatches "children" name = false) :
    (s.field name).toList = s.children.filter (fieldMatches ·.kind name) := by
  unfold field
  rw [h]
  generalize s.children.filter (fieldMatches ·.kind name) = cs
  match cs with
  | [] => rfl
  | [c] => rfl
  | c :: d :: cs => rfl

theorem mem_field_iff {c : SourceTree} (h : fieldMatches "children" name = false) :
    c ∈ (s.field name).toList ↔ c ∈ s.children ∧ fieldKey c.kind = fieldKey name := by
  rw [toList_field s h, List.mem_filter, fieldMatches, beq_iff_eq]

theorem isNone_field_iff (h : fieldMatches "children" name = false) :
    (s.field name).isNone = true ↔ (s.field name).toList = [] := by
  unfold field
  rw [h]
  generalize s.children.filter (fieldMatches ·.kind name) = cs
  match cs with
  | [] => simp [Selection.isNone, Selection.toList]
  | [c] => simp [Selection.isNone, Selection.toList]
  | c :: d :: cs => simp [Selection.isNone, Selection.toList]

theorem field_eq_of_fieldKey (s : SourceTree) (h : fieldKey name = fieldKey other) :
    s.field name = s.field other := by
  have hmatch : ∀ kind, fieldMatches kind name = fieldMatches kind other := fun kind => by
    rw [fieldMatches, fieldMatches, h]
  unfold field
  simp only [hmatch]

theorem disjoint_fields_iff (s : SourceTree) (hname : fieldMatches "children" name = false)
    (hother : fieldMatches "children" other = false) :
    List.Disjoint (s.field name).toList (s.field other).toList ↔
      fieldKey name ≠ fieldKey other ∨ (s.field name).isNone = true := by
  by_cases hkey : fieldKey name = fieldKey other
  · rw [isNone_field_iff hname, ← field_eq_of_fieldKey s hkey]
    refine ⟨fun h => .inr (List.eq_nil_iff_forall_not_mem.2 fun c hc => h hc hc), ?_⟩
    rintro (hne | hnil)
    · exact absurd hkey hne
    · rw [hnil]
      exact List.disjoint_nil_left _
  · refine iff_of_true (fun c hc hc' => hkey ?_) (.inl hkey)
    rw [← ((mem_field_iff hname).1 hc).2, ((mem_field_iff hother).1 hc').2]

end SourceTree

/-- Two child properties of a valid type name different fields. They share no child of any element
exactly if the keys of the fields differ as well, or if there is nothing to share; where the keys
agree, each is filled with all that the other is filled with. -/
theorem NodeType.disjoint_fields_iff_keys {t : NodeType} (ht : t.validate = .ok ()) {p q : Property}
    (hp : p ∈ t.childProperties) (hq : q ∈ t.childProperties) (hpq : p ≠ q)
    (hpc : fieldMatches "children" p.source = false)
    (hqc : fieldMatches "children" q.source = false) :
    p.source ≠ q.source ∧
    (∀ s : SourceTree, List.Disjoint (s.field p.source).toList (s.field q.source).toList ↔
      fieldKey p.source ≠ fieldKey q.source ∨ (s.field p.source).isNone = true) ∧
    (fieldKey p.source = fieldKey q.source → ∀ s : SourceTree,
      s.field p.source = s.field q.source) := by
  refine ⟨fun h => hpq ?_, fun s => s.disjoint_fields_iff hpc hqc,
    fun h s => s.field_eq_of_fieldKey h⟩
  exact List.inj_on_of_nodup_map (sources_nodup_of_validate ht) hp hq h

/-- A type whose child properties are filled from the fields `item`, `Item` and `head`. -/
def pairType : NodeType :=
  { NodeType.ofName ⟨"sample", "Pair"⟩ with
    properties := [⟨"item", .child, .any, false, none⟩, ⟨"Item", .child, .any, false, none⟩,
      ⟨"front", .child, .any, true, some "head"⟩] }

/-- A pair around a head and a single item. -/
def pairSource : SourceTree :=
  let element := fun kind =>
    ({ kind, isRule := true, position := none, text := none, hasError := false
       origin := none } : SourceInfo)
  .mk (element "pair") [.mk (element "HEAD") [], .mk (element "item") []]

/-- The item is in the field `item` only, as far as `head` is concerned. -/
theorem disjoint_fields_pair : pairType.validate = .ok () ∧
    List.Disjoint (pairSource.field "item").toList (pairSource.field "head").toList ∧
    (pairSource.field "item").toList.length = 1 ∧ (pairSource.field "head").toList.length = 1 := by
  have hne : fieldKey "item" ≠ fieldKey "head" := by decide +kernel
  have hkeys := NodeType.disjoint_fields_iff_keys (t := pairType) (by decide)
    (p := ⟨"item", .child, .any, false, none⟩) (q := ⟨"front", .child, .any, true, some "head"⟩)
    (by decide) (by decide) (by decide) (by decide +kernel) (by decide +kernel)
  exact ⟨by decide, (hkeys.2.1 pairSource).2 (.inl hne), by decide +kernel, by decide +kernel⟩

def pairTransformer : Transformer where
  factories := .ofList [("pair", Factory.ofType pairType)]
  options := .default
  policy := .parseTree
  generic := TypeCatalog.genericType
  genericError := TypeCatalog.genericErrorType
  genericRule := TypeCatalog.genericRuleType

/-- The type of pairs is valid, yet the one item is selected for both `item` and `Item`, and two
nodes are made of it. -/
theorem item_selected_twice : pairType.validate = .ok () ∧
    ⟨"item", .child, .any, false, none⟩ ∈ pairType.childProperties ∧
    ⟨"Item", .child, .any, false, none⟩ ∈ pairType.childProperties ∧
    fieldMatches "children" "item" = false ∧ fieldMatches "children" "Item" = false ∧
    ¬ List.Disjoint (pairSource.field "item").toList (pairSource.field "Item").toList ∧
    (pairTransformer.transform (some pairSource) .empty).2.childrenIn 0 "item" = [1] ∧
    (pairTransformer.transform (some pairSource) .empty).2.childrenIn 0 "Item" = [2] ∧
    pairSource.children.length = 2 ∧
    (pairTransformer.transform (some pairSource) .empty).2.size = 4 := by
  have hitem : fieldMatches "children" "item" = false := by decide +kernel
  have hItem : fieldMatches "children" "Item" = false := by decide +kernel
  refine ⟨by decide, by decide, by decide, hitem, hItem, ?_, by decide +kernel, by decide +kernel,
    rfl, by decide +kernel⟩
  rw [SourceTree.disjoint_fields_iff pairSource hitem hItem]
  decide +kernel

end TreeInterchange
