import TreeInterchange.Proofs.RenderedTrees

/-!
# Enumeration literals as they are written

An object holds a literal as an ordinal of the enumeration that types the feature. A literal that
the enumeration has is written as a place where it stands, whatever ordinal the value came with.
A literal that it does not have is written with the ordinal of the value, if the enumeration has
any literal there, and is then read as that other literal; only where there is none is the
conversion refused.
-/

namespace TreeInterchange

/-- The enumeration that types a feature of a class. -/
def Metamodel.enumTyping? (m : Metamodel) (c : ClassifierRef) (name : String) : Option EnumDecl :=
  match m.feature? c name with
  | .ok (some g) =>
    match g.type with
    | .ofEnum e => m.enum? e
    | _ => none
  | _ => none

/-- The ordinal `k` is written for the value `e`. There is a literal at it, and this is that of the
value exactly if the enumeration has it, as far as ordinals reach. Otherwise the value keeps the
ordinal it came with. -/
structure EnumDecl.Writes (d : EnumDecl) (e : EnumValue) (k : UInt32) : Prop where
  present : ∃ l, d.literal? k = some l
  kept : d.literal? k = some e.literal ↔ e.literal ∈ d.literals.take UInt32.size
  fallback : e.literal ∉ d.literals → k = e.ordinal

namespace ToObjects

open StatefulRuns

theorem mem_of_literal? {d : EnumDecl} {k : UInt32} {l : String} (h : d.literal? k = some l) :
    l ∈ d.literals :=
  List.mem_of_getElem? h

theorem literal?_first {d : EnumDecl} {l : String} {i : Nat}
    (hi : d.literals.findIdx? (· = l) = some i) :
    d.literal? (UInt32.ofNat i) = some l ↔ l ∈ d.literals.take UInt32.size := by
  obtain ⟨hlt, hat, hbefore⟩ := List.findIdx?_eq_some_iff_getElem.1 hi
  have hl : d.literals[i] = l := of_decide_eq_true hat
  have hne : ∀ j (hj : j < i), d.literals[j] ≠ l := fun j hj => by simpa using hbefore j hj
  have hplace : (UInt32.ofNat i).toNat = i % UInt32.size := UInt32.toNat_ofNat'
  by_cases hsize : i < UInt32.size
  · rw [EnumDecl.literal?, hplace, Nat.mod_eq_of_lt hsize, List.mem_take_iff_getElem]
    exact iff_of_true (by rw [List.getElem?_eq_getElem hlt, hl])
      ⟨i, Nat.lt_min.2 ⟨hsize, hlt⟩, hl⟩
  · -- every place that an ordinal reaches comes before the first one of the literal
    have hcut : i % UInt32.size < i :=
      Nat.lt_of_lt_of_le (Nat.mod_lt i (by decide)) (Nat.le_of_not_lt hsize)
    refine iff_of_false ?_ ?_
    · rw [EnumDecl.literal?, hplace, List.getElem?_eq_getElem (Nat.lt_trans hcut hlt),
        Option.some.injEq]
      exact hne _ hcut
    · rw [List.mem_take_iff_getElem]
      rintro ⟨j, hj, hjl⟩
      exact hne j (Nat.lt_of_lt_of_le (Nat.lt_min.1 hj).1 (Nat.le_of_not_lt hsize)) hjl

theorem findIdx?_literal_eq_none {d : EnumDecl} {l : String} :
    d.literals.findIdx? (· = l) = none ↔ l ∉ d.literals := by
  rw [List.findIdx?_eq_none_iff]
  constructor
  · intro h hl
    simpa using h l hl
  · intro h l' hl'
    simpa using fun he : l' = l => h (he ▸ hl')

theorem writes_of_enumValue {m : Metamodel} {c : ClassifierRef} {e : EnumValue} {w : FeatureValue}
    (h : enumValue m c e = .ok w) :
    ∃ d k, m.enum? c = some d ∧ w = .enumeration k ∧ d.Writes e k := by
  unfold enumValue at h
  cases hd : m.enum? c with
  | none => simp [hd] at h
  | some d =>
    simp only [hd, Option.bind_some] at h
    split at h
    · rename_i hpresent
      cases h
      refine ⟨d, _, rfl, rfl, Option.isSome_iff_exists.1 hpresent, ?_, fun hnot => ?_⟩
      · cases hi : d.literals.findIdx? (· = e.literal) with
        | some i => simpa [EnumDecl.ordinal?, hi] using literal?_first hi
        | none =>
          have hnot := findIdx?_literal_eq_none.1 hi
          exact iff_of_false (fun hl => hnot (mem_of_literal? hl))
            fun hl => hnot (List.mem_of_mem_take hl)
      · simp [EnumDecl.ordinal?, findIdx?_literal_eq_none.2 hnot]
    · cases h

theorem writes_of_plainValue {m : Metamodel} {c : ClassifierRef} {g : Feature} {e : EnumValue}
    {w : FeatureValue} {name : String} (hg : m.feature? c name = .ok (some g))
    (h : plainValue m c g (.enumeration e) = .ok w) :
    ∃ d k, m.enumTyping? c name = some d ∧ w = .enumeration k ∧ d.Writes e k := by
  cases ht : g.type with
  | ofEnum x =>
    simp only [plainValue, ht] at h
    obtain ⟨d, k, hd, hw, hwrites⟩ := writes_of_enumValue h
    refine ⟨d, k, ?_, hw, hwrites⟩
    simp only [Metamodel.enumTyping?, hg, ht, hd]
  | ofClass x => simp [plainValue, ht] at h
  | ofData x s => simp [plainValue, ht] at h

end ToObjects

namespace Forest

open ToObjects StatefulRuns

/-- After a conversion that succeeds, an object stands for each node of the tree, and each literal
in a slot of the node, by itself or in a list, is written there. -/
theorem toObjects_writes_literals {f : Forest} {n : NodeId} {m : Metamodel}
    {options : ConversionOptions} {s t : ObjectStore} {root : ObjectId}
    (h : f.toObjects n m options s = (.ok root, t)) :
    (∀ y ∈ f.walk n, ∃ o, StandsFor f t n root y o) ∧
    ∀ y o, StandsFor f t n root y o →
      classOf m (f.get y).type.name = .ok (t.get o).type ∧
      (∀ name e, f.slot? y name = some (.enumeration e) →
        ∃ d k, m.enumTyping? (t.get o).type name = some d ∧
          t.value? o name = some (.enumeration k) ∧ d.Writes e k) ∧
      ∀ name items, f.slot? y name = some (.list items) →
        ∃ ws, t.value? o name = some (.list ws) ∧ ws.length = items.length ∧
          ∀ (i : Nat) e, items[i]? = some (.enumeration e) →
            ∃ d k, m.enumTyping? (t.get o).type name = some d ∧
              ws[i]? = some (.enumeration k) ∧ d.Writes e k := by
  have hroot := stands_toObjects h
  refine ⟨fun y hy => ?_, fun y o hy => ?_⟩
  · rw [walk_eq_listing] at hy
    exact hroot.exists_standsFor .root hy
  obtain ⟨k, hk⟩ := hroot.of_standsFor hy
  refine ⟨hk.classOf, fun name e he => ?_, fun name items hitems => ?_⟩
  · obtain ⟨_, g, w, hg, hw, hshows⟩ := hk.slot he rfl rfl
    obtain ⟨d, k, hd, rfl, hwrites⟩ := writes_of_plainValue hg hshows
    exact ⟨d, k, hd, hw, hwrites⟩
  · obtain ⟨_, g, w, hg, hw, ws, rfl, hws⟩ := hk.slot hitems rfl rfl
    have hall := forall₂_of_mapM_ok hws
    refine ⟨ws, hw, hall.length_eq.symm, fun i e he => ?_⟩
    obtain ⟨hi, -⟩ := List.getElem?_eq_some_iff.1 he
    have hwi : ws[i]? = some (ws.get ⟨i, hall.length_eq ▸ hi⟩) := List.getElem?_eq_getElem _
    obtain ⟨d, k, hd, hk, hwrites⟩ := writes_of_plainValue hg (of_forall₂_getElem? hall he hwi)
    exact ⟨d, k, hd, hk ▸ hwi, hwrites⟩

/-- Pages of dots, with red and green for colors. -/
def dotModel : Metamodel :=
  Metamodel.empty.add ((Package.ofName "marks" "urn:marks").addAll [
    .enumDecl ⟨"Color", ["red", "green"]⟩,
    .classDecl ⟨"Dot", false, false, [],
      [.single "color" .plain (.ofEnum ⟨"urn:marks", "Color"⟩),
        (Feature.single "tints" .plain (.ofEnum ⟨"urn:marks", "Color"⟩)).many]⟩,
    .classDecl ⟨"Page", false, false, [],
      [(Feature.single "dots" .containment (.ofClass ⟨"urn:marks", "Dot"⟩)).many]⟩])

def dotType : NodeType :=
  ((NodeType.ofName ⟨"marks", "Dot"⟩).withProperty
    ⟨"color", .value, .enumeration ⟨"marks", "Color"⟩, false, none⟩).withProperty
      ⟨"tints", .value, .enumeration ⟨"marks", "Color"⟩, true, none⟩

def pageType : NodeType :=
  (NodeType.ofName ⟨"marks", "Page"⟩).withProperty
    ⟨"dots", .child, .node ⟨"marks", "Dot"⟩, true, none⟩

def formerColor (literal : String) (ordinal : UInt32) : Value :=
  .enumeration ⟨⟨"marks", "Color"⟩, literal, ordinal⟩

/-- A page with a green dot and a blue one, the latter with tints of both. -/
def dottedRun : List Operation :=
  [.newNode pageType, .newNode dotType, .newNode dotType, .setChildren 0 "dots" [1, 2],
    .setValue 1 "color" (formerColor "green" 0), .setValue 2 "color" (formerColor "blue" 0),
    .setValue 2 "tints" (.list [formerColor "green" 0, formerColor "blue" 1])]

def dotted : Forest := dottedRun.foldl (fun f op => op.edit.stateAfter f) Forest.empty

def dottedObjects : ObjectStore := (dotted.toObjects 0 dotModel .default .empty).2

theorem toObjects_dotted : dotted.toObjects 0 dotModel .default .empty = (.ok 0, dottedObjects) :=
  rfl

theorem standsFor_dotted : StandsFor dotted dottedObjects 0 0 1 1 ∧
    StandsFor dotted dottedObjects 0 0 2 2 := by
  have hslot : dotted.slot? 0 "dots" = some (.nodes [1, 2]) := rfl
  have hvalue : dottedObjects.value? 0 "dots" = some (.containedMany [1, 2]) := rfl
  exact ⟨.item (i := 0) .root hslot hvalue rfl rfl, .item (i := 1) .root hslot hvalue rfl rfl⟩

theorem toObjects_writes_literals_dotted :
    dotted.toObjects 0 dotModel .default .empty = (.ok 0, dottedObjects) ∧
    (∀ y ∈ dotted.walk 0, ∃ o, StandsFor dotted dottedObjects 0 0 y o) ∧
    (∃ d k, dotModel.enumTyping? (dottedObjects.get 1).type "color" = some d ∧
      dottedObjects.value? 1 "color" = some (.enumeration k) ∧
      d.Writes ⟨⟨"marks", "Color"⟩, "green", 0⟩ k) ∧
    ∃ ws, dottedObjects.value? 2 "tints" = some (.list ws) ∧ ws.length = 2 ∧
      ∃ d k, dotModel.enumTyping? (dottedObjects.get 2).type "tints" = some d ∧
        ws[1]? = some (.enumeration k) ∧ d.Writes ⟨⟨"marks", "Color"⟩, "blue", 1⟩ k := by
  obtain ⟨hall, hwritten⟩ := toObjects_writes_literals toObjects_dotted
  obtain ⟨hgreen, hblue⟩ := standsFor_dotted
  obtain ⟨ws, hws, hlength, hitems⟩ := (hwritten 2 2 hblue).2.2 "tints" _ rfl
  exact ⟨toObjects_dotted, hall, (hwritten 1 1 hgreen).2.1 "color" _ rfl, ws, hws, hlength,
    hitems 1 _ rfl⟩

theorem reachable_dotted : dotted.Reachable :=
  Reachable.empty.after dottedRun (by decide) (by decide)

/-- The blue dot becomes a red one: the ordinal that its color came with is that of red now. -/
theorem dotted_blue_becomes_red : dotted.Reachable ∧
    dotted.toObjects 0 dotModel .default .empty = (.ok 0, dottedObjects) ∧
    2 ∈ dotted.walk 0 ∧ StandsFor dotted dottedObjects 0 0 2 2 ∧
    dotted.slot? 2 "color" = some (.enumeration ⟨⟨"marks", "Color"⟩, "blue", 0⟩) ∧
    dotModel.enumTyping? (dottedObjects.get 2).type "color" = some ⟨"Color", ["red", "green"]⟩ ∧
    dottedObjects.value? 2 "color" = some (.enumeration 0) ∧
    EnumDecl.literal? ⟨"Color", ["red", "green"]⟩ 0 = some "red" :=
  ⟨reachable_dotted, toObjects_dotted, by decide, standsFor_dotted.2, rfl, rfl, rfl, rfl⟩

end Forest

end TreeInterchange
