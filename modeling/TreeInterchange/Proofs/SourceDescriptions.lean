import TreeInterchange.Proofs.NodeTrees
import TreeInterchange.Transformer

/-!
# What becomes of a source tree

A transformer whose factories depend on the source element alone, and whose rules look only
below it, amounts to a function from source trees to trees of nodes and issues. It knows of no
forest: a factory that fails leaves a leaf with the message, and otherwise the node is filled
with what becomes of the selected elements, slot by slot.
-/

namespace TreeInterchange

namespace SourceTree

def descendants (s : SourceTree) : List SourceTree := walkAll s.children

mutual

theorem height_le_of_mem_walk : ∀ {t c : SourceTree}, c ∈ t.walk → c.height ≤ t.height
  | .mk i cs, c, h => by
    rw [walk] at h
    rcases List.mem_cons.1 h with rfl | h
    · exact Nat.le_refl _
    · rw [height]
      exact Nat.le_succ_of_le (height_le_of_mem_walkAll h)

theorem height_le_of_mem_walkAll :
    ∀ {ts : List SourceTree} {c : SourceTree}, c ∈ walkAll ts → c.height ≤ heightOfAll ts
  | [], c, h => by simp [walkAll] at h
  | t :: ts, c, h => by
    rw [walkAll] at h
    rw [heightOfAll]
    rcases List.mem_append.1 h with h | h
    · exact Nat.le_trans (height_le_of_mem_walk h) (Nat.le_max_left _ _)
    · exact Nat.le_trans (height_le_of_mem_walkAll h) (Nat.le_max_right _ _)

end

theorem height_lt_of_mem_descendants {s c : SourceTree} (h : c ∈ s.descendants) :
    c.height < s.height := by
  cases s with
  | mk i cs => exact Nat.lt_succ_of_le (height_le_of_mem_walkAll h)

theorem mem_walkAll_of_mem {ts : List SourceTree} {c : SourceTree} (h : c ∈ ts) :
    c ∈ walkAll ts := by
  induction ts with
  | nil => cases h
  | cons t ts ih =>
    rw [walkAll]
    rcases List.mem_cons.1 h with rfl | h
    · cases c
      rw [walk]
      simp
    · exact List.mem_append.2 (.inr (ih h))

theorem mem_children_of_mem_field {s c : SourceTree} {name : String}
    (h : c ∈ (s.field name).toList) : c ∈ s.children := by
  have hsub : ∀ cs, s.children.filter (fieldMatches ·.kind name) = cs → cs ⊆ s.children := by
    rintro cs rfl d hd
    exact List.mem_of_mem_filter hd
  unfold field at h
  split at h
  · exact h
  · split at h
    · cases h
    · exact hsub _ ‹_› h
    · exact hsub _ rfl h

end SourceTree

namespace Transformer

variable {t : Transformer}

/-- What the factories of a transformer do, said of the source element alone: a factory fails, and
has perhaps made nodes that nobody gets to see, or it makes one node without children. Rules have
no setters and select what is below. -/
structure Blueprint (t : Transformer) where
  outcome : SourceTree → Except FactoryError Node
  made : ∀ {s factory n}, t.factories.get? s.kind = some factory → outcome s = .ok n →
    ∀ parent f, factory.build ⟨s, parent, factory.type⟩ f = .ok f.size ⟨f.nodes.push n⟩
  failed : ∀ {s factory e}, t.factories.get? s.kind = some factory → outcome s = .error e →
    ∀ parent f, ∃ extra, factory.build ⟨s, parent, factory.type⟩ f = .error e ⟨f.nodes ++ extra⟩
  childless : ∀ {s n}, outcome s = .ok n → n.children = [] ∧ n.holder = none
  setterless : ∀ {kind}, ∀ rule ∈ t.rulesFor kind, rule.setter = none
  below : ∀ {kind}, ∀ rule ∈ t.rulesFor kind, ∀ s, ∀ c ∈ (rule.select s).toList,
    c ∈ s.descendants

/-- Rules have no setters and select what is below the element. -/
structure SelectsBelow (t : Transformer) : Prop where
  setterless : ∀ {kind}, ∀ rule ∈ t.rulesFor kind, rule.setter = none
  below : ∀ {kind}, ∀ rule ∈ t.rulesFor kind, ∀ s, ∀ c ∈ (rule.select s).toList,
    c ∈ s.descendants

theorem Blueprint.selectsBelow (b : t.Blueprint) : t.SelectsBelow := ⟨b.setterless, b.below⟩

def noted (t : Transformer) (message : String) (position : Option Position) : List Issue :=
  if t.options.recordIssues then [⟨.transformation, .error, message, position⟩] else []

/-- The properties to fill, in order, each with the elements that are selected for it: first the
child properties without a rule, from the field of the same name where it holds something, and
then those with a rule. -/
def fills (t : Transformer) (s : SourceTree) (type : NodeType) : List (String × List SourceTree) :=
  let rules := t.rulesFor s.kind
  let named := type.childProperties.filterMap fun p =>
    if rules.any (·.property = p.name) || (s.field p.source).isNone then none
    else some (p.name, (s.field p.source).toList)
  (if t.options.defaultMapping then named else []) ++
    rules.map fun r => (r.property, (r.select s).toList)

theorem SelectsBelow.mem_descendants (h : t.SelectsBelow) {s c : SourceTree} {type : NodeType}
    {e : String × List SourceTree} (he : e ∈ t.fills s type) (hc : c ∈ e.2) :
    c ∈ s.descendants := by
  rcases List.mem_append.1 he with he | he
  · split at he
    · obtain ⟨p, -, hp⟩ := List.mem_filterMap.1 he
      split at hp
      · cases hp
      · cases hp
        exact SourceTree.mem_walkAll_of_mem (SourceTree.mem_children_of_mem_field hc)
    · cases he
  · obtain ⟨r, hr, rfl⟩ := List.mem_map.1 he
    exact h.below r hr s c hc

theorem fills_below (b : t.Blueprint) {s c : SourceTree} {type : NodeType}
    {e : String × List SourceTree} (he : e ∈ t.fills s type) (hc : c ∈ e.2) :
    c.height < s.height :=
  SourceTree.height_lt_of_mem_descendants (b.selectsBelow.mem_descendants he hc)

end Transformer

/-- Puts trees into a property: all of them into a collection, and the first into a single slot,
which no trees leave as it is. -/
def NodeTree.attach (u : NodeTree) (name : String) (cs : List NodeTree) :
    Except ModelError NodeTree :=
  match u.type.property? name with
  | none => .error (.unknownProperty u.type.name name)
  | some p =>
    if p.multiple then
      if p.kind = .child then .ok (u.put name (.children cs))
      else .error (.wrongKind u.type.name p.name .childCollection)
    else match cs with
      | [] => .ok u
      | c :: _ =>
        if p.kind = .child then .ok (u.put name (.child c))
        else .error (.wrongKind u.type.name p.name .singleChild)

/-- The position of a tree: its own, or else the one that its origin leads to, where `look` tells
the positions of nodes that are not part of it. -/
def NodeTree.place (look : NodeId → Option Position) (u : NodeTree) : Option Position :=
  match u.position, u.origin with
  | some p, _ => some p
  | none, some (.position p) => some p
  | none, some (.parseTree o) => o.position
  | none, some (.node k) => look k
  | none, none => none

namespace Transformer

variable {t : Transformer}

/-- The tree with the origin that the policy asks for. -/
def originated (t : Transformer) (s : SourceTree) (u : NodeTree) : NodeTree :=
  if t.keepsOrigin u.origin then u
  else match t.originOf s with
    | some o => u.withOrigin (some o)
    | none => u

/-- The node that takes the place of one that could not be made. -/
def errorLeaf (t : Transformer) (e : FactoryError) : NodeTree :=
  let u := NodeTree.leaf (.ofType t.genericError)
  if (t.genericError.property? "message").any (·.kind = .value) then
    u.put "message" (.plain (.string e.render))
  else u

/-- Fills one property of a tree with what became of the selected elements. A refusal is an issue
and leaves the tree as it is. -/
def fill (t : Transformer) (look : NodeId → Option Position) (u : NodeTree × List Issue)
    (e : String × List (NodeTree × List Issue)) : NodeTree × List Issue :=
  let issues := u.2 ++ e.2.flatMap (·.2)
  match u.1.attach e.1 (e.2.map (·.1)) with
  | .ok v => (v, issues)
  | .error err => (u.1, issues ++ t.noted err.message (u.1.place look))

namespace Blueprint

variable (b : t.Blueprint) (look : NodeId → Option Position)

/-- The node that is made for an element before its properties are filled. -/
def draft (s : SourceTree) : Except FactoryError Node :=
  match t.factories.get? s.kind with
  | some _ => b.outcome s
  | none => .ok (.ofType (if s.info.isRule && t.options.genericRules then t.genericRule
      else t.generic))

/-- What becomes of a source tree, and the issues that this raises. -/
def describe (b : t.Blueprint) (look : NodeId → Option Position) (s : SourceTree) :
    NodeTree × List Issue :=
  match b.draft s with
  | .error e => (t.originated s (t.errorLeaf e), t.noted e.render s.info.position)
  | .ok n =>
    let made := (t.fills s n.type).attach.map fun ⟨e, he⟩ =>
      (e.1, e.2.attach.map fun ⟨c, hc⟩ =>
        have : c.height < s.height := fills_below b he hc
        describe b look c)
    let filled := made.foldl (t.fill look) (.leaf n, [])
    (t.originated s filled.1, filled.2)
termination_by s.height

/-- The description as an equation of its own, which fills each property with the descriptions of
what is selected for it. -/
theorem describe_eq (s : SourceTree) : b.describe look s =
    match b.draft s with
    | .error e => (t.originated s (t.errorLeaf e), t.noted e.render s.info.position)
    | .ok n =>
      let filled := ((t.fills s n.type).map fun e => (e.1, e.2.map (b.describe look))).foldl
        (t.fill look) (.leaf n, [])
      (t.originated s filled.1, filled.2) := by
  rw [describe]
  cases b.draft s with
  | error e => rfl
  | ok n =>
    have hmap : ((t.fills s n.type).attach.map fun e =>
        (e.1.1, e.1.2.attach.map fun c => b.describe look c.1)) =
          (t.fills s n.type).map fun e => (e.1, e.2.map (b.describe look)) := by
      simp only [List.attach_map_val]
      exact List.attach_map_val (l := t.fills s n.type)
        (f := fun e => (e.1, e.2.map (b.describe look)))
    simp only [← hmap]

end Blueprint

end Transformer

end TreeInterchange
