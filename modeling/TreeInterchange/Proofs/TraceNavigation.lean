import TreeInterchange.Proofs.DocumentRuns
import TreeInterchange.Trace.Loading
import TreeInterchange.Trace.View

/-!
# Navigation in traces

The calls of a view lead to children, to the parent, to the linked node of the other tree and to
the node at a position. In a trace that was loaded none of them leaves the two trees, a child
leads back to the node it was asked from, and no link is a dead end: the linked node is linked
in its turn.

The links come from three places, and each may displace what another said. What they keep is that
a link ends in the tree of its side, at an object that has a link of its own.
-/

namespace TreeInterchange

/-- A table has got an entry, which may displace another or give way to it. -/
structure Table.Gains (t t' : Table ObjectId ObjectId) (k a : ObjectId) : Prop where
  entry : ∀ x y, t'.get? x = some y → t.get? x = some y ∨ x = k ∧ y = a
  present : ∀ x, (t.get? x).isSome ∨ x = k → (t'.get? x).isSome

theorem Table.gains_insert (t : Table ObjectId ObjectId) (k a : ObjectId) :
    t.Gains (t.insert k a) k a := by
  constructor
  · intro x y h
    rw [get?_insert] at h
    grind
  · intro x h
    rw [get?_insert]
    grind

theorem Table.gains_insertIfNew (t : Table ObjectId ObjectId) (k a : ObjectId) :
    t.Gains (t.insertIfNew k a) k a := by
  constructor
  · intro x y h
    rw [get?_insertIfNew] at h
    cases hx : t.get? x <;> grind
  · intro x h
    rw [get?_insertIfNew]
    grind

namespace TraceLinks

variable {l l' : TraceLinks} {sources targets : List ObjectId} {source target : ObjectId}

/-- Links end in the two trees, at objects that have links of their own. -/
structure Joins (l : TraceLinks) (sources targets : List ObjectId) : Prop where
  destinations : ∀ x y, l.destinations.get? x = some y →
    y ∈ targets ∧ (l.sources.get? y).isSome
  sources : ∀ y x, l.sources.get? y = some x →
    x ∈ sources ∧ (l.destinations.get? x).isSome

theorem joins_empty (sources targets : List ObjectId) : empty.Joins sources targets :=
  ⟨fun _ _ h => (by cases h), fun _ _ h => (by cases h)⟩

/-- However the two entries of a link meet those that are there, the links stay joined. -/
theorem Joins.add (h : l.Joins sources targets) (hs : source ∈ sources) (ht : target ∈ targets)
    (hto : l.destinations.Gains l'.destinations source target)
    (hfrom : l.sources.Gains l'.sources target source) : l'.Joins sources targets := by
  constructor
  · intro x y hxy
    rcases hto.entry x y hxy with hold | ⟨-, rfl⟩
    · obtain ⟨hy, hback⟩ := h.destinations x y hold
      exact ⟨hy, hfrom.present y (.inl hback)⟩
    · exact ⟨ht, hfrom.present y (.inr rfl)⟩
  · intro y x hyx
    rcases hfrom.entry y x hyx with hold | ⟨-, rfl⟩
    · obtain ⟨hx, hback⟩ := h.sources y x hold
      exact ⟨hx, hto.present x (.inl hback)⟩
    · exact ⟨hs, hto.present x (.inr rfl)⟩

theorem Joins.addDestination (h : l.Joins sources targets) (hs : source ∈ sources)
    (ht : target ∈ targets) : (l.addDestination source target).Joins sources targets :=
  h.add hs ht (Table.gains_insert _ _ _) (Table.gains_insertIfNew _ _ _)

theorem Joins.addSource (h : l.Joins sources targets) (hs : source ∈ sources)
    (ht : target ∈ targets) : (l.addSource source target).Joins sources targets :=
  h.add hs ht (Table.gains_insertIfNew _ _ _) (Table.gains_insert _ _ _)

theorem Joins.addLink (h : l.Joins sources targets) (hs : source ∈ sources)
    (ht : target ∈ targets) : (l.addLink source target).Joins sources targets :=
  h.add hs ht (Table.gains_insert _ _ _) (Table.gains_insert _ _ _)

end TraceLinks

namespace Trace

open StatefulRuns

variable {s : ObjectStore} {sourceRoot targetRoot : ObjectId}

theorem mem_tree_of_referenceInto? (h : s.Layered) {root id x : ObjectId} {feature : String}
    (hr : root < s.size) (hx : referenceInto? s root id feature = some x) : x ∈ s.tree root := by
  unfold referenceInto? at hx
  split at hx
  · split at hx
    · rename_i hwithin
      obtain rfl := Option.some.inj hx
      exact (h.isWithin_iff_mem_tree hr).1 hwithin
    · cases hx
  · cases hx

theorem joins_referenceLinks (h : s.Layered) (hs : sourceRoot < s.size) (ht : targetRoot < s.size) :
    (referenceLinks s sourceRoot targetRoot).Joins (s.tree sourceRoot) (s.tree targetRoot) := by
  unfold referenceLinks
  refine List.foldlRecOn
    (motive := (TraceLinks.Joins · (s.tree sourceRoot) (s.tree targetRoot))) _ _
    ?fromSources fun l hl target htarget => ?_
  case fromSources =>
    refine List.foldlRecOn
      (motive := (TraceLinks.Joins · (s.tree sourceRoot) (s.tree targetRoot))) _ _
      (TraceLinks.joins_empty _ _) fun l hl source hsource => ?_
    split
    · rename_i target htarget
      exact hl.addDestination hsource (mem_tree_of_referenceInto? h ht htarget)
    · exact hl
  split
  · rename_i source hsource
    exact hl.addSource (mem_tree_of_referenceInto? h hs hsource) htarget
  · exact hl

theorem resolveLink_ok {root x : ObjectId} {fragment : String}
    (h : resolveLink s root fragment = .ok x) : s.resolve? root fragment = some x := by
  unfold resolveLink at h
  split at h
  · rename_i hid
    cases h
    exact hid
  · cases h

theorem linkFragment_ok {link : ObjectId} {side : TraceSide} {fragment : String}
    (h : linkFragment s link side = .ok fragment) :
    s.value? link side.render = some (.string fragment) := by
  unfold linkFragment at h
  split at h
  · rename_i hvalue
    cases h
    exact hvalue
  · cases h

theorem of_addEntry_ok {l l' : TraceLinks} {link : ObjectId}
    (h : addEntry s sourceRoot targetRoot l link = .ok l') :
    ∃ sourceFragment targetFragment source target,
      s.value? link TraceSide.source.render = some (.string sourceFragment) ∧
      s.value? link TraceSide.target.render = some (.string targetFragment) ∧
      s.resolve? sourceRoot sourceFragment = some source ∧
      s.resolve? targetRoot targetFragment = some target ∧ l' = l.addLink source target := by
  unfold addEntry at h
  obtain ⟨sourceFragment, hsourceText, h⟩ := of_except_bind_ok h
  obtain ⟨targetFragment, htargetText, h⟩ := of_except_bind_ok h
  obtain ⟨source, hsource, h⟩ := of_except_bind_ok h
  obtain ⟨target, htarget, h⟩ := of_except_bind_ok h
  cases h
  exact ⟨sourceFragment, targetFragment, source, target, linkFragment_ok hsourceText,
    linkFragment_ok htargetText, resolveLink_ok hsource, resolveLink_ok htarget, rfl⟩

theorem joins_addEntry (h : s.Layered) (hs : sourceRoot < s.size) (ht : targetRoot < s.size)
    {l l' : TraceLinks} {link : ObjectId}
    (hl : l.Joins (s.tree sourceRoot) (s.tree targetRoot))
    (hl' : addEntry s sourceRoot targetRoot l link = .ok l') :
    l'.Joins (s.tree sourceRoot) (s.tree targetRoot) := by
  obtain ⟨_, _, source, target, -, -, hsource, htarget, rfl⟩ := of_addEntry_ok hl'
  exact hl.addLink (h.mem_tree_of_resolve? hs hsource) (h.mem_tree_of_resolve? ht htarget)

theorem joins_addEntries (h : s.Layered) (hs : sourceRoot < s.size) (ht : targetRoot < s.size)
    {links : List ObjectId} {l l' : TraceLinks}
    (hl : l.Joins (s.tree sourceRoot) (s.tree targetRoot))
    (hl' : links.foldlM (addEntry s sourceRoot targetRoot) l = .ok l') :
    l'.Joins (s.tree sourceRoot) (s.tree targetRoot) := by
  induction links generalizing l with
  | nil =>
    cases hl'
    exact hl
  | cons link links ih =>
    rw [List.foldlM_cons] at hl'
    obtain ⟨l₁, hl₁, hrest⟩ := of_except_bind_ok hl'
    exact ih (joins_addEntry h hs ht hl hl₁) hrest

theorem lt_size_of_contained? (h : s.Layered) {x c : ObjectId} {feature : String}
    (hc : s.contained? x feature = some c) : c < s.size := by
  unfold ObjectStore.contained? at hc
  split at hc
  · rename_i d hv
    obtain rfl := Option.some.inj hc
    refine ObjectStore.lt_size_of_container (h.owned x feature d ?_)
    exact ObjectStore.mem_contentsIn_iff.2 ⟨_, hv, by simp [FeatureValue.children]⟩
  · cases hc

theorem lt_size_of_readSide (h : s.Layered) {trace root : ObjectId} {side : TraceSide}
    {issues : List Issue} (hr : readSide s trace side = .ok (root, issues)) : root < s.size := by
  unfold readSide at hr
  split at hr
  · rename_i hroot
    cases hr
    exact lt_size_of_contained? h hroot
  · split at hr
    · cases hr
    · split at hr
      · cases hr
      · rename_i hroot
        obtain ⟨_, -, hr⟩ := of_except_bind_ok hr
        cases hr
        exact lt_size_of_contained? h hroot

/-- The two trees of a trace lie in its store, and the links join them. -/
structure Closed (t : Trace) : Prop where
  layered : t.store.Layered
  present : ∀ side, t.root side < t.store.size
  joins : t.links.Joins (t.store.tree t.sourceRoot) (t.store.tree t.targetRoot)

theorem closed_ofDocument {m : Metamodel} {document : Json} {t : Trace}
    (h : ofDocument m document = .ok t) : t.Closed := by
  unfold ofDocument at h
  split at h
  · cases h
  · rename_i hread
    have hs := ObjectDocument.layered_read hread
    obtain ⟨⟨sourceRoot, _⟩, hsource, h⟩ := of_except_bind_ok h
    obtain ⟨⟨targetRoot, _⟩, htarget, h⟩ := of_except_bind_ok h
    obtain ⟨links, hlinks, h⟩ := of_except_bind_ok h
    cases h
    have hsource := lt_size_of_readSide hs hsource
    have htarget := lt_size_of_readSide hs htarget
    refine ⟨hs, fun side => ?_, ?_⟩
    · cases side with
      | source => exact hsource
      | target => exact htarget
    · exact joins_addEntries hs hsource htarget (joins_referenceLinks hs hsource htarget) hlinks

theorem closed_ofBytes {m : Metamodel} {bytes : ByteArray} {t : Trace}
    (h : ofBytes m bytes = .ok t) : t.Closed := by
  unfold ofBytes at h
  split at h
  · exact closed_ofDocument h
  · cases h

/-- What finitely many calls lead to from the roots of the two trees. -/
inductive Visited (t : Trace) : TraceNode → Prop
  | root (side : TraceSide) : Visited t (t.rootNode side)
  | child {n c : TraceNode} (h : Visited t n) (feature : Option String)
      (hc : c ∈ n.children feature) : Visited t c
  | parent {n p : TraceNode} (h : Visited t n) (hp : n.parent? = some p) : Visited t p
  | linked {n w : TraceNode} (h : Visited t n) (hw : n.linked? = some w) : Visited t w
  | found {n c : TraceNode} (h : Visited t n) (query : Position)
      (hc : n.findByPosition query = some c) : Visited t c

/-- A view of an object that belongs to its tree. -/
structure Shows (t : Trace) (n : TraceNode) : Prop where
  trace : n.trace = t
  object : n.object ∈ t.store.tree (t.root n.side)

variable {t : Trace} {n w : TraceNode}

theorem mem_contents_of_mem_children {x c : ObjectId} {feature : Option String}
    (hc : c ∈ t.children x feature) : c ∈ t.store.contents x := by
  unfold children at hc
  obtain ⟨hc, -⟩ := List.mem_filter.1 hc
  cases feature with
  | none => exact hc
  | some name => exact ObjectStore.mem_contents_iff.2 ⟨name, hc⟩

theorem exists_of_mem_children {c : TraceNode} {feature : Option String}
    (hc : c ∈ n.children feature) :
    ∃ x ∈ n.trace.store.contents n.object, c = { n with object := x } := by
  obtain ⟨x, hx, rfl⟩ := List.mem_map.1 hc
  exact ⟨x, mem_contents_of_mem_children hx, rfl⟩

theorem Closed.shows_child (h : t.Closed) (hn : t.Shows n) {c : TraceNode}
    {feature : Option String} (hc : c ∈ n.children feature) : t.Shows c := by
  obtain ⟨x, hx, rfl⟩ := exists_of_mem_children hc
  rw [hn.trace] at hx
  exact ⟨hn.trace, h.layered.contents_subset_tree (h.present _) hn.object hx⟩

/-- The root of a side is contained in nothing of its tree, so a child is none. -/
theorem Closed.parent?_child (h : t.Closed) (hn : t.Shows n) {c : TraceNode}
    {feature : Option String} (hc : c ∈ n.children feature) : c.parent? = some n := by
  obtain ⟨x, hx, rfl⟩ := exists_of_mem_children hc
  obtain ⟨rfl, hobject⟩ := hn
  have hne : x ≠ n.trace.root n.side := fun he =>
    h.layered.root_notMem_contents (h.present n.side) hobject (he ▸ hx)
  simp only [TraceNode.parent?, parent?, hne, if_false, h.layered.mem_contents_iff.1 hx,
    Option.map_some]

theorem Closed.shows_parent (h : t.Closed) (hn : t.Shows n) {p : TraceNode}
    (hp : n.parent? = some p) : t.Shows p := by
  obtain ⟨rfl, hobject⟩ := hn
  obtain ⟨x, hx, rfl⟩ := Option.map_eq_some_iff.1 hp
  unfold parent? at hx
  split at hx
  · cases hx
  · rename_i hne
    obtain ⟨q, hq, hcontainer⟩ := h.layered.exists_container_mem_tree hobject hne
    rw [hx] at hcontainer
    cases hcontainer
    exact ⟨rfl, hq⟩

theorem Closed.shows_linked (h : t.Closed) (hn : n.trace = t) (hw : n.linked? = some w) :
    t.Shows w ∧ w.side ≠ n.side ∧ w.linked?.isSome := by
  obtain ⟨trace, side, x⟩ := n
  subst hn
  cases side with
  | source =>
    obtain ⟨y, hy, rfl⟩ := Option.map_eq_some_iff.1 hw
    obtain ⟨hmem, hback⟩ := h.joins.destinations x y hy
    exact ⟨⟨rfl, hmem⟩, by simp, by simpa [TraceNode.linked?] using hback⟩
  | target =>
    obtain ⟨y, hy, rfl⟩ := Option.map_eq_some_iff.1 hw
    obtain ⟨hmem, hback⟩ := h.joins.sources x y hy
    exact ⟨⟨rfl, hmem⟩, by simp, by simpa [TraceNode.linked?] using hback⟩

theorem descend_mem_tree (h : t.Closed) {side : TraceSide} (query : Position) (depth : Nat)
    {x : ObjectId} (hx : x ∈ t.store.tree (t.root side)) :
    Locating.descend t.store.position? (t.children · none) query depth x ∈
      t.store.tree (t.root side) := by
  induction depth generalizing x with
  | zero => exact hx
  | succ depth ih =>
    unfold Locating.descend
    split
    · rename_i c hc
      apply ih
      have hcontents := mem_contents_of_mem_children (List.mem_of_find?_eq_some hc)
      exact h.layered.contents_subset_tree (h.present side) hx hcontents
    · exact hx

theorem Closed.shows_found (h : t.Closed) (hn : t.Shows n) {query : Position} {c : TraceNode}
    (hc : n.findByPosition query = some c) : t.Shows c := by
  obtain ⟨rfl, hobject⟩ := hn
  obtain ⟨x, hx, rfl⟩ := Option.map_eq_some_iff.1 hc
  unfold Locating.find? at hx
  split at hx
  · obtain rfl := Option.some.inj hx
    exact ⟨rfl, descend_mem_tree h query _ hobject⟩
  · cases hx

/-- No sequence of calls leaves the two trees. -/
theorem Visited.shows (h : t.Closed) (hn : t.Visited n) : t.Shows n := by
  induction hn with
  | root side => exact ⟨rfl, h.layered.root_mem_tree (h.present side)⟩
  | child _ feature hc ih => exact h.shows_child ih hc
  | parent _ hp ih => exact h.shows_parent ih hp
  | linked _ hw ih => exact (h.shows_linked ih.trace hw).1
  | found _ query hc ih => exact h.shows_found ih hc

/-- Navigation in a loaded trace is closed: whatever calls lead to a node, its object lies in the
tree of its side, its children name it as their parent, and if it is linked then it is linked to
a node of the other side that is linked as well. -/
theorem visited_closed {m : Metamodel} {bytes : ByteArray} (h : ofBytes m bytes = .ok t)
    (hn : t.Visited n) :
    n.trace = t ∧ n.object ∈ t.store.tree (t.root n.side) ∧
      (∀ feature, ∀ c ∈ n.children feature, c.parent? = some n) ∧
      ∀ w, n.linked? = some w → w.side ≠ n.side ∧ w.linked?.isSome := by
  have hclosed := closed_ofBytes h
  have hshows := hn.shows hclosed
  refine ⟨hshows.trace, hshows.object, fun feature c hc => hclosed.parent?_child hshows hc, ?_⟩
  intro w hw
  exact (hclosed.shows_linked hshows.trace hw).2

/-- Nodes that contain nodes. -/
def itemModel : Metamodel :=
  let item := ClassifierRef.mk "urn:items" "Item"
  Metamodel.initial.add ((Package.ofName "items" item.uri).addAll [
    .classDecl ⟨item.name, false, false, [.ast "ASTNode"],
      [(Feature.single "items" .containment (.ofClass item)).many]⟩])

/-- An item became the target, which says that it came from the item around that one. -/
def itemTrace : String :=
  "\x7b\"sourceAST\":\x7b\"eClass\":\"urn:items#//Item\"," ++
      "\"items\":[\x7b\"destination\":\"//@targetAST\"\x7d]\x7d," ++
    "\"targetAST\":\x7b\"origin\":\"//@sourceAST\"\x7d\x7d"

/-- From the root of the source to the item in it, and from there over to the target. -/
theorem visited_closed_itemTrace :
    ∃ t, ofBytes itemModel itemTrace.toUTF8 = .ok t ∧ t.Visited ⟨t, .target, 3⟩ ∧
      3 ∈ t.store.tree (t.root .target) ∧
      (∀ feature, ∀ c ∈ (TraceNode.mk t .target 3).children feature,
        c.parent? = some ⟨t, .target, 3⟩) ∧
      (TraceNode.mk t .target 3).linked? = some ⟨t, .source, 1⟩ ∧
      (TraceNode.mk t .source 1).linked?.isSome := by
  have hloaded : ((ofBytes itemModel itemTrace.toUTF8).toOption.map fun t =>
      (t.sourceRoot, t.children 1 none, t.links.destinations.get? 2, t.links.sources.get? 3)) =
        some (1, [2], some 3, some 1) := by decide +kernel
  cases ht : ofBytes itemModel itemTrace.toUTF8 with
  | error e =>
    rw [ht] at hloaded
    cases hloaded
  | ok t =>
    rw [ht] at hloaded
    simp only [Except.toOption, Option.map_some, Option.some.injEq, Prod.mk.injEq] at hloaded
    obtain ⟨hroot, hchildren, hdestination, hsource⟩ := hloaded
    have hstart : t.Visited ⟨t, .source, 1⟩ := by
      have hroots := Visited.root (t := t) .source
      rwa [rootNode, root, hroot] at hroots
    have hitem : t.Visited ⟨t, .source, 2⟩ := by
      refine hstart.child none ?_
      simp [TraceNode.children, hchildren]
    have htarget : t.Visited ⟨t, .target, 3⟩ := by
      refine hitem.linked ?_
      simp [TraceNode.linked?, hdestination]
    have hlinked : (TraceNode.mk t .target 3).linked? = some ⟨t, .source, 1⟩ := by
      simp [TraceNode.linked?, hsource]
    obtain ⟨-, hmem, hback, hlink⟩ := visited_closed ht htarget
    exact ⟨t, rfl, htarget, hmem, hback, hlinked, (hlink _ hlinked).2⟩

end Trace

end TreeInterchange
