import TreeInterchange.Proofs.TraceNavigation

/-!
# Which link counts

An object of one tree may be said to belong to several of the other: the table of links may name it
more than once, it may refer to an object itself, and objects of the other tree may refer to it.
The last entry of the table counts before everything else, then what the object says itself, and
then the first object of the other tree that refers to it. The rule is the same in both directions.

The links are gathered in two tables at once, and what is a last word in one gives way in the
other. Each phase is seen as a list of pairs, and a table as the pairs that were stored in it.
-/

namespace TreeInterchange

open StatefulRuns

section Pairs

variable {α β κ : Type}

theorem lookup_eq_of_forall₂ [DecidableEq κ] {f : α → Option κ} {g : α → Option β}
    {xs : List α} {es : List (κ × β)}
    (h : List.Forall₂ (fun x e => f x = some e.1 ∧ g x = some e.2) xs es) (k : κ) :
    es.lookup k = (xs.find? (f · = some k)).bind g := by
  induction h with
  | nil => rfl
  | @cons x e xs es hxe _ ih =>
    obtain ⟨a, b⟩ := e
    by_cases hk : a = k
    · subst hk
      simp [hxe.1, hxe.2]
    · have hb : (k == a) = false := by simpa using fun h => hk h.symm
      simp [List.lookup_cons, hb, hxe.1, hk, ih]

theorem lookup_filterMap [DecidableEq α] (f : α → Option β) (xs : List α) (k : α) :
    (xs.filterMap fun x => (f x).map (x, ·)).lookup k = if k ∈ xs then f k else none := by
  induction xs with
  | nil => simp
  | cons x xs ih =>
    by_cases hk : k = x
    · subst hk
      cases hf : f k with
      | none => simp [hf, ih]
      | some b => simp [hf]
    · have hb : (k == x) = false := by simpa using hk
      cases hf : f x with
      | none => simp [hf, ih, hk]
      | some b => simp [hf, List.lookup_cons, hb, ih, hk]

theorem lookup_map_swap_filterMap [DecidableEq β] (f : α → Option β) (xs : List α) (k : β) :
    ((xs.filterMap fun x => (f x).map (x, ·)).map Prod.swap).lookup k =
      xs.find? (f · = some k) := by
  induction xs with
  | nil => rfl
  | cons x xs ih =>
    cases hf : f x with
    | none => simp [hf, ih]
    | some b =>
      by_cases hk : b = k
      · subst hk
        simp [hf]
      · have hb : (k == b) = false := by simpa using fun h => hk h.symm
        simp [hf, List.lookup_cons, hb, hk, ih]

end Pairs

namespace TraceSide

def other : TraceSide → TraceSide
  | .source => .target
  | .target => .source

def reference : TraceSide → String
  | .source => "destination"
  | .target => "origin"

def orient : TraceSide → ObjectId × ObjectId → ObjectId × ObjectId
  | .source => id
  | .target => Prod.swap

end TraceSide

/-- The object that a single reference names. -/
def ObjectStore.named? (s : ObjectStore) (id : ObjectId) (feature : String) : Option ObjectId :=
  match s.value? id feature with
  | some (.reference target) => some target
  | _ => none

namespace Trace

/-- The table of links. The object of the whole document, which holds it, is the first of the
store. -/
def linkTable (t : Trace) : List ObjectId := t.store.contentsIn 0 "links"

/-- The object that an entry of the table of links names on one side, by a fragment that starts at
the root of that side. -/
def end? (t : Trace) (side : TraceSide) (link : ObjectId) : Option ObjectId :=
  match t.store.value? link side.render with
  | some (.string fragment) => t.store.resolve? (t.root side) fragment
  | _ => none

/-- What the last entry of the table that names the object says. -/
def byTable? (t : Trace) (side : TraceSide) (x : ObjectId) : Option ObjectId :=
  (t.linkTable.reverse.find? (t.end? side · = some x)).bind (t.end? side.other)

/-- What the object says itself, if it refers to the other tree. -/
def byItself? (t : Trace) (side : TraceSide) (x : ObjectId) : Option ObjectId :=
  (t.store.named? x side.reference).filter (· ∈ t.store.tree (t.root side.other))

/-- The first object of the other tree that refers to the object. -/
def byOther? (t : Trace) (side : TraceSide) (x : ObjectId) : Option ObjectId :=
  (t.store.tree (t.root side.other)).find? (t.store.named? · side.other.reference = some x)

/-- The object of the other tree that an object of one tree belongs to. -/
def counterpart? (t : Trace) (side : TraceSide) (x : ObjectId) : Option ObjectId :=
  (t.byTable? side x).or ((t.byItself? side x).or (t.byOther? side x))

end Trace

namespace TraceLinks

def table (l : TraceLinks) : TraceSide → Table ObjectId ObjectId
  | .source => l.destinations
  | .target => l.sources

/-- An object of one side refers to one of the other. -/
def say (l : TraceLinks) : TraceSide → ObjectId → ObjectId → TraceLinks
  | .source, x, y => l.addDestination x y
  | .target, x, y => l.addSource y x

theorem get?_table_sayAll (side : TraceSide) (ps : List (ObjectId × ObjectId)) (l : TraceLinks)
    (x : ObjectId) : ((ps.foldl (fun l p => l.say side p.1 p.2) l).table side).get? x =
      (ps.reverse.lookup x).or ((l.table side).get? x) := by
  have htable : ps.foldl (fun t p => t.insert p.1 p.2) (l.table side) =
      (ps.foldl (fun l p => l.say side p.1 p.2) l).table side :=
    List.foldl_hom (table · side) fun l p => by cases side <;> rfl
  rw [← htable, Table.get?_foldl_insert]

theorem get?_table_other_sayAll (side : TraceSide) (ps : List (ObjectId × ObjectId))
    (l : TraceLinks) (y : ObjectId) :
    ((ps.foldl (fun l p => l.say side p.1 p.2) l).table side.other).get? y =
      ((l.table side.other).get? y).or ((ps.map Prod.swap).lookup y) := by
  have htable : ps.foldl (fun t p => t.insertIfNew p.swap.1 p.swap.2) (l.table side.other) =
      (ps.foldl (fun l p => l.say side p.1 p.2) l).table side.other :=
    List.foldl_hom (table · side.other) fun l p => by cases side <;> rfl
  rw [← htable, ← Table.get?_foldl_insertIfNew, List.foldl_map]

theorem get?_table_addLinks (side : TraceSide) (ps : List (ObjectId × ObjectId)) (l : TraceLinks)
    (x : ObjectId) : ((ps.foldl (fun l p => l.addLink p.1 p.2) l).table side).get? x =
      ((ps.map side.orient).reverse.lookup x).or ((l.table side).get? x) := by
  have htable : ps.foldl (fun t p => t.insert (side.orient p).1 (side.orient p).2)
      (l.table side) = (ps.foldl (fun l p => l.addLink p.1 p.2) l).table side :=
    List.foldl_hom (table · side) fun l p => by cases side <;> rfl
  rw [← htable, ← Table.get?_foldl_insert, List.foldl_map]

end TraceLinks

namespace Trace

variable {t : Trace}

theorem linked?_eq (side : TraceSide) (x : ObjectId) : (TraceNode.mk t side x).linked? =
    ((t.links.table side).get? x).map (TraceNode.mk t side.other) := by
  cases side <;> rfl

/-- The references from one tree to the other, each with the object that has it in front. -/
def said (t : Trace) (side : TraceSide) : List (ObjectId × ObjectId) :=
  (t.store.tree (t.root side)).filterMap fun x =>
    (referenceInto? t.store (t.root side.other) x side.reference).map (x, ·)

theorem foldl_said (side : TraceSide) (l : TraceLinks) :
    (t.store.tree (t.root side)).foldl (fun l x =>
      match referenceInto? t.store (t.root side.other) x side.reference with
      | some y => l.say side x y
      | none => l) l = (t.said side).foldl (fun l p => l.say side p.1 p.2) l := by
  rw [said, List.foldl_filterMap]
  congr 1
  funext l x
  cases referenceInto? t.store (t.root side.other) x side.reference <;> rfl

/-- Of the references, those of an object itself come first, and then those to it. -/
theorem get?_table_referenceLinks (side : TraceSide) (x : ObjectId) :
    ((referenceLinks t.store t.sourceRoot t.targetRoot).table side).get? x =
      ((t.said side).reverse.lookup x).or (((t.said side.other).map Prod.swap).lookup x) := by
  have hphases : referenceLinks t.store t.sourceRoot t.targetRoot =
      (t.said .target).foldl (fun l p => l.say .target p.1 p.2)
        ((t.said .source).foldl (fun l p => l.say .source p.1 p.2) .empty) := by
    rw [← foldl_said, ← foldl_said]
    rfl
  rw [hphases]
  cases side with
  | source =>
    rw [show TraceSide.source = TraceSide.target.other from rfl,
      TraceLinks.get?_table_other_sayAll]
    simp only [TraceSide.other]
    rw [TraceLinks.get?_table_sayAll]
    simp [TraceLinks.table, TraceLinks.empty]
  | target =>
    rw [TraceLinks.get?_table_sayAll]
    congr 1
    rw [show TraceSide.target = TraceSide.source.other from rfl,
      TraceLinks.get?_table_other_sayAll]
    rfl

theorem of_addEntries_ok {links : List ObjectId} {l l' : TraceLinks}
    (h : links.foldlM (addEntry t.store t.sourceRoot t.targetRoot) l = .ok l') :
    ∃ ps : List (ObjectId × ObjectId),
      List.Forall₂ (fun link p => t.end? .source link = some p.1 ∧ t.end? .target link = some p.2)
        links ps ∧ l' = ps.foldl (fun l p => l.addLink p.1 p.2) l := by
  induction links generalizing l with
  | nil =>
    cases h
    exact ⟨[], .nil, rfl⟩
  | cons link links ih =>
    rw [List.foldlM_cons] at h
    obtain ⟨l₁, hl₁, hrest⟩ := of_except_bind_ok h
    obtain ⟨_, _, source, target, hsourceText, htargetText, hsource, htarget, rfl⟩ :=
      of_addEntry_ok hl₁
    have hends : t.end? .source link = some source ∧ t.end? .target link = some target := by
      simp only [end?, hsourceText, htargetText]
      exact ⟨hsource, htarget⟩
    obtain ⟨ps, hps, rfl⟩ := ih hrest
    exact ⟨(source, target) :: ps, .cons hends hps, rfl⟩

theorem links_ofBytes {m : Metamodel} {bytes : ByteArray} (h : ofBytes m bytes = .ok t) :
    t.linkTable.foldlM (addEntry t.store t.sourceRoot t.targetRoot)
      (referenceLinks t.store t.sourceRoot t.targetRoot) = .ok t.links := by
  unfold ofBytes at h
  split at h
  · unfold ofDocument at h
    split at h
    · cases h
    · rename_i hread
      obtain ⟨rfl, -⟩ := ObjectDocument.read_reads hread
      obtain ⟨⟨sourceRoot, _⟩, -, h⟩ := of_except_bind_ok h
      obtain ⟨⟨targetRoot, _⟩, -, h⟩ := of_except_bind_ok h
      obtain ⟨links, hlinks, h⟩ := of_except_bind_ok h
      cases h
      exact hlinks
  · cases h

theorem Closed.referenceInto?_eq (h : t.Closed) (side : TraceSide) (x : ObjectId)
    (feature : String) : referenceInto? t.store (t.root side) x feature =
      (t.store.named? x feature).filter (· ∈ t.store.tree (t.root side)) := by
  unfold referenceInto? ObjectStore.named?
  cases t.store.value? x feature with
  | none => rfl
  | some v =>
    cases v with
    | reference y =>
      have hwithin := h.layered.isWithin_iff_mem_tree (h.present side) (x := y)
      by_cases hy : y ∈ t.store.tree (t.root side) <;> simp [hwithin, hy, Option.filter]
    | _ => rfl

theorem Closed.lookup_said (h : t.Closed) {side : TraceSide} {x : ObjectId}
    (hx : x ∈ t.store.tree (t.root side)) :
    (t.said side).reverse.lookup x = t.byItself? side x := by
  rw [said, ← List.filterMap_reverse, lookup_filterMap, if_pos (List.mem_reverse.2 hx),
    h.referenceInto?_eq, byItself?]

theorem Closed.lookup_said_other (h : t.Closed) {side : TraceSide} {x : ObjectId}
    (hx : x ∈ t.store.tree (t.root side)) :
    ((t.said side.other).map Prod.swap).lookup x = t.byOther? side x := by
  have hback : side.other.other = side := by cases side <;> rfl
  rw [said, lookup_map_swap_filterMap, byOther?]
  congr 1
  funext y
  rw [hback, h.referenceInto?_eq]
  cases hy : t.store.named? y side.other.reference with
  | none => rfl
  | some z =>
    by_cases hz : z = x
    · subst hz
      simp [Option.filter, hx]
    · by_cases hmem : z ∈ t.store.tree (t.root side) <;> simp [Option.filter, hmem, hz]

theorem lookup_ends {ps : List (ObjectId × ObjectId)} (h : List.Forall₂ (fun link p =>
      t.end? .source link = some p.1 ∧ t.end? .target link = some p.2) t.linkTable ps)
    (side : TraceSide) (x : ObjectId) :
    (ps.map side.orient).reverse.lookup x = t.byTable? side x := by
  have hends : List.Forall₂ (fun link p => t.end? side link = some p.1 ∧
      t.end? side.other link = some p.2) t.linkTable (ps.map side.orient) := by
    refine List.forall₂_map_right_iff.2 (h.imp fun link p hp => ?_)
    cases side with
    | source => exact hp
    | target => exact hp.symm
  exact lookup_eq_of_forall₂ (List.forall₂_reverse_iff.2 hends) x

/-- In a loaded trace every entry of the table of links names an object on both sides, and an object
is linked to what the last entry with it says, or else to the object of the other tree it refers
to, or else to the first one there that refers to it. -/
theorem linked?_eq_counterpart? {m : Metamodel} {bytes : ByteArray} (h : ofBytes m bytes = .ok t) :
    (∀ link ∈ t.linkTable, ∀ side, (t.end? side link).isSome) ∧
    ∀ side, ∀ x ∈ t.store.tree (t.root side),
      (TraceNode.mk t side x).linked? =
        (t.counterpart? side x).map (TraceNode.mk t side.other) := by
  have hclosed := closed_ofBytes h
  obtain ⟨ps, hps, hlinks⟩ := of_addEntries_ok (links_ofBytes h)
  constructor
  · intro link hlink side
    obtain ⟨p, -, hsource, htarget⟩ := exists_of_mem_forall₂ hps hlink
    cases side with
    | source => simp [hsource]
    | target => simp [htarget]
  · intro side x hx
    rw [linked?_eq, hlinks, TraceLinks.get?_table_addLinks, get?_table_referenceLinks,
      lookup_ends hps, hclosed.lookup_said hx, hclosed.lookup_said_other hx, counterpart?]

/-- The target says that it came from the root of the source, an item there that it became the
target, and the table says so of the two other items, of the second one last. -/
def disputedTrace : String :=
  "\x7b\"sourceAST\":\x7b\"eClass\":\"urn:items#//Item\"," ++
      "\"items\":[\x7b\"destination\":\"//@targetAST\"\x7d,\x7b\x7d,\x7b\x7d]\x7d," ++
    "\"targetAST\":\x7b\"origin\":\"//@sourceAST\"\x7d," ++
    "\"links\":[\x7b\"source\":\"//@items.2\",\"target\":\"/\"\x7d," ++
      "\x7b\"source\":\"//@items.1\",\"target\":\"/\"\x7d]\x7d"

theorem linked?_disputedTrace :
    ∃ t, ofBytes itemModel disputedTrace.toUTF8 = .ok t ∧
      t.store.tree (t.root .source) = [1, 2, 3, 4] ∧
      (∀ x ∈ [1, 2, 3, 4], (TraceNode.mk t .source x).linked? = some ⟨t, .target, 5⟩) ∧
      (TraceNode.mk t .target 5).linked? = some ⟨t, .source, 3⟩ := by
  have hloaded : ((ofBytes itemModel disputedTrace.toUTF8).toOption.map fun t =>
      (t.store.tree (t.root .source), t.store.tree (t.root .target),
        decide (∀ x ∈ ([1, 2, 3, 4] : List ObjectId), t.counterpart? .source x = some 5),
        t.counterpart? .target 5)) = some ([1, 2, 3, 4], [5], true, some 3) := by decide +kernel
  cases ht : ofBytes itemModel disputedTrace.toUTF8 with
  | error e =>
    rw [ht] at hloaded
    cases hloaded
  | ok t =>
    rw [ht] at hloaded
    simp only [Except.toOption, Option.map_some, Option.some.injEq, Prod.mk.injEq] at hloaded
    obtain ⟨hsource, htarget, hdestinations, hback⟩ := hloaded
    obtain ⟨-, hlinked⟩ := linked?_eq_counterpart? ht
    refine ⟨t, rfl, hsource, fun x hx => ?_, ?_⟩
    · rw [hlinked .source x (hsource ▸ hx), of_decide_eq_true hdestinations x hx]
      rfl
    · rw [hlinked .target 5 (by simp [htarget]), hback]
      rfl

end Trace

end TreeInterchange
