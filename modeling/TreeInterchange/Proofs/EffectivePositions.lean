import Mathlib.Data.List.Chain
import TreeInterchange.Proofs.ForestOrigins

/-!
# Effective positions

A node defers to another one when it has no position of its own and was made from that one. A way
from node to node then ends at a node that settles the question, by a position of its own or by an
origin that has one, or at a node that cannot tell, or it goes round forever. The search follows
this way for one step more than there are nodes. A way that does not go round meets no node twice,
so the search always comes to its end.
-/

namespace TreeInterchange.Forest

variable {f : Forest} {id j k : NodeId} {p : Position}

/-- The position of `j` is that of `k`, from which it was made. -/
structure DefersTo (f : Forest) (j k : NodeId) : Prop where
  position : (f.get j).position = none
  origin : (f.get j).origin = some (.node k)

/-- The position is given to the node itself, or else by the origin of the node. -/
inductive Settles (f : Forest) (j : NodeId) (p : Position) : Prop
  | own (h : (f.get j).position = some p)
  | position (h : (f.get j).position = none) (ho : (f.get j).origin = some (.position p))
  | parseTree {o : ParseOrigin} (h : (f.get j).position = none)
      (ho : (f.get j).origin = some (.parseTree o)) (hp : o.position = some p)

theorem mem_onward_iff : k ∈ f.onward j ↔ f.DefersTo j k := by
  constructor
  · intro hk
    unfold onward at hk
    split at hk
    · rename_i hp ho
      exact ⟨hp, by rw [ho, List.mem_singleton.1 hk]⟩
    · cases hk
  · rintro ⟨hp, ho⟩
    simp [onward, hp, ho]

theorem DefersTo.positionWithin_succ (h : f.DefersTo j k) (n : Nat) :
    f.positionWithin (n + 1) j = f.positionWithin n k := by
  simp only [positionWithin, h.position, h.origin]

theorem Settles.positionWithin_succ (h : f.Settles j p) (n : Nat) :
    f.positionWithin (n + 1) j = some p := by
  cases h with
  | own h => simp only [positionWithin, h]
  | position h ho => simp only [positionWithin, h, ho]
  | parseTree h ho hp => simp only [positionWithin, h, ho, hp]

theorem Settles.heightAtMost (h : f.Settles j p) : HeightAtMost f.onward 1 j := by
  intro k hk
  obtain ⟨hposition, horigin⟩ := mem_onward_iff.1 hk
  cases h with
  | own h => cases hposition.symm.trans h
  | position _ ho => cases horigin.symm.trans ho
  | parseTree _ ho _ => cases horigin.symm.trans ho

theorem settles_or_defersTo {n : Nat} (h : f.positionWithin (n + 1) j = some p) :
    f.Settles j p ∨ ∃ k, f.DefersTo j k ∧ f.positionWithin n k = some p := by
  simp only [positionWithin] at h
  split at h
  · rename_i hp
    exact .inl (.own (hp.trans h))
  · rename_i hp ho
    exact .inl (.position hp (by rw [ho, Option.some.inj h]))
  · rename_i hp ho
    exact .inl (.parseTree hp ho h)
  · rename_i k hp ho
    exact .inr ⟨k, ⟨hp, ho⟩, h⟩
  · cases h

theorem exists_way_of_positionWithin {n : Nat} (h : f.positionWithin n j = some p) :
    ∃ k, Relation.ReflTransGen f.DefersTo j k ∧ f.Settles k p := by
  induction n generalizing j with
  | zero => cases h
  | succ n ih =>
    rcases settles_or_defersTo h with hj | ⟨i, hji, hi⟩
    · exact ⟨j, .refl, hj⟩
    · obtain ⟨k, hik, hk⟩ := ih hi
      exact ⟨k, .head hji hik, hk⟩

/-- A way to a node that settles the position ends, and the search that goes to its end finds the
position. -/
theorem Settles.exists_height (h : f.Settles k p) (hway : Relation.ReflTransGen f.DefersTo j k) :
    ∃ n, HeightAtMost f.onward n j ∧ f.positionWithin n j = some p := by
  induction hway using Relation.ReflTransGen.head_induction_on with
  | refl => exact ⟨1, h.heightAtMost, h.positionWithin_succ 0⟩
  | head hstep _ ih =>
    obtain ⟨n, hheight, hfound⟩ := ih
    refine ⟨n + 1, fun b hb => ?_, by rw [hstep.positionWithin_succ, hfound]⟩
    -- a node has one origin at most, so the way cannot branch off
    have hb := (mem_onward_iff.1 hb).origin.symm.trans hstep.origin
    cases hb
    exact hheight

theorem lt_size_of_way (hf : f.OriginsKnown) (hj : j < f.size)
    (hway : Relation.ReflTransGen f.DefersTo j k) : k < f.size := by
  induction hway with
  | refl => exact hj
  | tail _ hstep _ => exact hf _ _ hstep.origin

theorem not_heightAtMost_of_loop (hway : Relation.ReflTransGen f.DefersTo j k)
    (hloop : Relation.TransGen f.DefersTo k k) (n : Nat) : ¬ HeightAtMost f.onward n j := by
  have hlisted : ∀ a b, Relation.ReflTransGen f.DefersTo a b → HeightAtMost f.onward n a →
      b ∈ listing f.onward n a := fun a b hab ha =>
    mem_listing_of_above (S := fun _ => True) ha
      (Relation.ReflTransGen.mono (fun _ _ h => ⟨trivial, mem_onward_iff.2 h⟩) _ _ hab)
  intro hj
  have hk := hj.of_mem (hlisted j k hway hj)
  obtain ⟨b, hkb, hbk⟩ := Relation.TransGen.tail'_iff.1 hloop
  exact not_mem_next_of_height hk (hlisted k b hkb hk) (mem_onward_iff.2 hbk)

theorem positionWithin_of_isChain {ns : List NodeId} (h : (j :: ns).IsChain f.DefersTo) (n : Nat) :
    f.positionWithin (ns.length + n) j = f.positionWithin n (ns.getLastD j) := by
  induction ns generalizing j with
  | nil => rw [List.length_nil, Nat.zero_add, List.getLastD_nil]
  | cons k ns ih =>
    obtain ⟨hstep, hrest⟩ := List.isChain_cons_cons.1 h
    rw [List.length_cons, Nat.add_right_comm, hstep.positionWithin_succ, ih hrest,
      List.getLastD_cons]

/-- A way that meets no node twice has no more nodes than the forest. -/
theorem length_le_size_of_isChain (hf : f.OriginsKnown) (hj : j < f.size) {ns : List NodeId}
    (h : (j :: ns).IsChain f.DefersTo) (hnodup : (j :: ns).Nodup) : (j :: ns).length ≤ f.size := by
  have hin : ∀ k ∈ j :: ns, k < f.size :=
    List.IsChain.induction (· < f.size) _ h (fun _ _ hstep _ => hf _ _ hstep.origin) fun _ => hj
  have hsubset : j :: ns ⊆ List.range f.size := fun k hk => List.mem_range.2 (hin k hk)
  simpa using hnodup.length_le_of_subset hsubset

/-- The effective position of a node is exactly what the way through origins leads to. All nodes on
the way exist; a position is found just when a node on the way settles it, and none is found where
the way goes round. A way that meets no node twice is never cut short: the search comes to its last
node with steps left, and more steps would make no difference. -/
theorem position_follows_origins (h : f.Reachable) (hid : id < f.size) :
    (∀ k, Relation.ReflTransGen f.DefersTo id k → k < f.size) ∧
    (∀ p, f.position id = some p ↔
      ∃ k, Relation.ReflTransGen f.DefersTo id k ∧ f.Settles k p) ∧
    (∀ k, Relation.ReflTransGen f.DefersTo id k → Relation.TransGen f.DefersTo k k →
      f.position id = none) ∧
    (∀ ns : List NodeId, (id :: ns).IsChain f.DefersTo → (id :: ns).Nodup →
      ns.length < f.size ∧
        f.position id = f.positionWithin (f.size + 1 - ns.length) (ns.getLastD id)) ∧
    ∀ steps, f.size < steps → f.positionWithin steps id = f.position id := by
  have hf := h.originsKnown
  have hstable : ∀ steps, f.size < steps → f.positionWithin steps id = f.position id :=
    fun steps hsteps => positionWithin_stable hf hsteps hid
  refine ⟨fun k => lt_size_of_way hf hid, fun p => ⟨exists_way_of_positionWithin, ?_⟩,
    fun k hway hloop => ?_, fun ns hchain hnodup => ?_, hstable⟩
  · rintro ⟨k, hway, hk⟩
    obtain ⟨n, hheight, hfound⟩ := hk.exists_height hway
    rw [← hstable (max n (f.size + 1)) (by omega),
      positionWithin_of_height hheight (Nat.le_max_left ..), hfound]
  · exact positionWithin_of_endless (not_heightAtMost_of_loop hway hloop) _
  · have hlength := length_le_size_of_isChain hf hid hchain hnodup
    rw [List.length_cons] at hlength
    refine ⟨hlength, ?_⟩
    rw [← positionWithin_of_isChain hchain, Nat.add_sub_of_le (by omega), position]

def markType : NodeType := .ofName ⟨"sample", "Mark"⟩

/-- Two nodes come one after the other from a third, whose origin is an element of a parse tree,
and two more lead to a node that was made from itself. -/
def trailRun : List Operation :=
  [.newNode markType, .newNode markType, .newNode markType, .newNode markType,
    .newNode markType, .setOrigin 0 (some (.node 1)), .setOrigin 1 (some (.node 2)),
    .setOrigin 2 (some (.parseTree ⟨"mark", some ⟨⟨3, 0⟩, ⟨3, 4⟩⟩, none⟩)),
    .setOrigin 3 (some (.node 4)), .setOrigin 4 (some (.node 4))]

def trail : Forest := trailRun.foldl (fun f op => op.edit.stateAfter f) Forest.empty

theorem reachable_trail : trail.Reachable := Reachable.empty.after trailRun (by decide) (by decide)

theorem position_follows_origins_trail : trail.Reachable ∧ trail.size = 5 ∧
    trail.position 0 = some ⟨⟨3, 0⟩, ⟨3, 4⟩⟩ ∧ trail.position 3 = none := by
  have hdefers : trail.DefersTo 0 1 ∧ trail.DefersTo 1 2 ∧ trail.DefersTo 3 4 ∧
      trail.DefersTo 4 4 :=
    ⟨⟨rfl, rfl⟩, ⟨rfl, rfl⟩, ⟨rfl, rfl⟩, ⟨rfl, rfl⟩⟩
  obtain ⟨h01, h12, h34, h44⟩ := hdefers
  have hsettles : trail.Settles 2 ⟨⟨3, 0⟩, ⟨3, 4⟩⟩ := .parseTree rfl rfl rfl
  obtain ⟨-, hfound, -⟩ := position_follows_origins reachable_trail (show 0 < trail.size by decide)
  obtain ⟨-, -, hloop, -⟩ :=
    position_follows_origins reachable_trail (show 3 < trail.size by decide)
  exact ⟨reachable_trail, by decide, (hfound _).2 ⟨2, .head h01 (.single h12), hsettles⟩,
    hloop 4 (.single h34) (.single h44)⟩

end TreeInterchange.Forest
