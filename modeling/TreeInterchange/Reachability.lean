/-!
# Reachability in a finite graph

The graph is given by the successors of a point and by a list of the points that may have
any; points outside the list count as having none. The search keeps the points still to be
visited and those already expanded, and each step either shrinks the list of points that
can still be expanded or the list of pending points. It therefore ends on cyclic graphs too.
-/

namespace TreeInterchange.Reachability

universe u

variable {κ : Type u} [DecidableEq κ]

/-- Points of `support` that have not been expanded yet. -/
def unseen (support seen : List κ) : List κ := support.filter (· ∉ seen)

theorem length_unseen_lt {support seen : List κ} {a : κ} (hs : a ∈ support) (hn : a ∉ seen) :
    (unseen support (a :: seen)).length < (unseen support seen).length := by
  unfold unseen
  induction support with
  | nil => simp at hs
  | cons b bs ih =>
    have mono : ∀ l : List κ, (l.filter (· ∉ a :: seen)).length ≤ (l.filter (· ∉ seen)).length := by
      intro l
      induction l with
      | nil => simp
      | cons c cs ihc => by_cases h1 : c ∈ seen <;> by_cases h2 : c = a <;> grind
    by_cases hb : b = a
    · subst hb
      have := mono bs
      grind
    · have hm : a ∈ bs := by grind
      have := ih hm
      by_cases h1 : b ∈ seen <;> grind

/-- Depth-first search for `goal` from the pending points, skipping the expanded ones. -/
def search (next : κ → List κ) (support : List κ) (goal : κ) : List κ → List κ → Bool
  | [], _ => false
  | a :: pending, seen =>
    if a = goal then true
    else if a ∈ seen then search next support goal pending seen
    else if a ∈ support then search next support goal (next a ++ pending) (a :: seen)
    else search next support goal pending seen
termination_by pending seen => ((unseen support seen).length, pending.length)
decreasing_by
  · exact Prod.Lex.right _ (by simp)
  · exact Prod.Lex.left _ _ (length_unseen_lt ‹_› ‹_›)
  · exact Prod.Lex.right _ (by simp)

/-- Whether `goal` can be reached from `start` in zero or more steps. -/
def reaches (next : κ → List κ) (support : List κ) (start goal : κ) : Bool :=
  search next support goal [start] []

end TreeInterchange.Reachability
