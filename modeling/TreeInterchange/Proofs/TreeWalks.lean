import TreeInterchange.Proofs.TreeListings

/-!
# Walks with a stack

A walk down a tree may keep the points that it still has to visit on a stack. It gives the point on
top and pushes what stands directly below it, the last one first, until the stack is empty. Where
the tree has bounded height the stack does run empty, and the walk gives the recursive listing.
-/

namespace TreeInterchange

universe u v

/-- What an iterator gives until nothing is left. A step from a state finds nothing left, goes on to
another state, or gives an entry and goes on. -/
inductive Yields {σ : Type u} {α : Type v} (step : σ → Option (Option α × σ)) : σ → List α → Prop
  | done {s : σ} (h : step s = none) : Yields step s []
  | skip {s s' : σ} {out : List α} (h : step s = some (none, s')) (rest : Yields step s' out) :
      Yields step s out
  | give {s s' : σ} {a : α} {out : List α} (h : step s = some (some a, s'))
      (rest : Yields step s' out) : Yields step s (a :: out)

theorem Yields.unique {σ : Type u} {α : Type v} {step : σ → Option (Option α × σ)} {s : σ}
    {out out' : List α} (h : Yields step s out) (h' : Yields step s out') : out = out' := by
  induction h generalizing out' with
  | done h =>
    cases h' with
    | done _ => rfl
    | skip h' _ => cases h.symm.trans h'
    | give h' _ => cases h.symm.trans h'
  | skip h _ ih =>
    cases h' with
    | done h' => cases h.symm.trans h'
    | skip h' rest' =>
      cases h.symm.trans h'
      exact ih rest'
    | give h' _ => cases h.symm.trans h'
  | give h _ ih =>
    cases h' with
    | done h' => cases h.symm.trans h'
    | skip h' _ => cases h.symm.trans h'
    | give h' rest' =>
      cases h.symm.trans h'
      rw [ih rest']

/-- Entries that go on a stack one after the other, so that the last one ends on top. -/
def pushAll {σ : Type u} (stack entries : List σ) : List σ :=
  entries.foldl (fun stack e => e :: stack) stack

@[simp] theorem pushAll_reverse {σ : Type u} (stack entries : List σ) :
    pushAll stack entries.reverse = entries ++ stack := by
  simp [pushAll]

/-- If each of some entries gives its tree when it is on top of a stack, all of them give their
trees one after the other. -/
theorem Yields.stacked {σ : Type u} {α : Type v} {step : List σ → Option (Option α × List σ)}
    {entries stack : List σ} {out : List α} {tree : σ → List α}
    (htree : ∀ e ∈ entries, ∀ stack out, Yields step stack out →
      Yields step (e :: stack) (tree e ++ out))
    (h : Yields step stack out) : Yields step (entries ++ stack) (entries.flatMap tree ++ out) := by
  induction entries with
  | nil => exact h
  | cons e entries ih =>
    obtain ⟨he, hothers⟩ := List.forall_mem_cons.1 htree
    rw [List.flatMap_cons, List.append_assoc]
    exact he _ _ (ih hothers)

/-- A step of the walk down: the top point is given, and what stands directly below it is pushed in
its place. -/
def downStep {α : Type u} (next : α → List α) : List α → Option (Option α × List α)
  | [] => none
  | a :: stack => some (some a, pushAll stack (next a).reverse)

variable {α : Type u} {next : α → List α} {k : Nat} {a : α}

theorem yields_listing_append (hk : HeightAtMost next k a) {stack out : List α}
    (h : Yields (downStep next) stack out) :
    Yields (downStep next) (a :: stack) (listing next k a ++ out) := by
  induction k generalizing a stack out with
  | zero => exact hk.elim
  | succ k ih =>
    have hbelow : Yields (downStep next) (next a ++ stack)
        ((next a).flatMap (listing next k) ++ out) :=
      .stacked (fun b hb _ _ h => ih (hk b hb) h) h
    exact .give (by rw [downStep, pushAll_reverse]) hbelow

theorem yields_listing (hk : HeightAtMost next k a) :
    Yields (downStep next) [a] (listing next k a) := by
  have hyields : Yields (downStep next) [a] (listing next k a ++ []) :=
    yields_listing_append hk (.done rfl)
  rwa [List.append_nil] at hyields

end TreeInterchange
