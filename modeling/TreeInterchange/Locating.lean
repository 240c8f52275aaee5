import TreeInterchange.Position

/-!
# Finding a node by position

The search works on any tree whose nodes have children and perhaps a position. It starts
where the position is contained and goes down into the first child that contains it as
often as there is one; `depth` bounds the way down.
-/

namespace TreeInterchange.Locating

universe u

variable {α : Type u}

/-- Whether a node's position is known and contains `query`. -/
def covers (position : α → Option Position) (query : Position) (a : α) : Bool :=
  match position a with
  | some p => p.contains query
  | none => false

/-- Goes down into the first child that covers `query`, at most `depth` times. -/
def descend (position : α → Option Position) (children : α → List α) (query : Position) :
    Nat → α → α
  | 0, a => a
  | depth + 1, a =>
    match (children a).find? (covers position query) with
    | some c => descend position children query depth c
    | none => a

/-- The deepest node from `root` down that covers `query`. -/
def find? (position : α → Option Position) (children : α → List α) (depth : Nat) (root : α)
    (query : Position) : Option α :=
  if covers position query root then some (descend position children query depth root) else none

end TreeInterchange.Locating
