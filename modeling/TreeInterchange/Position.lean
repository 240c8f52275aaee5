/-!
# Positions in a source text

A point is a line, counted from one, and a column, counted from zero; points are ordered by
line first. A position is the range between two points, both of which belong to it.
-/

namespace TreeInterchange

structure Point where
  line : UInt32
  column : UInt32
deriving DecidableEq, Inhabited

namespace Point

def le (p q : Point) : Bool :=
  decide (p.line < q.line) || (p.line == q.line && decide (p.column ≤ q.column))

instance : LE Point := ⟨fun p q => p.le q = true⟩

instance (p q : Point) : Decidable (p ≤ q) := inferInstanceAs (Decidable (p.le q = true))

def cmp (p q : Point) : Ordering := (compare p.line q.line).then (compare p.column q.column)

/-- Columns may be zero, lines may not. -/
def isValid (p : Point) : Bool := decide (1 ≤ p.line)

def render (p : Point) : String := s!"{p.line}:{p.column}"

theorem le_iff {p q : Point} :
    p ≤ q ↔ p.line.toNat < q.line.toNat ∨
      (p.line.toNat = q.line.toNat ∧ p.column.toNat ≤ q.column.toNat) := by
  show p.le q = true ↔ _
  simp [le, UInt32.lt_iff_toNat_lt, UInt32.le_iff_toNat_le, ← UInt32.toNat_inj]

theorem le_trans {p q r : Point} (h : p ≤ q) (h' : q ≤ r) : p ≤ r := by
  rw [le_iff] at *; omega

end Point

structure Position where
  first : Point
  last : Point
deriving DecidableEq, Inhabited

namespace Position

/-- Whether `inner` lies within `outer`; the ends may coincide. -/
def contains (outer inner : Position) : Bool :=
  decide (outer.first ≤ inner.first) && decide (inner.last ≤ outer.last)

def containsPoint (outer : Position) (p : Point) : Bool :=
  decide (outer.first ≤ p) && decide (p ≤ outer.last)

def isValid (p : Position) : Bool :=
  p.first.isValid && p.last.isValid && decide (p.first ≤ p.last)

/-- The smallest position that contains both. -/
def union (a b : Position) : Position where
  first := if a.first ≤ b.first then a.first else b.first
  last := if a.last ≤ b.last then b.last else a.last

def render (p : Position) : String := p.first.render ++ "-" ++ p.last.render

theorem contains_trans {a b c : Position} (h : a.contains b = true) (h' : b.contains c = true) :
    a.contains c = true := by
  simp only [contains, Bool.and_eq_true, decide_eq_true_eq] at *
  exact ⟨Point.le_trans h.1 h'.1, Point.le_trans h'.2 h.2⟩

end Position

end TreeInterchange
