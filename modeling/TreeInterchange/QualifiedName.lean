import TreeInterchange.Text.Split

/-!
# Qualified names

A node type or an enumeration is named by a package and a simple name. The written form puts
a dot between them, and is the simple name alone when the package is empty.
-/

namespace TreeInterchange

structure QualifiedName where
  package : String
  name : String
deriving DecidableEq, Inhabited

namespace QualifiedName

/-- Cuts a dotted text at its last dot; a text without one names a type of the empty package. -/
def parse (s : String) : QualifiedName :=
  match Text.splitLast '.' s with
  | some (package, name) => ⟨package, name⟩
  | none => ⟨"", s⟩

def render (n : QualifiedName) : String :=
  if n.package = "" then n.name else n.package ++ "." ++ n.name

/-- By package, then by simple name, both in the order of code points. -/
def cmp (a b : QualifiedName) : Ordering :=
  (compare a.package b.package).then (compare a.name b.name)

def le (a b : QualifiedName) : Bool := (a.cmp b).isLE

end QualifiedName

end TreeInterchange
