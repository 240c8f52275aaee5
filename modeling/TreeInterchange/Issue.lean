import TreeInterchange.Position

/-!
# Issues

Something to report about a source text or its tree: the stage that found it, how severe it
is, a message, and a position if one is known. The kinds are written as ordinals in
documents, so the order of the constructors is part of the format.
-/

namespace TreeInterchange

/-- The stage that raised an issue. -/
inductive IssueType where
  | lexical
  | syntactic
  | semantic
  | transformation
deriving DecidableEq, Inhabited

inductive Severity where
  | error
  | warning
  | info
deriving DecidableEq, Inhabited

namespace IssueType

def all : List IssueType := [.lexical, .syntactic, .semantic, .transformation]

def literal : IssueType → String
  | .lexical => "LEXICAL"
  | .syntactic => "SYNTACTIC"
  | .semantic => "SEMANTIC"
  | .transformation => "TRANSLATION"

def ordinal : IssueType → UInt32
  | .lexical => 0
  | .syntactic => 1
  | .semantic => 2
  | .transformation => 3

def ofOrdinal? (n : UInt32) : Option IssueType := all[n.toNat]?

theorem ofOrdinal?_ordinal (t : IssueType) : ofOrdinal? t.ordinal = some t := by cases t <;> rfl

end IssueType

namespace Severity

def all : List Severity := [.error, .warning, .info]

def literal : Severity → String
  | .error => "ERROR"
  | .warning => "WARNING"
  | .info => "INFO"

def ordinal : Severity → UInt32
  | .error => 0
  | .warning => 1
  | .info => 2

def ofOrdinal? (n : UInt32) : Option Severity := all[n.toNat]?

theorem ofOrdinal?_ordinal (s : Severity) : ofOrdinal? s.ordinal = some s := by cases s <;> rfl

end Severity

structure Issue where
  type : IssueType
  severity : Severity
  message : String
  position : Option Position
deriving DecidableEq, Inhabited

namespace Issue

def render (i : Issue) : String :=
  let place := match i.position with
    | some p => " at " ++ p.render
    | none => ""
  i.severity.literal ++ " " ++ i.type.literal ++ ": " ++ i.message ++ place

/-- A list of issues is harmless when none of them is an error. -/
def noErrors (issues : List Issue) : Bool := issues.all (·.severity ≠ .error)

end Issue

end TreeInterchange
