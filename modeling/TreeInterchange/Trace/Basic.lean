import TreeInterchange.Conversion.Results
import TreeInterchange.ObjectStore.Fragment

/-!
# Transpilation traces

A trace holds a source tree and the target tree generated from it, both in one store, and the
links between their objects in both directions.
-/

namespace TreeInterchange

inductive TraceSide where
  | source
  | target
deriving DecidableEq, Inhabited

def TraceSide.render : TraceSide → String
  | .source => "source"
  | .target => "target"

/-- Why a document is no trace. -/
inductive TraceFault where
  | noTree (side : TraceSide)
  | noRoot (side : TraceSide)
  | badIssue (e : ConversionError)
  | linkWithout (side : TraceSide)

inductive TraceError where
  | document (fault : DocumentFault)
  | invalid (fault : TraceFault)
  /-- A class of one of the trees belongs to a package that was never added. -/
  | metamodelNotFound (uri : String)
  | unresolvedLink (fragment : String)
  | metamodel (e : MetamodelError)

def TraceFault.message : TraceFault → String
  | .noTree s => "missing " ++ s.render ++ "AST or " ++ s.render ++ "Result"
  | .noRoot s => s.render ++ "Result has no root"
  | .badIssue e => e.message
  | .linkWithout s => "link without " ++ s.render

def TraceError.message : TraceError → String
  | .document fault => "JSON error: " ++ fault.message
  | .invalid fault => "Invalid transpilation trace: " ++ fault.message
  | .metamodelNotFound uri => "metamodel not found: " ++ uri
  | .unresolvedLink fragment => "Unresolved link: " ++ fragment
  | .metamodel e => e.message

def TraceError.ofMetamodel : MetamodelError → TraceError
  | .packageNotFound uri => .metamodelNotFound uri
  | .document fault => .document fault
  | e => .metamodel e

/-- The links between two trees: where each source object went, and where each target object
came from. -/
structure TraceLinks where
  destinations : Table ObjectId ObjectId
  sources : Table ObjectId ObjectId

namespace TraceLinks

def empty : TraceLinks := ⟨.empty, .empty⟩

instance : Inhabited TraceLinks := ⟨empty⟩

/-- What the source object says: it settles the destination, and the way back only if that is
still open. -/
def addDestination (l : TraceLinks) (source target : ObjectId) : TraceLinks :=
  ⟨l.destinations.insert source target, l.sources.insertIfNew target source⟩

/-- What the target object says: it settles the source, and the way there only if that is still
open. -/
def addSource (l : TraceLinks) (source target : ObjectId) : TraceLinks :=
  ⟨l.destinations.insertIfNew source target, l.sources.insert target source⟩

/-- What the table of links says: it settles both ways. -/
def addLink (l : TraceLinks) (source target : ObjectId) : TraceLinks :=
  ⟨l.destinations.insert source target, l.sources.insert target source⟩

end TraceLinks

structure Trace where
  sourceCode : String
  generatedCode : String
  metamodel : Metamodel
  store : ObjectStore
  sourceRoot : ObjectId
  targetRoot : ObjectId
  links : TraceLinks
  sourceIssues : List Issue
  targetIssues : List Issue
deriving Inhabited

namespace Trace

def root (t : Trace) : TraceSide → ObjectId
  | .source => t.sourceRoot
  | .target => t.targetRoot

def issues (t : Trace) : TraceSide → List Issue
  | .source => t.sourceIssues
  | .target => t.targetIssues

end Trace

end TreeInterchange
