import TreeInterchange.Conversion.Nodes
import TreeInterchange.Conversion.Objects
import TreeInterchange.Issue

/-!
# Converting issues and results

A result is the root of a tree, if there is one, together with the issues found on the way.
-/

namespace TreeInterchange

structure TreeResult where
  root : Option NodeId
  issues : List Issue
deriving DecidableEq, Inhabited

namespace TreeResult

/-- A result is correct when none of its issues is an error. -/
def isCorrect (r : TreeResult) : Bool := Issue.noErrors r.issues

end TreeResult

def Issue.toObject (options : ConversionOptions) (i : Issue) (s : ObjectStore) :
    ObjectId × ObjectStore :=
  let (id, s) := s.newObject (.ast "Issue")
  let s := s.set id "type" (.enumeration i.type.ordinal)
  let s := s.set id "message" (.string i.message)
  let s := s.set id "severity" (.enumeration i.severity.ordinal)
  match options.positions, i.position with
  | true, some p =>
    let (position, s) := ToObjects.positionObject p s
    (id, s.set id "position" (.contained position))
  | _, _ => (id, s)

def Issue.toObjectsAll (options : ConversionOptions) :
    List Issue → ObjectStore → List ObjectId × ObjectStore
  | [], s => ([], s)
  | i :: is, s =>
    let (id, s) := i.toObject options s
    let (ids, s) := toObjectsAll options is s
    (id :: ids, s)

def TreeResult.storeIssues (options : ConversionOptions) (issues : List Issue) (object : ObjectId)
    (s : ObjectStore) : ObjectStore :=
  let (ids, s) := Issue.toObjectsAll options issues s
  s.set object "issues" (.containedMany ids)

def TreeResult.toObject (r : TreeResult) (f : Forest) (m : Metamodel) (options : ConversionOptions)
    (s : ObjectStore) : Except ConversionError ObjectId × ObjectStore :=
  let (object, s) := s.newObject (.ast "Result")
  match r.root with
  | none => (.ok object, storeIssues options r.issues object s)
  | some root =>
    match f.toObjects root m options s with
    | (.ok id, s) =>
      (.ok object, storeIssues options r.issues object (s.set object "root" (.contained id)))
    | (.error e, s) => (.error e, s)

namespace ObjectStore

def ordinal? (s : ObjectStore) (id : ObjectId) (feature : String) : Option UInt32 :=
  match s.value? id feature with
  | some (.enumeration o) => some o
  | some (.integer n) => Number.toUInt32? n.toInt
  | _ => none

/-- The constant that an ordinal names, or the default where there is no ordinal. -/
def constant {α : Type} (enumeration : String) (ofOrdinal? : UInt32 → Option α) (default : α) :
    Option UInt32 → Except ConversionError α
  | none => .ok default
  | some o =>
    match ofOrdinal? o with
    | some a => .ok a
    | none => .error (.enumOutOfRange enumeration o)

def toIssue (s : ObjectStore) (id : ObjectId) : Except ConversionError Issue := do
  let type ← constant "IssueType" IssueType.ofOrdinal? .semantic (s.ordinal? id "type")
  let severity ← constant "IssueSeverity" Severity.ofOrdinal? .error (s.ordinal? id "severity")
  return ⟨type, severity, ((s.value? id "message").bind (·.text?)).getD "", s.position? id⟩

def issuesIn (s : ObjectStore) (id : ObjectId) : Except ConversionError (List Issue) :=
  (s.contentsIn id "issues").mapM s.toIssue

/-- The result that an object describes, with its tree converted into a forest. -/
def toResult (s : ObjectStore) (id : ObjectId) (m : Metamodel) (catalog : TypeCatalog)
    (options : ConversionOptions) (f : Forest) : Except ConversionError TreeResult × Forest :=
  match s.contained? id "root" with
  | none => ((s.issuesIn id).map fun issues => ⟨none, issues⟩, f)
  | some root =>
    match s.toNodes root m catalog options f with
    | (.ok node, f) => ((s.issuesIn id).map fun issues => ⟨some node, issues⟩, f)
    | (.error e, f) => (.error e, f)

end ObjectStore

end TreeInterchange
