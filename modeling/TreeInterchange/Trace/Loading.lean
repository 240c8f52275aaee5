import TreeInterchange.ObjectStore.Reading
import TreeInterchange.Metamodel.Builtin
import TreeInterchange.Trace.Basic

/-!
# Loading traces

A trace document is an object document whose root is a trace. Each side is given as a tree or
as a result that holds one. Links come from three places, each of which may displace what
the one before said: `destination` references of source objects, `origin` references of
target objects, and the table of links.
-/

namespace TreeInterchange.Trace

def textOf (s : ObjectStore) (id : ObjectId) (feature : String) : String :=
  ((s.value? id feature).bind (·.text?)).getD ""

def readSide (s : ObjectStore) (trace : ObjectId) (side : TraceSide) :
    Except TraceError (ObjectId × List Issue) := do
  match s.contained? trace (side.render ++ "AST") with
  | some root => return (root, [])
  | none =>
    match s.contained? trace (side.render ++ "Result") with
    | none => throw (.invalid (.noTree side))
    | some result =>
      match s.contained? result "root" with
      | none => throw (.invalid (.noRoot side))
      | some root =>
        let issues ← (s.issuesIn result).mapError fun e => .invalid (.badIssue e)
        return (root, issues)

/-- The object that a single reference names, if it lies in the tree of `root`. -/
def referenceInto? (s : ObjectStore) (root id : ObjectId) (feature : String) : Option ObjectId :=
  match s.value? id feature with
  | some (.reference target) => if s.isWithin root target then some target else none
  | _ => none

/-- The links that references between the trees make. -/
def referenceLinks (s : ObjectStore) (sourceRoot targetRoot : ObjectId) : TraceLinks :=
  let fromSources := (s.tree sourceRoot).foldl (fun l source =>
    match referenceInto? s targetRoot source "destination" with
    | some target => l.addDestination source target
    | none => l) TraceLinks.empty
  (s.tree targetRoot).foldl (fun l target =>
    match referenceInto? s sourceRoot target "origin" with
    | some source => l.addSource source target
    | none => l) fromSources

def linkFragment (s : ObjectStore) (link : ObjectId) (side : TraceSide) :
    Except TraceError String :=
  match s.value? link side.render with
  | some (.string fragment) => .ok fragment
  | _ => .error (.invalid (.linkWithout side))

def resolveLink (s : ObjectStore) (root : ObjectId) (fragment : String) :
    Except TraceError ObjectId :=
  match s.resolve? root fragment with
  | some id => .ok id
  | none => .error (.unresolvedLink fragment)

/-- Adds one entry of the table of links. -/
def addEntry (s : ObjectStore) (sourceRoot targetRoot : ObjectId) (l : TraceLinks)
    (link : ObjectId) : Except TraceError TraceLinks := do
  let sourceFragment ← linkFragment s link .source
  let targetFragment ← linkFragment s link .target
  let source ← resolveLink s sourceRoot sourceFragment
  let target ← resolveLink s targetRoot targetFragment
  return l.addLink source target

/-- The trace that a document describes. -/
def ofDocument (m : Metamodel) (document : Json) : Except TraceError Trace :=
  match ObjectDocument.read m (some Builtin.traceClass) document .empty with
  | (.error e, _) => .error (.ofMetamodel e)
  | (.ok trace, s) => do
    let (sourceRoot, sourceIssues) ← readSide s trace .source
    let (targetRoot, targetIssues) ← readSide s trace .target
    let links ← (s.contentsIn trace "links").foldlM (addEntry s sourceRoot targetRoot)
      (referenceLinks s sourceRoot targetRoot)
    return { sourceCode := textOf s trace "originalCode"
             generatedCode := textOf s trace "generatedCode"
             metamodel := m
             store := s
             sourceRoot, targetRoot, links, sourceIssues, targetIssues }

def ofBytes (m : Metamodel) (bytes : ByteArray) : Except TraceError Trace :=
  match Json.ofBytes? bytes with
  | some document => ofDocument m document
  | none => .error (.document .notJson)

end TreeInterchange.Trace

namespace TreeInterchange

structure TraceLoader where
  metamodel : Metamodel
  /-- The URIs of the packages that each document brought. -/
  loaded : Table String (List String)

namespace TraceLoader

def initial : TraceLoader := ⟨.initial, .empty⟩

instance : Inhabited TraceLoader := ⟨initial⟩

def add (l : TraceLoader) (name : String) (bytes : ByteArray) : Except TraceError TraceLoader :=
  match MetamodelDocument.load l.metamodel bytes with
  | .ok (uris, metamodel) => .ok ⟨metamodel, l.loaded.insert name uris⟩
  | .error e => .error (.ofMetamodel e)

def load (l : TraceLoader) (bytes : ByteArray) : Except TraceError Trace :=
  Trace.ofBytes l.metamodel bytes

end TraceLoader

end TreeInterchange
