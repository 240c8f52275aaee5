import TreeInterchange.LineTable
import TreeInterchange.SourceTree.Basic

/-!
# Concrete trees

A concrete tree keeps every token of a text, blanks and comments included, so that the place
of an element follows from the lengths of the tokens before it. Seen as a source tree,
tokens that do not matter are left out, while texts and error marks still take them in.
-/

namespace TreeInterchange

inductive ConcreteTree where
  | token (kind text : String)
  | rule (kind : String) (children : List ConcreteTree)
deriving Inhabited

/-- How to see concrete trees: which kinds are trivia, which mark errors, and where lines start. -/
structure ConcreteView where
  trivia : List String
  errors : List String
  lines : LineTable

namespace ConcreteTree

def kind : ConcreteTree → String
  | .token k _ => k
  | .rule k _ => k

mutual

def text : ConcreteTree → String
  | .token _ t => t
  | .rule _ cs => textOfAll cs

def textOfAll : List ConcreteTree → String
  | [] => ""
  | c :: cs => c.text ++ textOfAll cs

end

def length (t : ConcreteTree) : Nat := t.text.utf8ByteSize

mutual

def mentions (kinds : List String) : ConcreteTree → Bool
  | .token k _ => k ∈ kinds
  | .rule k cs => decide (k ∈ kinds) || anyMentions kinds cs

def anyMentions (kinds : List String) : List ConcreteTree → Bool
  | [] => false
  | c :: cs => c.mentions kinds || anyMentions kinds cs

end

/-- What a source tree tells of an element that starts at `offset`. -/
def sourceInfo (view : ConcreteView) (offset : Nat) (t : ConcreteTree) (isRule : Bool) :
    SourceInfo where
  kind := t.kind
  isRule := isRule
  position := some ⟨view.lines.point offset, view.lines.point (offset + t.length)⟩
  text := some t.text
  hasError := t.mentions view.errors
  origin := none

mutual

/-- The element that starts at `offset` as a source tree. -/
def toSource (view : ConcreteView) (offset : Nat) : ConcreteTree → SourceTree
  | .token k t => .mk (sourceInfo view offset (.token k t) false) []
  | .rule k cs => .mk (sourceInfo view offset (.rule k cs) true) (toSources view offset cs)

/-- Neighbours, the first of which starts at `offset`, without trivia. -/
def toSources (view : ConcreteView) (offset : Nat) : List ConcreteTree → List SourceTree
  | [] => []
  | c :: cs =>
    let rest := toSources view (offset + c.length) cs
    if c.kind ∈ view.trivia then rest else toSource view offset c :: rest

end

def children : ConcreteTree → List ConcreteTree
  | .token _ _ => []
  | .rule _ cs => cs

/-- The element that a path of child places leads to, with its offset; all children count. -/
def at? (offset : Nat) : ConcreteTree → List Nat → Option (Nat × ConcreteTree)
  | t, [] => some (offset, t)
  | t, i :: path => do
    let c ← t.children[i]?
    at? (offset + ((t.children.take i).map length).sum) c path

end ConcreteTree

end TreeInterchange
