import TreeInterchange.Forest.Basic
import TreeInterchange.Text.Lowercase

/-!
# Source trees

What a transformer sees of a parse tree: elements with a kind, perhaps a position and a text,
and the children that matter. A field of an element is named after the kind of the children
in it, without regard to case and underscores.
-/

namespace TreeInterchange

/-- What is known of one element of a source tree. -/
structure SourceInfo where
  kind : String
  /-- Whether the element is a rule of the grammar and not a token. -/
  isRule : Bool
  position : Option Position
  text : Option String
  /-- Whether the parser had to recover from an error within the element. -/
  hasError : Bool
  /-- The origin of nodes made from the element, where it is itself a record of one. -/
  origin : Option Origin
deriving DecidableEq, Inhabited

inductive SourceTree where
  | mk (info : SourceInfo) (children : List SourceTree)
deriving Inhabited

/-- None, one or many, as a field or a rule picks them. -/
inductive Selection (α : Type) where
  | none
  | one (a : α)
  | many (as : List α)
deriving DecidableEq, Inhabited

namespace Selection

variable {α : Type}

def isNone : Selection α → Bool
  | .none => true
  | _ => false

def toList : Selection α → List α
  | .none => []
  | .one a => [a]
  | .many as => as

def first? (s : Selection α) : Option α := s.toList.head?

def ofOption : Option α → Selection α
  | .some a => .one a
  | .none => .none

end Selection

/-- A field name as it is compared: lower case and without underscores. -/
def fieldKey (name : String) : List Char := Text.lowercase (name.toList.filter (· ≠ '_'))

def fieldMatches (kind field : String) : Bool := fieldKey kind == fieldKey field

namespace SourceTree

def info : SourceTree → SourceInfo
  | .mk i _ => i

def children : SourceTree → List SourceTree
  | .mk _ cs => cs

def kind (t : SourceTree) : String := t.info.kind

/-- The children in a field. The field `children` holds them all, however many there are; any
other field with a single child holds just that one. -/
def field (t : SourceTree) (name : String) : Selection SourceTree :=
  if fieldMatches "children" name then .many t.children
  else match t.children.filter (fieldMatches ·.kind name) with
    | [] => .none
    | [c] => .one c
    | cs => .many cs

/-- The element that a path of child places leads to. -/
def at? : SourceTree → List Nat → Option SourceTree
  | t, [] => some t
  | t, i :: path => (t.children[i]?).bind (at? · path)

def fieldText? (t : SourceTree) (name : String) : Option String :=
  (t.field name).first?.bind (·.info.text)

mutual

def height : SourceTree → Nat
  | .mk _ cs => heightOfAll cs + 1

def heightOfAll : List SourceTree → Nat
  | [] => 0
  | t :: ts => max t.height (heightOfAll ts)

end

mutual

def walk : SourceTree → List SourceTree
  | .mk i cs => .mk i cs :: walkAll cs

def walkAll : List SourceTree → List SourceTree
  | [] => []
  | t :: ts => t.walk ++ walkAll ts

end

end SourceTree

end TreeInterchange
