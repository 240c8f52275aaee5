import TreeInterchange.Issue
import TreeInterchange.Json.Printing
import TreeInterchange.Json.Reading

/-!
# Positions and issues as JSON records

A record is written as an object with its fields in declaration order. It is read from an
object, where members with other names are skipped and a field may stand only once, or from
an array with exactly one item for each field. Reading starts from the JSON as written, so
a skipped member is never decoded.
-/

namespace TreeInterchange.Record

/-- What is written for each of `fields`, absent where an object has no such member. -/
def fields? (fields : List String) : WrittenJson → Option (List (Option WrittenJson))
  | .array items => if items.length = fields.length then some (items.map some) else none
  | .object members => do
    let named ← members.mapM fun (key, v) => (WrittenChar.text? key).map fun k => (k, v)
    fields.mapM fun field =>
      match named.filter (·.1 = field) with
      | [] => some none
      | [m] => some (some m.2)
      | _ => none
  | _ => none

/-- An integer of 32 bits, written without sign, point or exponent. -/
def uint32? : WrittenJson → Option UInt32
  | .number n =>
    match n.value? with
    | some (.int v) => Number.toUInt32? v
    | _ => none
  | _ => none

def text? : WrittenJson → Option String
  | .string s => WrittenChar.text? s
  | _ => none

/-- The name of a constant: a string, or the only key of an object that holds null. -/
def constant? : WrittenJson → Option String
  | .string s => WrittenChar.text? s
  | .object [(key, .null)] => WrittenChar.text? key
  | _ => none

def point? (v : WrittenJson) : Option Point :=
  match fields? ["line", "column"] v with
  | some [some line, some column] => do return ⟨← uint32? line, ← uint32? column⟩
  | _ => none

def position? (v : WrittenJson) : Option Position :=
  match fields? ["start", "end"] v with
  | some [some first, some last] => do return ⟨← point? first, ← point? last⟩
  | _ => none

def issueTypeName : IssueType → String
  | .lexical => "Lexical"
  | .syntactic => "Syntactic"
  | .semantic => "Semantic"
  | .transformation => "Translation"

def severityName : Severity → String
  | .error => "Error"
  | .warning => "Warning"
  | .info => "Info"

def issueType? (v : WrittenJson) : Option IssueType :=
  (constant? v).bind fun s => IssueType.all.find? (issueTypeName · = s)

def severity? (v : WrittenJson) : Option Severity :=
  (constant? v).bind fun s => Severity.all.find? (severityName · = s)

/-- A value that may be null or left out. -/
def optional? {α : Type} (read : WrittenJson → Option α) : Option WrittenJson → Option (Option α)
  | none => some none
  | some .null => some none
  | some v => (read v).map some

def issue? (v : WrittenJson) : Option Issue :=
  match fields? ["issue_type", "severity", "message", "position"] v with
  | some [some type, some severity, some message, position] => do
    return ⟨← issueType? type, ← severity? severity, ← text? message,
      ← optional? position? position⟩
  | _ => none

def ofPoint (p : Point) : Json :=
  .object [("line", .integer p.line.toNat), ("column", .integer p.column.toNat)]

def ofPosition (p : Position) : Json :=
  .object [("start", ofPoint p.first), ("end", ofPoint p.last)]

def ofIssueType (t : IssueType) : Json := .string (issueTypeName t)

def ofSeverity (s : Severity) : Json := .string (severityName s)

def ofIssue (i : Issue) : Json :=
  .object [("issue_type", ofIssueType i.type), ("severity", ofSeverity i.severity),
    ("message", .string i.message), ("position", (i.position.map ofPosition).getD .null)]

end TreeInterchange.Record
