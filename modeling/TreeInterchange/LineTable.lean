import TreeInterchange.Position

/-!
# From offsets to points

Offsets and columns are counted in bytes of the UTF-8 form. A line table holds the offset at
which each line starts: the first at zero, every other one just after a newline. The line of an
offset is found by bisection, as the last one that does not start beyond the offset.
-/

namespace TreeInterchange

structure LineTable where
  /-- Offsets at which lines start, in ascending order. -/
  starts : List Nat
  length : Nat
deriving DecidableEq, Inhabited

namespace LineTable

/-- Offsets just after each newline of `bytes`, whose first byte stands at `offset`. -/
def startsAfter (offset : Nat) : List UInt8 → List Nat
  | [] => []
  | b :: bs =>
    let rest := startsAfter (offset + 1) bs
    if b = 10 then (offset + 1) :: rest else rest

def ofBytes (bytes : List UInt8) : LineTable := ⟨0 :: startsAfter 0 bytes, bytes.length⟩

/-- The UTF-8 form of a text. -/
def bytesOf (text : String) : List UInt8 := text.toUTF8.data.toList

def ofText (text : String) : LineTable := ofBytes (bytesOf text)

/-- Looks for `o` in an ascending list, between the places `lo` and `hi`. The answer is its place,
or else the place where it would have to be put in. -/
def bisect (starts : List Nat) (o lo hi : Nat) : Except Nat Nat :=
  if lo < hi then
    let mid := (lo + hi) / 2
    let start := starts.getD mid 0
    if start = o then .ok mid
    else if start < o then bisect starts o (mid + 1) hi
    else bisect starts o lo mid
  else .error lo
termination_by hi - lo

/-- The line of the byte at `o`, counted from zero. -/
def lineAt (t : LineTable) (o : Nat) : Nat :=
  match bisect t.starts o 0 t.starts.length with
  | .ok line => line
  | .error next => next - 1

/-- The point at `offset`; offsets beyond the text count as its end. -/
def point (t : LineTable) (offset : Nat) : Point :=
  let o := min offset t.length
  let line := t.lineAt o
  ⟨UInt32.ofNat (line + 1), UInt32.ofNat (o - t.starts.getD line 0)⟩

def lineCount (t : LineTable) : Nat := t.starts.length

end LineTable

end TreeInterchange
