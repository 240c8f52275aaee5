import TreeInterchange.ObjectStore.Basic

/-!
# Fragment paths

A fragment is the way from the root of a containment tree down to an object. The root is
`/`; below it `//@declarations.0/@name` is the object in `name` of the first object in
`declarations`. The place is written exactly where the feature holds a list.
-/

namespace TreeInterchange

/-- One step of a fragment: a feature, and a place where the feature holds a list. -/
structure Segment where
  feature : String
  place : Option Nat
deriving DecidableEq, Inhabited

namespace Segment

def render (g : Segment) : String :=
  match g.place with
  | some i => "@" ++ g.feature ++ "." ++ toString i
  | none => "@" ++ g.feature

def parse? (s : String) : Option Segment := do
  let body ← Text.strip? "@" s
  match Text.splitLast '.' body with
  | some (feature, place) => return ⟨feature, some (← Number.readIndex? place)⟩
  | none => return ⟨body, none⟩

def renderPath : List Segment → String
  | [] => "/"
  | gs => "//" ++ Text.join "/" (gs.map render)

/-- Reads a whole way down; a number sign in front is ignored. -/
def parsePath? (s : String) : Option (List Segment) :=
  let path := (Text.strip? "#" s).getD s
  if path = "" ∨ path = "/" then some []
  else (Text.strip? "//" path).bind fun rest => (Text.splitAll '/' rest).mapM parse?

end Segment

namespace ObjectStore

/-- The step from the container down to the object; none if the list does not name the object. -/
def segment? (s : ObjectStore) (c : Container) (id : ObjectId) : Option Segment :=
  match s.value? c.owner c.feature with
  | some (.containedMany ids) => (ids.findIdx? (· = id)).map fun i => ⟨c.feature, some i⟩
  | _ => some ⟨c.feature, none⟩

/-- The way from `root` down to `id`, past at most `steps` containers. -/
def segmentsWithin (s : ObjectStore) (root : ObjectId) : Nat → ObjectId → Option (List Segment)
  | 0, id => if id = root then some [] else none
  | steps + 1, id =>
    if id = root then some []
    else do
      let c ← (s.get id).container
      let g ← s.segment? c id
      return (← s.segmentsWithin root steps c.owner) ++ [g]

/-- The way from `root` down to `id`, if `root` contains it. -/
def segments? (s : ObjectStore) (root id : ObjectId) : Option (List Segment) :=
  s.segmentsWithin root s.size id

/-- The fragment of `id` relative to `root`, if `root` contains it. -/
def fragmentFrom? (s : ObjectStore) (root id : ObjectId) : Option String :=
  (s.segments? root id).map Segment.renderPath

def fragment (s : ObjectStore) (id : ObjectId) : String :=
  (s.fragmentFrom? (s.rootOf id) id).getD "/"

/-- The object that one step leads to. A list without a place stands for its first object, and a
single object may be given the place zero. -/
def step? (s : ObjectStore) (id : ObjectId) (g : Segment) : Option ObjectId :=
  match s.value? id g.feature, g.place with
  | some (.contained c), none => some c
  | some (.contained c), some 0 => some c
  | some (.containedMany ids), some i => ids[i]?
  | some (.containedMany ids), none => ids.head?
  | _, _ => none

/-- The object that a fragment leads to from `root`. -/
def resolve? (s : ObjectStore) (root : ObjectId) (path : String) : Option ObjectId :=
  (Segment.parsePath? path).bind fun gs => gs.foldlM s.step? root

end ObjectStore

end TreeInterchange
