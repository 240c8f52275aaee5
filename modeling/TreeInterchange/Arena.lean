/-!
# Room in an arena

Nodes of a forest and objects of a store are entries of an arena. Each is called by its place,
which is the number of entries that were there before it. Places are 32-bit numbers, and so is the
number of nodes where the places of a forest are counted up. Both are written as natural numbers
here, and what makes entries has to stay within the room there is for them.
-/

namespace TreeInterchange

/-- How many entries an arena has room for, as their places are 32-bit numbers. -/
def arenaRoom : Nat := UInt32.size

end TreeInterchange
