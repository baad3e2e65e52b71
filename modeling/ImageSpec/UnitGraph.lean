import ImageSpec.Position

namespace ImageSpec

/-!
# Units and what they come after

The units of a build are its declarations at the top level, in the order of the text.  A unit may
have prerequisites, which have to come before it.
-/

/-- A unit: its name in messages and its position. -/
structure BuildUnit where
  label : String
  position : Position
deriving DecidableEq, Repr

/-- One of `n` units and a unit that has to come before it. -/
structure Edge (n : Nat) where
  dependent : Fin n
  prerequisite : Fin n
deriving DecidableEq, Repr

/-- The units `0, …, n - 1`, and the edges between them in the order in which they were listed. -/
structure UnitGraph (n : Nat) where
  unit : Fin n → BuildUnit
  edges : List (Edge n) := []

namespace UnitGraph

variable {n : Nat}

/-- The graph with one more edge. -/
def addEdge (g : UnitGraph n) (e : Edge n) : UnitGraph n := { g with edges := g.edges ++ [e] }

/-- The prerequisites of a unit, as listed. -/
def prerequisites (g : UnitGraph n) (u : Fin n) : List (Fin n) :=
  g.edges.filterMap fun e => if e.dependent = u then some e.prerequisite else none

/-- The units that a unit is a prerequisite of, as listed. -/
def dependents (g : UnitGraph n) (u : Fin n) : List (Fin n) :=
  g.edges.filterMap fun e => if e.prerequisite = u then some e.dependent else none

end UnitGraph

end ImageSpec
