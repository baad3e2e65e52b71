import ImageSpec.SemanticError
import ImageSpec.UnitGraph

namespace ImageSpec

/-!
# Depth-first walks and the order of units

A walk visits `0, 1, …` in order; before it leaves a visited vertex it visits the neighbours of the
vertex that are not yet visited, in their order.  The walk keeps the open visits on a stack of its
own, and `Walk.finished` lists the vertices as they are left.

Two passes look for units that wait for each other.  The first is a walk over dependents which keeps
vertices on its stack, not visits: it puts all new neighbours of a vertex there at once, so that one
vertex may stand on the stack several times.  The second takes the units as the first left them, the
last one first, and searches over prerequisites; a unit from which it still comes to another one has
a prerequisite that was left too late.

Units keep the order of the text, except that a prerequisite which comes later in the text is moved
to just before the first unit that needs it: `UnitGraph.order` is the order in which a walk over
prerequisites leaves the units.  If units wait for each other there is no order, and
`UnitGraph.cycle?` names one of them.
-/

/-- A vertex whose neighbours are being visited, with those that are still to be looked at. -/
structure Visit (n : Nat) where
  vertex : Fin n
  pending : List (Fin n)

/-- How far a walk has come: the vertices that it has not seen, and those that it has left, the
    latest first. -/
structure Walk (n : Nat) where
  unseen : List (Fin n)
  finished : List (Fin n) := []

namespace Walk

variable {n : Nat}

/-- Before the first step of a walk. -/
def start (n : Nat) : Walk n where
  unseen := List.finRange n

/-- Notes that a vertex has been seen. -/
def discover (w : Walk n) (v : Fin n) : Walk n :=
  { w with unseen := w.unseen.erase v }

/-- Notes that a vertex has been left. -/
def finish (w : Walk n) (v : Fin n) : Walk n :=
  { w with finished := v :: w.finished }

/-- Seeing a new vertex leaves fewer unseen. -/
theorem length_discover_lt {w : Walk n} {v : Fin n} (h : v ∈ w.unseen) :
    (w.discover v).unseen.length < w.unseen.length := by
  have := List.length_pos_of_mem h
  simp only [discover, List.length_erase_of_mem h]
  omega

/-- The work that open visits still make. -/
def load : List (Visit n) → Nat
  | [] => 0
  | visit :: rest => visit.pending.length + 1 + load rest

/-- Goes on until all open visits are closed. -/
def run (next : Fin n → List (Fin n)) (w : Walk n) (stack : List (Visit n)) : Walk n :=
  match stack with
  | [] => w
  | ⟨v, []⟩ :: rest => run next (w.finish v) rest
  | ⟨v, u :: pending⟩ :: rest =>
    if u ∈ w.unseen then run next (w.discover u) (⟨u, next u⟩ :: ⟨v, pending⟩ :: rest)
    else run next w (⟨v, pending⟩ :: rest)
termination_by (w.unseen.length, load stack)
decreasing_by
  · exact Prod.Lex.right _ (by simp [load])
  · rename_i h
    exact Prod.Lex.left _ _ (length_discover_lt h)
  · exact Prod.Lex.right _ (by simp [load])

/-- Visits a vertex, unless it has been visited. -/
def visit (next : Fin n → List (Fin n)) (w : Walk n) (v : Fin n) : Walk n :=
  if v ∈ w.unseen then run next (w.discover v) [⟨v, next v⟩] else w

/-- The walk through all vertices. -/
def all (next : Fin n → List (Fin n)) : Walk n :=
  (List.finRange n).foldl (visit next) (start n)

/-! ### Looking for a cycle -/

/-- Notes that a vertex has come up again: it has been left, unless that was noted before. -/
def leave (w : Walk n) (v : Fin n) : Walk n := if v ∈ w.finished then w else w.finish v

/-- Leaving a vertex makes none seen or unseen. -/
@[simp] theorem unseen_leave (w : Walk n) (v : Fin n) : (w.leave v).unseen = w.unseen := by
  unfold leave
  split <;> rfl

/-- Those of some vertices that have not been seen. -/
def fresh (w : Walk n) (us : List (Fin n)) : List (Fin n) := us.filter fun u => u ∈ w.unseen

/-- Goes on until the stack is empty.  A vertex is seen when it first comes up and left when it
    comes up again; one that is its own neighbour breaks the search off. -/
def search (next : Fin n → List (Fin n)) (w : Walk n) (stack : List (Fin n)) :
    Except (Fin n) (Walk n) :=
  match stack with
  | [] => .ok w
  | v :: rest =>
    if v ∈ w.unseen then
      if v ∈ next v then .error v
      else search next (w.discover v) ((w.discover v).fresh (next v) ++ v :: rest)
    else search next (w.leave v) rest
termination_by (w.unseen.length, stack.length)
decreasing_by
  · rename_i h _
    exact Prod.Lex.left _ _ (length_discover_lt h)
  · rw [unseen_leave]
    exact Prod.Lex.right _ (by simp)

/-- Searches from each of some vertices that has not been seen. -/
def searchFrom (next : Fin n → List (Fin n)) (w : Walk n) :
    List (Fin n) → Except (Fin n) (Walk n)
  | [] => .ok w
  | v :: rest =>
    if v ∈ w.unseen then
      match search next w [v] with
      | .error u => .error u
      | .ok w => searchFrom next w rest
    else searchFrom next w rest

/-- The next vertex that a search comes to, with the vertices then unseen and the stack. -/
def draw (next : Fin n → List (Fin n)) (unseen : List (Fin n)) :
    List (Fin n) → Option (Fin n × List (Fin n) × List (Fin n))
  | [] => none
  | v :: rest =>
    if v ∈ unseen then
      some (v, unseen.erase v, (next v).filter (fun u => u ∈ unseen.erase v) ++ rest)
    else draw next unseen rest

/-- The second vertex that a search comes to from the first of some vertices from which it comes to
    a second one. -/
def second? (next : Fin n → List (Fin n)) (unseen : List (Fin n)) :
    List (Fin n) → Option (Fin n)
  | [] => none
  | v :: rest =>
    match draw next unseen [v] with
    | none => second? next unseen rest
    | some (_, unseen, stack) =>
      match draw next unseen stack with
      | none => second? next unseen rest
      | some (u, _, _) => some u

end Walk

namespace UnitGraph

variable {n : Nat}

/-- A unit that is, over some steps, its own prerequisite. -/
def cycle? (g : UnitGraph n) : Option (Fin n) :=
  match Walk.searchFrom g.dependents (Walk.start n) (List.finRange n) with
  | .error u => some u
  | .ok w => Walk.second? g.prerequisites (List.finRange n) w.finished

/-- The order in which the units are built, or the fault that a unit stands in a cycle. -/
def order (g : UnitGraph n) : Except SemanticError (List (Fin n)) :=
  match g.cycle? with
  | some u => .error ⟨(g.unit u).position, .dependencyCycle (g.unit u).label⟩
  | none => .ok (Walk.all g.prerequisites).finished.reverse

end UnitGraph

end ImageSpec
