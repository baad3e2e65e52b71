import ImageSpec.Proofs.Search
import ImageSpec.UnitGraph.Walk

namespace ImageSpec.UnitGraph

open Relation

/-!
# The order of units

* `Awaits`, `Acyclic` — a unit waits for its prerequisites, and no unit waits for itself.
* `Topological` — what an order of the units has to be: each unit once, prerequisites first.
* `cycle?_eq_none_iff` — the two passes of the search find a unit exactly in graphs with a cycle.
* `transGen_of_cycle?` — the unit that they find lies on a cycle.
* `topological_of_order` — the walk over prerequisites gives an order.
-/

variable {n : Nat}

/-- The unit `u` waits for its prerequisite `p`. -/
def Awaits (g : UnitGraph n) (u p : Fin n) : Prop := ⟨u, p⟩ ∈ g.edges

/-- No unit waits for itself, over however many steps. -/
def Acyclic (g : UnitGraph n) : Prop := ∀ u, ¬ TransGen g.Awaits u u

/-- An order of the units: each of them once, and no unit before one of its prerequisites. -/
structure Topological (g : UnitGraph n) (order : List (Fin n)) : Prop where
  perm : order.Perm (List.finRange n)
  before : ∀ u p, g.Awaits u p → order.idxOf p < order.idxOf u

variable {g : UnitGraph n}

theorem mem_prerequisites {u p : Fin n} : p ∈ g.prerequisites u ↔ g.Awaits u p := by
  simp only [prerequisites, Awaits, List.mem_filterMap, Option.ite_none_right_eq_some,
    Option.some.injEq]
  constructor
  · rintro ⟨⟨_, _⟩, he, rfl, rfl⟩
    exact he
  · intro he
    exact ⟨_, he, rfl, rfl⟩

theorem mem_dependents {u p : Fin n} : u ∈ g.dependents p ↔ g.Awaits u p := by
  simp only [dependents, Awaits, List.mem_filterMap, Option.ite_none_right_eq_some,
    Option.some.injEq]
  constructor
  · rintro ⟨⟨_, _⟩, he, rfl, rfl⟩
    exact he
  · intro he
    exact ⟨_, he, rfl, rfl⟩

/-- In a graph without cycles no prerequisite waits for the unit that waits for it. -/
theorem Acyclic.not_reaches_prerequisites (hg : g.Acyclic) {u p : Fin n} (h : g.Awaits u p) :
    ¬ Walk.Reaches g.prerequisites p u := by
  intro hreach
  have hreach : ReflTransGen g.Awaits p u :=
    ReflTransGen.mono (fun _ _ => mem_prerequisites.mp) _ _ hreach
  exact hg u (TransGen.head' h hreach)

/-- A unit that leads over dependents to a prerequisite of its own waits for itself. -/
theorem transGen_of_reaches_dependents {u p : Fin n} (h : g.Awaits u p)
    (hreach : Walk.Reaches g.dependents u p) : TransGen g.Awaits p p := by
  have hreach : ReflTransGen (Function.swap g.Awaits) u p :=
    ReflTransGen.mono (fun _ _ => mem_dependents.mp) _ _ hreach
  exact TransGen.tail' (reflTransGen_swap.mp hreach) h

/-- In a graph without cycles no unit leads over dependents to one of its prerequisites. -/
theorem Acyclic.not_reaches_dependents (hg : g.Acyclic) {u p : Fin n} (h : g.Awaits u p) :
    ¬ Walk.Reaches g.dependents u p :=
  fun hreach => hg p (transGen_of_reaches_dependents h hreach)

/-! ### Orders -/

/-- In a list of all units where none stands before one of its prerequisites, each prerequisite
    comes before its unit. -/
theorem Topological.of_pairwise {order : List (Fin n)} (hperm : order.Perm (List.finRange n))
    (hself : ∀ u, ¬ g.Awaits u u) (h : order.Pairwise fun u p => ¬ g.Awaits u p) :
    g.Topological order where
  perm := hperm
  before := by
    intro u p hp
    have hu : order.idxOf u < order.length :=
      List.idxOf_lt_length_iff.mpr (hperm.mem_iff.mpr (List.mem_finRange u))
    have hpl : order.idxOf p < order.length :=
      List.idxOf_lt_length_iff.mpr (hperm.mem_iff.mpr (List.mem_finRange p))
    by_contra hle
    rcases Nat.lt_or_eq_of_le (Nat.not_lt.mp hle) with hlt | heq
    · have hbad := List.pairwise_iff_getElem.mp h _ _ hu hpl hlt
      rw [List.getElem_idxOf, List.getElem_idxOf] at hbad
      exact hbad hp
    · have hsame : u = p := by
        rw [← List.getElem_idxOf hu, ← List.getElem_idxOf hpl]
        simp only [heq]
      exact hself u (hsame ▸ hp)

/-- A graph whose units have an order has no cycle. -/
theorem Topological.acyclic {order : List (Fin n)} (h : g.Topological order) : g.Acyclic := by
  intro u hu
  -- Positions in the order fall along prerequisites, so no unit comes back to itself.
  have hfall : ∀ a b, TransGen g.Awaits a b → order.idxOf b < order.idxOf a := by
    intro a b hab
    induction hab with
    | single hab => exact h.before _ _ hab
    | tail _ hbc ih => exact Nat.lt_trans (h.before _ _ hbc) ih
  exact Nat.lt_irrefl _ (hfall u u hu)

/-! ### The two passes -/

/-- A first pass that is not broken off leaves the units as the walk over dependents does, and no
    unit is its own prerequisite. -/
theorem finished_of_searchFrom {w : Walk n}
    (h : Walk.searchFrom g.dependents (Walk.start n) (List.finRange n) = .ok w) :
    w = Walk.all g.dependents ∧ ∀ u, ¬ g.Awaits u u := by
  have hw : w = Walk.all g.dependents :=
    Walk.eq_foldl_visit_of_searchFrom (Walk.sound_start g.dependents) h
  refine ⟨hw, ?_⟩
  intro u hu
  rcases Walk.not_mem_next_of_searchFrom_ok h (u := u) (by simp [Walk.start]) with hseen | hself
  · rw [hw, (Walk.sound_all g.dependents).2] at hseen
    cases hseen
  · exact hself (mem_dependents.mpr hu)

/-- The second pass finds nothing exactly when the first leaves no unit later than one of its
    prerequisites. -/
theorem second?_finished_eq_none_iff :
    Walk.second? g.prerequisites (List.finRange n) (Walk.all g.dependents).finished = none ↔
      (Walk.all g.dependents).finished.Pairwise fun u p => ¬ g.Awaits u p := by
  have hperm := Walk.perm_finished_all g.dependents
  rw [Walk.second?_eq_none_iff hperm.symm (hperm.nodup_iff.mpr (List.nodup_finRange n))]
  simp only [mem_prerequisites]

/-- **The search is exact.** It finds a unit if and only if the graph has a cycle. -/
theorem cycle?_eq_none_iff : g.cycle? = none ↔ g.Acyclic := by
  unfold cycle?
  split
  · next u h =>
    have hself : g.Awaits u u := mem_dependents.mp (Walk.mem_next_of_searchFrom_error h)
    constructor
    · intro h
      cases h
    · intro hg
      exact absurd (TransGen.single hself) (hg u)
  · next w h =>
    obtain ⟨rfl, hself⟩ := finished_of_searchFrom h
    rw [second?_finished_eq_none_iff]
    constructor
    · intro hpair
      exact (Topological.of_pairwise (Walk.perm_finished_all _) hself hpair).acyclic
    · intro hg
      -- A unit that is left later than one of its prerequisites leads back to it.
      refine (Walk.later_finished_all g.dependents).imp ?_
      intro u p hback hp
      exact hg.not_reaches_dependents hp (hback (mem_dependents.mpr hp))

/-- **A unit of a cycle.** A unit that the search finds waits for itself.  Units that merely wait for
    a cycle, or that a cycle waits for, are never found. -/
theorem transGen_of_cycle? {u : Fin n} (h : g.cycle? = some u) : TransGen g.Awaits u u := by
  unfold cycle? at h
  split at h
  · next hsearch =>
    cases h
    exact TransGen.single (mem_dependents.mp (Walk.mem_next_of_searchFrom_error hsearch))
  · next w hsearch =>
    obtain ⟨rfl, -⟩ := finished_of_searchFrom hsearch
    have hperm := Walk.perm_finished_all g.dependents
    obtain ⟨v, hv, hbehind⟩ := Walk.exists_before_of_second? hperm.symm h
    have hwait : g.Awaits v u := mem_prerequisites.mp hv
    -- the first pass left `v`, a dependent of `u`, later than `u`: so `v` leads back to `u`
    have hback : Walk.Reaches g.dependents v u :=
      List.pairwise_iff_forall_sublist.mp (Walk.later_finished_all g.dependents) hbehind
        (mem_dependents.mpr hwait)
    exact transGen_of_reaches_dependents hwait hback

/-! ### The order -/

/-- The walk over prerequisites leaves the units in an order if there is no cycle. -/
theorem topological_finished (hg : g.Acyclic) :
    g.Topological (Walk.all g.prerequisites).finished.reverse := by
  refine Topological.of_pairwise ?_ (fun u hu => hg u (TransGen.single hu)) ?_
  · exact (List.reverse_perm _).trans (Walk.perm_finished_all g.prerequisites)
  · rw [List.pairwise_reverse]
    refine (Walk.later_finished_all g.prerequisites).imp ?_
    intro p u hback hp
    exact hg.not_reaches_prerequisites hp (hback (mem_prerequisites.mpr hp))

/-- There is an order exactly when there is no cycle. -/
theorem exists_order_iff_acyclic : (∃ order, g.order = .ok order) ↔ g.Acyclic := by
  rw [← cycle?_eq_none_iff]
  unfold order
  split
  · next h => simp [h]
  · next h => simp [h]

/-- What `order` gives is an order of the units. -/
theorem topological_of_order {order : List (Fin n)} (h : g.order = .ok order) :
    g.Topological order := by
  have hg := exists_order_iff_acyclic.mp ⟨order, h⟩
  unfold UnitGraph.order at h
  split at h
  · cases h
  · cases h
    exact topological_finished hg

/-- **Ordering succeeds exactly without cycles, and then respects every prerequisite.**  The units
    have an order if and only if none of them waits for itself; the order then holds each unit once,
    behind all its prerequisites. -/
theorem order_iff_acyclic_and_topological (g : UnitGraph n) :
    ((∃ order, g.order = .ok order) ↔ g.Acyclic) ∧
      ∀ order, g.order = .ok order → g.Topological order :=
  ⟨exists_order_iff_acyclic, fun _ => topological_of_order⟩

/-- **The fault names a unit of a cycle.**  If the units have no order, the fault stands at the
    position of a unit and names it, and this unit is, over some steps, its own prerequisite. -/
theorem cycle_of_order_error {g : UnitGraph n} {e : SemanticError} (h : g.order = .error e) :
    ∃ u, g.cycle? = some u ∧ e = ⟨(g.unit u).position, .dependencyCycle (g.unit u).label⟩ ∧
      TransGen g.Awaits u u := by
  unfold order at h
  split at h
  · next u hcycle =>
    cases h
    exact ⟨u, hcycle, rfl, transGen_of_cycle? hcycle⟩
  · cases h

/-- Two units that wait for each other, one that waits for them and one that they wait for: the
    first unit waits for the second, the second and the third for each other, and the third for the
    last. -/
def entangled : UnitGraph 4 where
  unit u := ⟨"s" ++ u.val.repr, ⟨u.val + 1, 1⟩⟩
  edges := [⟨0, 1⟩, ⟨1, 2⟩, ⟨2, 3⟩, ⟨2, 1⟩]

/-- The unit in the message waits for itself. -/
theorem cycle_of_entangled :
    entangled.order = .error ⟨⟨3, 1⟩, .dependencyCycle "s2"⟩ ∧
      TransGen entangled.Awaits 2 2 := by
  have hcycle : entangled.cycle? = some 2 := by cbv
  have horder : entangled.order = .error ⟨⟨3, 1⟩, .dependencyCycle "s2"⟩ := by
    rw [order, hcycle]
    rfl
  obtain ⟨u, hu, -, hself⟩ := cycle_of_order_error horder
  obtain rfl : 2 = u := Option.some.inj (hcycle.symm.trans hu)
  exact ⟨horder, hself⟩

end ImageSpec.UnitGraph
