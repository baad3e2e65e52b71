import ImageSpec.Proofs.Fresh
import ImageSpec.Proofs.UnitOrder

namespace ImageSpec

open Relation

/-!
# Prerequisites by name

Steps name the steps that they come after; the graph of a specification joins units by their places.
As long as no two steps share a name, the two say the same:

* `ComesAfter spec` — one name comes after another, by a step of the specification.
* `graphOf_eq_ok` — if every listed name is the name of a step, the graph is there, and its edges
  lead from each step to the places of the names that it lists.
* `exists_orderOf_iff` — the units have an order if and only if every name that a step comes after
  is declared and no name comes after itself.
-/

namespace Declaration

/-- The names that a step comes after. -/
def after : Declaration → List Prerequisite
  | step _ _ after _ => after
  | _ => []

/-- Only a step comes after others. -/
theorem exists_stepName?_of_mem_after {d : Declaration} {p : Prerequisite} (h : p ∈ d.after) :
    ∃ name, d.stepName? = some name := by
  cases d with
  | step position name after body => exact ⟨name, rfl⟩
  | _ => cases h

end Declaration

namespace Specification

/-- The names of the steps of a specification. -/
def stepNames (spec : Specification) : List String := spec.filterMap Declaration.stepName?

/-- The step `name` lists `other` among those that it comes after. -/
def ComesAfter (spec : Specification) (name other : String) : Prop :=
  ∃ d ∈ spec, d.stepName? = some name ∧ ∃ p ∈ d.after, p.name = other

/-- Every name that a step comes after is the name of a step. -/
def Declared (spec : Specification) : Prop :=
  ∀ d ∈ spec, ∀ p ∈ d.after, p.name ∈ spec.stepNames

theorem mem_stepNames {spec : Specification} {name : String} :
    name ∈ spec.stepNames ↔ ∃ d ∈ spec, d.stepName? = some name :=
  List.mem_filterMap

end Specification

namespace Realization

variable {spec : Specification}

theorem isStepNamed_iff {name : String} {d : Declaration} :
    isStepNamed name d = true ↔ d.stepName? = some name := by
  cases d <;> simp [isStepNamed, Declaration.stepName?]

/-! ### The edges of the graph -/

/-- The place of a step is found exactly when there is a step with its name. -/
theorem findFinIdx?_isSome_iff {name : String} :
    (∃ j, spec.findFinIdx? (isStepNamed name) = some j) ↔ name ∈ spec.stepNames := by
  rw [← Option.isSome_iff_exists, List.isSome_findFinIdx?, List.any_eq_true,
    Specification.mem_stepNames]
  simp only [isStepNamed_iff]

/-- The edges of one step lead to the places of the names that it lists. -/
theorem edgesTo_eq_ok (i : Fin spec.length) (name : String) {ps : List Prerequisite}
    (h : ∀ p ∈ ps, p.name ∈ spec.stepNames) :
    ∃ edges, edgesTo spec i name ps = .ok edges ∧ ∀ a b, ⟨a, b⟩ ∈ edges ↔
      a = i ∧ ∃ p ∈ ps, spec.findFinIdx? (isStepNamed p.name) = some b := by
  induction ps with
  | nil => exact ⟨[], rfl, by simp⟩
  | cons p ps ih =>
    obtain ⟨j, hj⟩ := findFinIdx?_isSome_iff.mpr (h p List.mem_cons_self)
    obtain ⟨edges, hedges, hmem⟩ := ih fun q hq => h q (List.mem_cons_of_mem _ hq)
    refine ⟨⟨i, j⟩ :: edges, ?_, ?_⟩
    · rw [edgesTo, hj, hedges]
      rfl
    · intro a b
      simp only [List.mem_cons, Edge.mk.injEq, hmem, exists_eq_or_imp, hj, Option.some.injEq]
      constructor
      · rintro (⟨rfl, rfl⟩ | ⟨rfl, hb⟩)
        · exact ⟨rfl, Or.inl rfl⟩
        · exact ⟨rfl, Or.inr hb⟩
      · rintro ⟨rfl, hb | hb⟩
        · exact Or.inl ⟨rfl, hb.symm⟩
        · exact Or.inr ⟨rfl, hb⟩

/-- A step that lists a name which no step has gets no edges. -/
theorem declared_of_edgesTo {i : Fin spec.length} {name : String} {ps : List Prerequisite}
    {edges : List (Edge spec.length)} (h : edgesTo spec i name ps = .ok edges) :
    ∀ p ∈ ps, p.name ∈ spec.stepNames := by
  induction ps generalizing edges with
  | nil => simp
  | cons p ps ih =>
    rw [edgesTo] at h
    split at h
    · cases h
    · next j hj =>
      cases hrest : edgesTo spec i name ps with
      | error e =>
        rw [hrest] at h
        cases h
      | ok rest =>
        exact List.forall_mem_cons.mpr ⟨findFinIdx?_isSome_iff.mp ⟨j, hj⟩, ih hrest⟩

/-- A declaration other than a step adds no edges. -/
theorem edgesOf_cons (i : Fin spec.length) (rest : List (Fin spec.length)) :
    edgesOf spec (i :: rest) =
      match edgesTo spec i (labelOf (spec.get i)) (spec.get i).after with
      | .error e => .error e
      | .ok edges => (edgesOf spec rest).map (edges ++ ·) := by
  rw [edgesOf]
  cases hd : spec.get i with
  | step position name after body => rfl
  | _ => cases hrest : edgesOf spec rest <;> rfl

/-- The edges of some units lead from each of them to the places of the names that it lists. -/
theorem edgesOf_eq_ok {is : List (Fin spec.length)}
    (h : ∀ i ∈ is, ∀ p ∈ (spec.get i).after, p.name ∈ spec.stepNames) :
    ∃ edges, edgesOf spec is = .ok edges ∧ ∀ a b, ⟨a, b⟩ ∈ edges ↔
      a ∈ is ∧ ∃ p ∈ (spec.get a).after, spec.findFinIdx? (isStepNamed p.name) = some b := by
  induction is with
  | nil => exact ⟨[], rfl, by simp⟩
  | cons i is ih =>
    obtain ⟨own, hown, hmemOwn⟩ :=
      edgesTo_eq_ok i (labelOf (spec.get i)) (h i List.mem_cons_self)
    obtain ⟨edges, hedges, hmem⟩ := ih fun j hj => h j (List.mem_cons_of_mem _ hj)
    refine ⟨own ++ edges, ?_, ?_⟩
    · rw [edgesOf_cons, hown, hedges]
      rfl
    · intro a b
      rw [List.mem_append, hmemOwn, hmem, List.mem_cons]
      constructor
      · rintro (⟨rfl, hb⟩ | ⟨ha, hb⟩)
        · exact ⟨Or.inl rfl, hb⟩
        · exact ⟨Or.inr ha, hb⟩
      · rintro ⟨rfl | ha, hb⟩
        · exact Or.inl ⟨rfl, hb⟩
        · exact Or.inr ⟨ha, hb⟩

/-- Where there are edges, all names are declared. -/
theorem declared_of_edgesOf {is : List (Fin spec.length)} {edges : List (Edge spec.length)}
    (h : edgesOf spec is = .ok edges) :
    ∀ i ∈ is, ∀ p ∈ (spec.get i).after, p.name ∈ spec.stepNames := by
  induction is generalizing edges with
  | nil => simp
  | cons i is ih =>
    rw [edgesOf_cons] at h
    cases hown : edgesTo spec i (labelOf (spec.get i)) (spec.get i).after with
    | error e =>
      rw [hown] at h
      cases h
    | ok own =>
      cases hrest : edgesOf spec is with
      | error e =>
        rw [hown, hrest] at h
        cases h
      | ok rest => exact List.forall_mem_cons.mpr ⟨declared_of_edgesTo hown, ih hrest⟩

/-! ### The graph -/

/-- Where all names are declared there is a graph, and its edges are the names. -/
theorem graphOf_eq_ok (h : spec.Declared) :
    ∃ g, graphOf spec = .ok g ∧ ∀ a b, g.Awaits a b ↔
      ∃ p ∈ (spec.get a).after, spec.findFinIdx? (isStepNamed p.name) = some b := by
  have hall : ∀ i ∈ List.finRange spec.length, ∀ p ∈ (spec.get i).after, p.name ∈ spec.stepNames :=
    fun i _ => h _ (List.get_mem spec i)
  obtain ⟨edges, hedges, hmem⟩ := edgesOf_eq_ok hall
  refine ⟨_, by rw [graphOf, hedges]; rfl, fun a b => ?_⟩
  exact (hmem a b).trans (and_iff_right (List.mem_finRange a))

/-- Where there is a graph, all names are declared. -/
theorem declared_of_graphOf {g : UnitGraph spec.length} (h : graphOf spec = .ok g) :
    spec.Declared := by
  rw [graphOf] at h
  cases hedges : edgesOf spec (List.finRange spec.length) with
  | error e =>
    rw [hedges] at h
    cases h
  | ok edges =>
    intro d hd
    obtain ⟨i, rfl⟩ := List.mem_iff_get.mp hd
    exact declared_of_edgesOf hedges i (List.mem_finRange i)

/-! ### Names and places -/

/-- A step is labelled with its name. -/
theorem labelOf_of_stepName? {d : Declaration} {name : String} (h : d.stepName? = some name) :
    labelOf d = name := by
  cases d with
  | step position other after body => exact Option.some.inj h
  | _ => cases h

/-- No two units are steps of one name. -/
theorem eq_of_stepName? (hnames : spec.stepNames.Nodup) {i j : Fin spec.length} {name : String}
    (hi : (spec.get i).stepName? = some name) (hj : (spec.get j).stepName? = some name) :
    i = j := by
  have hpair := List.pairwise_iff_getElem.mp (List.pairwise_filterMap.mp hnames)
  rcases Nat.lt_trichotomy i j with hij | hij | hij
  · exact absurd rfl (hpair i j i.isLt j.isLt hij name hi name hj)
  · exact Fin.ext hij
  · exact absurd rfl (hpair j i j.isLt i.isLt hij name hj name hi)

/-- The place of a name is that of a step of this name. -/
theorem stepName?_of_findFinIdx? {name : String} {j : Fin spec.length}
    (h : spec.findFinIdx? (isStepNamed name) = some j) : (spec.get j).stepName? = some name :=
  isStepNamed_iff.mp (List.findFinIdx?_eq_some_iff.mp h).1

section Cycles

variable {g : UnitGraph spec.length}
  (hg : ∀ a b, g.Awaits a b ↔
    ∃ p ∈ (spec.get a).after, spec.findFinIdx? (isStepNamed p.name) = some b)
include hg

/-- A unit waits for another only if its name comes after the other's. -/
theorem comesAfter_of_awaits {a b : Fin spec.length} (h : g.Awaits a b) :
    spec.ComesAfter (labelOf (spec.get a)) (labelOf (spec.get b)) := by
  obtain ⟨p, hp, hb⟩ := (hg a b).mp h
  obtain ⟨name, hname⟩ := Declaration.exists_stepName?_of_mem_after hp
  rw [labelOf_of_stepName? hname, labelOf_of_stepName? (stepName?_of_findFinIdx? hb)]
  exact ⟨spec.get a, List.get_mem spec a, hname, p, hp, rfl⟩

/-- Where one name comes after another, the step of the first waits for a step of the second. -/
theorem exists_awaits_of_comesAfter (hnames : spec.stepNames.Nodup) (hdecl : spec.Declared)
    {a : Fin spec.length} {name other : String} (ha : (spec.get a).stepName? = some name)
    (h : spec.ComesAfter name other) : ∃ b, (spec.get b).stepName? = some other ∧ g.Awaits a b := by
  obtain ⟨d, hd, hname, p, hp, rfl⟩ := h
  obtain ⟨i, rfl⟩ := List.mem_iff_get.mp hd
  obtain rfl : a = i := eq_of_stepName? hnames ha hname
  -- a declared name has a place
  obtain ⟨b, hb⟩ := findFinIdx?_isSome_iff.mpr (hdecl _ hd p hp)
  exact ⟨b, stepName?_of_findFinIdx? hb, (hg a b).mpr ⟨p, hp, hb⟩⟩

/-- A chain of names is a chain in the graph. -/
theorem exists_transGen_awaits (hnames : spec.stepNames.Nodup) (hdecl : spec.Declared)
    {a : Fin spec.length} {name other : String} (ha : (spec.get a).stepName? = some name)
    (h : TransGen spec.ComesAfter name other) :
    ∃ b, (spec.get b).stepName? = some other ∧ TransGen g.Awaits a b := by
  induction h with
  | single h =>
    obtain ⟨b, hb, hab⟩ := exists_awaits_of_comesAfter hg hnames hdecl ha h
    exact ⟨b, hb, .single hab⟩
  | tail _ h ih =>
    obtain ⟨b, hb, hab⟩ := ih
    obtain ⟨c, hc, hbc⟩ := exists_awaits_of_comesAfter hg hnames hdecl hb h
    exact ⟨c, hc, hab.tail hbc⟩

/-- The units wait in a cycle exactly when a name comes after itself. -/
theorem acyclic_iff (hnames : spec.stepNames.Nodup) (hdecl : spec.Declared) :
    g.Acyclic ↔ ∀ name, ¬ TransGen spec.ComesAfter name name := by
  constructor
  · intro hacyclic name hcycle
    obtain ⟨_, ⟨d, hd, hname, -⟩, -⟩ := TransGen.head'_iff.mp hcycle
    obtain ⟨a, rfl⟩ := List.mem_iff_get.mp hd
    obtain ⟨b, hb, hab⟩ := exists_transGen_awaits hg hnames hdecl hname hcycle
    -- names are distinct, so the chain comes back to the same unit
    obtain rfl : a = b := eq_of_stepName? hnames hname hb
    exact hacyclic a hab
  · intro hnone u hcycle
    exact hnone _ (hcycle.lift (fun i => labelOf (spec.get i)) fun _ _ => comesAfter_of_awaits hg)

end Cycles

/-- **When the units have an order.** If no two steps share a name, the units can be put into an
    order exactly when every listed name is declared and no name comes after itself. -/
theorem exists_orderOf_iff (hnames : spec.stepNames.Nodup) :
    (∃ order, orderOf spec = .ok order) ↔
      spec.Declared ∧ ∀ name, ¬ TransGen spec.ComesAfter name name := by
  constructor
  · rintro ⟨order, horder⟩
    cases hgraph : graphOf spec with
    | error e =>
      rw [orderOf, hgraph] at horder
      cases horder
    | ok g =>
      rw [orderOf, hgraph] at horder
      have hdecl := declared_of_graphOf hgraph
      obtain ⟨g', hgraph', hg⟩ := graphOf_eq_ok hdecl
      obtain rfl : g' = g := Except.ok.inj (hgraph'.symm.trans hgraph)
      exact ⟨hdecl, (acyclic_iff hg hnames hdecl).mp
        (UnitGraph.exists_order_iff_acyclic.mp ⟨order, horder⟩)⟩
  · rintro ⟨hdecl, hnone⟩
    obtain ⟨g, hgraph, hg⟩ := graphOf_eq_ok hdecl
    rw [orderOf, hgraph]
    exact UnitGraph.exists_order_iff_acyclic.mpr ((acyclic_iff hg hnames hdecl).mpr hnone)

/-- An order of the units has each of them once. -/
theorem perm_of_orderOf {order : List (Fin spec.length)} (h : orderOf spec = .ok order) :
    order.Perm (List.finRange spec.length) := by
  rw [orderOf] at h
  split at h
  · cases h
  · exact (UnitGraph.topological_of_order h).perm

end Realization

end ImageSpec
