import ImageSpec.Proofs.Composition
import Mathlib.Data.Fin.SuccPred
import Mathlib.Data.List.Infix

namespace ImageSpec

open Realization

/-!
# Specifications that grow

Declarations behind those of a specification may come after earlier steps, and a step can be moved
to the front for the sake of another one.  Still nothing gets in between the steps that were there:
a specification that is realized lists only steps of its own, so that a walk over its units never
leaves them, however many units follow.

* `Walk.embed` — a walk, seen as a walk in a graph with more vertices; `Walk.run_embed` says that
  a walk in the larger graph goes as in the smaller one until it is through with the latter.
* `Walk.map_finished_suffix` — what the larger walk leaves first is what the smaller one leaves.
* `prerequisites_of_graphOf` — the prerequisites of a unit are the places of the names it lists.
* `map_kept_isPrefix_orderOf` — the order of a specification is the front of the order of any
  extension.
* `realize_append_extends` — extending a specification only appends, to its steps and its script.
-/

/-! ### Walks in a larger graph -/

namespace Walk

variable {n m : Nat}

/-- A walk with its vertices taken to a graph of which the vertices `extra` are unseen as well. -/
def embed (f : Fin n → Fin m) (extra : List (Fin m)) (w : Walk n) : Walk m where
  unseen := w.unseen.map f ++ extra
  finished := w.finished.map f

/-- An open visit with its vertices taken to another graph. -/
def embedVisit (f : Fin n → Fin m) (x : Visit n) : Visit m := ⟨f x.vertex, x.pending.map f⟩

section Embedding

variable {next : Fin n → List (Fin n)} {next' : Fin m → List (Fin m)} {f : Fin n → Fin m}
  {extra : List (Fin m)} (hf : Function.Injective f) (hextra : ∀ v, f v ∉ extra)
  (hnext : ∀ v, next' (f v) = (next v).map f)

include hf hextra in
/-- In the larger graph the same vertices are unseen. -/
theorem mem_unseen_embed {w : Walk n} {u : Fin n} :
    f u ∈ (w.embed f extra).unseen ↔ u ∈ w.unseen := by
  have hmap : f u ∈ w.unseen.map f ↔ u ∈ w.unseen := List.mem_map_of_injective hf
  simp [embed, hmap, hextra]

include hf in
/-- In the larger graph a vertex is seen as it is in the smaller one. -/
theorem discover_embed {w : Walk n} {u : Fin n} (hu : u ∈ w.unseen) :
    (w.embed f extra).discover (f u) = (w.discover u).embed f extra := by
  have hmem : f u ∈ w.unseen.map f := List.mem_map_of_mem hu
  simp [embed, discover, List.erase_append_left _ hmem, List.map_erase hf]

include hf hextra hnext in
/-- **Run lemma.** A walk in the larger graph that starts from vertices of the smaller one goes as
    it goes there: no step leads out of the smaller graph. -/
theorem run_embed (w : Walk n) (stack : List (Visit n)) :
    run next' (w.embed f extra) (stack.map (embedVisit f)) = (run next w stack).embed f extra := by
  fun_induction run next w stack with
  | case1 w => simp [run]
  | case2 w v rest ih =>
    rw [← ih, List.map_cons, embedVisit, List.map_nil, run]
    rfl
  | case3 w v u pending rest hu ih =>
    have hmem : f u ∈ (w.embed f extra).unseen := (mem_unseen_embed hf hextra).mpr hu
    rw [← ih, List.map_cons, embedVisit, List.map_cons, run, if_pos hmem, discover_embed hf hu,
      hnext]
    rfl
  | case4 w v u pending rest hu ih =>
    have hmem : f u ∉ (w.embed f extra).unseen := fun h => hu ((mem_unseen_embed hf hextra).mp h)
    rw [← ih, List.map_cons, embedVisit, List.map_cons, run, if_neg hmem]
    rfl

include hf hextra hnext in
/-- In the larger graph a visit does what it does in the smaller one. -/
theorem visit_embed (w : Walk n) (v : Fin n) :
    visit next' (w.embed f extra) (f v) = (visit next w v).embed f extra := by
  unfold visit
  by_cases hv : v ∈ w.unseen
  · have hmem : f v ∈ (w.embed f extra).unseen := (mem_unseen_embed hf hextra).mpr hv
    rw [if_pos hv, if_pos hmem, discover_embed hf hv, hnext, ← run_embed hf hextra hnext]
    rfl
  · have hmem : f v ∉ (w.embed f extra).unseen := fun h => hv ((mem_unseen_embed hf hextra).mp h)
    rw [if_neg hv, if_neg hmem]

include hf hextra hnext in
theorem foldl_visit_embed (vs : List (Fin n)) (w : Walk n) :
    (vs.map f).foldl (visit next') (w.embed f extra) = (vs.foldl (visit next) w).embed f extra := by
  induction vs generalizing w with
  | nil => rfl
  | cons v vs ih =>
    rw [List.map_cons, List.foldl_cons, List.foldl_cons, visit_embed hf hextra hnext, ih]

end Embedding

/-! ### What has been left stays so -/

variable {next : Fin n → List (Fin n)}

/-- Going on takes nothing back that has been left. -/
theorem finished_suffix_run (w : Walk n) (stack : List (Visit n)) :
    w.finished <:+ (run next w stack).finished := by
  fun_induction run next w stack with
  | case1 => exact List.suffix_refl _
  | case2 w v rest ih => exact (List.suffix_cons v w.finished).trans ih
  | case3 w v u pending rest hu ih => exact ih
  | case4 w v u pending rest hu ih => exact ih

theorem finished_suffix_foldl_visit (vs : List (Fin n)) (w : Walk n) :
    w.finished <:+ (vs.foldl (visit next) w).finished := by
  induction vs generalizing w with
  | nil => exact List.suffix_refl _
  | cons v vs ih =>
    have hvisit : w.finished <:+ (visit next w v).finished := by
      unfold visit
      split
      · exact finished_suffix_run (w.discover v) _
      · exact List.suffix_refl _
    exact hvisit.trans (ih _)

/-! ### The whole walk -/

/-- The vertices of a larger graph are those of the smaller one and others behind them. -/
theorem exists_finRange_eq (h : n ≤ m) : ∃ extra,
    List.finRange m = (List.finRange n).map (Fin.castLE h) ++ extra ∧
      ∀ v, Fin.castLE h v ∉ extra := by
  have htake : (List.finRange n).map (Fin.castLE h) = (List.finRange m).take n := by
    apply List.ext_getElem
    · simp [h]
    · intro i h₁ h₂
      simp
  have hsplit := List.take_append_drop n (List.finRange m)
  refine ⟨(List.finRange m).drop n, by rw [htake, hsplit], ?_⟩
  intro v hv
  -- no vertex is listed twice, and `v` is among the first ones already
  have hnodup := List.nodup_finRange m
  rw [← hsplit] at hnodup
  have hfirst : Fin.castLE h v ∈ (List.finRange m).take n := by
    rw [← htake]
    exact List.mem_map_of_mem (List.mem_finRange v)
  exact (List.nodup_append.mp hnodup).2.2 _ hfirst _ hv rfl

/-- **The larger walk goes on where the smaller one ends.** If the vertices of the smaller graph
    have the same neighbours in both, they are left first and in the same order. -/
theorem map_finished_suffix (h : n ≤ m) {next' : Fin m → List (Fin m)}
    (hnext : ∀ v, next' (Fin.castLE h v) = (next v).map (Fin.castLE h)) :
    (all next).finished.map (Fin.castLE h) <:+ (all next').finished := by
  obtain ⟨extra, hrange, hextra⟩ := exists_finRange_eq h
  have hstart : start m = (start n).embed (Fin.castLE h) extra := by
    simp [start, embed, hrange]
  have hsmall : ((List.finRange n).map (Fin.castLE h)).foldl (visit next') (start m)
      = (all next).embed (Fin.castLE h) extra := by
    rw [hstart]
    exact foldl_visit_embed (Fin.castLE_injective h) hextra hnext _ _
  have hall : all next' = extra.foldl (visit next') ((all next).embed (Fin.castLE h) extra) := by
    rw [← hsmall, ← List.foldl_append, ← hrange]
    rfl
  rw [hall]
  exact finished_suffix_foldl_visit extra ((all next).embed (Fin.castLE h) extra)

end Walk

namespace Realization

/-! ### Prerequisites in the order in which they are listed -/

variable {spec more : Specification}

/-- The place of the step that a listed name stands for. -/
def placeOf (spec : Specification) (p : Prerequisite) : Option (Fin spec.length) :=
  spec.findFinIdx? (isStepNamed p.name)

/-- The edges to a unit lead from the places of its names. -/
theorem mapM_placeOf_of_edgesTo {i : Fin spec.length} {name : String} {ps : List Prerequisite}
    {edges : List (Edge spec.length)} (h : edgesTo spec i name ps = .ok edges) :
    ∃ places, ps.mapM (placeOf spec) = some places ∧ edges = places.map (⟨i, ·⟩) := by
  induction ps generalizing edges with
  | nil =>
    cases h
    exact ⟨[], rfl, rfl⟩
  | cons p ps ih =>
    rw [edgesTo] at h
    split at h
    · cases h
    · next j hj =>
      obtain ⟨rest, hrest, rfl⟩ := map_eq_ok_iff.mp h
      obtain ⟨places, hplaces, rfl⟩ := ih hrest
      have hplace : placeOf spec p = some j := hj
      exact ⟨j :: places, by simp [List.mapM_cons, hplace, hplaces], rfl⟩

/-- The edges of one unit are the prerequisites of this unit and of no other. -/
theorem filterMap_dependent_map (i u : Fin spec.length) (places : List (Fin spec.length)) :
    (places.map (Edge.mk i)).filterMap
        (fun e => if e.dependent = u then some e.prerequisite else none)
      = if i = u then places else [] := by
  by_cases hu : i = u
  · subst hu
    simp [List.filterMap_map]
  · simp [List.filterMap_map, hu]

/-- Among the edges to several units, those to one of them lead from the places of its names. -/
theorem prerequisites_of_edgesOf {is : List (Fin spec.length)} {edges : List (Edge spec.length)}
    (hnodup : is.Nodup) (h : edgesOf spec is = .ok edges) (u : Fin spec.length) :
    (u ∈ is → (spec.get u).after.mapM (placeOf spec) = some (edges.filterMap
        fun e => if e.dependent = u then some e.prerequisite else none)) ∧
      (u ∉ is → edges.filterMap
        (fun e => if e.dependent = u then some e.prerequisite else none) = []) := by
  induction is generalizing edges with
  | nil =>
    cases h
    simp
  | cons i is ih =>
    obtain ⟨hi, hnodup⟩ := List.nodup_cons.mp hnodup
    rw [edgesOf_cons] at h
    cases hown : edgesTo spec i (labelOf (spec.get i)) (spec.get i).after with
    | error e =>
      rw [hown] at h
      cases h
    | ok own =>
      rw [hown] at h
      obtain ⟨rest, hrest, rfl⟩ := map_eq_ok_iff.mp h
      obtain ⟨places, hplaces, rfl⟩ := mapM_placeOf_of_edgesTo hown
      obtain ⟨hlisted, hother⟩ := ih hnodup hrest
      rw [List.filterMap_append, filterMap_dependent_map]
      by_cases hu : i = u
      · -- the unit is this one, and it does not come again
        subst hu
        rw [if_pos rfl, hother hi, List.append_nil]
        exact ⟨fun _ => hplaces, fun hnot => absurd List.mem_cons_self hnot⟩
      · rw [if_neg hu, List.nil_append]
        constructor
        · intro hmem
          exact hlisted ((List.mem_cons.mp hmem).resolve_left (Ne.symm hu))
        · intro hnot
          exact hother fun hmem => hnot (List.mem_cons_of_mem _ hmem)

/-- **Prerequisites.** Those of a unit are the places of the names that it lists, as it lists
    them. -/
theorem prerequisites_of_graphOf {g : UnitGraph spec.length} (h : graphOf spec = .ok g)
    (u : Fin spec.length) : (spec.get u).after.mapM (placeOf spec) = some (g.prerequisites u) := by
  obtain ⟨edges, hedges, rfl⟩ := map_eq_ok_iff.mp h
  exact (prerequisites_of_edgesOf (List.nodup_finRange _) hedges u).1 (List.mem_finRange u)

/-! ### Units of an extended specification -/

/-- The place of a unit when more declarations follow. -/
def kept (spec more : Specification) : Fin spec.length → Fin (spec ++ more).length :=
  Fin.castLE (by simp)

/-- The declarations that were there stay at their places. -/
theorem get_kept (i : Fin spec.length) : (spec ++ more).get (kept spec more i) = spec.get i := by
  simp [kept]

/-- A step that is found among the first declarations is found in the same place when more
    follow. -/
theorem placeOf_append {p : Prerequisite} {j : Fin spec.length} (h : placeOf spec p = some j) :
    placeOf (spec ++ more) p = some (kept spec more j) := by
  unfold placeOf at h ⊢
  rw [List.findFinIdx?_append, h]
  rfl

/-- The prerequisites of a unit that was there stay the same. -/
theorem prerequisites_kept {g : UnitGraph spec.length} {g' : UnitGraph (spec ++ more).length}
    (h : graphOf spec = .ok g) (h' : graphOf (spec ++ more) = .ok g') (u : Fin spec.length) :
    g'.prerequisites (kept spec more u) = (g.prerequisites u).map (kept spec more) := by
  have hplaces := prerequisites_of_graphOf h u
  have hplaces' := prerequisites_of_graphOf h' (kept spec more u)
  rw [get_kept] at hplaces'
  have hmapped : (spec.get u).after.mapM (placeOf (spec ++ more))
      = some ((g.prerequisites u).map (kept spec more)) := by
    rw [mapM_eq_some_iff] at hplaces ⊢
    rw [List.forall₂_map_right_iff]
    exact hplaces.imp fun _ _ => placeOf_append
  exact Option.some.inj (hplaces'.symm.trans hmapped)

/-- An order is that in which a walk over the graph leaves the units. -/
theorem exists_graphOf_of_orderOf {order : List (Fin spec.length)}
    (h : orderOf spec = .ok order) : ∃ g, graphOf spec = .ok g ∧
      order = (Walk.all g.prerequisites).finished.reverse := by
  unfold orderOf at h
  cases hgraph : graphOf spec with
  | error e =>
    rw [hgraph] at h
    cases h
  | ok g =>
    rw [hgraph] at h
    refine ⟨g, rfl, ?_⟩
    dsimp only at h
    unfold UnitGraph.order at h
    split at h <;> cases h
    rfl

/-- **Orders.** The units of a specification come first, and in the same order, when more
    declarations follow. -/
theorem map_kept_isPrefix_orderOf {order : List (Fin spec.length)}
    {order' : List (Fin (spec ++ more).length)} (h : orderOf spec = .ok order)
    (h' : orderOf (spec ++ more) = .ok order') : order.map (kept spec more) <+: order' := by
  obtain ⟨g, hg, rfl⟩ := exists_graphOf_of_orderOf h
  obtain ⟨g', hg', rfl⟩ := exists_graphOf_of_orderOf h'
  rw [List.map_reverse, List.reverse_prefix]
  exact Walk.map_finished_suffix _ (prerequisites_kept hg hg')

/-! ### Steps -/

variable {answer : Answers}

/-- The steps of a specification come first when more declarations follow. -/
theorem steps_isPrefix {r r' : Realization} (h : Fresh.realize answer spec = .ok r)
    (h' : Fresh.realize answer (spec ++ more) = .ok r') : r.steps <+: r'.steps := by
  obtain ⟨order, horder, steps, hsteps, heq⟩ := exists_steps_of_realize h
  obtain ⟨order', horder', steps', hsteps', heq'⟩ := exists_steps_of_realize h'
  have hsame : ∀ i, steps' (kept spec more i) = steps i := by
    intro i
    have hown := hsteps' (kept spec more i)
    rw [get_kept, hsteps i] at hown
    exact (Option.some.inj hown).symm
  have hfirst : r.steps = (order.map (kept spec more)).flatMap steps' := by
    rw [heq, List.flatMap_map]
    simp only [hsame]
  rw [hfirst, heq']
  exact (map_kept_isPrefix_orderOf horder horder').flatMap steps'

end Realization

/-! ### Scripts -/

namespace Script

variable {naming : Naming}

/-- The lines of the first steps come first, and no step behind them is needed to write them. -/
theorem linesAfter_append {previous : Option String} {steps rest : List Step} {lines : List Line}
    (h : linesAfter naming previous (steps ++ rest) = .ok lines) :
    ∃ front, linesAfter naming previous steps = .ok front ∧ front <+: lines := by
  induction steps generalizing previous lines with
  | nil => exact ⟨[], rfl, List.nil_prefix⟩
  | cons step steps ih =>
    obtain ⟨part, others, hpart, hothers, rfl⟩ := linesAfter_cons_eq_ok_iff.mp h
    obtain ⟨front, hfront, hextends⟩ := ih hothers
    refine ⟨groupComment previous step.group ++ part ++ front, ?_, ?_⟩
    · exact linesAfter_cons_eq_ok_iff.mpr ⟨part, front, hpart, hfront, rfl⟩
    · exact (List.prefix_append_right_inj _).mpr hextends

/-- The script of the first steps is the front of the script of all. -/
theorem render_of_isPrefix {steps steps' : List Step} (hextends : steps <+: steps')
    {script' : String} (h : render naming steps' = .ok script') :
    ∃ script rest, render naming steps = .ok script ∧ script' = script ++ rest := by
  obtain ⟨rest, rfl⟩ := hextends
  obtain ⟨lines, hlines, rfl⟩ := map_eq_ok_iff.mp h
  obtain ⟨front, hfront, back, rfl⟩ := linesAfter_append hlines
  refine ⟨text front, text back, map_eq_ok_iff.mpr ⟨front, hfront, rfl⟩, ?_⟩
  simp [text]

end Script

namespace Realization

/-- **Extending a specification only appends.** Over a library whose answers depend only on the
    reference, let a specification be realized, and let it be realized again with more declarations
    behind its own.  The steps of the first realization are the first steps of the second; and if
    the second can be written as a script then so can the first, and its script comes first in the
    other. -/
theorem realize_append_extends {σ : Type} {l : Library σ} {s s' : σ} {answer : Answers}
    (hl : l.AnswersWith s answer) (hl' : l.AnswersWith s' answer) {spec more : Specification}
    {r r' : Realization} (hr : (spec.realize l s).1 = .ok r)
    (hr' : ((spec ++ more).realize l s').1 = .ok r') :
    r.steps <+: r'.steps ∧
      ∀ script', Script.render l.canonical r'.steps = .ok script' →
        ∃ script rest, Script.render l.canonical r.steps = .ok script ∧
          script' = script ++ rest := by
  rw [realize_eq_fresh hl] at hr
  rw [realize_eq_fresh hl'] at hr'
  have hextends := steps_isPrefix hr hr'
  exact ⟨hextends, fun script' => Script.render_of_isPrefix hextends⟩

/-! ### A specification that grows -/

/-- Two steps behind those of the sample: the first waits for the second and for one of the
    sample. -/
def moreDeclarations : Specification :=
  [.step ⟨9, 1⟩ "deploy" [⟨⟨9, 19⟩, "audit"⟩, ⟨⟨9, 26⟩, "tools"⟩]
      [.instruction ⟨10, 3⟩ .expose (.integer 443)],
    .step ⟨12, 1⟩ "audit" [] [.block ⟨13, 3⟩ .env [⟨⟨13, 9⟩, "LOG", "all"⟩]]]

/-- The steps that they add. -/
def moreSteps : List Step :=
  [⟨⟨13, 3⟩, some "audit", .env [("LOG", "all")]⟩, ⟨⟨10, 3⟩, some "deploy", .expose 443⟩]

/-- The steps of the sample with more declarations behind it. -/
theorem realize_sampleSpecification_append :
    ((sampleSpecification ++ moreDeclarations).realize Catalog.library sampleCatalog).1
      = .ok ⟨sampleRealization.steps ++ moreSteps⟩ := by
  have horder : orderOf (sampleSpecification ++ moreDeclarations) = .ok
      [⟨0, by decide⟩, ⟨2, by decide⟩, ⟨1, by decide⟩, ⟨4, by decide⟩, ⟨3, by decide⟩] := by
    cbv
  rw [Specification.realize, realizing, horder]
  with_unfolding_all rfl

/-- The script of the longer specification. -/
def moreLines : List Script.Line :=
  sampleLines ++
    ["# step audit", "ENV LOG=\"all\"", "# step deploy", "EXPOSE 443"].map String.toList

/-- The sample with more declarations behind it extends the sample. -/
theorem realize_sampleSpecification_extends :
    (sampleSpecification.realize Catalog.library sampleCatalog).1 = .ok sampleRealization ∧
      ((sampleSpecification ++ moreDeclarations).realize Catalog.library sampleCatalog).1
        = .ok ⟨sampleRealization.steps ++ moreSteps⟩ ∧
      sampleRealization.steps <+: sampleRealization.steps ++ moreSteps ∧
      ∃ script rest, Script.render Catalog.library.canonical sampleRealization.steps = .ok script ∧
        Script.text moreLines = script ++ rest := by
  have hl := Catalog.library_answersWith sampleCatalog
  have hscript : Script.render Catalog.library.canonical (sampleRealization.steps ++ moreSteps)
      = .ok (Script.text moreLines) := by
    with_unfolding_all rfl
  obtain ⟨hsteps, hscripts⟩ := realize_append_extends hl hl realize_sampleSpecification
    realize_sampleSpecification_append
  exact ⟨realize_sampleSpecification, realize_sampleSpecification_append, hsteps,
    hscripts _ hscript⟩

end Realization

end ImageSpec
