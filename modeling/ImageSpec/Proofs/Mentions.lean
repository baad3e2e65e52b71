import ImageSpec.Proofs.Caching
import ImageSpec.Proofs.Selection

namespace ImageSpec

open Realization

/-!
# Builds depend on the names that they mention

A catalog may hold any number of artifacts.  What a source does not mention has no part in its plan,
its script or its errors, not even in the text of an error.

* `Realization.Fresh.realize_congr` — a realization depends on the answers to the references of the
  specification.
* `Catalog.resolve_ofEntries_congr` — a reference is answered from the entries with its name.
* `Service.plan_and_build_eq_of_mentions` — catalogs that agree on the names a source mentions give
  the same plan and the same build.
-/

/-! ### References of a specification -/

namespace Declaration

/-- A realization comes to a declaration itself before what is in it. -/
theorem mem_encounters_self (group : Option String) (d : Declaration) :
    ⟨group, d⟩ ∈ d.encounters group := by
  cases d <;> simp [encounters]

/-- What a realization comes to in a declaration, it comes to in all of them. -/
theorem encounters_subset_encountersAll (group : Option String) {d : Declaration}
    {ds : List Declaration} (h : d ∈ ds) : d.encounters group ⊆ encountersAll group ds := by
  induction ds with
  | nil => cases h
  | cons c ds ih =>
    rw [encountersAll]
    rcases List.mem_cons.mp h with rfl | h
    · exact List.subset_append_left _ _
    · exact List.Subset.trans (ih h) (List.subset_append_right _ _)

end Declaration

/-- The reference of a declaration is among those of all. -/
theorem Encounter.mem_references {xs : List Encounter} {x : Encounter} {r : Reference}
    (hx : x ∈ xs) (hr : x.declaration.reference? = some r) : r ∈ references xs :=
  List.mem_filterMap.mpr ⟨x, hx, hr⟩

/-- The references of the declarations at the top level and in the steps there. -/
theorem Specification.mem_references {spec : Specification} {d c : Declaration} {r : Reference}
    (hd : d ∈ spec) (hc : c ∈ d :: d.body) (hr : c.reference? = some r) : r ∈ spec.references := by
  have hunit : d.encounters none ⊆ spec.encounters :=
    Declaration.encounters_subset_encountersAll none hd
  rcases List.mem_cons.mp hc with rfl | hc
  · exact Encounter.mem_references (hunit (Declaration.mem_encounters_self none c)) hr
  · cases d with
    | step p name after body =>
      have hbody : c.encounters (some name) ⊆ Declaration.encountersAll (some name) body :=
        Declaration.encounters_subset_encountersAll (some name) hc
      have hmem : ⟨some name, c⟩ ∈ (Declaration.step p name after body).encounters none := by
        rw [Declaration.encounters]
        exact List.mem_cons_of_mem _ (hbody (Declaration.mem_encounters_self (some name) c))
      exact Encounter.mem_references (hunit hmem) hr
    | _ => cases hc

/-! ### Realizations -/

namespace Realization.Fresh

variable {answer answer' : Answers} {seenBase : Bool} {group : Option String}
  {names : List String}

/-- An action depends on the answer to the reference of its declaration alone. -/
theorem action_congr {d : Declaration} (h : ∀ r, d.reference? = some r → answer r = answer' r) :
    action answer seenBase group d = action answer' seenBase group d := by
  cases d with
  | base position r => rw [action, action, definition, definition, h r rfl]
  | dep position r => rw [action, action, definition, definition, h r rfl]
  | _ => rfl

/-- Steps depend on the answers to the references of their declarations alone. -/
theorem steps_congr {ds : List Declaration}
    (h : ∀ d ∈ ds, ∀ r, d.reference? = some r → answer r = answer' r) :
    steps answer group seenBase ds = steps answer' group seenBase ds := by
  induction ds generalizing seenBase with
  | nil => rfl
  | cons d ds ih =>
    obtain ⟨hd, hds⟩ := List.forall_mem_cons.mp h
    rw [steps, steps, action_congr hd, ih hds]

/-- A unit depends on the answers to its references alone. -/
theorem unit_congr {d : Declaration}
    (h : ∀ c ∈ d :: d.body, ∀ r, c.reference? = some r → answer r = answer' r) :
    unit answer seenBase names d = unit answer' seenBase names d := by
  obtain ⟨hd, hbody⟩ := List.forall_mem_cons.mp h
  cases d with
  | step position name after body =>
    have hsteps : steps answer (some name) seenBase body
        = steps answer' (some name) seenBase body := steps_congr hbody
    rw [unit, unit, hsteps]
  | _ => exact steps_congr (List.forall_mem_singleton.mpr hd)

/-- Units depend on the answers to their references alone. -/
theorem units_congr {ds : List Declaration}
    (h : ∀ d ∈ ds, ∀ c ∈ d :: d.body, ∀ r, c.reference? = some r → answer r = answer' r) :
    units answer seenBase names ds = units answer' seenBase names ds := by
  induction ds generalizing seenBase names with
  | nil => rfl
  | cons d ds ih =>
    obtain ⟨hd, hds⟩ := List.forall_mem_cons.mp h
    rw [units, units, unit_congr hd, ih hds]

/-- **Realizations.** Only the answers to the references of a specification count. -/
theorem realize_congr {spec : Specification} (h : ∀ r ∈ spec.references, answer r = answer' r) :
    realize answer spec = realize answer' spec := by
  rw [realize, realize, units_congr]
  intro d hd c hc r hr
  exact h r (Specification.mem_references hd hc hr)

end Realization.Fresh

/-! ### Catalogs -/

namespace Catalog

/-- The definitions of a name are those of the entries of that name. -/
theorem filter_map_toDefinition (es : List Entry) (name : String) :
    (es.map Entry.toDefinition).filter (·.name == name)
      = (es.filter (·.name == name)).map Entry.toDefinition :=
  List.filter_map

/-- **Catalogs.** Only the entries with the name of a reference count, and their order. -/
theorem resolve_ofEntries_congr {es es' : List Entry} {r : Reference}
    (h : es.filter (·.name == r.name) = es'.filter (·.name == r.name)) :
    (ofEntries es).resolve r = (ofEntries es').resolve r := by
  rw [ofEntries, ofEntries, resolve_ofDefinitions, resolve_ofDefinitions, filter_map_toDefinition,
    filter_map_toDefinition, h]

/-- Entries with a name are found among those that pass a test of names, if the name passes it. -/
theorem filter_filter_name (p : String → Bool) {name : String} (h : p name = true)
    (es : List Entry) :
    (es.filter fun e => p e.name).filter (·.name == name) = es.filter (·.name == name) := by
  rw [List.filter_filter]
  refine List.filter_congr fun e _ => ?_
  by_cases hname : e.name = name
  · simp [hname, h]
  · simp [hname]

end Catalog

/-! ### Services -/

namespace Service

/-- Whether a base image or a dependency of a source has a name.  A source that cannot be read
    mentions nothing. -/
def mentions (source : Source) (name : String) : Bool :=
  match readSource source with
  | .error _ => false
  | .ok spec => spec.references.any fun r => r.name == name

/-- A plan depends on the answers to the references of its source alone. -/
theorem planned_congr {answer answer' : Answers} {source : Source}
    (h : ∀ r, mentions source r.name = true → answer r = answer' r) :
    planned answer source = planned answer' source := by
  unfold planned
  cases hread : readSource source with
  | error e => rfl
  | ok spec =>
    -- a reference that is looked up is among those that the source mentions
    refine Fresh.realize_congr fun r hr => h r ?_
    rw [mentions, hread]
    exact List.any_eq_true.mpr ⟨r, hr, beq_self_eq_true r.name⟩

/-- A build is a plan and then the script of it. -/
theorem build_eq {σ : Type} {l : Library σ} {s : σ} {answer : Answers} (hl : l.AnswersWith s answer)
    (source : Source) (sink : Sink) :
    ((ofLibrary l).build source sink s).1 = match planned answer source with
      | .error e => (.error e, sink)
      | .ok r => emitScript l.canonical r sink := by
  rw [build, plan_eq hl]
  cases planned answer source <;> rfl

/-- **Builds depend on the names that they mention.**  Let two lists of entries be the same, in the
    same order, once the entries are left out whose names a source does not mention.  Then over the
    catalogs of the two lists the source has the same plan, and its build ends in the same way, with
    the same error or the same script. -/
theorem plan_and_build_eq_of_mentions (source : Source) (sink : Sink)
    {es es' : List Catalog.Entry}
    (h : es.filter (fun e => mentions source e.name) = es'.filter fun e => mentions source e.name) :
    ((ofLibrary Catalog.library).plan source (.ofEntries es)).1
        = ((ofLibrary Catalog.library).plan source (.ofEntries es')).1 ∧
      ((ofLibrary Catalog.library).build source sink (.ofEntries es)).1
        = ((ofLibrary Catalog.library).build source sink (.ofEntries es')).1 := by
  have hplanned : planned (Catalog.ofEntries es).resolve source
      = planned (Catalog.ofEntries es').resolve source := by
    refine planned_congr fun r hr => Catalog.resolve_ofEntries_congr ?_
    rw [← Catalog.filter_filter_name (mentions source) hr es, h, Catalog.filter_filter_name _ hr]
  have hcatalog := Catalog.library_answersWith (.ofEntries es)
  have hcatalog' := Catalog.library_answersWith (.ofEntries es')
  constructor
  · rw [plan_eq hcatalog, plan_eq hcatalog', hplanned]
  · rw [build_eq hcatalog, build_eq hcatalog', hplanned]

/-- A source that asks for a version of a tool that is not there. -/
def outdatedSource : Source := .ok "base=\"debian\" dep=\"tool:2\"".toUTF8

/-- The sample catalog, with an old tool and with an artifact that nobody asks for. -/
def outdatedEntries (other : String) : List Catalog.Entry :=
  [⟨"tool", "1", none, .empty⟩, ⟨other, "2", none, .empty⟩,
    ⟨"debian", "12", some sampleDigest, .empty⟩]

/-- The artifact that nobody asks for does not show in the plan or in the build. -/
theorem plan_and_build_outdatedSource :
    let es := outdatedEntries "vim"
    let es' := outdatedEntries "nano"
    es.filter (fun e => mentions outdatedSource e.name)
        = es'.filter (fun e => mentions outdatedSource e.name) ∧
      ((ofLibrary Catalog.library).plan outdatedSource (.ofEntries es)).1
          = ((ofLibrary Catalog.library).plan outdatedSource (.ofEntries es')).1 ∧
        ((ofLibrary Catalog.library).build outdatedSource {} (.ofEntries es)).1
          = ((ofLibrary Catalog.library).build outdatedSource {} (.ofEntries es')).1 := by
  intro es es'
  have hread : readSource outdatedSource
      = .ok [.base ⟨1, 1⟩ ⟨"debian", none⟩, .dep ⟨1, 15⟩ ⟨"tool", some "2"⟩] := by
    rw [outdatedSource, readSource, Specification.ofBytes_toUTF8]
    with_unfolding_all rfl
  have hmentions : ∀ name, mentions outdatedSource name
      = ("debian" == name || ("tool" == name || false)) := by
    intro name
    rw [mentions, hread]
    rfl
  have hfilter : es.filter (fun e => mentions outdatedSource e.name)
      = es'.filter (fun e => mentions outdatedSource e.name) := by
    simp only [hmentions, es, es', outdatedEntries]
    decide
  exact ⟨hfilter, plan_and_build_eq_of_mentions outdatedSource {} hfilter⟩

end Service

end ImageSpec
