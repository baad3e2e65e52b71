import ImageSpec.Proofs.BaseFirst
import ImageSpec.Proofs.Lookups
import ImageSpec.Proofs.Placement

namespace ImageSpec

open Realization Specification

/-!
# Errors point into the source

A build that fails behind reading reports a position that it has from a declaration, from an entry
of a block or from a name that a step comes after.  Such a position may have gone through the order
of the units and through the steps of a realization before it is reported.

* `Realization.cases_of_orderOf_error` — the positions of the faults of an order: a name that is not
  declared, or a step in a cycle.
* `Realization.exists_occurs_of_mem_steps` — every step has the position of its declaration.
* `Service.PointsAt`, `Service.Marks` — a token of the source that a position points at.
* `Service.error_marks_token` — every such error points at a token with a part of its own.
-/

/-! ### Orders that do not exist -/

/-- A unit that is found in a cycle is a prerequisite. -/
theorem UnitGraph.exists_awaits_of_cycle? {n : Nat} {g : UnitGraph n} {u : Fin n}
    (h : g.cycle? = some u) : ∃ v, g.Awaits v u := by
  obtain ⟨v, -, hv⟩ := Relation.TransGen.tail'_iff.mp (transGen_of_cycle? h)
  exact ⟨v, hv⟩

namespace Realization

variable {spec : Specification}

/-- A name that is not declared is reported at its own position. -/
theorem position_of_edgesTo {i : Fin spec.length} {name : String} {ps : List Prerequisite}
    {e : SemanticError} (h : edgesTo spec i name ps = .error e) :
    (∃ q ∈ ps, e.position = q.position) ∧ e.fault.rule = .undeclaredPrerequisite := by
  induction ps with
  | nil => cases h
  | cons p ps ih =>
    rw [edgesTo] at h
    split at h
    · cases h
      exact ⟨⟨p, List.mem_cons_self, rfl⟩, rfl⟩
    · obtain ⟨⟨q, hq, hposition⟩, hrule⟩ := ih (map_eq_error_iff.mp h)
      exact ⟨⟨q, List.mem_cons_of_mem _ hq, hposition⟩, hrule⟩

/-- Over several units, too, such a name is reported at its own position. -/
theorem position_of_edgesOf {is : List (Fin spec.length)} {e : SemanticError}
    (h : edgesOf spec is = .error e) :
    (∃ i, ∃ q ∈ (spec.get i).after, e.position = q.position) ∧
      e.fault.rule = .undeclaredPrerequisite := by
  induction is with
  | nil => cases h
  | cons i is ih =>
    rw [edgesOf_cons] at h
    cases hown : edgesTo spec i (labelOf (spec.get i)) (spec.get i).after with
    | error own =>
      rw [hown] at h
      cases h
      obtain ⟨hq, hrule⟩ := position_of_edgesTo hown
      exact ⟨⟨i, hq⟩, hrule⟩
    | ok edges =>
      rw [hown] at h
      exact ih (map_eq_error_iff.mp h)

/-- **Orders.** If the units have no order, the fault stands at a name that a step comes after and
    that is not declared, or at a step that is part of a cycle. -/
theorem cases_of_orderOf_error {e : SemanticError} (h : orderOf spec = .error e) :
    (∃ d ∈ spec, (∃ q ∈ d.after, e.position = q.position) ∧
        e.fault.rule = .undeclaredPrerequisite) ∨
      ∃ d ∈ spec, d.stepName? ≠ none ∧ e.position = d.position := by
  unfold orderOf at h
  cases hgraph : graphOf spec with
  | error fault =>
    rw [hgraph] at h
    cases h
    obtain ⟨⟨i, hq⟩, hrule⟩ := position_of_edgesOf (map_eq_error_iff.mp hgraph)
    exact .inl ⟨spec.get i, List.get_mem spec i, hq, hrule⟩
  | ok g =>
    rw [hgraph] at h
    dsimp only at h
    unfold UnitGraph.order at h
    split at h
    · next u hcycle =>
      cases h
      -- the step is found by a name that another one lists
      obtain ⟨v, hv⟩ := UnitGraph.exists_awaits_of_cycle? hcycle
      obtain ⟨g', hgraph', hg⟩ := graphOf_eq_ok (declared_of_graphOf hgraph)
      obtain rfl : g' = g := Except.ok.inj (hgraph'.symm.trans hgraph)
      obtain ⟨q, -, hplace⟩ := (hg v u).mp hv
      have hname := stepName?_of_findFinIdx? hplace
      obtain ⟨edges, -, rfl⟩ := map_eq_ok_iff.mp hgraph
      have hstep : (spec.get u).stepName? ≠ none := by
        rw [hname]
        exact Option.some_ne_none _
      exact .inr ⟨spec.get u, List.get_mem spec u, hstep, rfl⟩
    · cases h

/-! ### Steps and encounters -/

/-- The members of a unit are in the specification. -/
theorem occurs_of_mem_members {d c : Declaration} (hd : d ∈ spec) (hc : c ∈ d.members) :
    Occurs spec c := by
  cases d with
  | step position name after body => exact .inner (.top hd) hc
  | _ =>
    rw [List.mem_singleton.mp hc]
    exact .top hd

/-- **Steps.** Every step of a realization has the action and the position of a declaration. -/
theorem exists_occurs_of_mem_steps {answer : Answers} {r : Realization}
    (h : Fresh.realize answer spec = .ok r) {step : Step} (hstep : step ∈ r.steps) :
    ∃ c, Occurs spec c ∧ ownAction answer c = some step.action ∧ step.position = c.position := by
  obtain ⟨order, -, steps, hsteps, heq⟩ := exists_steps_of_realize h
  rw [heq] at hstep
  obtain ⟨i, -, hmem⟩ := List.mem_flatMap.mp hstep
  obtain ⟨c, hc, hown⟩ := exists_of_mem_mapM (hsteps i) hmem
  obtain ⟨haction, hposition, -⟩ := ownStep_eq_some_iff.mp hown
  exact ⟨c, occurs_of_mem_members (List.get_mem spec i) hc, haction, hposition⟩

/-- Only base images and dependencies have a definition behind them. -/
theorem reference?_ne_none_of_definition? {answer : Answers} {d : Declaration} {a : Action}
    (h : ownAction answer d = some a) (ha : a.definition? ≠ none) : d.reference? ≠ none := by
  have hkind := kind_of_ownAction h
  cases d with
  | base position reference | dep position reference => simp [Declaration.reference?]
  | instruction position keyword value =>
    cases a <;> cases keyword <;> simp_all [Action.kind, Action.definition?, Declaration.keyword,
      Keyword.text]
  | block position keyword entries =>
    cases a <;> cases keyword <;> simp_all [Action.kind, Action.definition?, Declaration.keyword,
      BlockKeyword.text]
  | step position name after body => cases h

end Realization

namespace Declaration

mutual

/-- What a realization comes to in a declaration of a specification occurs there. -/
theorem occurs_of_mem_encounters {spec : Specification} {group : Option String} {x : Encounter} :
    ∀ {d : Declaration}, Occurs spec d → x ∈ d.encounters group → Occurs spec x.declaration
  | .base p r, hd, hx => by
    rw [List.mem_singleton.mp hx]
    exact hd
  | .dep p r, hd, hx => by
    rw [List.mem_singleton.mp hx]
    exact hd
  | .instruction p keyword value, hd, hx => by
    rw [List.mem_singleton.mp hx]
    exact hd
  | .block p keyword entries, hd, hx => by
    rw [List.mem_singleton.mp hx]
    exact hd
  | .step p name after body, hd, hx => by
    rcases List.mem_cons.mp hx with rfl | hx
    · exact hd
    · exact occurs_of_mem_encountersAll (fun c hc => .inner hd hc) hx

/-- What a realization comes to in declarations of a specification occurs there. -/
theorem occurs_of_mem_encountersAll {spec : Specification} {group : Option String}
    {x : Encounter} : ∀ {ds : List Declaration}, (∀ d ∈ ds, Occurs spec d) →
      x ∈ encountersAll group ds → Occurs spec x.declaration
  | [], _, hx => by cases hx
  | d :: ds, hds, hx => by
    obtain ⟨hd, hrest⟩ := List.forall_mem_cons.mp hds
    rcases List.mem_append.mp hx with hx | hx
    · exact occurs_of_mem_encounters hd hx
    · exact occurs_of_mem_encountersAll hrest hx

end

end Declaration

/-! ### Builds -/

namespace Service

open Declaration Grammar

/-- A position in a source points at the token `t`, which is one of the tokens `own` that a
    declaration of its specification is derived from: they stand in a row among the tokens of the
    source, and `t` is read at that position of the text. -/
structure PointsAt (source : List Char) (spec : Specification) (p : Position) (own : Tokens)
    (d : Declaration) (t : Placed Token) : Prop where
  occurs : Occurs spec d
  row : ∃ before after : Tokens, Lexer.tokensFrom .start source = .ok (before ++ own ++ after)
  derived : Statements (values own) [d]
  mem : t ∈ own
  position : t.position = p
  lexeme : ∃ past c rest l, source = past ++ c :: rest ∧ Lexer.lexeme c rest = some l ∧
    l.token = t.value ∧ p = Position.after past

/-- A position in a source points at a token that has a certain part in a declaration. -/
def Marks (source : List Char) (spec : Specification) (p : Position)
    (part : Tokens → Declaration → Placed Token → Prop) : Prop :=
  ∃ own d t, PointsAt source spec p own d t ∧ part own d t

/-- The parts of tokens that errors point at: the keyword of a declaration, the key of an entry of a
    block, and a name that a step comes after. -/
def HasPart (own : Tokens) (d : Declaration) (t : Placed Token) : Prop :=
  IsKeyword own d t ∨ (∃ e, IsKey own d e t) ∨ ∃ q, IsName own d q t

section Marks

variable {source : List Char} {spec : Specification} (hsource : ofChars source = .ok spec)
include hsource

/-- The declarations of a source have tokens there, and positions point at each of these. -/
theorem exists_leads_of_occurs {d : Declaration} (hd : Occurs spec d) :
    ∃ own, Leads own d ∧ ∀ t ∈ own, PointsAt source spec t.position own d t := by
  unfold Specification.ofChars at hsource
  split at hsource
  · cases hsource
  · next tokens htokens =>
    obtain ⟨before, own, after, rfl, hleads⟩ := located_of_read hsource d hd
    refine ⟨own, hleads, fun t ht => ⟨hd, ⟨before, after, htokens⟩, hleads.derived, ht, rfl, ?_⟩⟩
    exact Lexer.exists_lexeme_of_mem htokens (by simp [ht])

/-- The position of a declaration points at its keyword. -/
theorem exists_keyword_of_occurs {d : Declaration} (hd : Occurs spec d) :
    ∃ own t, PointsAt source spec d.position own d t ∧ IsKeyword own d t := by
  obtain ⟨own, hleads, hpoints⟩ := exists_leads_of_occurs hsource hd
  exact ⟨own, _, hpoints _ (List.mem_of_mem_head? hleads.keyword.1), hleads.keyword⟩

/-- The position of an entry points at its key. -/
theorem exists_key_of_occurs {d : Declaration} (hd : Occurs spec d) {e : Entry}
    (he : e ∈ d.entries) : ∃ own t, PointsAt source spec e.position own d t ∧ IsKey own d e t := by
  obtain ⟨own, hleads, hpoints⟩ := exists_leads_of_occurs hsource hd
  obtain ⟨t, hposition, hkey⟩ := hleads.keys e he
  have ht : t ∈ own := by
    obtain ⟨-, -, -, -, front, back, ts, rfl, -⟩ := hkey
    simp
  exact ⟨own, t, hposition ▸ hpoints t ht, hkey⟩

/-- The position of a name that a step comes after points at the name. -/
theorem exists_name_of_occurs {d : Declaration} (hd : Occurs spec d) {q : Prerequisite}
    (hq : q ∈ d.after) : ∃ own t, PointsAt source spec q.position own d t ∧ IsName own d q t := by
  obtain ⟨own, hleads, hpoints⟩ := exists_leads_of_occurs hsource hd
  obtain ⟨t, hposition, hname⟩ := hleads.names q hq
  have ht : t ∈ own := by
    obtain ⟨-, -, -, -, -, -, front, back, rfl, -⟩ := hname
    simp
  exact ⟨own, t, hposition ▸ hpoints t ht, hname⟩

/-- **Realizations.** A realization that fails points at a keyword, a key or a name; if a reference
    is not answered it points at the keyword of its declaration, and if steps wait for each other at
    that of a step. -/
theorem marks_of_realize_error {σ : Type} {l : Library σ} {s : σ} {e : Error}
    (h : (spec.realize l s).1 = .error e) :
    (∃ f, e = .semantic f ∧ Marks source spec f.position fun own d t => HasPart own d t ∧
        (f.fault.rule = .dependencyCycle → IsKeyword own d t ∧ d.stepName? ≠ none)) ∨
      ∃ p r cause, e = .resolution p r cause ∧
        Marks source spec p fun own d t => IsKeyword own d t ∧ d.reference? = some r := by
  rcases cases_of_realize (realizingEnds_realizing l s spec) with
    ⟨-, -, ⟨r, hr⟩ | ⟨f, horder, hr⟩⟩ | ⟨before, x, e', hstops, -, hr⟩
  · rw [hr] at h
    cases h
  · -- all declarations pass, but the units have no order
    rw [hr] at h
    cases h
    refine .inl ⟨f, rfl, ?_⟩
    rcases cases_of_orderOf_error horder with
      ⟨d, hd, ⟨q, hq, hposition⟩, hrule⟩ | ⟨d, hd, hstep, hposition⟩
    · obtain ⟨own, t, hpoints, hname⟩ := exists_name_of_occurs hsource (.top hd) hq
      refine ⟨own, d, t, hposition ▸ hpoints, .inr (.inr ⟨q, hname⟩), fun hcycle => ?_⟩
      rw [hrule] at hcycle
      cases hcycle
    · obtain ⟨own, t, hpoints, hkeyword⟩ := exists_keyword_of_occurs hsource (.top hd)
      exact ⟨own, d, t, hposition ▸ hpoints, .inl hkeyword, fun _ => ⟨hkeyword, hstep⟩⟩
  · -- a declaration fails by itself
    rw [hr] at h
    cases h
    obtain ⟨after, hsplit⟩ := hstops.split
    have hmem : x ∈ spec.encounters := by simp [hsplit]
    have hoccurs : Occurs spec x.declaration :=
      occurs_of_mem_encountersAll (fun d hd => .top hd) hmem
    rcases Encounter.cases_of_test_eq_error hstops.failed with
      ⟨r, cause, hreference, -, rfl⟩ | ⟨f, rfl, hplace, hrule⟩
    · obtain ⟨own, t, hpoints, hkeyword⟩ := exists_keyword_of_occurs hsource hoccurs
      exact .inr ⟨_, r, cause, rfl, own, x.declaration, t, hpoints, hkeyword, hreference⟩
    · refine .inl ⟨f, rfl, ?_⟩
      rcases hplace with hposition | ⟨entry, hentry, hposition⟩
      · obtain ⟨own, t, hpoints, hkeyword⟩ := exists_keyword_of_occurs hsource hoccurs
        exact ⟨own, x.declaration, t, hposition ▸ hpoints, .inl hkeyword,
          fun hcycle => absurd hcycle hrule⟩
      · obtain ⟨own, t, hpoints, hkey⟩ := exists_key_of_occurs hsource hoccurs hentry
        exact ⟨own, x.declaration, t, hposition ▸ hpoints, .inr (.inl ⟨entry, hkey⟩),
          fun hcycle => absurd hcycle hrule⟩

/-- **Scripts.** If the script of a realization cannot be written, the error points at the keyword
    of a base image or a dependency. -/
theorem marks_of_render_error {answer : Answers} {naming : Script.Naming} {r : Realization}
    {f : EmissionError} (hr : Fresh.realize answer spec = .ok r)
    (h : Script.render naming r.steps = .error f) :
    Marks source spec f.position fun own d t => IsKeyword own d t ∧ d.reference? ≠ none := by
  obtain ⟨before, step, after, hsteps, -, hposition, hfault⟩ := Script.render_eq_error_iff.mp h
  have hmem : step ∈ r.steps := by simp [hsteps]
  obtain ⟨d, hd, haction, hplace⟩ := exists_occurs_of_mem_steps hr hmem
  have hdefinition : step.action.definition? ≠ none := by
    intro hnone
    obtain ⟨lines, hlines⟩ := writable_of_ownAction naming haction hnone
    rw [hfault] at hlines
    cases hlines
  obtain ⟨own, t, hpoints, hkeyword⟩ := exists_keyword_of_occurs hsource hd
  rw [hposition, hplace]
  exact ⟨own, d, t, hpoints, hkeyword, reference?_ne_none_of_definition? haction hdefinition⟩

end Marks

/-- **Errors point into the source.** Over every library, a build fails because its source cannot be
    read or its sink rejects the script, or with an error that points at a token of the source: a
    broken rule at the keyword that leads a declaration, the key of an entry of a block, or a name
    that a step comes after; and if steps wait for each other, at the keyword of a step.  A
    reference without an answer points at the keyword of the base image or the dependency that
    mentions it, and so does a definition that cannot be written. -/
theorem error_marks_token {σ : Type} {l : Library σ} {bytes : ByteArray} {sink : Sink} {s : σ}
    {e : Error} (h : ((ofLibrary l).build (.ok bytes) sink s).1.1 = .error e) :
    (∃ f, e = .malformed f) ∨ (∃ fault, e = .sink fault) ∨
      ∃ source spec, Text.decode bytes = ⟨source, none⟩ ∧ Specification.ofChars source = .ok spec ∧
        ((∃ f, e = .semantic f ∧ Marks source spec f.position fun own d t => HasPart own d t ∧
            (f.fault.rule = .dependencyCycle → IsKeyword own d t ∧ d.stepName? ≠ none)) ∨
          (∃ p r cause, e = .resolution p r cause ∧
            Marks source spec p fun own d t => IsKeyword own d t ∧ d.reference? = some r) ∨
          ∃ f, e = .emission f ∧ Marks source spec f.position fun own d t =>
            IsKeyword own d t ∧ d.reference? ≠ none) := by
  rw [build_eq_buildRead] at h
  cases hspec : Specification.ofBytes bytes with
  | error f =>
    rw [hspec] at h
    cases h
    exact .inl ⟨f, rfl⟩
  | ok spec =>
    obtain ⟨source, hdecode, hsource⟩ := exists_decode_of_ofBytes hspec
    rw [hspec, buildRead] at h
    rcases hr : spec.realize l s with ⟨e' | r, s'⟩
    · rw [hr] at h
      cases h
      have hmarks := marks_of_realize_error hsource (congrArg Prod.fst hr)
      exact .inr (.inr ⟨source, spec, hdecode, hsource, hmarks.imp_right .inl⟩)
    · rw [hr] at h
      dsimp only [emitScript] at h
      split at h
      · next f hscript =>
        cases h
        -- the steps are there, but one of them cannot be written
        obtain ⟨answer, hfresh⟩ := exists_fresh_eq_realize l spec s
        rw [hr] at hfresh
        have hmarks := marks_of_render_error hsource hfresh.symm hscript
        exact .inr (.inr ⟨source, spec, hdecode, hsource, .inr (.inr ⟨f, rfl, hmarks⟩)⟩)
      · -- the script is there, and only the sink can fail
        split at h
        · cases h
          exact .inr (.inl ⟨_, rfl⟩)
        · next written _ =>
          cases hflush : written.flush with
          | ok _ =>
            rw [hflush] at h
            cases h
          | error fault =>
            rw [hflush] at h
            cases h
            exact .inr (.inl ⟨fault, rfl⟩)

/-! ### Steps that wait for each other -/

/-- A source with a cycle of two steps. -/
def cyclicSource : String :=
  "base=\"debian\" step a after b\x7bexpose=1\x7d step b after a\x7bexpose=2\x7d"

/-- Its declarations. -/
def cyclicSpecification : Specification :=
  [.base ⟨1, 1⟩ ⟨"debian", none⟩,
    .step ⟨1, 15⟩ "a" [⟨⟨1, 28⟩, "b"⟩] [.instruction ⟨1, 30⟩ .expose (.integer 1)],
    .step ⟨1, 40⟩ "b" [⟨⟨1, 53⟩, "a"⟩] [.instruction ⟨1, 55⟩ .expose (.integer 2)]]

theorem ofBytes_cyclicSource :
    Specification.ofBytes cyclicSource.toUTF8 = .ok cyclicSpecification := by
  rw [Specification.ofBytes_toUTF8]
  with_unfolding_all rfl

theorem realize_cyclicSpecification :
    cyclicSpecification.realize Catalog.library sampleCatalog
      = (.error (.semantic ⟨⟨1, 40⟩, .dependencyCycle "b"⟩), sampleCatalog) := by
  have horder : orderOf cyclicSpecification = .error ⟨⟨1, 40⟩, .dependencyCycle "b"⟩ := by
    cbv
  rw [Specification.realize, realizing, horder]
  with_unfolding_all rfl

theorem build_cyclicSource :
    ((ofLibrary Catalog.library).build (.ok cyclicSource.toUTF8) {} sampleCatalog).1.1
      = .error (.semantic ⟨⟨1, 40⟩, .dependencyCycle "b"⟩) := by
  rw [build_eq_buildRead, ofBytes_cyclicSource, buildRead, realize_cyclicSpecification]

/-- The error points at the keyword of a step. -/
theorem error_marks_step_of_cyclicSource :
    ((ofLibrary Catalog.library).build (.ok cyclicSource.toUTF8) {} sampleCatalog).1.1
        = .error (.semantic ⟨⟨1, 40⟩, .dependencyCycle "b"⟩) ∧
      Marks cyclicSource.toList cyclicSpecification ⟨1, 40⟩ fun own d t =>
        IsKeyword own d t ∧ d.stepName? ≠ none := by
  refine ⟨build_cyclicSource, ?_⟩
  rcases error_marks_token build_cyclicSource with
    ⟨f, hf⟩ | ⟨fault, hfault⟩ | ⟨source, spec, hdecode, hsource, hmarks⟩
  · cases hf
  · cases hfault
  · have htext : cyclicSource.toList = source := by
      rw [Text.decode_toUTF8] at hdecode
      exact congrArg Text.Decoded.chars hdecode
    have hread := ofBytes_cyclicSource
    rw [Specification.ofBytes_toUTF8, htext, hsource] at hread
    cases hread
    rw [htext]
    rcases hmarks with ⟨f, hf, own, d, t, hpoints, -, hcycle⟩ | ⟨p, r, cause, hr, -⟩ | ⟨f, hf, -⟩
    · cases hf
      exact ⟨own, d, t, hpoints, hcycle rfl⟩
    · cases hr
    · cases hf

end Service

end ImageSpec
