import ImageSpec.Proofs.Builds
import ImageSpec.Proofs.Openings

namespace ImageSpec

/-!
# Lines that end in a backslash

A reader of scripts takes a backslash at the end of a line as a continuation: the next line belongs
to the same instruction.  `WORKDIR`, `USER` and a `COPY` of plain paths end with a text of the
specification as it is, and nothing keeps this text from ending in a backslash.

* `Action.tail?`, `Declaration.tail?` — the text that ends the line of an action or a declaration.
* `IsPhysicalLine` — a line of a text, from one line feed to the next.
* `Script.trailing_of_actionLines` — the line of such an action ends in a backslash if and only if
  its text does.
* `Realization.exists_trails_iff` — steps with such a text come from declarations with such a text.
* `Service.trailing_of_build` — which lines of a script end in a backslash.
* `Service.workdir_swallows_user` — a script with such a line.
-/

/-! ### The text that ends a line -/

namespace Action

/-- Whether an action is written with texts of the specification as they are. -/
def isRaw : Action → Bool
  | workdir _ => true
  | user _ => true
  | copy _ _ => true
  | _ => false

/-- The text of the specification that ends the line of an action. -/
def tail? : Action → Option (List Char)
  | workdir path => some path.toList
  | user name => some name.toList
  | copy sources destination =>
    if (sources ++ [destination]).any Script.needsExecForm then none else some destination.toList
  | _ => none

/-- The text that ends the line of an action ends in a backslash. -/
def Trails (a : Action) : Prop := ∃ cs ∈ a.tail?, cs.getLast? = some '\\'

/-- What can end in a backslash is written as it stands. -/
theorem isRaw_of_trails {a : Action} (h : a.Trails) : a.isRaw = true := by
  obtain ⟨cs, hcs, -⟩ := h
  cases a with
  | workdir path | user name | copy sources destination => rfl
  | _ => cases hcs

end Action

namespace Declaration

/-- The text of a declaration that ends the line of its action. -/
def tail? : Declaration → Option (List Char)
  | instruction _ .workdir (.text path) => some path.toList
  | instruction _ .user (.text name) => some name.toList
  | instruction _ .user (.integer n) => some n.repr.toList
  | instruction _ .copy (.list paths) =>
    if paths.any Script.needsExecForm then none else paths.getLast?.map String.toList
  | _ => none

/-- The text that ends the line of a declaration ends in a backslash. -/
def Trails (d : Declaration) : Prop := ∃ cs ∈ d.tail?, cs.getLast? = some '\\'

end Declaration

/-- A line of a text: it starts at the start of the text or behind a line feed, and the next line
    feed ends it. -/
def IsPhysicalLine (text line : List Char) : Prop :=
  '\n' ∉ line ∧ ∃ before after, text = before ++ (line ++ '\n' :: after) ∧
    (before = [] ∨ before.getLast? = some '\n')

/-! ### Lines of actions -/

namespace Script

variable {naming : Naming}

/-- Behind a space, only a backslash in the text itself can end the line. -/
theorem getLast?_append_space (cs ds : List Char) :
    (cs ++ [' '] ++ ds).getLast? = some '\\' ↔ ds.getLast? = some '\\' := by
  rw [List.getLast?_append, List.getLast?_append]
  cases ds.getLast? <;> simp

/-- Paths end in the last one, behind a blank. -/
theorem exists_joinWith_concat {paths : List (List Char)} (hne : paths ≠ []) (last : List Char) :
    ∃ cs, Text.joinWith [' '] (paths ++ [last]) = cs ++ [' '] ++ last := by
  unfold Text.joinWith
  induction paths with
  | nil => exact absurd rfl hne
  | cons first rest ih =>
    cases rest with
    | nil => exact ⟨first, by simp [List.intercalate_cons_cons]⟩
    | cons second rest =>
      obtain ⟨cs, hcs⟩ := ih (List.cons_ne_nil _ _)
      refine ⟨first ++ [' '] ++ cs, ?_⟩
      rw [List.cons_append, List.cons_append, List.intercalate_cons_cons, ← List.cons_append, hcs]
      simp

/-- **One text on a line.** The line of a text ends as the text does. -/
theorem trailing_of_textLine {instruction value : String} {l : Line}
    (hinstruction : '\n' ∉ instruction.toList) (h : textLine instruction value = .ok l) :
    '\n' ∉ l ∧ (l.getLast? = some '\\' ↔ value.toList.getLast? = some '\\') := by
  unfold textLine at h
  split at h
  · cases h
  · next hvalue =>
    cases h
    rw [Bool.not_eq_true, Bool.or_eq_false_iff] at hvalue
    have hbreak := hasLineBreak_eq_false_iff.mp hvalue.2
    exact ⟨by simp [line, hinstruction, hbreak], getLast?_append_space _ _⟩

/-- **Copies.** The line of a copy ends as its destination does, unless it is a JSON array. -/
theorem trailing_of_copyLine {sources : List String} {destination : String} {l : Line}
    (h : copyLine sources destination = .ok l) :
    '\n' ∉ l ∧ (l.getLast? = some '\\' ↔ (Action.copy sources destination).Trails) := by
  unfold copyLine at h
  dsimp only at h
  split at h
  · cases h
  · next hsources =>
    have hne : sources.map String.toList ≠ [] := by simpa using hsources
    split at h
    · next hform =>
      cases h
      -- A JSON array ends in its bracket, whatever the destination ends in.
      have hend : (line "COPY" (execForm (sources ++ [destination]))).getLast? = some ']' := by
        rw [line, List.getLast?_append, execForm, List.getLast?_append]
        rfl
      refine ⟨by simp [line, lineFeed_not_mem_execForm], ?_⟩
      simp [Action.Trails, Action.tail?, hform, hend]
    · next hform =>
      cases h
      have hfeed : '\n' ∉ Text.joinWith [' '] ((sources ++ [destination]).map String.toList) := by
        apply Text.not_mem_joinWith (by decide)
        intro segment hsegment
        obtain ⟨path, hpath, rfl⟩ := List.mem_map.mp hsegment
        rw [Bool.not_eq_true, List.any_eq_false] at hform
        exact lineFeed_not_mem_of_needsExecForm (by simpa using hform path hpath)
      refine ⟨by simp [line, -List.map_append, hfeed], ?_⟩
      -- Since there is a source, a space stands before the destination.
      obtain ⟨cs, hcs⟩ := exists_joinWith_concat hne destination.toList
      rw [line, getLast?_append_space, List.map_append, List.map_singleton, hcs,
        getLast?_append_space]
      simp [Action.Trails, Action.tail?, hform]

/-- **Raw actions** are written on one line, which ends in a backslash exactly if the text does that
    ends it. -/
theorem trailing_of_actionLines {a : Action} {lines : List Line} (ha : a.isRaw = true)
    (h : actionLines naming a = .ok lines) :
    ∃ l, lines = [l] ∧ '\n' ∉ l ∧ (l.getLast? = some '\\' ↔ a.Trails) := by
  cases a with
  | workdir path =>
    obtain ⟨l, hl, rfl⟩ := Realization.map_eq_ok_iff.mp h
    exact ⟨l, rfl, by simpa [Action.Trails, Action.tail?] using trailing_of_textLine (by decide) hl⟩
  | user name =>
    obtain ⟨l, hl, rfl⟩ := Realization.map_eq_ok_iff.mp h
    exact ⟨l, rfl, by simpa [Action.Trails, Action.tail?] using trailing_of_textLine (by decide) hl⟩
  | copy sources destination =>
    obtain ⟨l, hl, rfl⟩ := Realization.map_eq_ok_iff.mp h
    exact ⟨l, rfl, trailing_of_copyLine hl⟩
  | _ => cases ha

/-! ### Lines of scripts -/

/-- The lines of a step stand together among those of all steps. -/
theorem exists_part_of_mem {previous : Option String} {steps : List Step} {lines : List Line}
    {step : Step} (h : linesAfter naming previous steps = .ok lines) (hstep : step ∈ steps) :
    ∃ before part after, actionLines naming step.action = .ok part ∧
      lines = before ++ part ++ after := by
  induction steps generalizing previous lines with
  | nil => cases hstep
  | cons first rest ih =>
    obtain ⟨part, others, hpart, hothers, rfl⟩ := linesAfter_cons_eq_ok_iff.mp h
    rcases List.mem_cons.mp hstep with rfl | hstep
    · exact ⟨_, part, others, hpart, rfl⟩
    · obtain ⟨before, own, after, hown, rfl⟩ := ih hothers hstep
      exact ⟨groupComment previous first.group ++ part ++ before, own, after, hown, by simp⟩

/-- A line without a line feed is a physical line of the script. -/
theorem isPhysicalLine_text {before after : List Line} {l : Line} (hl : '\n' ∉ l) :
    IsPhysicalLine (text (before ++ [l] ++ after)).toList l := by
  refine ⟨hl, before.flatMap (· ++ ['\n']), after.flatMap (· ++ ['\n']), by simp [text], ?_⟩
  rcases List.eq_nil_or_concat before with rfl | ⟨others, last, rfl⟩
  · exact Or.inl rfl
  · exact Or.inr (by simp [List.getLast?_append])

/-- The line of a raw step is a line of the script. -/
theorem trailing_of_render {steps : List Step} {script : String} {step : Step}
    (h : render naming steps = .ok script) (hstep : step ∈ steps)
    (hraw : step.action.isRaw = true) :
    ∃ l, actionLines naming step.action = .ok [l] ∧ IsPhysicalLine script.toList l ∧
      (l.getLast? = some '\\' ↔ step.action.Trails) := by
  obtain ⟨lines, hlines, rfl⟩ := Realization.map_eq_ok_iff.mp h
  obtain ⟨before, part, after, hpart, rfl⟩ := exists_part_of_mem hlines hstep
  obtain ⟨l, rfl, hfeed, htrails⟩ := trailing_of_actionLines hraw hpart
  exact ⟨l, hpart, isPhysicalLine_text hfeed, htrails⟩

end Script

/-! ### Texts of the specification -/

namespace Keyword

/-- A text that passes its check is taken as it stands. -/
theorem eq_text_of_checkLine {k : Keyword} {value : Value} {s : String}
    (h : k.checkLine value = .ok s) : value = .text s := by
  unfold checkLine at h
  grind

/-- A user is a text or the digits of a number. -/
theorem cases_of_checkUser {value : Value} {s : String} (h : checkUser value = .ok s) :
    value = .text s ∨ ∃ n, value = .integer n ∧ s = n.repr := by
  unfold checkUser at h
  split at h
  · next n =>
    split at h <;> cases h
    exact Or.inr ⟨n, rfl, rfl⟩
  · exact Or.inl (eq_text_of_checkLine h)

/-- The text that ends the line of an instruction is taken over from its value. -/
theorem tail?_of_check {k : Keyword} {value : Value} {a : Action} (p : Position)
    (h : k.check value = .ok a) : a.tail? = (Declaration.instruction p k value).tail? := by
  cases k with
  | workdir =>
    obtain ⟨s, hs, rfl⟩ := Realization.map_eq_ok_iff.mp h
    rw [eq_text_of_checkLine hs]
    rfl
  | user =>
    obtain ⟨s, hs, rfl⟩ := Realization.map_eq_ok_iff.mp h
    rcases cases_of_checkUser hs with rfl | ⟨n, rfl, rfl⟩ <;> rfl
  | copy =>
    obtain ⟨sources, destination, -, rfl, rfl⟩ := exists_of_checkCopy h
    simp [Action.tail?, Declaration.tail?]
  | _ =>
    -- The others are commands and ports, and neither side has such a text.
    obtain ⟨_, -, rfl⟩ := Realization.map_eq_ok_iff.mp h
    rfl

end Keyword

namespace Realization

variable {answer : Answers} {spec : Specification}

/-- A declaration and its action end in the same way. -/
theorem tail?_of_ownAction {d : Declaration} {a : Action} (h : ownAction answer d = some a) :
    a.tail? = d.tail? := by
  cases d with
  | base p reference | dep p reference =>
    obtain ⟨_, -, rfl⟩ := Option.map_eq_some_iff.mp h
    rfl
  | instruction p keyword value => exact Keyword.tail?_of_check p (toOption_eq_some_iff.mp h)
  | block p keyword entries =>
    have hcheck := toOption_eq_some_iff.mp h
    unfold BlockKeyword.check at hcheck
    split at hcheck
    · cases hcheck
    · obtain ⟨pairs, -, rfl⟩ := map_eq_ok_iff.mp hcheck
      cases keyword <;> rfl
  | step p name after body => cases h

/-- A step ends in a backslash if its declaration does. -/
theorem trails_iff_of_ownStep {group : Option String} {d : Declaration} {step : Step}
    (h : ownStep answer group d = some step) : step.action.Trails ↔ d.Trails := by
  unfold Action.Trails Declaration.Trails
  rw [tail?_of_ownAction (ownStep_eq_some_iff.mp h).1]

/-- Lists that match have elements that match. -/
theorem exists_mem_iff_of_forall₂ {α β : Type} {R : α → β → Prop} {p : α → Prop} {q : β → Prop}
    (hR : ∀ x y, R x y → (q y ↔ p x)) {xs : List α} {ys : List β} (h : List.Forall₂ R xs ys) :
    (∃ y ∈ ys, q y) ↔ ∃ x ∈ xs, p x := by
  induction h with
  | nil => simp
  | cons hxy _ ih => simp [hR _ _ hxy, ih]

/-- **From the source to the steps.** A step ends in such a text exactly if a declaration does, at
    the top level or in a step. -/
theorem exists_trails_iff {r : Realization} (h : Fresh.realize answer spec = .ok r) :
    (∃ step ∈ r.steps, step.action.Trails) ↔ ∃ d ∈ spec, ∃ c ∈ d.members, c.Trails := by
  obtain ⟨order, horder, steps, hsteps, heq⟩ := exists_steps_of_realize h
  have hunit : ∀ i, (∃ step ∈ steps i, step.action.Trails) ↔
      ∃ c ∈ (spec.get i).members, c.Trails := by
    intro i
    have hrow := mapM_eq_some_iff.mp (hsteps i)
    exact exists_mem_iff_of_forall₂ (q := fun step => step.action.Trails)
      (fun _ _ => trails_iff_of_ownStep) hrow
  -- The order leaves no unit out, so each declaration has its steps in the realization.
  have hmem : ∀ i, i ∈ order := fun i =>
    (perm_of_orderOf horder).mem_iff.mpr (List.mem_finRange i)
  rw [heq]
  constructor
  · rintro ⟨step, hstep, htrails⟩
    obtain ⟨i, -, hi⟩ := List.mem_flatMap.mp hstep
    exact ⟨spec.get i, List.get_mem spec i, (hunit i).mp ⟨step, hi, htrails⟩⟩
  · rintro ⟨d, hd, hmembers⟩
    obtain ⟨i, rfl⟩ := List.get_of_mem hd
    obtain ⟨step, hi, htrails⟩ := (hunit i).mpr hmembers
    exact ⟨step, List.mem_flatMap.mpr ⟨i, hmem i, hi⟩, htrails⟩

end Realization

/-! ### Builds -/

namespace Service

variable {σ : Type} {l : Library σ}

/-- **Trailing backslashes.** A build that succeeds writes each `WORKDIR`, `USER` and `COPY` on a
    line of the script by itself.  The line ends in a backslash if and only if the text that ends it
    does; and there is such a line if and only if a declaration of the source ends in such a
    text. -/
theorem trailing_of_build {bytes : ByteArray} {sink sink' : Sink} {s s' : σ}
    (h : (ofLibrary l).build (.ok bytes) sink s = ((.ok (), sink'), s')) :
    ∃ spec r script, Specification.ofBytes bytes = .ok spec ∧ spec.realize l s = (.ok r, s') ∧
      sink'.received = sink.received ++ script ∧
      (∀ step ∈ r.steps, step.action.isRaw = true →
        ∃ line, Script.actionLines l.canonical step.action = .ok [line] ∧
          IsPhysicalLine script.toList line ∧
          (line.getLast? = some '\\' ↔ step.action.Trails)) ∧
      ((∃ step ∈ r.steps, step.action.Trails) ↔ ∃ d ∈ spec, ∃ c ∈ d.members, c.Trails) := by
  obtain ⟨spec, r, script, hspec, hr, hscript, hreceived⟩ := of_build_eq_ok h
  obtain ⟨answer, hanswer⟩ := Realization.exists_fresh_eq_realize l spec s
  rw [hr] at hanswer
  refine ⟨spec, r, script, hspec, hr, hreceived, ?_, Realization.exists_trails_iff hanswer.symm⟩
  intro step hstep hraw
  exact Script.trailing_of_render hscript hstep hraw

/-! ### A working directory with a trailing backslash -/

/-- A specification with a working directory that ends in a backslash, and a user. -/
def trailingSource : String := "base=\"debian\" workdir=\"C:\\\\\" user=\"app\""

/-- A catalog with a system. -/
def trailingCatalog : Catalog := .ofDefinitions [⟨"debian", "12", Realization.sampleDigest, .empty⟩]

/-- The declarations of the specification. -/
def trailingSpecification : Specification :=
  [.base ⟨1, 1⟩ ⟨"debian", none⟩, .instruction ⟨1, 15⟩ .workdir (.text "C:\\"),
    .instruction ⟨1, 30⟩ .user (.text "app")]

/-- The steps of the specification. -/
def trailingRealization : Realization :=
  ⟨[⟨⟨1, 1⟩, none, .base ⟨"debian", "12", Realization.sampleDigest, .empty⟩⟩,
    ⟨⟨1, 15⟩, none, .workdir "C:\\"⟩, ⟨⟨1, 30⟩, none, .user "app"⟩]⟩

/-- Its script: for a reader the user is part of the working directory. -/
def trailingScript : String := "FROM debian:12@sha512:ab12\nWORKDIR C:\\\nUSER app\n"

theorem ofBytes_trailingSource :
    Specification.ofBytes trailingSource.toUTF8 = .ok trailingSpecification := by
  rw [Specification.ofBytes_toUTF8]
  with_unfolding_all rfl

theorem realize_trailingSpecification :
    trailingSpecification.realize Catalog.library trailingCatalog
      = (.ok trailingRealization, trailingCatalog) := by
  have horder : Realization.orderOf trailingSpecification
      = .ok [⟨0, by decide⟩, ⟨1, by decide⟩, ⟨2, by decide⟩] := by
    cbv
  rw [Specification.realize, Realization.realizing, horder]
  with_unfolding_all rfl

theorem build_trailingSource :
    (ofLibrary Catalog.library).build (.ok trailingSource.toUTF8) {} trailingCatalog
      = ((.ok (), { received := trailingScript }), trailingCatalog) := by
  have hscript : Script.render Definition.canonical trailingRealization.steps
      = .ok trailingScript := by
    with_unfolding_all rfl
  have hemit : emitScript Definition.canonical trailingRealization {}
      = (.ok (), { received := trailingScript }) := by
    rw [emitScript, hscript]
    rfl
  rw [build_eq_buildRead, ofBytes_trailingSource, buildRead, realize_trailingSpecification]
  exact congrArg (·, trailingCatalog) hemit

/-- The script has a line that ends in a backslash, since its source has such a text. -/
theorem trailing_of_trailingSource :
    ∃ line, IsPhysicalLine trailingScript.toList line ∧ line.getLast? = some '\\' := by
  obtain ⟨spec, r, script, hspec, -, hreceived, hlines, htrails⟩ :=
    trailing_of_build build_trailingSource
  rw [ofBytes_trailingSource] at hspec
  cases hspec
  have hscript : script = trailingScript := by
    rw [String.empty_append] at hreceived
    exact hreceived.symm
  have hdeclaration : ∃ d ∈ trailingSpecification, ∃ c ∈ d.members, c.Trails := by
    refine ⟨.instruction ⟨1, 15⟩ .workdir (.text "C:\\"), by simp [trailingSpecification], _,
      List.mem_singleton_self _, "C:\\".toList, rfl, rfl⟩
  obtain ⟨step, hstep, hstepTrails⟩ := htrails.mpr hdeclaration
  obtain ⟨line, -, hline, hend⟩ := hlines step hstep (Action.isRaw_of_trails hstepTrails)
  exact ⟨line, hscript ▸ hline, hend.mpr hstepTrails⟩

/-- **A swallowed successor.** The build succeeds, and the line of its working directory ends in a
    backslash, so that the line of the user continues it. -/
theorem workdir_swallows_user :
    (ofLibrary Catalog.library).build (.ok trailingSource.toUTF8) {} trailingCatalog
        = ((.ok (), { received := trailingScript }), trailingCatalog) ∧
      ((ofLibrary Catalog.library).plan (.ok trailingSource.toUTF8) trailingCatalog).1
        = .ok trailingRealization ∧
      ∃ step ∈ trailingRealization.steps, step.action = .workdir "C:\\" ∧
        ∃ line, Script.actionLines Definition.canonical step.action = .ok [line] ∧
          IsPhysicalLine trailingScript.toList line ∧ line.getLast? = some '\\' := by
  refine ⟨build_trailingSource, ?_, ⟨⟨1, 15⟩, none, .workdir "C:\\"⟩, ?_, rfl,
    "WORKDIR C:\\".toList, rfl, ⟨by decide, "FROM debian:12@sha512:ab12\n".toList,
      "USER app\n".toList, rfl, Or.inr rfl⟩, rfl⟩
  · have hread : (ofLibrary Catalog.library).read (.ok trailingSource.toUTF8)
        = .ok trailingSpecification := by
      show (Specification.ofBytes trailingSource.toUTF8).mapError Error.malformed = _
      rw [ofBytes_trailingSource]
      rfl
    rw [plan, hread]
    exact congrArg Prod.fst realize_trailingSpecification
  · simp [trailingRealization]

end Service

end ImageSpec
