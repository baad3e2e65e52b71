import ImageSpec.Proofs.Defects
import ImageSpec.Proofs.JsonText
import ImageSpec.Proofs.TrailingBackslash

namespace ImageSpec

/-!
# The line of a copy tells its paths

The paths of a copy are written with spaces between them, and as a JSON array if one of them holds a
blank or a quote.  Neither form announces itself, but a quote in the text does: an array of strings
has quotes, and paths with spaces between them have none.

* `Text.splitAt_joinWith` — segments without the separator are read back from what joins them.
* `Script.ReadsAs` — a text is read as a list of paths, in the form that its quotes tell.
* `Script.ReadsAs.unique` — a text is read as one list at most.
* `Script.exists_readsAs_of_copyLine` — the line of a copy is read as its paths.
* `Script.copy_determines_paths` — so the line of a copy that passed its check determines the copy.
-/

/-! ### Paths with spaces between them -/

/-- Segments without the separator are read back from what joins them. -/
theorem Text.splitAt_joinWith {sep : Char} {segments : List (List Char)} (hne : segments ≠ [])
    (h : ∀ segment ∈ segments, sep ∉ segment) :
    splitAt sep (joinWith [sep] segments) = segments := by
  rw [splitAt_eq_splitOn]
  exact List.splitOn_intercalate sep h hne

namespace Script

/-! ### Reading paths -/

/-- A text is read as a list of paths: with a quote in it as a JSON array of strings, and otherwise
    as what stands between the spaces. -/
structure ReadsAs (text : List Char) (paths : List String) : Prop where
  array : '"' ∈ text →
    Json.ofChars? text = some (.array (paths.map fun path => .string (some path)))
  plain : '"' ∉ text → Text.splitAt ' ' text = paths.map String.toList

/-- A text is read as one list of paths at most. -/
theorem ReadsAs.unique {text : List Char} {paths paths' : List String} (h : ReadsAs text paths)
    (h' : ReadsAs text paths') : paths = paths' := by
  by_cases hquote : '"' ∈ text
  · have hitems := (h.array hquote).symm.trans (h'.array hquote)
    exact Json.eq_of_array_eq (Option.some.inj hitems)
  · have hsegments := (h.plain hquote).symm.trans (h'.plain hquote)
    exact List.map_injective_iff.mpr (fun _ _ => String.toList_inj.mp) hsegments

/-- Paths that are written as an array are read back. -/
theorem readsAs_execForm {paths : List String} (hne : paths ≠ []) :
    ReadsAs (execForm paths) paths := by
  have hquote : '"' ∈ execForm paths := by
    obtain ⟨first, rest, rfl⟩ := List.exists_cons_of_ne_nil hne
    have hfirst : '"' ∈ Json.quoted first.toList := by simp [Json.quoted]
    cases rest <;> simp [execForm, Text.joinWith, List.intercalate_cons_cons, hfirst]
  exact ⟨fun _ => ofChars?_execForm paths, fun h => absurd hquote h⟩

/-- Paths with spaces between them are read back, if none of them has a blank or a quote. -/
theorem readsAs_joinWith {paths : List String} (hne : paths ≠ [])
    (h : ∀ path ∈ paths, needsExecForm path = false) :
    ReadsAs (Text.joinWith [' '] (paths.map String.toList)) paths := by
  have hsegments : ∀ c, (Text.isBlank c || c == '"' || c == '\'') = true →
      ∀ segment ∈ paths.map String.toList, c ∉ segment := by
    intro c hc
    simpa using fun path hpath => not_mem_of_needsExecForm (h path hpath) hc
  constructor
  · exact fun hquote => absurd hquote (Text.not_mem_joinWith (by decide) (hsegments '"' rfl))
  · exact fun _ => Text.splitAt_joinWith (by simpa using hne) (hsegments ' ' rfl)

/-- **Copies.** The line of a copy is read as its sources and its destination. -/
theorem exists_readsAs_of_copyLine {sources : List String} {destination : String} {l : Line}
    (h : copyLine sources destination = .ok l) :
    ∃ text, l = "COPY ".toList ++ text ∧ ReadsAs text (sources ++ [destination]) := by
  have hne : sources ++ [destination] ≠ [] := by simp
  unfold copyLine at h
  dsimp only at h
  split at h
  · cases h
  · split at h
    · cases h
      exact ⟨_, rfl, readsAs_execForm hne⟩
    · next hplain =>
      cases h
      rw [Bool.not_eq_true, List.any_eq_false] at hplain
      exact ⟨_, rfl, readsAs_joinWith hne (by simpa using hplain)⟩

/-- Copies with the same line have the same sources and the same destination. -/
theorem eq_of_copyLine_eq {sources sources' : List String} {destination destination' : String}
    {l : Line} (h : copyLine sources destination = .ok l)
    (h' : copyLine sources' destination' = .ok l) :
    sources = sources' ∧ destination = destination' := by
  obtain ⟨text, rfl, htext⟩ := exists_readsAs_of_copyLine h
  obtain ⟨text', hline, htext'⟩ := exists_readsAs_of_copyLine h'
  obtain rfl : text = text' := List.append_cancel_left hline
  simpa using htext.unique htext'

/-- The line of a copy is a line of every script with the copy among its steps. -/
theorem isPhysicalLine_of_copyLine {naming : Naming} {steps : List Step} {script : String}
    {step : Step} {sources : List String} {destination : String} {l : Line}
    (h : render naming steps = .ok script) (hstep : step ∈ steps)
    (haction : step.action = .copy sources destination)
    (hline : copyLine sources destination = .ok l) : IsPhysicalLine script.toList l := by
  obtain ⟨lines, hlines, rfl⟩ := Realization.map_eq_ok_iff.mp h
  obtain ⟨before, part, after, hpart, rfl⟩ := exists_part_of_mem hlines hstep
  obtain rfl : [l] = part := by
    rw [haction, actionLines, hline] at hpart
    cases hpart
    rfl
  exact isPhysicalLine_text (trailing_of_copyLine hline).1

/-- **The line of a copy determines its paths.** A list of paths that passes the check of a copy is
    written on one line behind `COPY`, wherever the copy stands in a script.  The list is read back
    from this line, and no other copy is written on the same line. -/
theorem copy_determines_paths {paths : List String} {a : Action}
    (h : Keyword.copy.check (.list paths) = .ok a) :
    ∃ sources destination text, a = .copy sources destination ∧
      paths = sources ++ [destination] ∧ '\n' ∉ text ∧
      (∀ naming, actionLines naming a = .ok ["COPY ".toList ++ text]) ∧
      (∀ naming steps script, render naming steps = .ok script →
        ∀ step ∈ steps, step.action = a → IsPhysicalLine script.toList ("COPY ".toList ++ text)) ∧
      ('"' ∈ text →
        Json.ofChars? text = some (.array (paths.map fun path => .string (some path)))) ∧
      ('"' ∉ text → Text.splitAt ' ' text = paths.map String.toList) ∧
      ∀ naming sources' destination',
        actionLines naming (.copy sources' destination') = .ok ["COPY ".toList ++ text] →
        sources' = sources ∧ destination' = destination := by
  have hcopy : Keyword.checkCopy (.list paths) = .ok a := h
  obtain ⟨sources, destination, hne, hpaths, rfl⟩ := Keyword.exists_of_checkCopy hcopy
  cases hpaths
  obtain ⟨l, hl⟩ := exists_copyLine destination hne
  have hfeed := (trailing_of_copyLine hl).1
  -- the text behind the keyword is read in one of two ways, and a quote in it tells which
  obtain ⟨text, rfl, hreads⟩ := exists_readsAs_of_copyLine hl
  refine ⟨sources, destination, text, rfl, rfl, fun hmem => hfeed (List.mem_append_right _ hmem),
    fun naming => ?_, fun naming steps script hscript step hstep haction =>
      isPhysicalLine_of_copyLine hscript hstep haction hl,
    hreads.array, hreads.plain, fun naming sources' destination' hlines' => ?_⟩
  · rw [actionLines, hl]
    rfl
  · obtain ⟨l', hl', hsame⟩ := Realization.map_eq_ok_iff.mp hlines'
    cases hsame
    exact eq_of_copyLine_eq hl' hl

/-- Paths with blanks and quotes of both kinds in them. -/
def quotedPaths : List String := ["my notes.txt", "say \"hi\"", "it's", "/opt/"]

/-- Paths with blanks and quotes are read back. -/
theorem quotedPaths_recovered :
    Keyword.copy.check (.list quotedPaths)
        = .ok (.copy ["my notes.txt", "say \"hi\"", "it's"] "/opt/") ∧
      '\n' ∉ execForm quotedPaths ∧
      Json.ofChars? (execForm quotedPaths)
        = some (.array (quotedPaths.map fun path => .string (some path))) ∧
      ∀ naming sources destination,
        actionLines naming (.copy sources destination)
          = .ok ["COPY [\"my notes.txt\",\"say \\\"hi\\\"\",\"it's\",\"/opt/\"]".toList] →
        sources = ["my notes.txt", "say \"hi\"", "it's"] ∧ destination = "/opt/" := by
  have hcheck : Keyword.copy.check (.list quotedPaths)
      = .ok (.copy ["my notes.txt", "say \"hi\"", "it's"] "/opt/") := by decide
  obtain ⟨_, _, text, ha, -, hfeed, hlines, -, harray, -, hunique⟩ := copy_determines_paths hcheck
  cases ha
  obtain rfl : execForm quotedPaths = text := by
    have hline : actionLines (fun d => .ok d.name)
        (.copy ["my notes.txt", "say \"hi\"", "it's"] "/opt/")
          = .ok ["COPY ".toList ++ execForm quotedPaths] := rfl
    rw [hlines, Except.ok.injEq, List.singleton_inj] at hline
    exact (List.append_cancel_left hline).symm
  exact ⟨hcheck, hfeed, harray (by decide), hunique⟩

end Script

end ImageSpec
