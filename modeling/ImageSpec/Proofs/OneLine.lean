import ImageSpec.Proofs.Units
import ImageSpec.Proofs.Words
import ImageSpec.Script

namespace ImageSpec

/-!
# Texts on one line

Text of a specification and of a library comes into a script by many routes.  Here is what each of
them lets through:

* names of steps, names of variables and digests are made of characters that need no line of their
  own;
* `Definition.canonical` gives no name with a line feed, whatever the library wrote into the
  definition (`lineFeed_not_mem_canonical`);
* a JSON array has no line feed and no other control character, whatever is in it
  (`space_le_of_mem_execForm`);
* blocks are accepted only without line feeds (`OneLinePairs`).
-/

/-- A text of characters of some kind holds none that is not of the kind. -/
theorem not_mem_of_all {kind : Char → Bool} {c : Char} {cs : List Char} (hkind : kind c = false)
    (h : cs.all kind = true) : c ∉ cs := by
  intro hmem
  rw [List.all_eq_true.mp h _ hmem] at hkind
  cases hkind

/-- A word holds no line feed. -/
theorem IsWord.lineFeed_not_mem {name : String} (h : IsWord name) : '\n' ∉ name.toList := by
  obtain ⟨c, cs, heq, hstart, hparts⟩ := Lexer.isWord_iff.mp h
  rw [heq]
  refine List.not_mem_cons_of_ne_of_not_mem ?_ (not_mem_of_all (by decide) hparts)
  rintro rfl
  cases hstart

/-- The name of a variable holds letters, digits and `_` alone. -/
theorem not_mem_of_isVariableName {name : String} {c : Char}
    (hc : (c.isAlphanum || c == '_') = false) (h : isVariableName name = true) :
    c ∉ name.toList := by
  unfold isVariableName at h
  split at h
  · cases h
  · next first cs heq =>
    rw [Bool.and_eq_true] at h
    rw [heq]
    refine List.not_mem_cons_of_ne_of_not_mem ?_ (not_mem_of_all hc h.2)
    rintro rfl
    -- what may stand first may stand behind as well
    have hparts : (c.isAlpha || c.isDigit || c == '_') = false := hc
    rw [Bool.or_right_comm, h.1, Bool.true_or] at hparts
    cases hparts

/-- The digits of a number hold no line feed. -/
theorem lineFeed_not_mem_repr (n : Nat) : '\n' ∉ n.repr.toList := by
  rw [Nat.toList_repr]
  exact fun hmem => absurd (Nat.isDigit_of_mem_toDigits (by decide) (by decide) hmem) (by decide)

/-- A line break is a line feed. -/
theorem hasLineBreak_eq_false_iff {s : String} : hasLineBreak s = false ↔ '\n' ∉ s.toList := by
  simp [hasLineBreak]

/-- A text without any break holds no line feed. -/
theorem Script.lineFeed_not_mem_of_hasAnyBreak {s : String} (h : hasAnyBreak s = false) :
    '\n' ∉ s.toList := by
  intro hmem
  unfold hasAnyBreak at h
  rw [List.any_eq_false] at h
  exact h _ hmem rfl

/-! ### Names of definitions -/

theorem Digest.lineFeed_not_mem_text (d : Digest) : '\n' ∉ d.text.toList := by
  have halgorithm := not_mem_of_all (c := '\n') (by decide) d.algorithm_chars
  have hencoded := not_mem_of_all (c := '\n') (by decide) d.encoded_chars
  simp [Digest.text, halgorithm, hencoded]

namespace Definition

theorem lineFeed_not_mem_of_isPrintable {s : String} (h : isPrintable s = true) :
    '\n' ∉ s.toList := by
  unfold isPrintable at h
  rw [Bool.and_eq_true, Bool.not_eq_true', Bool.not_eq_true', List.any_eq_false] at h
  exact fun hmem => h.2 _ hmem rfl

/-- What is put in front of a name holds no line feed if the registry holds none. -/
theorem lineFeed_not_mem_qualifier {registry : String} (name : String)
    (h : '\n' ∉ registry.toList) : '\n' ∉ (qualifier registry name).toList := by
  unfold qualifier
  split
  · simp
  · have hslashes : '\n' ∉ dropSlashes registry.toList := by
      intro hmem
      unfold dropSlashes at hmem
      apply h
      rw [← List.mem_reverse]
      exact (List.dropWhile_suffix _).subset (List.mem_reverse.mp hmem)
    simp [hslashes]

/-- **Canonical names.** No text in a definition gets a line feed into its canonical name. -/
theorem lineFeed_not_mem_canonical {d : Definition} {name : String} (h : d.canonical = .ok name) :
    '\n' ∉ name.toList := by
  unfold canonical at h
  split at h
  · cases h
  · next hname =>
    split at h
    · cases h
    · next hversion =>
      -- whatever passes the tests for printing has no white space
      have hidentity : '\n' ∉ (d.name ++ ":" ++ d.version ++ "@" ++ d.digest.text).toList := by
        have hname := lineFeed_not_mem_of_isPrintable (by simpa using hname)
        have hversion := lineFeed_not_mem_of_isPrintable (by simpa using hversion)
        have hdigest := d.digest.lineFeed_not_mem_text
        simp [hname, hversion, hdigest]
      dsimp only at h
      split at h
      · cases h
        exact hidentity
      · split at h
        · next registry hregistry hprintable =>
          cases h
          have hqualifier :=
            lineFeed_not_mem_qualifier d.name (lineFeed_not_mem_of_isPrintable hprintable)
          rw [String.toList_append, List.mem_append, not_or]
          exact ⟨hqualifier, hidentity⟩
        · cases h

end Definition

/-! ### Quoting -/

/-- Hexadecimal digits are above the space. -/
theorem Text.space_le_of_mem_hexPadded {width n : Nat} {c : Char} (h : c ∈ hexPadded width n) :
    0x20 ≤ c.toNat := by
  induction width generalizing n with
  | zero => cases h
  | succ width ih =>
    rw [hexPadded, List.mem_append, List.mem_singleton] at h
    rcases h with h | rfl
    · exact ih h
    · unfold hexDigit
      split <;> decide

/-- Control characters are written without any. -/
theorem Json.space_le_of_mem_escape {c d : Char} (h : d ∈ escape c) : 0x20 ≤ d.toNat := by
  unfold escape at h
  split at h
  case h_8 =>
    split at h
    · rcases List.mem_append.mp h with h | h
      · simp only [List.mem_cons, List.not_mem_nil, or_false] at h
        rcases h with rfl | rfl <;> decide
      · exact Text.space_le_of_mem_hexPadded h
    · next hlow =>
      rw [List.mem_singleton.mp h]
      omega
  all_goals
    simp only [List.mem_cons, List.not_mem_nil, or_false] at h
    rcases h with rfl | rfl <;> decide

/-- A quoted string holds no control characters. -/
theorem Json.space_le_of_mem_quoted {cs : List Char} {c : Char} (h : c ∈ quoted cs) :
    0x20 ≤ c.toNat := by
  simp only [quoted, List.mem_append, List.mem_singleton, List.mem_flatMap] at h
  rcases h with (rfl | ⟨d, -, hc⟩) | rfl
  · decide
  · exact space_le_of_mem_escape hc
  · decide

/-- What is in joined segments is in the separator or in a segment. -/
theorem Text.cases_of_mem_joinWith {c : Char} {sep : List Char} {segments : List (List Char)}
    (h : c ∈ joinWith sep segments) : c ∈ sep ∨ ∃ segment ∈ segments, c ∈ segment := by
  unfold joinWith at h
  induction segments with
  | nil => cases h
  | cons first rest ih =>
    cases rest with
    | nil => exact .inr ⟨first, List.mem_singleton_self first, by simpa using h⟩
    | cons second rest =>
      rw [List.intercalate_cons_cons, List.mem_append, List.mem_append] at h
      rcases h with (h | h) | h
      · exact .inr ⟨first, List.mem_cons_self, h⟩
      · exact .inl h
      · rcases ih h with h | ⟨segment, hsegment, hc⟩
        · exact .inl h
        · exact .inr ⟨segment, List.mem_cons_of_mem first hsegment, hc⟩

/-- What is in no segment and not in the separator is not in the whole. -/
theorem Text.not_mem_joinWith {c : Char} {sep : List Char} {segments : List (List Char)}
    (hsep : c ∉ sep) (h : ∀ segment ∈ segments, c ∉ segment) : c ∉ joinWith sep segments := by
  intro hmem
  rcases cases_of_mem_joinWith hmem with hc | ⟨segment, hsegment, hc⟩
  · exact hsep hc
  · exact h segment hsegment hc

namespace Script

/-- A value without a line feed is quoted without one. -/
theorem lineFeed_not_mem_doubleQuoted {cs : List Char} (h : '\n' ∉ cs) :
    '\n' ∉ doubleQuoted cs := by
  unfold doubleQuoted
  simp only [List.mem_append, List.mem_flatMap, not_or, not_exists, not_and]
  refine ⟨⟨by decide, fun c hc => ?_⟩, by decide⟩
  have hne : '\n' ≠ c := fun heq => h (heq ▸ hc)
  split <;> simp [hne]

/-- **JSON arrays** have no control characters, whatever their items hold. -/
theorem space_le_of_mem_execForm {arguments : List String} {c : Char}
    (h : c ∈ execForm arguments) : 0x20 ≤ c.toNat := by
  simp only [execForm, List.mem_append, List.mem_singleton] at h
  rcases h with (rfl | h) | rfl
  · decide
  · rcases Text.cases_of_mem_joinWith h with hc | ⟨segment, hsegment, hc⟩
    · rw [List.mem_singleton.mp hc]
      decide
    · obtain ⟨a, -, rfl⟩ := List.mem_map.mp hsegment
      exact Json.space_le_of_mem_quoted hc
  · decide

/-- A list of arguments is written without a line feed, whatever they hold. -/
theorem lineFeed_not_mem_execForm (arguments : List String) : '\n' ∉ execForm arguments :=
  fun h => absurd (space_le_of_mem_execForm h) (by decide)

/-- Paths that need no JSON array hold no blanks and no quotes. -/
theorem not_mem_of_needsExecForm {path : String} (h : needsExecForm path = false) {c : Char}
    (hc : (Text.isBlank c || c == '"' || c == '\'') = true) : c ∉ path.toList := by
  intro hmem
  unfold needsExecForm at h
  rw [List.any_eq_false] at h
  exact h c hmem hc

/-- A path that needs no quotes holds no line feed. -/
theorem lineFeed_not_mem_of_needsExecForm {path : String} (h : needsExecForm path = false) :
    '\n' ∉ path.toList := not_mem_of_needsExecForm h rfl

end Script

/-! ### Actions -/

/-- The command of an action that runs one. -/
def Action.command? : Action → Option Command
  | run command => some command
  | cmd command => some command
  | entrypoint command => some command
  | _ => none

/-- The keys and values of an action that sets variables or labels. -/
def Action.pairs : Action → List (String × String)
  | env pairs => pairs
  | label pairs => pairs
  | _ => []

/-- The keys and values of an action are on one line each. -/
def Action.OneLinePairs (a : Action) : Prop :=
  ∀ pair ∈ a.pairs, '\n' ∉ pair.1.toList ∧ '\n' ∉ pair.2.toList

namespace BlockKeyword

/-- An entry that passes its check holds no line feed. -/
theorem lineFeed_not_mem_of_checkEntry {k : BlockKeyword} {e : Entry} {pair : String × String}
    (h : k.checkEntry e = .ok pair) : '\n' ∉ pair.1.toList ∧ '\n' ∉ pair.2.toList := by
  unfold checkEntry at h
  split at h
  · cases h
  · split at h
    · cases h
    · next hbreaks =>
      cases h
      rw [Bool.not_eq_true, Bool.or_eq_false_iff] at hbreaks
      exact hbreaks.imp hasLineBreak_eq_false_iff.mp hasLineBreak_eq_false_iff.mp

theorem lineFeed_not_mem_of_checkEntries {k : BlockKeyword} {es : List Entry}
    {pairs : List (String × String)} (h : k.checkEntries es = .ok pairs) :
    ∀ pair ∈ pairs, '\n' ∉ pair.1.toList ∧ '\n' ∉ pair.2.toList := by
  induction es generalizing pairs with
  | nil =>
    cases h
    simp
  | cons e es ih =>
    rw [checkEntries] at h
    split at h
    · cases h
    · next pair hpair =>
      obtain ⟨rest, hrest, rfl⟩ := Realization.map_eq_ok_iff.mp h
      exact List.forall_mem_cons.mpr ⟨lineFeed_not_mem_of_checkEntry hpair, ih hrest⟩

/-- A block passes its check only with keys and values on one line each. -/
theorem oneLinePairs_of_check {k : BlockKeyword} {position : Position} {es : List Entry}
    {a : Action} (h : k.check position es = .ok a) : a.OneLinePairs := by
  unfold check at h
  split at h
  · cases h
  · obtain ⟨pairs, hpairs, rfl⟩ := Realization.map_eq_ok_iff.mp h
    have hlines := lineFeed_not_mem_of_checkEntries hpairs
    cases k <;> exact hlines

end BlockKeyword

/-- The value of a copy that passes its check is a list of sources and the destination. -/
theorem Keyword.exists_of_checkCopy {value : Value} {a : Action} (h : checkCopy value = .ok a) :
    ∃ sources destination, sources ≠ [] ∧ value = .list (sources ++ [destination]) ∧
      a = .copy sources destination := by
  cases value with
  | text s => cases h
  | integer n => cases h
  | list paths =>
    unfold checkCopy at h
    dsimp only at h
    split at h
    · next source sources destination hsources hdestination =>
      split at h
      · cases h
      · split at h
        · cases h
        · cases h
          refine ⟨source :: sources, destination, List.cons_ne_nil _ _, ?_, rfl⟩
          rw [← hsources, List.dropLast_append_getLast? destination hdestination]
    · cases h

/-- Of instructions with one value, none sets variables or labels. -/
theorem Keyword.pairs_of_check {k : Keyword} {value : Value} {a : Action}
    (h : k.check value = .ok a) : a.pairs = [] := by
  cases k with
  | copy =>
    obtain ⟨sources, destination, -, -, rfl⟩ := exists_of_checkCopy h
    rfl
  | _ =>
    obtain ⟨_, -, rfl⟩ := Realization.map_eq_ok_iff.mp h
    rfl

/-- **Actions of declarations** have keys and values on one line each. -/
theorem Realization.oneLinePairs_of_ownAction {answer : Answers} {d : Declaration} {a : Action}
    (h : ownAction answer d = some a) : a.OneLinePairs := by
  cases d with
  | base position reference | dep position reference =>
    obtain ⟨_, -, rfl⟩ := Option.map_eq_some_iff.mp h
    simp [Action.OneLinePairs, Action.pairs]
  | instruction position keyword value =>
    have hpairs := Keyword.pairs_of_check (toOption_eq_some_iff.mp h)
    simp [Action.OneLinePairs, hpairs]
  | block position keyword entries =>
    exact BlockKeyword.oneLinePairs_of_check (toOption_eq_some_iff.mp h)
  | step position name after body => cases h

end ImageSpec
