import ImageSpec.Reference

namespace ImageSpec.Reference

/-!
# References and their texts

A text is a reference in at most one way.  The last segment of the name holds no colon, so the first
colon behind the last slash is the separator, and a constraint may hold further colons but no slash.
What is read is therefore written as it was, and what is written is read as it was.

* `IsName`, `IsConstraint`, `IsWritable` — the references that have a text.
* `cutPath_append` — what stands behind the last slash, when more text follows.
* `cutConstraint_eq_iff` — where a text is cut.
* `parse_eq_ok_iff` — reading accepts exactly the texts of these references.
* `parse_text_and_text_parse` — reading and writing undo each other.
-/

/-! ### References that have a text -/

/-- A name: one or more ASCII letters, digits and `.`, `_`, `-`, `/`, `:`, where no segment between
    slashes is empty. -/
structure IsName (name : String) : Prop where
  ne_empty : name ≠ ""
  chars : ∀ c ∈ name.toList, c.isAlphanum = true ∨ c ∈ ['.', '_', '-', '/', ':']
  segments : [] ∉ name.toList.splitOn '/'

/-- A constraint: one or more characters other than white space and slashes. -/
structure IsConstraint (constraint : String) : Prop where
  ne_empty : constraint ≠ ""
  chars : ∀ c ∈ constraint.toList, Text.isBlank c = false ∧ c ≠ '/'

instance (constraint : String) : Decidable (IsConstraint constraint) :=
  decidable_of_iff (constraint ≠ "" ∧
      constraint.toList.all (fun c => !Text.isBlank c && c != '/') = true)
    ⟨fun h => ⟨h.1, by simpa using h.2⟩, fun h => ⟨h.1, by simpa using h.2⟩⟩

/-- The last segment of a name holds no colon. -/
def EndsPlain (name : String) : Prop :=
  ∀ last, (name.toList.splitOn '/').getLast? = some last → ':' ∉ last

/-- The references that can be told from their text. -/
structure IsWritable (r : Reference) : Prop where
  isName : IsName r.name
  endsPlain : EndsPlain r.name
  isConstraint : ∀ constraint, r.constraint = some constraint → IsConstraint constraint

/-! ### The last segment -/

theorem append_cutPath (cs : List Char) : (cutPath cs).1 ++ (cutPath cs).2 = cs := by
  have h := congrArg List.reverse
    (List.takeWhile_append_dropWhile (p := (· != '/')) (l := cs.reverse))
  rwa [List.reverse_append, List.reverse_reverse] at h

/-- The last segment holds no slash. -/
theorem slash_not_mem_cutPath (cs : List Char) : '/' ∉ (cutPath cs).2 := by
  intro hmem
  have hne := List.all_eq_true.mp List.all_takeWhile '/' (List.mem_reverse.mp hmem)
  simp at hne

/-- What is in front of the last segment is nothing or ends in a slash. -/
theorem cutPath_eq_nil_or_concat (cs : List Char) :
    (cutPath cs).1 = [] ∨ ∃ path, (cutPath cs).1 = path ++ ['/'] := by
  show (cs.reverse.dropWhile (· != '/')).reverse = [] ∨ _
  cases hdrop : cs.reverse.dropWhile (· != '/') with
  | nil => exact .inl rfl
  | cons c rest =>
    have hhead := List.head?_dropWhile_not (· != '/') cs.reverse
    rw [hdrop] at hhead
    obtain rfl : c = '/' := by simpa using hhead
    exact .inr ⟨rest.reverse, by simp [cutPath, hdrop]⟩

/-- The last segment grows with the text, as long as no slash comes. -/
theorem cutPath_append (cs : List Char) {more : List Char} (h : '/' ∉ more) :
    cutPath (cs ++ more) = ((cutPath cs).1, (cutPath cs).2 ++ more) := by
  have hmore : ∀ c ∈ more.reverse, (c != '/') = true := by
    intro c hc
    have hne : c ≠ '/' := by
      rintro rfl
      exact h (List.mem_reverse.mp hc)
    simpa using hne
  simp [cutPath, List.dropWhile_append_of_pos hmore, List.takeWhile_append_of_pos hmore]

/-- The last segment is that of a split at slashes. -/
theorem getLast?_splitOn_eq_cutPath (cs : List Char) :
    (cs.splitOn '/').getLast? = some (cutPath cs).2 := by
  have hcs := append_cutPath cs
  have hlast := Text.splitAt_of_not_mem (slash_not_mem_cutPath cs)
  rw [← Text.splitAt_eq_splitOn]
  rcases cutPath_eq_nil_or_concat cs with hpath | ⟨path, hpath⟩
  · -- there is one segment, the text
    rw [hpath, List.nil_append] at hcs
    rw [hcs] at hlast ⊢
    rw [hlast]
    rfl
  · have hsegments : Text.splitAt '/' cs = Text.splitAt '/' path ++ [(cutPath cs).2] := by
      rw [← hlast, ← Text.splitAt_append_cons, List.append_cons, ← hpath, hcs]
    rw [hsegments, List.getLast?_concat]

/-- A name ends plainly if its last segment holds no colon. -/
theorem endsPlain_iff {name : String} : EndsPlain name ↔ ':' ∉ (cutPath name.toList).2 := by
  unfold EndsPlain
  rw [getLast?_splitOn_eq_cutPath]
  simp

/-- Nothing stands behind the last slash of what is in front of the last segment. -/
theorem cutPath_path (cs : List Char) : (cutPath (cutPath cs).1).2 = [] := by
  rcases cutPath_eq_nil_or_concat cs with hpath | ⟨path, hpath⟩
  · rw [hpath]
    rfl
  · rw [hpath]
    simp [cutPath]

instance (name : String) : Decidable (EndsPlain name) :=
  decidable_of_iff ((cutPath name.toList).2.contains ':' = false) (by simp [endsPlain_iff])

/-! ### The cut -/

/-- A colon in the last segment starts the constraint. -/
theorem cutConstraint_of_cutAt_eq_some {cs before constraint : List Char}
    (h : Text.cutAt ':' (cutPath cs).2 = some (before, constraint)) :
    cutConstraint cs = ((cutPath cs).1 ++ before, some constraint) := by
  simp [cutConstraint, h]

/-- Without a colon in the last segment there is no constraint. -/
theorem cutConstraint_of_cutAt_eq_none {cs : List Char}
    (h : Text.cutAt ':' (cutPath cs).2 = none) : cutConstraint cs = (cs, none) := by
  simp [cutConstraint, h]

/-- The parts of a cut, with a colon between them, are the text; the last segment of the name has no
    colon, and the constraint has no slash. -/
theorem cutConstraint_spec {cs name : List Char} {constraint : Option (List Char)}
    (h : cutConstraint cs = (name, constraint)) :
    cs = name ++ (constraint.map (':' :: ·)).getD [] ∧ ':' ∉ (cutPath name).2 ∧
      ∀ written, constraint = some written → '/' ∉ written := by
  have hcs := append_cutPath cs
  have hslash := slash_not_mem_cutPath cs
  cases hcut : Text.cutAt ':' (cutPath cs).2 with
  | none =>
    rw [cutConstraint_of_cutAt_eq_none hcut] at h
    cases h
    exact ⟨by simp, Text.cutAt_eq_none_iff.mp hcut, by simp⟩
  | some parts =>
    obtain ⟨before, written⟩ := parts
    rw [cutConstraint_of_cutAt_eq_some hcut] at h
    cases h
    -- the cut is at the first colon of the last segment
    obtain ⟨hlast, hcolon⟩ := Text.cutAt_eq_some_iff.mp hcut
    rw [hlast] at hcs hslash
    refine ⟨?_, ?_, ?_⟩
    · show cs = (cutPath cs).1 ++ before ++ ':' :: written
      rw [List.append_assoc, hcs]
    · rw [cutPath_append _ fun hmem => hslash (by simp [hmem]), cutPath_path]
      exact hcolon
    · rintro _ ⟨⟩ hmem
      exact hslash (by simp [hmem])

/-- **Where a text is cut.** The parts are determined by what `cutConstraint_spec` says of them. -/
theorem cutConstraint_eq {name : List Char} {constraint : Option (List Char)}
    (hcolon : ':' ∉ (cutPath name).2)
    (hslash : ∀ written, constraint = some written → '/' ∉ written) :
    cutConstraint (name ++ (constraint.map (':' :: ·)).getD []) = (name, constraint) := by
  cases constraint with
  | none =>
    rw [Option.map_none, Option.getD_none, List.append_nil]
    exact cutConstraint_of_cutAt_eq_none (Text.cutAt_eq_none_iff.mpr hcolon)
  | some written =>
    -- the last segment of the name goes on behind its end, up to the end of the text
    have hmore : '/' ∉ ':' :: written := by simpa using hslash written rfl
    have hpath := cutPath_append name hmore
    show cutConstraint (name ++ ':' :: written) = (name, some written)
    have hcut : Text.cutAt ':' (cutPath (name ++ ':' :: written)).2
        = some ((cutPath name).2, written) := by
      rw [hpath]
      exact Text.cutAt_eq_some_iff.mpr ⟨rfl, hcolon⟩
    rw [cutConstraint_of_cutAt_eq_some hcut, hpath, append_cutPath]

/-! ### Reading and writing -/

theorem isNameChar_iff {c : Char} :
    isNameChar c = true ↔ c.isAlphanum = true ∨ c ∈ ['.', '_', '-', '/', ':'] := by
  simp [isNameChar, or_assoc]

/-- The test for names accepts the names. -/
theorem checkName_eq_ok_iff {name : List Char} :
    checkName name = .ok () ↔ IsName (String.ofList name) := by
  have hany : (Text.splitAt '/' name).any (·.isEmpty) = true ↔ [] ∈ name.splitOn '/' := by
    rw [Text.splitAt_eq_splitOn]
    simp
  have hall : name.all isNameChar = true ↔
      ∀ c ∈ name, c.isAlphanum = true ∨ c ∈ ['.', '_', '-', '/', ':'] := by
    simp only [List.all_eq_true, isNameChar_iff]
  unfold checkName
  constructor
  · intro h
    split at h
    · cases h
    · next hne =>
      split at h
      · cases h
      · next hsegments =>
        split at h
        · next hchars =>
          refine ⟨?_, ?_, ?_⟩
          · simpa using hne
          · rw [String.toList_ofList]
            exact hall.mp hchars
          · rw [String.toList_ofList]
            exact mt hany.mpr hsegments
        · cases h
  · rintro ⟨hne, hchars, hsegments⟩
    rw [String.toList_ofList] at hchars hsegments
    rw [if_neg (by simpa using hne), if_neg (mt hany.mp hsegments), if_pos (hall.mpr hchars)]

instance (name : String) : Decidable (IsName name) :=
  decidable_of_iff ((checkName name.toList).isOk = true) (by
    rw [← String.ofList_toList (s := name), ← checkName_eq_ok_iff, String.toList_ofList]
    cases checkName name.toList <;> simp [Except.isOk, Except.toBool])

/-- Letters and digits are in the ASCII range. -/
theorem toNat_of_isAlphanum {c : Char} (h : c.isAlphanum = true) :
    48 ≤ c.toNat ∧ c.toNat ≤ 122 := by
  have hkinds : ((c.isUpper || c.isLower) || c.isDigit) = true := h
  rw [Bool.or_eq_true, Bool.or_eq_true] at hkinds
  rcases hkinds with (hupper | hlower) | hdigit
  · have hrange : 'A'.val ≤ c.val ∧ c.val ≤ 'Z'.val := of_decide_eq_true hupper
    have hlow : 65 ≤ c.toNat := UInt32.le_iff_toNat_le.mp hrange.1
    have hhigh : c.toNat ≤ 90 := UInt32.le_iff_toNat_le.mp hrange.2
    omega
  · obtain ⟨hlow, hhigh⟩ := Bool.and_eq_true_iff.mp hlower
    have hlow : 97 ≤ c.toNat := UInt32.le_iff_toNat_le.mp (of_decide_eq_true hlow)
    have hhigh : c.toNat ≤ 122 := UInt32.le_iff_toNat_le.mp (of_decide_eq_true hhigh)
    omega
  · obtain ⟨hlow, hhigh⟩ := Char.isDigit_iff_toNat.mp hdigit
    have hlow : 48 ≤ c.toNat := hlow
    have hhigh : c.toNat ≤ 57 := hhigh
    omega

/-- No white space stands in a name. -/
theorem isBlank_eq_false_of_isNameChar {c : Char} (h : isNameChar c = true) :
    Text.isBlank c = false := by
  rcases isNameChar_iff.mp h with hletter | hmark
  · obtain ⟨hlow, hhigh⟩ := toNat_of_isAlphanum hletter
    rw [← Bool.not_eq_true]
    intro hblank
    simp only [Text.isBlank, Bool.or_eq_true, Bool.and_eq_true, decide_eq_true_eq,
      beq_iff_eq] at hblank
    omega
  · simp only [List.mem_cons, List.not_mem_nil, or_false] at hmark
    rcases hmark with rfl | rfl | rfl | rfl | rfl <;> rfl

/-- A reference is written as its name and, behind a colon, its constraint. -/
theorem toList_text (r : Reference) :
    r.text.toList = r.name.toList ++ ((r.constraint.map String.toList).map (':' :: ·)).getD [] := by
  cases r with
  | mk name constraint => cases constraint <;> simp [text]

/-- What reading checks, one check after the other. -/
theorem parse_eq_ok_iff_cut {s : String} {r : Reference} : parse s = .ok r ↔
    s.toList ≠ [] ∧ (∀ c ∈ s.toList, Text.isBlank c = false) ∧
      cutConstraint s.toList = (r.name.toList, r.constraint.map String.toList) ∧
      r.constraint ≠ some "" ∧ IsName r.name := by
  rcases hcut : cutConstraint s.toList with ⟨name, constraint⟩
  unfold parse
  dsimp only
  rw [hcut]
  dsimp only
  constructor
  · -- the tests of the parser, one after the other
    intro h
    split at h
    · cases h
    · next hne =>
      split at h
      · cases h
      · next hblank =>
        split at h
        · cases h
        · next hconstraint =>
          split at h
          · cases h
          · next hcheck =>
            cases h
            refine ⟨by simpa using hne, by simpa using hblank, ?_, ?_, checkName_eq_ok_iff.mp hcheck⟩
            · cases constraint <;> simp
            · cases constraint with
              | none => simp
              | some written => simpa using hconstraint
  · rintro ⟨hne, hblank, hparts, hconstraint, hname⟩
    obtain ⟨rfl, rfl⟩ := Prod.mk.inj hparts
    have hcheck : checkName r.name.toList = .ok () := by
      rw [checkName_eq_ok_iff, String.ofList_toList]
      exact hname
    have hwritten : r.constraint.map String.toList ≠ some [] := by
      cases hr : r.constraint with
      | none => simp
      | some constraint => simpa [hr] using hconstraint
    rw [if_neg (by simpa using hne), if_neg (by simpa using hblank), if_neg hwritten, hcheck]
    cases r with
    | mk name constraint => cases constraint <;> simp

/-- **Exactness.** Reading accepts the texts of writable references and nothing else. -/
theorem parse_eq_ok_iff {s : String} {r : Reference} :
    parse s = .ok r ↔ r.text = s ∧ r.IsWritable := by
  rw [parse_eq_ok_iff_cut]
  constructor
  · rintro ⟨-, hblank, hcut, hconstraint, hname⟩
    obtain ⟨htext, hcolon, hslash⟩ := cutConstraint_spec hcut
    refine ⟨String.toList_injective ((toList_text r).trans htext.symm), hname,
      endsPlain_iff.mpr hcolon, fun constraint heq => ⟨?_, fun c hc => ⟨?_, ?_⟩⟩⟩
    · rintro rfl
      exact hconstraint heq
    · -- the constraint is part of the text
      refine hblank c ?_
      rw [htext, heq]
      simp [hc]
    · rintro rfl
      exact hslash constraint.toList (by rw [heq]; rfl) hc
  · rintro ⟨rfl, hname, hplain, hconstraint⟩
    have hwritten : ∀ written, r.constraint.map String.toList = some written →
        ∀ c ∈ written, Text.isBlank c = false ∧ c ≠ '/' := by
      intro written hmap
      obtain ⟨constraint, heq, rfl⟩ := Option.map_eq_some_iff.mp hmap
      exact (hconstraint constraint heq).chars
    -- the text of a reference is cut where its constraint starts
    rw [toList_text]
    refine ⟨?_, fun c hc => ?_, ?_, ?_, hname⟩
    · have hne : r.name.toList ≠ [] := by simpa using hname.ne_empty
      exact List.append_ne_nil_of_left_ne_nil hne _
    · rcases List.mem_append.mp hc with hc | hc
      · exact isBlank_eq_false_of_isNameChar (isNameChar_iff.mpr (hname.chars c hc))
      · cases hmap : r.constraint.map String.toList with
        | none => simp [hmap] at hc
        | some written =>
          rw [hmap] at hc
          rcases List.mem_cons.mp hc with rfl | hc
          · rfl
          · exact (hwritten written hmap c hc).1
    · refine cutConstraint_eq (endsPlain_iff.mp hplain) fun written hmap hmem => ?_
      exact (hwritten written hmap '/' hmem).2 rfl
    · intro heq
      exact (hconstraint "" heq).ne_empty rfl

/-- **Writing undoes reading.** A reference that was read is written as it was. -/
theorem text_of_parse {s : String} {r : Reference} (h : parse s = .ok r) : r.text = s :=
  (parse_eq_ok_iff.mp h).1

/-- **Reading and writing undo each other.** Reading accepts the texts of writable references and
    nothing else.  What is read is written as it was and is read again from there, so different texts
    are different references; its name and its constraint are well-formed.  Conversely, a well-formed
    name whose last segment holds no colon is read from its text, by itself and with every
    well-formed constraint, even one with colons. -/
theorem parse_text_and_text_parse :
    (∀ s r, parse s = .ok r ↔ r.text = s ∧ r.IsWritable) ∧
      (∀ s r, parse s = .ok r → r.text = s ∧ parse r.text = .ok r ∧ IsName r.name ∧
        ∀ constraint, r.constraint = some constraint → IsConstraint constraint) ∧
      (∀ s t r, parse s = .ok r → parse t = .ok r → s = t) ∧
      ∀ name, IsName name → EndsPlain name → parse (text ⟨name, none⟩) = .ok ⟨name, none⟩ ∧
        ∀ constraint, IsConstraint constraint →
          parse (text ⟨name, some constraint⟩) = .ok ⟨name, some constraint⟩ := by
  refine ⟨fun s r => parse_eq_ok_iff, fun s r h => ?_, fun s t r hs ht => ?_, ?_⟩
  · obtain ⟨rfl, hwritable⟩ := parse_eq_ok_iff.mp h
    exact ⟨rfl, h, hwritable.isName, hwritable.isConstraint⟩
  · rw [← text_of_parse hs, ← text_of_parse ht]
  · intro name hname hplain
    refine ⟨parse_eq_ok_iff.mpr ⟨rfl, hname, hplain, by simp⟩, fun constraint hconstraint => ?_⟩
    exact parse_eq_ok_iff.mpr ⟨rfl, hname, hplain, by simpa using hconstraint⟩

/-- A host with a port, a path and a constraint with colons. -/
theorem parse_text_registry :
    (IsName "localhost:5000/tools/jq" ∧ EndsPlain "localhost:5000/tools/jq" ∧
        IsConstraint ">=1:6:0") ∧
      parse "localhost:5000/tools/jq:>=1:6:0" = .ok ⟨"localhost:5000/tools/jq", some ">=1:6:0"⟩ := by
  have hname : IsName "localhost:5000/tools/jq" := by decide +kernel
  have hplain : EndsPlain "localhost:5000/tools/jq" := by decide +kernel
  have hconstraint : IsConstraint ">=1:6:0" := by decide +kernel
  have hread := (parse_text_and_text_parse.2.2.2 _ hname hplain).2 _ hconstraint
  exact ⟨⟨hname, hplain, hconstraint⟩, hread⟩

end ImageSpec.Reference
