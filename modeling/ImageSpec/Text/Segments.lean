namespace ImageSpec.Text

/-!
# White space and cuts

`isBlank` is the white space of the whole library except between the tokens of a specification: the
25 characters with the standard's white-space property.  The zero-width characters and the four
information separators are not among them.  `trim` and `trimEnd` remove white space from the ends
of a text, and `allBlank` says that a text holds nothing else.

`splitAt` cuts at every occurrence of a separator, so a text with `n` separators has `n + 1`
segments, and gluing the segments back with the separator gives the text again.  `lines` reads a
text as lines that end in a line feed.
-/

/-! ### White space -/

/-- The characters with the white-space property. -/
def isBlank (c : Char) : Bool :=
  let n := c.toNat
  (0x09 ≤ n && n ≤ 0x0D) || n == 0x20 || n == 0x85 || n == 0xA0 || n == 0x1680
    || (0x2000 ≤ n && n ≤ 0x200A) || n == 0x2028 || n == 0x2029 || n == 0x202F || n == 0x205F
    || n == 0x3000

/-- Whether a text holds white space only; the empty text does. -/
def allBlank (cs : List Char) : Bool := cs.all isBlank

/-- The text without the white space at its start. -/
def trimStart (cs : List Char) : List Char := cs.dropWhile isBlank

/-- The text without the white space at its end. -/
def trimEnd (cs : List Char) : List Char := (cs.reverse.dropWhile isBlank).reverse

/-- The text without the white space at its ends. -/
def trim (cs : List Char) : List Char := trimEnd (trimStart cs)

/-! ### Segments -/

/-- The segments between the occurrences of `sep`; there is always at least one. -/
def splitAt (sep : Char) : List Char → List (List Char)
  | [] => [[]]
  | c :: cs =>
    if c = sep then [] :: splitAt sep cs
    else match splitAt sep cs with
      | [] => [[c]]
      | segment :: segments => (c :: segment) :: segments

/-- The segments put together again, with `sep` between them. -/
def joinWith (sep : List Char) (segments : List (List Char)) : List Char :=
  sep.intercalate segments

/-- A segment without one final carriage return. -/
def dropReturn (cs : List Char) : List Char :=
  if cs.getLast? = some '\r' then cs.dropLast else cs

/-- The lines of a text: each ends in a line feed, which may follow a carriage return; the text after
    the last line feed is a line unless it is empty. -/
def lines (cs : List Char) : List (List Char) :=
  let segments := splitAt '\n' cs
  let ended := segments.dropLast.map dropReturn
  match segments.getLast? with
  | some [] => ended
  | some last => ended ++ [last]
  | none => ended

/-- Cuts at the first occurrence of `sep`, which is in neither part; `none` if there is none. -/
def cutAt (sep : Char) (cs : List Char) : Option (List Char × List Char) :=
  match cs.dropWhile (· != sep) with
  | [] => none
  | _ :: after => some (cs.takeWhile (· != sep), after)

/-! ### What the cuts are -/

/-- `splitAt` cuts as `List.splitOn` does. -/
theorem splitAt_eq_splitOn (sep : Char) (cs : List Char) : splitAt sep cs = cs.splitOn sep := by
  induction cs with
  | nil => rfl
  | cons c cs ih =>
    show _ = List.splitOnP (· == sep) (c :: cs)
    rw [splitAt, ih, List.splitOnP_cons_eq_if_modifyHead]
    by_cases hc : c = sep
    · simp [hc, List.splitOn]
    · obtain ⟨segment, segments, hcs⟩ := List.exists_cons_of_ne_nil (List.splitOn_ne_nil sep cs)
      have hsegments : List.splitOnP (· == sep) cs = segment :: segments := hcs
      simp [hc, hcs, hsegments]

/-- A text without the separator is one segment. -/
theorem splitAt_of_not_mem {sep : Char} {cs : List Char} (h : sep ∉ cs) :
    splitAt sep cs = [cs] := by
  rw [splitAt_eq_splitOn]
  refine List.splitOnP_eq_singleton fun c hc => ?_
  have hne : c ≠ sep := by
    rintro rfl
    exact h hc
  simpa using hne

/-- The segments of two texts with a separator between them. -/
theorem splitAt_append_cons (sep : Char) (front rest : List Char) :
    splitAt sep (front ++ sep :: rest) = splitAt sep front ++ splitAt sep rest := by
  simp only [splitAt_eq_splitOn]
  exact List.splitOnP_append_cons front rest (beq_self_eq_true sep)

/-- The parts of a cut, with the separator between them, are the text, and the separator is not in
    the first part. -/
theorem cutAt_eq_some_iff {sep : Char} {cs before after : List Char} :
    cutAt sep cs = some (before, after) ↔ cs = before ++ sep :: after ∧ sep ∉ before := by
  constructor
  · intro h
    unfold cutAt at h
    split at h
    · cases h
    · next c rest hdrop =>
      cases h
      have hsep : c = sep := by
        have hhead := List.head?_dropWhile_not (· != sep) cs
        rw [hdrop] at hhead
        simpa using hhead
      have happend := List.takeWhile_append_dropWhile (p := (· != sep)) (l := cs)
      rw [hdrop, hsep] at happend
      refine ⟨happend.symm, fun hmem => ?_⟩
      have hne := List.all_eq_true.mp List.all_takeWhile sep hmem
      simp at hne
  · rintro ⟨rfl, hsep⟩
    have hbefore : ∀ c ∈ before, (c != sep) = true := by
      intro c hc
      have hne : c ≠ sep := by
        rintro rfl
        exact hsep hc
      simpa using hne
    simp [cutAt, List.dropWhile_append_of_pos hbefore, List.takeWhile_append_of_pos hbefore]

/-- A text cannot be cut at what it does not hold. -/
theorem cutAt_eq_none_iff {sep : Char} {cs : List Char} : cutAt sep cs = none ↔ sep ∉ cs := by
  constructor
  · intro h hmem
    obtain ⟨before, after, hcs, hbefore⟩ := List.eq_append_cons_of_mem hmem
    rw [cutAt_eq_some_iff.mpr ⟨hcs, hbefore⟩] at h
    cases h
  · intro h
    cases hcut : cutAt sep cs with
    | none => rfl
    | some parts =>
      obtain ⟨rfl, -⟩ := cutAt_eq_some_iff.mp hcut
      simp at h

end ImageSpec.Text
