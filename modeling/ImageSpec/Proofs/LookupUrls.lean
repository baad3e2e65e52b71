import ImageSpec.Library.Remote
import ImageSpec.Proofs.Builds
import ImageSpec.Proofs.ReferenceText

namespace ImageSpec

/-!
# URLs of look-ups

A remote library asks for a name at a URL of its own.  The name becomes one segment of the path,
encoded so that it can be told from the segment, and therefore different names are asked for at
different URLs.  Names of one or two dots are the exception: a path has no such segments, and both
are asked for at the URL of all definitions.

* `Url.percentDecode_percentEncode` — what is encoded is decoded again.
* `Url.percentDecode_dots`, `Url.appendName_of_not_isDots` — an encoded name is taken for dots only
  if it is made of them.
* `Url.trunk` — where names are added to a path; `Url.trunk_cases` says what is left out there.
* `Url.exists_segments_of_parse` — addresses of the web have a host and a path of segments.
* `Remote.definitionsUrl_text_eq_iff` — which names share a URL.
-/

namespace Url

/-! ### Percent-encoding -/

/-- A digit of an encoded byte, as it is written and as it is read. -/
theorem hexValue?_toUpper_hexDigit (n : Nat) :
    Text.hexValue? (Text.hexDigit n).toUpper = some (n % 16) := by
  have hdigits : ∀ m < 16, Text.hexValue? (Text.hexDigit m).toUpper = some m := by decide
  have hmod : Text.hexDigit n = Text.hexDigit (n % 16) := by simp [Text.hexDigit]
  rw [hmod]
  exact hdigits (n % 16) (Nat.mod_lt n (by decide))

/-- A hexadecimal digit is a letter or a digit in upper case as well. -/
theorem isAlphanum_toUpper_hexDigit (n : Nat) : (Text.hexDigit n).toUpper.isAlphanum = true := by
  unfold Text.hexDigit
  split <;> decide

/-- A byte is written as a percent sign and two digits. -/
theorem percentByte_eq (b : UInt8) :
    percentByte b
      = ['%', (Text.hexDigit (b.toNat / 16)).toUpper, (Text.hexDigit b.toNat).toUpper] := rfl

/-- A written byte is read back, whatever follows. -/
theorem percentDecode_percentByte_append (b : UInt8) (rest : List Char) :
    percentDecode (percentByte b ++ rest) = b :: percentDecode rest := by
  have hvalue : 16 * (b.toNat / 16 % 16) + b.toNat % 16 = b.toNat := by
    have := b.toNat_lt
    omega
  rw [percentByte_eq]
  show percentDecode ('%' :: (Text.hexDigit (b.toNat / 16)).toUpper
    :: (Text.hexDigit b.toNat).toUpper :: rest) = _
  rw [percentDecode, hexValue?_toUpper_hexDigit, hexValue?_toUpper_hexDigit]
  dsimp only
  rw [hvalue, UInt8.ofNat_toNat]

/-- Written bytes are read back, whatever follows. -/
theorem percentDecode_flatMap_percentByte_append (bytes : List UInt8) (rest : List Char) :
    percentDecode (bytes.flatMap percentByte ++ rest) = bytes ++ percentDecode rest := by
  induction bytes with
  | nil => rfl
  | cons b bytes ih =>
    rw [List.flatMap_cons, List.append_assoc, percentDecode_percentByte_append, ih]
    rfl

/-- All but percent signs stand for themselves. -/
theorem percentDecode_cons {c : Char} (h : c ≠ '%') (rest : List Char) :
    percentDecode (c :: rest) = String.utf8EncodeChar c ++ percentDecode rest := by
  rw [percentDecode]
  intro a b more hc
  exact absurd hc h

/-- **Percent-encoding.** Where percent signs are encoded, what is encoded is decoded again. -/
theorem percentDecode_percentEncode {isEncoded : Char → Bool} (h : isEncoded '%' = true)
    (cs : List Char) :
    percentDecode (percentEncode isEncoded cs) = cs.flatMap String.utf8EncodeChar := by
  induction cs with
  | nil => rfl
  | cons c cs ih =>
    have hcons : percentEncode isEncoded (c :: cs)
        = (if isEncoded c then (String.utf8EncodeChar c).flatMap percentByte else [c])
          ++ percentEncode isEncoded cs := rfl
    rw [hcons, List.flatMap_cons, ← ih]
    -- a character that is left as it is cannot be taken for an encoded byte
    by_cases hc : isEncoded c = true
    · rw [if_pos hc, percentDecode_flatMap_percentByte_append]
    · have hne : c ≠ '%' := by
        rintro rfl
        exact hc h
      rw [if_neg hc]
      exact percentDecode_cons hne _

/-- The characters of an encoded text are percent signs, digits, letters, and what is not
    encoded. -/
theorem mem_percentEncode {isEncoded : Char → Bool} {cs : List Char} {c : Char}
    (h : c ∈ percentEncode isEncoded cs) :
    c = '%' ∨ c.isAlphanum = true ∨ isEncoded c = false := by
  obtain ⟨d, -, hd⟩ := List.mem_flatMap.mp h
  split at hd
  · obtain ⟨b, -, hb⟩ := List.mem_flatMap.mp hd
    rw [percentByte_eq] at hb
    simp only [List.mem_cons, List.not_mem_nil, or_false] at hb
    rcases hb with rfl | rfl | rfl
    · exact .inl rfl
    · exact .inr (.inl (isAlphanum_toUpper_hexDigit _))
    · exact .inr (.inl (isAlphanum_toUpper_hexDigit _))
  · next hplain =>
    obtain rfl := List.mem_singleton.mp hd
    exact .inr (.inr (by simpa using hplain))

/-! ### Names as segments -/

/-- The segment that a name becomes. -/
def segmentOf (name : String) : String :=
  String.ofList (percentEncode isEncodedInSegment name.toList)

/-- The name that a segment stands for. -/
def nameOf? (segment : String) : Option String :=
  Text.ofUtf8? ⟨(percentDecode segment.toList).toArray⟩

/-- A segment is read as the bytes of its name. -/
theorem percentDecode_segmentOf (name : String) :
    percentDecode (segmentOf name).toList = name.toList.flatMap String.utf8EncodeChar := by
  rw [segmentOf, String.toList_ofList]
  exact percentDecode_percentEncode rfl name.toList

/-- **Segments stand for names.** The name that became a segment is read from it. -/
theorem nameOf?_segmentOf (name : String) : nameOf? (segmentOf name) = some name := by
  have hbytes : (⟨(name.toList.flatMap String.utf8EncodeChar).toArray⟩ : ByteArray)
      = name.toUTF8 := by
    rw [String.toUTF8_eq_toByteArray, ← String.utf8Encode_toList]
    apply ByteArray.ext
    rw [List.utf8Encode, List.data_toByteArray]
  rw [nameOf?, percentDecode_segmentOf, hbytes, Text.ofUtf8?, Text.decode_toUTF8]
  dsimp only
  rw [String.ofList_toList]

/-- Different names become different segments. -/
theorem segmentOf_injective {a b : String} (h : segmentOf a = segmentOf b) : a = b := by
  have hname := nameOf?_segmentOf a
  rw [h, nameOf?_segmentOf] at hname
  exact (Option.some.inj hname).symm

/-- A name is one segment, also if it has slashes. -/
theorem slash_not_mem_segmentOf (name : String) : '/' ∉ (segmentOf name).toList := by
  rw [segmentOf, String.toList_ofList]
  intro hmem
  rcases mem_percentEncode hmem with h | h | h <;> cases h

/-- Encoded dots stand for dots. -/
theorem percentDecode_dots (segment : List Char) :
    percentDecode (dots segment) = percentDecode segment := by
  fun_induction dots segment with
  | case1 => rfl
  | case2 rest ih => rw [percentDecode_cons (by decide), percentDecode_cons (by decide), ih]
  | case3 e rest he ih =>
    -- in either case the digits are those of the byte of a dot
    rw [percentDecode_cons (by decide), ih]
    rcases he with rfl | rfl <;> rfl
  | case4 => rfl
  | case5 => rfl

/-- A name of one or two dots. -/
def IsDots (name : String) : Prop := name = "." ∨ name = ".."

instance (name : String) : Decidable (IsDots name) := inferInstanceAs (Decidable (_ ∨ _))

/-- A segment is taken for dots only if its name is made of them. -/
theorem eq_of_dots_segmentOf {name dotted : String} (hdotted : IsDots dotted)
    (h : dots (segmentOf name).toList = dotted.toList) : name = dotted := by
  have hsegment : segmentOf dotted = dotted := by
    rcases hdotted with rfl | rfl <;> rfl
  -- what a segment stands for does not change when its dots are written as dots
  have hname : nameOf? (segmentOf name) = nameOf? (segmentOf dotted) := by
    rw [nameOf?, ← percentDecode_dots, h, hsegment, nameOf?]
  rw [nameOf?_segmentOf, nameOf?_segmentOf] at hname
  exact Option.some.inj hname

/-- A name that is no dots is put at the end of a path. -/
theorem appendSegment_segmentOf {name : String} (h : ¬ IsDots name) (path : List String)
    (isLast : Bool) :
    appendSegment path (segmentOf name).toList isLast = path ++ [segmentOf name] := by
  unfold appendSegment
  dsimp only
  split
  · next hone => exact absurd (.inl (eq_of_dots_segmentOf (.inl rfl) hone)) h
  · next htwo => exact absurd (.inr (eq_of_dots_segmentOf (.inr rfl) htwo)) h
  · rw [String.ofList_toList]

/-! ### Adding names to a path -/

/-- A path as names are added to it: one that holds only an empty segment counts as empty. -/
def unlessBlank (path : List String) : List String := if path = [""] then [] else path

/-- Where names are added to a path: an empty segment at the end makes room for them. -/
def trunk (path : List String) : List String := unlessBlank (dropEmptyLast path)

/-- A name without white space. -/
def IsUnbroken (name : String) : Prop := ∀ c ∈ name.toList, Text.isBlank c = false

instance (name : String) : Decidable (IsUnbroken name) :=
  decidable_of_iff (name.toList.all (fun c => !Text.isBlank c) = true) (by simp [IsUnbroken])

/-- Names without white space are added as one segment, unless they are dots. -/
theorem appendName_of_not_isDots {name : String} (hdots : ¬ IsDots name)
    (hunbroken : IsUnbroken name) (path : List String) :
    appendName path name = unlessBlank path ++ [segmentOf name] := by
  have hkept : (name.toList.filter fun c => c != '\t' && c != '\n' && c != '\r') = name.toList := by
    refine List.filter_eq_self.mpr fun c hc => ?_
    have hfalse := hunbroken c hc
    simp only [Bool.and_eq_true, bne_iff_ne]
    refine ⟨⟨?_, ?_⟩, ?_⟩ <;> rintro rfl <;> cases hfalse
  have hsegment := appendSegment_segmentOf hdots (unlessBlank path) true
  rw [segmentOf, String.toList_ofList] at hsegment
  have hnot : ¬ (name = "." ∨ name = "..") := hdots
  rw [appendName, if_neg hnot, hkept]
  exact hsegment

/-- A name of dots adds nothing to a path. -/
theorem appendName_of_isDots {name : String} (hdots : IsDots name) (path : List String) :
    appendName path name = path := if_pos hdots

/-- A path that ends in a segment counts as it is. -/
theorem unlessBlank_concat {path : List String} {segment : String} (h : segment ≠ "") :
    unlessBlank (path ++ [segment]) = path ++ [segment] := by
  refine if_neg fun hblank => h ?_
  have hlast := congrArg List.getLast? hblank
  simpa using hlast

/-- The segments that a name adds to a path. -/
def addedSegments (name : String) : List String := if IsDots name then [] else [segmentOf name]

/-- A name is added behind the last segment. -/
theorem appendName_concat {name segment : String} (hsegment : segment ≠ "")
    (hunbroken : IsUnbroken name) (path : List String) :
    appendName (path ++ [segment]) name = path ++ [segment] ++ addedSegments name := by
  unfold addedSegments
  by_cases hdots : IsDots name
  · rw [if_pos hdots, appendName_of_isDots hdots, List.append_nil]
  · rw [if_neg hdots, appendName_of_not_isDots hdots hunbroken, unlessBlank_concat hsegment]

/-- A name is added behind the two segments that come first, which are added as they stand. -/
theorem foldl_appendName_definitions {name : String} (hunbroken : IsUnbroken name)
    (path : List String) :
    ["v1", "definitions", name].foldl appendName (dropEmptyLast path)
      = trunk path ++ ["v1", "definitions"] ++ addedSegments name := by
  have hv1 : appendName (dropEmptyLast path) "v1" = trunk path ++ ["v1"] :=
    appendName_of_not_isDots (by decide) (by decide) (dropEmptyLast path)
  have hdefinitions : appendName (trunk path ++ ["v1"]) "definitions"
      = trunk path ++ ["v1"] ++ ["definitions"] :=
    appendName_concat (by decide) (by decide) (trunk path)
  rw [List.foldl_cons, List.foldl_cons, List.foldl_cons, List.foldl_nil, hv1, hdefinitions,
    appendName_concat (by decide) hunbroken]
  simp

/-- An empty segment at the end makes room. -/
theorem dropEmptyLast_concat {front : List String} (h : front ≠ []) :
    dropEmptyLast (front ++ [""]) = front := by
  have hlength : 1 < (front ++ [""]).length := by
    have := List.length_pos_iff.mpr h
    simpa using this
  rw [dropEmptyLast, List.getLast?_concat, List.dropLast_concat, decide_eq_true hlength]
  rfl

/-- Names are added to a path as it is, or in the place of an empty segment at its end.  In a path of
    two empty segments they take the place of both. -/
theorem trunk_cases (path : List String) :
    path.getLast? ≠ some "" ∧ trunk path = path ∨ path = trunk path ++ [""] ∨
      path = ["", ""] ∧ trunk path = [] := by
  by_cases hlast : path.getLast? = some ""
  · obtain ⟨front, rfl⟩ := List.getLast?_eq_some_iff.mp hlast
    by_cases hnil : front = []
    · subst hnil
      exact .inr (.inl rfl)
    · rw [trunk, dropEmptyLast_concat hnil, unlessBlank]
      by_cases hfront : front = [""]
      · subst hfront
        exact .inr (.inr ⟨rfl, rfl⟩)
      · rw [if_neg hfront]
        exact .inr (.inl rfl)
  · have hne : path ≠ [""] := by
      rintro rfl
      exact hlast rfl
    exact .inl ⟨hlast, by simp [trunk, dropEmptyLast, unlessBlank, hlast, hne]⟩

/-! ### Addresses of the web -/

/-- A location has a path of segments. -/
theorem exists_segments_of_readLocation {scheme : String} {cs : List Char}
    {location : Authority × Path} (h : readLocation scheme cs = .ok location) :
    ∃ segments, location.2 = .segments segments := by
  simp only [readLocation, bind, Except.bind, pure, Except.pure] at h
  split at h
  · cases h
  · cases h
    exact ⟨_, rfl⟩

/-- An address of the web has an authority and a path of segments. -/
theorem exists_segments_of_readHierarchy {scheme : String} {cs : List Char}
    {location : Option Authority × Path} (hfile : scheme ≠ "file")
    (hspecial : isSpecial scheme = true) (h : readHierarchy scheme cs = .ok location) :
    ∃ authority segments, location.1 = some authority ∧ location.2 = .segments segments := by
  unfold readHierarchy at h
  rw [if_neg hfile, if_pos hspecial] at h
  simp only [bind, Except.bind, pure, Except.pure] at h
  split at h
  · cases h
  · next hlocation =>
    cases h
    obtain ⟨segments, hsegments⟩ := exists_segments_of_readLocation hlocation
    exact ⟨_, segments, rfl, hsegments⟩

/-- A URL with a special scheme has a host and a path of segments. -/
theorem exists_segments_of_parse {written : String} {u : Url} (hfile : u.scheme ≠ "file")
    (hspecial : isSpecial u.scheme = true) (h : parse written = .ok u) :
    ∃ authority segments, u.authority = some authority ∧ u.path = .segments segments := by
  unfold parse at h
  split at h
  · cases h
  · simp only [bind, Except.bind, pure, Except.pure] at h
    split at h
    · cases h
    · next hhierarchy =>
      cases h
      exact exists_segments_of_readHierarchy hfile hspecial hhierarchy

/-- URLs that differ in their paths only are told apart by the texts of these. -/
theorem text_withPath_eq_iff {u : Url} {authority : Authority} (h : u.authority = some authority)
    (path path' : Path) :
    ({ u with path := path } : Url).text = ({ u with path := path' } : Url).text
      ↔ path.text = path'.text := by
  rw [text, text, String.ofList_inj]
  simp [chars, h]

/-- The text of a path is that of its parts. -/
theorem text_segments_append (front rest : List String) :
    (Path.segments (front ++ rest)).text = (Path.segments front).text ++ (Path.segments rest).text :=
  List.flatMap_append

end Url

namespace Remote

open Url

/-- The address of a library has an authority and a path of segments. -/
theorem exists_location_of_ofAddress {address : String} {r : Remote} (h : ofAddress address = .ok r) :
    ∃ authority path, r.base.authority = some authority ∧ r.base.path = .segments path := by
  unfold ofAddress at h
  split at h
  · cases h
  · next base hparse =>
    split at h
    · next hscheme =>
      cases h
      -- both schemes are special, and neither is that of files
      refine exists_segments_of_parse ?_ ?_ hparse
      · rcases hscheme with hscheme | hscheme <;> rw [hscheme] <;> decide
      · rcases hscheme with hscheme | hscheme <;> rw [hscheme] <;> rfl
    · cases h

/-- The URL for a name: the base with three more segments, or with two for dots. -/
theorem definitionsUrl_eq {r : Remote} {path : List String} {name : String}
    (hpath : r.base.path = .segments path) (hunbroken : IsUnbroken name) :
    r.definitionsUrl name = { r.base with
      path := .segments (trunk path ++ ["v1", "definitions"] ++ addedSegments name) } := by
  rw [definitionsUrl, appendNames, hpath]
  dsimp only
  rw [foldl_appendName_definitions hunbroken]

/-- Two names add segments with one text if they are the same name, or both dots. -/
theorem text_addedSegments_eq_iff {a b : String} :
    (Path.segments (addedSegments a)).text = (Path.segments (addedSegments b)).text ↔
      a = b ∨ IsDots a ∧ IsDots b := by
  have htext (name : String) :
      (Path.segments [segmentOf name]).text = '/' :: (segmentOf name).toList :=
    List.flatMap_singleton _ _
  have hnil : (Path.segments []).text = [] := rfl
  have hmixed (h : ¬ (IsDots a ↔ IsDots b)) : a ≠ b := by
    rintro rfl
    exact h Iff.rfl
  unfold addedSegments
  by_cases ha : IsDots a
  · by_cases hb : IsDots b
    · simp [ha, hb]
    · simp [ha, hb, htext, hnil, hmixed (by simp [ha, hb])]
  · by_cases hb : IsDots b
    · simp [ha, hb, htext, hnil, hmixed (by simp [ha, hb])]
    · -- both names are read from their segments
      rw [if_neg ha, if_neg hb, htext, htext, List.cons_inj_right, String.toList_inj]
      constructor
      · intro hsegment
        exact .inl (segmentOf_injective hsegment)
      · rintro (rfl | ⟨hdots, -⟩)
        · rfl
        · exact absurd hdots ha

/-- No white space stands in a name that was read. -/
theorem isUnbroken_of_parse {s : String} {reference : Reference}
    (h : Reference.parse s = .ok reference) : IsUnbroken reference.name := by
  intro c hc
  have hname := (Reference.parse_eq_ok_iff.mp h).2.isName
  exact Reference.isBlank_eq_false_of_isNameChar (Reference.isNameChar_iff.mpr (hname.chars c hc))

/-- **URLs of look-ups.** Let a remote library be at an address of the web.  The URL for a name is
    its base with two segments and one that stands for the name added to the path, in the place of an
    empty segment at its end.  For a name of one or two dots the third segment is missing.  Different
    names thereby have the same URL if and only if both are dots. -/
theorem definitionsUrl_text_eq_iff {address : String} {r : Remote}
    (h : ofAddress address = .ok r) :
    ∃ path, r.base.path = .segments path ∧
      (path.getLast? ≠ some "" ∧ trunk path = path ∨ path = trunk path ++ [""] ∨
        path = ["", ""] ∧ trunk path = []) ∧
      (∀ s reference, Reference.parse s = .ok reference →
        (IsDots reference.name → r.definitionsUrl reference.name
          = { r.base with path := .segments (trunk path ++ ["v1", "definitions"]) }) ∧
        (¬ IsDots reference.name → ∃ segment, nameOf? segment = some reference.name ∧
          '/' ∉ segment.toList ∧ r.definitionsUrl reference.name
            = { r.base with path := .segments (trunk path ++ ["v1", "definitions", segment]) })) ∧
      ∀ s t a b, Reference.parse s = .ok a → Reference.parse t = .ok b → a.name ≠ b.name →
        ((r.definitionsUrl a.name).text = (r.definitionsUrl b.name).text ↔
          IsDots a.name ∧ IsDots b.name) := by
  obtain ⟨authority, path, hauthority, hpath⟩ := exists_location_of_ofAddress h
  refine ⟨path, hpath, trunk_cases path,
    fun s reference hread => ⟨fun hdots => ?_, fun hdots => ?_⟩, fun s t a b ha hb hne => ?_⟩
  · rw [definitionsUrl_eq hpath (isUnbroken_of_parse hread), addedSegments, if_pos hdots,
      List.append_nil]
  · refine ⟨segmentOf reference.name, nameOf?_segmentOf _, slash_not_mem_segmentOf _, ?_⟩
    rw [definitionsUrl_eq hpath (isUnbroken_of_parse hread), addedSegments, if_neg hdots,
      List.append_assoc]
    rfl
  · -- the texts are alike up to the segments that the names add
    rw [definitionsUrl_eq hpath (isUnbroken_of_parse ha),
      definitionsUrl_eq hpath (isUnbroken_of_parse hb), text_withPath_eq_iff hauthority,
      text_segments_append _ (addedSegments a.name), text_segments_append _ (addedSegments b.name),
      List.append_cancel_left_eq, text_addedSegments_eq_iff]
    exact or_iff_right hne

/-- A library at an address with a path. -/
def webLibrary : Remote where
  base := {
    scheme := "https"
    authority := some { host := .domain "lib.example" }
    path := .segments ["api", ""]
    query := none
    fragment := none }

theorem ofAddress_webLibrary : ofAddress "https://lib.example/api/" = .ok webLibrary := by
  with_unfolding_all rfl

/-- As a path the second name would lead to the first. -/
theorem definitionsUrl_of_nested_dots :
    (ofAddress "https://lib.example/api/" = .ok webLibrary ∧
        Reference.parse "tool" = .ok ⟨"tool", none⟩ ∧
        Reference.parse "./tool:1" = .ok ⟨"./tool", some "1"⟩) ∧
      (webLibrary.definitionsUrl "tool").text ≠ (webLibrary.definitionsUrl "./tool").text := by
  have hfirst : Reference.parse "tool" = .ok ⟨"tool", none⟩ := by with_unfolding_all rfl
  have hsecond : Reference.parse "./tool:1" = .ok ⟨"./tool", some "1"⟩ := by
    with_unfolding_all rfl
  refine ⟨⟨ofAddress_webLibrary, hfirst, hsecond⟩, fun heq => ?_⟩
  obtain ⟨path, -, -, -, hiff⟩ := definitionsUrl_text_eq_iff ofAddress_webLibrary
  have hdots := (hiff _ _ _ _ hfirst hsecond (by decide)).mp heq
  exact absurd hdots.1 (by decide)

/-- The two names of dots are asked for at one URL, which has no segment for either. -/
theorem dots_share_definitionsUrl :
    ofAddress "https://lib.example/api/" = .ok webLibrary ∧
      Reference.parse "." = .ok ⟨".", none⟩ ∧ Reference.parse ".." = .ok ⟨"..", none⟩ ∧
      (webLibrary.definitionsUrl ".").text = "https://lib.example/api/v1/definitions" ∧
      (webLibrary.definitionsUrl "..").text = "https://lib.example/api/v1/definitions" := by
  refine ⟨ofAddress_webLibrary, ?_, ?_, ?_, ?_⟩ <;> with_unfolding_all rfl

end Remote

end ImageSpec
