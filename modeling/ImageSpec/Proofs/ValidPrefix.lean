import ImageSpec.Proofs.Builds
import ImageSpec.Proofs.Layout

namespace ImageSpec

/-!
# Bytes that are no text

A source comes as bytes.  They are read as UTF-8 up to the first byte that belongs to no character,
and the error for such a byte says where it stands in the text before it.

* `Text.Stops` — a text that bytes start with, and the rest of them, with which no character starts.
* `Text.exists_stops_of_decodeFrom` — the characters that are read are such a text.
* `Text.Stops.isPrefix` — every other text that the bytes start with is a part of it.
* `Service.readSource_valid_or_located` — texts are read as they are, and the first byte of what is
  no text is located.
-/

namespace Text

theorem utf8Encode_cons_append (c : Char) (cs : List Char) (rest : ByteArray) :
    (c :: cs).utf8Encode ++ rest = [c].utf8Encode ++ (cs.utf8Encode ++ rest) := by
  rw [List.utf8Encode_cons, ByteArray.append_assoc]

/-- Bytes start with the UTF-8 form of a text, and no character starts with the rest of them. -/
structure Stops (bytes : ByteArray) (chars : List Char) (rest : ByteArray) : Prop where
  split : bytes = chars.utf8Encode ++ rest
  undecodable : rest.utf8DecodeChar? 0 = none

/-- A character in front of bytes is the first that is read of them. -/
theorem Stops.cons {bytes rest : ByteArray} {chars : List Char} (h : Stops bytes chars rest)
    (c : Char) : Stops ([c].utf8Encode ++ bytes) (c :: chars) rest := by
  refine ⟨?_, h.undecodable⟩
  rw [utf8Encode_cons_append c chars, ← h.split]

/-- **Longest.** Whatever else the bytes start with, if it is a text it is a part of the text that
    is read. -/
theorem Stops.isPrefix {bytes rest : ByteArray} {chars : List Char} (h : Stops bytes chars rest)
    {others : List Char} {more : ByteArray} (hothers : bytes = others.utf8Encode ++ more) :
    others <+: chars := by
  obtain ⟨hsplit, hrest⟩ := h
  rw [hothers] at hsplit
  clear hothers
  induction others generalizing chars with
  | nil => exact List.nil_prefix
  | cons c others ih =>
    rw [utf8Encode_cons_append c others] at hsplit
    have hfirst : ([c].utf8Encode ++ (others.utf8Encode ++ more)).utf8DecodeChar? 0 = some c :=
      List.utf8DecodeChar?_utf8Encode_singleton_append
    cases chars with
    | nil =>
      rw [hsplit, List.utf8Encode_nil, ByteArray.empty_append, hrest] at hfirst
      cases hfirst
    | cons d chars =>
      rw [utf8Encode_cons_append d chars] at hsplit
      -- both texts start with the character that the bytes start with
      obtain rfl : d = c := by
        rw [hsplit, List.utf8DecodeChar?_utf8Encode_singleton_append] at hfirst
        exact Option.some.inj hfirst
      exact List.cons_prefix_cons.mpr ⟨rfl, ih ((ByteArray.append_right_inj _).mp hsplit)⟩

/-- Bytes with which a character starts are those of the character and the others. -/
theorem extract_eq_of_utf8DecodeChar? {bytes : ByteArray} {i : Nat} {c : Char}
    (h : bytes.utf8DecodeChar? i = some c) :
    bytes.extract i bytes.size
      = [c].utf8Encode ++ bytes.extract (i + c.utf8Size) bytes.size := by
  have hle := ByteArray.le_size_of_utf8DecodeChar?_eq_some h
  rw [ByteArray.utf8DecodeChar?_eq_utf8DecodeChar?_extract] at h
  have hsplit := ByteArray.eq_of_utf8DecodeChar?_eq_some h
  have hend : min (i + (bytes.size - i)) bytes.size = bytes.size := by omega
  rw [ByteArray.extract_extract, ByteArray.size_extract, Nat.min_self, hend] at hsplit
  rw [List.utf8Encode_singleton, hsplit]

/-- Bytes are empty, or start with the byte in question. -/
def StartsWith (rest : ByteArray) : Option UInt8 → Prop
  | none => rest = ByteArray.empty
  | some byte => ∃ more, rest = [byte].toByteArray ++ more

/-- **Decoding.** The characters that are read are a text behind which no character starts, and the
    stray byte is the first one there. -/
theorem exists_stops_of_decodeFrom (bytes : ByteArray) {i : Nat} (hi : i ≤ bytes.size) :
    ∃ rest, Stops (bytes.extract i bytes.size) (decodeFrom bytes i).chars rest ∧
      StartsWith rest (decodeFrom bytes i).stray := by
  fun_induction decodeFrom bytes i with
  | case1 i hlt c hc following ih =>
    have hnext := ByteArray.le_size_of_utf8DecodeChar?_eq_some hc
    obtain ⟨rest, hstops, hstray⟩ := ih hnext
    refine ⟨rest, ?_, hstray⟩
    rw [extract_eq_of_utf8DecodeChar? hc]
    exact hstops.cons c
  | case2 i hlt hnone =>
    rw [ByteArray.utf8DecodeChar?_eq_utf8DecodeChar?_extract] at hnone
    refine ⟨bytes.extract i bytes.size, ⟨?_, hnone⟩, bytes.extract (i + 1) bytes.size, ?_⟩
    · rw [List.utf8Encode_nil, ByteArray.empty_append]
    · rw [← ByteArray.extract_add_one hlt]
      exact ByteArray.extract_eq_extract_append_extract (i + 1) (Nat.le_succ i) hlt
  | case3 i hge =>
    refine ⟨ByteArray.empty, ⟨?_, rfl⟩, rfl⟩
    rw [ByteArray.append_empty, List.utf8Encode_nil, ByteArray.extract_eq_empty_iff]
    omega

/-- Bytes that are no text start with the longest text in them and the stray byte behind it. -/
theorem exists_stray {bytes : ByteArray} (h : ¬ ∃ text : String, text.toUTF8 = bytes) :
    ∃ text : String, ∃ byte rest, Stops bytes text.toList ([byte].toByteArray ++ rest) ∧
      decode bytes = ⟨text.toList, some byte⟩ := by
  obtain ⟨rest, hstops, hstray⟩ := exists_stops_of_decodeFrom bytes (Nat.zero_le bytes.size)
  rw [ByteArray.extract_zero_size] at hstops
  rcases hdecoded : decodeFrom bytes 0 with ⟨chars, _ | byte⟩
  · -- all of the bytes would be a text
    rw [hdecoded] at hstops hstray
    refine absurd ⟨String.ofList chars, ?_⟩ h
    have hsplit := hstops.split
    rw [hstray, ByteArray.append_empty] at hsplit
    rw [String.toUTF8_eq_toByteArray, String.toByteArray_ofList, hsplit]
  · rw [hdecoded] at hstops hstray
    obtain ⟨more, rfl⟩ := hstray
    refine ⟨String.ofList chars, byte, more, ?_⟩
    rw [String.toList_ofList]
    exact ⟨hstops, hdecoded⟩

end Text

namespace Service

/-- **Sources as bytes.** Bytes that are the UTF-8 form of a text are read as that text.  All others
    are a fault: it is located just past the longest text that the bytes start with, by the line
    feeds and characters of that text, and names the byte that follows. -/
theorem readSource_valid_or_located (bytes : ByteArray) :
    (∀ text : String, text.toUTF8 = bytes →
      readSource (.ok bytes) = (Specification.ofChars text.toList).mapError .malformed) ∧
    ((¬ ∃ text : String, text.toUTF8 = bytes) →
      ∃ (text : String) (byte : UInt8) (rest : ByteArray) (e : SyntaxError),
        bytes = text.toUTF8 ++ ([byte].toByteArray ++ rest) ∧
        (∀ (other : String) (more : ByteArray), bytes = other.toUTF8 ++ more →
          other.utf8ByteSize ≤ text.utf8ByteSize) ∧
        readSource (.ok bytes) = .error (.malformed e) ∧
        e.position = .counted text.toList ∧ e.found = .byte byte ∧
        e.message = "syntax error at " ++ e.position.text ++ ": expected " ++ "UTF-8 text"
          ++ ", found " ++ ("invalid byte 0x"
            ++ String.ofList [Text.hexDigit (byte.toNat / 16), Text.hexDigit byte.toNat])) := by
  constructor
  · rintro text rfl
    show (Specification.ofBytes text.toUTF8).mapError Error.malformed = _
    rw [Specification.ofBytes_toUTF8]
  · intro hinvalid
    obtain ⟨text, byte, rest, hstops, hdecode⟩ := Text.exists_stray hinvalid
    refine ⟨text, byte, rest, ⟨.counted text.toList, .utf8, .byte byte⟩, ?_, ?_, ?_, rfl, rfl, rfl⟩
    · have hsplit := hstops.split
      rwa [String.utf8Encode_toList] at hsplit
    · -- any other text that the bytes start with is a beginning of this one
      intro other more hother
      rw [String.toUTF8_eq_toByteArray, ← String.utf8Encode_toList] at hother
      obtain ⟨tail, htail⟩ := hstops.isPrefix hother
      have htext : text = other ++ String.ofList tail := by
        rw [← String.toList_inj, String.toList_append, String.toList_ofList, htail]
      rw [htext, String.utf8ByteSize_append]
      exact Nat.le_add_right _ _
    · show (Specification.ofBytes bytes).mapError Error.malformed = _
      rw [Specification.ofBytes, hdecode, ← Position.after_eq_counted]
      rfl

/-- A letter of two bytes, a line feed, and the first two of the three bytes of a character. -/
def truncatedBytes : ByteArray := [0xC3, 0xBC, 0x0A, 0xE2, 0x82].toByteArray

/-- The text in front of the truncated character is kept. -/
theorem decode_truncatedBytes : Text.decode truncatedBytes = ⟨['ü', '\n'], some 0xE2⟩ := by
  with_unfolding_all rfl

/-- The character that is cut off is located at its first byte. -/
theorem readSource_truncatedBytes :
    (¬ ∃ text : String, text.toUTF8 = truncatedBytes) ∧
      ∃ (text : String) (rest : ByteArray) (e : SyntaxError),
        truncatedBytes = text.toUTF8 ++ ([0xE2].toByteArray ++ rest) ∧
        readSource (.ok truncatedBytes) = .error (.malformed e) ∧
        e.position = ⟨2, 1⟩ ∧ e.position = .counted text.toList := by
  have hinvalid : ¬ ∃ text : String, text.toUTF8 = truncatedBytes := by
    rintro ⟨text, htext⟩
    have hstray : (Text.decode truncatedBytes).stray = none := by
      rw [← htext, Text.decode_toUTF8]
    rw [decode_truncatedBytes] at hstray
    cases hstray
  obtain ⟨text, byte, rest, e, hsplit, -, herror, hposition, hfound, -⟩ :=
    (readSource_valid_or_located truncatedBytes).2 hinvalid
  have hread : readSource (.ok truncatedBytes)
      = .error (.malformed ⟨⟨2, 1⟩, .utf8, .byte 0xE2⟩) := by
    show (Specification.ofBytes truncatedBytes).mapError Error.malformed = _
    rw [Specification.ofBytes, decode_truncatedBytes]
    rfl
  obtain rfl : e = ⟨⟨2, 1⟩, .utf8, .byte 0xE2⟩ := by
    rw [hread] at herror
    cases herror
    rfl
  cases hfound
  exact ⟨hinvalid, text, rest, _, hsplit, hread, rfl, hposition⟩

end Service

end ImageSpec
