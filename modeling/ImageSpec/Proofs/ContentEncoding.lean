import ImageSpec.Digest
import Mathlib.Algebra.Group.Nat.Defs

namespace ImageSpec

/-!
# What the digest of a definition is made of

A definition that names no digest gets the hash of its fields: the name, the version, and the keys
and values of its metadata.  Each field stands behind its length, so the fields can be split off one
by one, and no count of them is needed.

* `Sha256.bigEndian_lengthBytes` — a length is written as eight bytes, the highest first.
* `Digest.encodeField_append_inj` — a field is split off the front in one way only.
* `Digest.eq_of_flatMap_encodeField_eq` — hence so are any number of fields.
* `Digest.content_eq_iff` — definitions with the same content are the same.
-/

/-! ### Lengths -/

namespace Sha256

/-- The number that bytes stand for, the highest first. -/
def bigEndian (bytes : List UInt8) : Nat := bytes.foldl (fun n b => 256 * n + b.toNat) 0

/-- A length is written in eight bytes. -/
theorem length_lengthBytes (n : Nat) : (lengthBytes n).length = 8 := rfl

/-- The bytes of a word continue a number by four more digits of base 256. -/
theorem foldl_wordBytes (start : Nat) (w : UInt32) :
    (wordBytes w).foldl (fun n b => 256 * n + b.toNat) start = 2 ^ 32 * start + w.toNat := by
  have hw := w.toNat_lt
  simp only [wordBytes, List.foldl_cons, List.foldl_nil, UInt32.toNat_toUInt8,
    UInt32.toNat_shiftRight, UInt32.reduceToNat, Nat.reduceMod, Nat.shiftRight_eq_div_pow,
    Nat.reducePow]
  omega

/-- **Lengths.** A number below `2 ^ 64` is read back from its bytes. -/
theorem bigEndian_lengthBytes {n : Nat} (h : n < 2 ^ 64) : bigEndian (lengthBytes n) = n := by
  rw [bigEndian, lengthBytes, List.foldl_append, foldl_wordBytes, foldl_wordBytes,
    UInt32.toNat_ofNat', UInt32.toNat_ofNat', Nat.shiftRight_eq_div_pow]
  omega

end Sha256

namespace Digest

/-! ### Fields -/

theorem toList_eq_data_toList (bytes : ByteArray) : bytes.toList = bytes.data.toList := by
  have hloop : ∀ i latestFirst, ByteArray.toList.loop bytes i latestFirst
      = latestFirst.reverse ++ bytes.data.toList.drop i := by
    intro i latestFirst
    fun_induction ByteArray.toList.loop bytes i latestFirst with
    | case1 i latestFirst hlt ih =>
      have hlength : i < bytes.data.toList.length := hlt
      have hget : bytes.get! i = bytes.data.toList[i] := by simp [ByteArray.get!, hlt]
      rw [ih, List.drop_eq_getElem_cons hlength, List.reverse_cons, List.append_assoc, hget]
      rfl
    | case2 i latestFirst hge =>
      have hlength : bytes.data.toList.length ≤ i := Nat.le_of_not_lt hge
      rw [List.drop_eq_nil_of_le hlength, List.append_nil]
  exact hloop 0 []

/-- The bytes of a text as a list tell the text. -/
theorem toList_toUTF8_inj {s t : String} (h : s.toUTF8.toList = t.toUTF8.toList) : s = t := by
  rw [toList_eq_data_toList, toList_eq_data_toList] at h
  exact String.toByteArray_inj.mp (ByteArray.ext (Array.toList_inj.mp h))

/-- A text has as many bytes as its size says. -/
theorem length_toList_toUTF8 (s : String) : s.toUTF8.toList.length = s.utf8ByteSize := by
  rw [toList_eq_data_toList]
  rfl

/-- A field whose length can be written in eight bytes. -/
def Fits (field : String) : Prop := field.utf8ByteSize < 2 ^ 64

/-- **Fields.** A field is split off the front of bytes in one way only. -/
theorem encodeField_append_inj {field field' : String} (hfit : Fits field) (hfit' : Fits field')
    {rest rest' : List UInt8} (h : encodeField field ++ rest = encodeField field' ++ rest') :
    field = field' ∧ rest = rest' := by
  rw [encodeField, encodeField, List.append_assoc, List.append_assoc] at h
  -- the first eight bytes tell how many of the next ones belong to the field
  obtain ⟨hlengths, hbytes⟩ := List.append_inj h (by simp only [Sha256.length_lengthBytes])
  have hsize : field.utf8ByteSize = field'.utf8ByteSize := by
    rw [← Sha256.bigEndian_lengthBytes hfit, ← Sha256.bigEndian_lengthBytes hfit', hlengths]
  have hlength : field.toUTF8.toList.length = field'.toUTF8.toList.length := by
    rw [length_toList_toUTF8, length_toList_toUTF8, hsize]
  obtain ⟨htext, hrest⟩ := List.append_inj hbytes hlength
  exact ⟨toList_toUTF8_inj htext, hrest⟩

/-- No field is encoded as nothing. -/
theorem encodeField_ne_nil (field : String) : encodeField field ≠ [] := by
  intro h
  have hlength := congrArg List.length h
  rw [encodeField, List.length_append, Sha256.length_lengthBytes] at hlength
  simp at hlength

/-- **Fields in a row.** The fields are known from their bytes, and so is how many there are. -/
theorem eq_of_flatMap_encodeField_eq {fields fields' : List String}
    (hfit : ∀ field ∈ fields, Fits field) (hfit' : ∀ field ∈ fields', Fits field)
    (h : fields.flatMap encodeField = fields'.flatMap encodeField) : fields = fields' := by
  induction fields generalizing fields' with
  | nil =>
    cases fields' with
    | nil => rfl
    | cons field' fields' =>
      rw [List.flatMap_nil, List.flatMap_cons] at h
      exact absurd (List.append_eq_nil_iff.mp h.symm).1 (encodeField_ne_nil field')
  | cons field fields ih =>
    cases fields' with
    | nil =>
      rw [List.flatMap_nil, List.flatMap_cons] at h
      exact absurd (List.append_eq_nil_iff.mp h).1 (encodeField_ne_nil field)
    | cons field' fields' =>
      obtain ⟨hfirst, hrest⟩ := List.forall_mem_cons.mp hfit
      obtain ⟨hfirst', hrest'⟩ := List.forall_mem_cons.mp hfit'
      obtain ⟨rfl, htail⟩ := encodeField_append_inj hfirst hfirst' h
      rw [ih hrest hrest' htail]

/-! ### Definitions -/

/-- The fields of a definition in the order in which they are hashed. -/
def fields (name version : String) (metadata : Metadata) : List String :=
  name :: version :: metadata.entries.flatMap fun e => [e.1, e.2]

/-- The content is the encoding of its fields, one after the other. -/
theorem content_eq_flatMap (name version : String) (metadata : Metadata) :
    content name version metadata = (fields name version metadata).flatMap encodeField := by
  simp [content, fields, List.flatMap_assoc]

/-- Keys and values in turn are the entries they come from. -/
theorem eq_of_flatMap_pair_eq {entries entries' : List (String × String)}
    (h : entries.flatMap (fun e => [e.1, e.2]) = entries'.flatMap fun e => [e.1, e.2]) :
    entries = entries' := by
  induction entries generalizing entries' with
  | nil =>
    cases entries' with
    | nil => rfl
    | cons e' entries' => cases h
  | cons e entries ih =>
    cases entries' with
    | nil => cases h
    | cons e' entries' =>
      obtain ⟨hkey, hvalue, hrest⟩ : e.1 = e'.1 ∧ e.2 = e'.2 ∧ _ := by simpa using h
      rw [Prod.ext hkey hvalue, ih hrest]

/-- **Content.** Let all fields of two definitions be shorter than `2 ^ 64` bytes.  The bytes that
    are hashed for them are the same only if the names, the versions and the metadata are. -/
theorem content_eq_iff {name version name' version' : String} {metadata metadata' : Metadata}
    (hfit : ∀ field ∈ fields name version metadata, field.utf8ByteSize < 2 ^ 64)
    (hfit' : ∀ field ∈ fields name' version' metadata', field.utf8ByteSize < 2 ^ 64) :
    content name version metadata = content name' version' metadata' ↔
      name = name' ∧ version = version' ∧ metadata = metadata' := by
  constructor
  · intro h
    rw [content_eq_flatMap, content_eq_flatMap] at h
    have hfields := eq_of_flatMap_encodeField_eq hfit hfit' h
    obtain ⟨hname, hversion, hentries⟩ : name = name' ∧ version = version' ∧ _ := by
      simpa [fields] using hfields
    exact ⟨hname, hversion, KeyMap.ext (eq_of_flatMap_pair_eq hentries)⟩
  · rintro ⟨rfl, rfl, rfl⟩
    rfl

/-- A letter that moves from the name to the version, and an entry of which both texts are empty. -/
theorem content_of_moved_letter :
    content "ab" "c" (.ofList [("", "")]) ≠ content "a" "bc" .empty := by
  have hfit : ∀ field ∈ fields "ab" "c" (.ofList [("", "")]), field.utf8ByteSize < 2 ^ 64 := by
    decide
  have hfit' : ∀ field ∈ fields "a" "bc" .empty, field.utf8ByteSize < 2 ^ 64 := by decide
  intro h
  obtain ⟨hname, -, -⟩ := (content_eq_iff hfit hfit').mp h
  exact absurd hname (by decide)

end Digest

end ImageSpec
