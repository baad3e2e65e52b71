import ImageSpec.Catalog.File
import ImageSpec.Proofs.JsonText
import ImageSpec.Proofs.Writing

namespace ImageSpec

/-!
# Catalogs read back

* `KeyMap.ofList_entries` — a map is made again from its entries.
* `Digest.parse_text` — a digest is read as it is written.
* `Catalog.Entry.ofJson?_toJson` — what an entry leaves out is read as left out.
* `Catalog.Format.decode?_encode_json` — a list of entries is read from its JSON text.
* `Catalog.File.save_cases` — saving writes the text of the entries, or changes nothing.
* `Catalog.File.list_of_save` — what is saved in a JSON catalog is listed.
-/

/-! ### Maps -/

namespace KeyMap

variable {α : Type}

/-- A key behind all others goes to the end. -/
theorem insertEntry_of_forall_lt {key : String} {value : α} {l : List (String × α)}
    (h : ∀ e ∈ l, e.1 < key) : insertEntry key value l = l ++ [(key, value)] := by
  induction l with
  | nil => rfl
  | cons x rest ih =>
    obtain ⟨k, v⟩ := x
    have hlt : k < key := h (k, v) List.mem_cons_self
    have hne : key ≠ k := by
      rintro rfl
      exact String.lt_irrefl key hlt
    rw [insertEntry, if_neg (String.lt_asymm hlt), if_neg hne,
      ih fun e he => h e (List.mem_cons_of_mem _ he), List.cons_append]

/-- Pairs in ascending order are put behind each other. -/
theorem entries_foldl_insert (pairs : List (String × α)) (m : KeyMap α)
    (h : (m.entries ++ pairs).Pairwise fun a b => a.1 < b.1) :
    (pairs.foldl (fun m (key, value) => m.insert key value) m).entries = m.entries ++ pairs := by
  induction pairs generalizing m with
  | nil => simp
  | cons x rest ih =>
    obtain ⟨key, value⟩ := x
    -- the key is above all that are there, so its entry comes last
    have hinsert : (m.insert key value).entries = m.entries ++ [(key, value)] := by
      refine insertEntry_of_forall_lt fun e he => ?_
      exact (List.pairwise_append.mp h).2.2 e he (key, value) List.mem_cons_self
    have hsplit : m.entries ++ (key, value) :: rest = (m.insert key value).entries ++ rest := by
      rw [hinsert, List.append_assoc, List.singleton_append]
    rw [List.foldl_cons, ih _ (hsplit ▸ h), hsplit]

/-- A map is made again from its entries. -/
theorem ofList_entries (m : KeyMap α) : ofList m.entries = m :=
  ext (entries_foldl_insert m.entries empty m.sorted)

/-- A map without entries is the empty one. -/
theorem eq_empty_of_isEmpty {m : KeyMap α} (h : m.isEmpty = true) : m = empty :=
  ext (List.isEmpty_iff.mp h)

end KeyMap

/-! ### Digests -/

/-- A digest is read as it is written. -/
theorem Digest.parse_text (d : Digest) : parse d.text = .ok d := by
  have hcolon : ':' ∉ d.algorithm.toList := by
    intro hmem
    exact absurd (List.all_eq_true.mp d.algorithm_chars _ hmem) (by decide)
  have htext : d.text.toList = d.algorithm.toList ++ ':' :: d.encoded.toList := by
    simp [text]
  have hparts := And.intro (And.intro d.algorithm_ne d.algorithm_chars)
    (And.intro d.encoded_ne d.encoded_chars)
  rw [parse, htext, Text.cutAt_eq_some_iff.mpr ⟨rfl, hcolon⟩]
  simp only [dif_pos hparts, String.ofList_toList]

/-! ### Entries -/

/-- Where every item is read back, the list is. -/
theorem mapM_map_eq_some {α β γ : Type} {write : α → β} {read : β → Option γ} {result : α → γ}
    (h : ∀ a, read (write a) = some (result a)) (l : List α) :
    (l.map write).mapM read = some (l.map result) := by
  have hread : read ∘ write = fun a => pure (result a) := funext h
  rw [List.mapM_map, hread, List.mapM_pure]
  rfl

namespace Json

/-- The members of an object of strings have names. -/
theorem namedMembers?_strings (pairs : List (String × String)) :
    namedMembers? (pairs.map fun (k, v) => (some k, .string (some v)))
      = some (pairs.map fun (k, v) => (k, .string (some v))) := by
  apply mapM_map_eq_some
  intro pair
  rfl

/-- The members of an object of strings are strings. -/
theorem mapM_string?_strings (pairs : List (String × String)) :
    (pairs.map fun (k, v) => (k, Json.string (some v))).mapM
        (fun (key, v) => v.string?.map (key, ·)) = some pairs := by
  refine (mapM_map_eq_some ?_ pairs).trans (congrArg some (List.map_id pairs))
  intro pair
  rfl

/-- The strings of an object are a map again. -/
theorem strings?_object (m : KeyMap String) :
    (object (m.entries.map fun (k, v) => (some k, .string (some v)))).strings? = some m := by
  rw [strings?, namedMembers?_strings]
  simp only [Option.bind_eq_bind, Option.bind_some, mapM_string?_strings]
  exact congrArg some m.ofList_entries

end Json

namespace Catalog

/-- A digest is read back from its text. -/
theorem digestOfJson?_text (d : Digest) : digestOfJson? (.string (some d.text)) = some d := by
  simp [digestOfJson?, Json.string?, d.parse_text, Except.toOption]

/-- Metadata are read back, whether they are written or left out. -/
theorem metadataOfJson?_of_isEmpty (m : Metadata) :
    metadataOfJson? (if m.isEmpty then none
      else some (.object (m.entries.map fun (k, v) => (some k, .string (some v))))) = some m := by
  split
  · rename_i hempty
    rw [KeyMap.eq_empty_of_isEmpty hempty]
    rfl
  · exact Json.strings?_object m

namespace Entry

/-- The fields of an entry: a digest that is left out and empty metadata are missing. -/
theorem fields?_toJson (e : Entry) :
    e.toJson.fields? ["name", "version", "digest", "metadata"] =
      some [some (.string (some e.name)), some (.string (some e.version)),
        e.digest.map fun d => .string (some d.text),
        if e.metadata.isEmpty then none
        else some (.object (e.metadata.entries.map fun (k, v) => (some k, .string (some v))))] := by
  rcases hdigest : e.digest with _ | d <;> rcases hempty : e.metadata.isEmpty <;>
    simp [toJson, Json.fields?, Json.namedMembers?, Json.single?, hdigest, hempty]

/-- An entry is read from its JSON value. -/
theorem ofJson?_toJson (e : Entry) : ofJson? e.toJson = some e := by
  rw [ofJson?, fields?_toJson]
  obtain ⟨name, version, _ | d, metadata⟩ := e <;>
    simp [Json.string?, metadataOfJson?_of_isEmpty, digestOfJson?_text]

end Entry

/-! ### Lists of entries -/

/-- An entry is written with strings, arrays and objects alone. -/
theorem Entry.isTextual_toJson (e : Entry) : e.toJson.isTextual = true := by
  have hstring : ∀ s : String, (Json.string (some s)).isTextual = true := by
    intro s
    rw [Json.isTextual, Option.isSome_some]
  have hmetadata : (Json.object (e.metadata.entries.map fun (k, v) =>
      (some k, .string (some v)))).isTextual = true := by
    rw [Json.isTextual, Json.haveText_iff]
    intro m hm
    obtain ⟨⟨k, v⟩, -, rfl⟩ := List.mem_map.mp hm
    exact ⟨rfl, hstring v⟩
  rw [toJson, Json.isTextual, Json.haveText_iff]
  rcases e.digest with _ | d <;> rcases e.metadata.isEmpty <;>
    simp [hstring, hmetadata, -List.mem_map]

namespace Format

/-- The entries of a catalog are read from its JSON text. -/
theorem decode?_encode_json (es : List Entry) : json.decode? (json.encode es) = some es := by
  have htextual : (Json.array (es.map Entry.toJson)).isTextual = true := by
    rw [Json.isTextual, Json.areTextual_iff]
    simp [Entry.isTextual_toJson]
  rw [decode?, encode, Json.render, String.toList_ofList, Json.ofChars?_pretty 0 htextual]
  simpa [Json.items?] using mapM_map_eq_some Entry.ofJson?_toJson es

end Format

namespace File

variable {f : File} {fs fs' : Files} {es : List Entry}

/-- **What saving does.** The text of the entries is written, or nothing is changed. -/
theorem save_cases (f : File) (fs : Files) (es : List Entry) :
    (∃ fs', fs.write f.path (f.format.encode es).toUTF8 = (.ok (), fs') ∧
        f.save fs es = (.ok (), fs')) ∨
      ∃ fault, f.save fs es = (.error (.file f.path fault), fs) := by
  have hsave : f.save fs es
      = ((fs.write f.path (f.format.encode es).toUTF8).1.mapError (.file f.path),
        (fs.write f.path (f.format.encode es).toUTF8).2) := rfl
  rcases Files.write_cases fs f.path (f.format.encode es).toUTF8 with
    ⟨place, -, hwrite⟩ | ⟨fault, hwrite⟩
  · rw [hwrite] at hsave
    exact .inl ⟨_, hwrite, hsave⟩
  · rw [hwrite] at hsave
    exact .inr ⟨fault, hsave⟩

/-- What is saved is the text of the entries. -/
theorem write_of_save (h : f.save fs es = (.ok (), fs')) :
    fs.write f.path (f.format.encode es).toUTF8 = (.ok (), fs') := by
  rcases save_cases f fs es with ⟨written, hwrite, hsave⟩ | ⟨fault, hsave⟩
  · cases h.symm.trans hsave
    exact hwrite
  · cases h.symm.trans hsave

/-- Any entries can be saved where a file can be written. -/
theorem exists_save_of_isWritable (h : fs.isWritable f.path = true) (es : List Entry) :
    ∃ fs', f.save fs es = (.ok (), fs') := by
  obtain ⟨fs', hwrite⟩ := Files.exists_write_of_isWritable h (f.format.encode es).toUTF8
  exact ⟨fs', by rw [save, hwrite]; rfl⟩

/-- What is saved in a JSON catalog is listed. -/
theorem list_of_save (hformat : f.format = .json) (h : f.save fs es = (.ok (), fs')) :
    f.list fs' = .ok es := by
  have hwrite := write_of_save h
  rw [list, if_pos (Files.contains_of_write hwrite), Files.readText_of_write hwrite, hformat]
  simp [Format.decode?_encode_json]

/-- **Round trip.**  Any entries can be saved in a JSON catalog that can be written, and are then
    listed as they were: a digest that was left out is still left out, and the metadata are the same
    map. -/
theorem list_save_json (f : File) (fs : Files) (es : List Entry) (hformat : f.format = .json)
    (hwritable : fs.isWritable f.path = true) :
    ∃ fs', f.save fs es = (.ok (), fs') ∧ fs'.readText f.path = .ok (Format.json.encode es) ∧
      f.list fs' = .ok es := by
  obtain ⟨fs', hsave⟩ := exists_save_of_isWritable hwritable es
  have htext := Files.readText_of_write (write_of_save hsave)
  rw [hformat] at htext
  exact ⟨fs', hsave, htext, list_of_save hformat hsave⟩

/-- Quotes, backslashes, control characters and characters beyond ASCII, with and without a digest
    and metadata. -/
def escapedEntries : List Entry :=
  [{ name := "\"quoted\"\\", version := "1\n\x00\x7f" },
    { name := "θ\t😀", version := "", digest := some (.ofNibbles [10, 1] (by decide)),
      metadata := .ofList [("/", "\u2028"), ("", "\r")] }]

/-- Entries with quotes and line breaks, in a file that is reached in a roundabout way. -/
theorem list_save_escapedEntries :
    let f : File := ⟨"out/../library.json"⟩
    let fs : Files := { nodes := [(["out"], .directory)] }
    f.format = .json ∧ fs.isWritable f.path = true ∧
      ∃ fs', f.save fs escapedEntries = (.ok (), fs') ∧
        fs'.readText f.path = .ok (Format.json.encode escapedEntries) ∧
          f.list fs' = .ok escapedEntries := by
  intro f fs
  have hformat : f.format = .json := by decide +kernel
  have hwritable : fs.isWritable f.path = true := by decide +kernel
  exact ⟨hformat, hwritable, list_save_json f fs escapedEntries hformat hwritable⟩

end File

end Catalog

end ImageSpec
