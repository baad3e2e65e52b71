import ImageSpec.Proofs.CatalogText
import Mathlib.Data.List.Basic

namespace ImageSpec.Catalog

/-!
# A catalog file is a store

A catalog file is changed by registering entries and by removing them.  Every change reads the file
and writes all of it again.

* `File.Holds` — what a catalog file is between two changes.
* `File.holds_register`, `File.holds_remove` — when a change fails, and what it does otherwise.
* `File.make_snd_of_error` — a change that fails leaves the files as they were, wherever it fails.
* `File.holds_after`, `File.holds_afterAll` — what one change keeps, and any number of them.
* `File.listing_after_changes` — the listing is what was registered and not since removed, and what
  each further change does to it.
-/

/-- What an entry is found by. -/
def Entry.key (e : Entry) : String × String := (e.name, e.version)

/-- A change of a catalog. -/
inductive Change where
  | register (e : Entry)
  | remove (name : String) (version : Option String)
deriving DecidableEq

/-- A change that was made or failed. -/
structure Attempt where
  change : Change
  succeeded : Bool
deriving DecidableEq

/-- Whether an attempt removes an entry, if it is there: it was made, it asked for the name of the
    entry, and for no version or for that of the entry. -/
def Attempt.removes (e : Entry) : Attempt → Bool
  | ⟨.remove name version, true⟩ => e.name = name ∧ (version = none ∨ version = some e.version)
  | _ => false

/-- The entries that attempts leave of those that were there before. -/
def surviving (es : List Entry) (later : List Attempt) : List Entry :=
  es.filter fun e => !later.any (·.removes e)

/-- The entries that were registered and not since removed, in the order of their registration. -/
def remaining : List Attempt → List Entry
  | [] => []
  | ⟨.register e, true⟩ :: later => surviving [e] later ++ remaining later
  | _ :: later => remaining later

/-- What survives of two lists of entries is what survives of each. -/
theorem surviving_append (es es' : List Entry) (later : List Attempt) :
    surviving (es ++ es') later = surviving es later ++ surviving es' later :=
  List.filter_append ..

/-- What survives attempts has survived the first of them and then the others. -/
theorem surviving_cons (es : List Entry) (a : Attempt) (later : List Attempt) :
    surviving es (a :: later) = surviving (surviving es [a]) later := by
  simp [surviving, List.filter_filter, Bool.and_comm]

/-- What remains of attempts: what the later ones leave of the first one's entry, and what they
    register themselves. -/
theorem remaining_cons (a : Attempt) (later : List Attempt) :
    remaining (a :: later) = surviving (remaining [a]) later ++ remaining later := by
  obtain ⟨_ | _, _ | _⟩ := a <;> simp [remaining, surviving]

/-- An attempt that fails removes nothing and registers nothing. -/
theorem surviving_append_remaining_of_failed (es : List Entry) (c : Change) :
    surviving es [⟨c, false⟩] ++ remaining [⟨c, false⟩] = es := by
  cases c <;> simp [surviving, remaining, Attempt.removes]

namespace File

/-- Makes a change. -/
def make (f : File) (fs : Files) : Change → Except Error Unit × Files
  | .register e => f.register fs e
  | .remove name version => f.remove fs name version

/-- The files that changes leave behind, one after the other, whether they fail or not. -/
def afterAll (f : File) (fs : Files) (cs : List Change) : Files :=
  cs.foldl (fun fs c => (f.make fs c).2) fs

/-- What came of changes, one after the other. -/
def attempts (f : File) (fs : Files) : List Change → List Attempt
  | [] => []
  | c :: cs => ⟨c, (f.make fs c).1.toBool⟩ :: f.attempts (f.make fs c).2 cs

/-! ### One change -/

/-- What a catalog file is between two changes: it lists its entries, no two of which have one key,
    and can be written. -/
structure Holds (f : File) (fs : Files) (es : List Entry) : Prop where
  list_eq : f.list fs = .ok es
  nodup : (es.map Entry.key).Nodup
  isWritable : fs.isWritable f.path = true

variable {f : File} {fs fs' : Files} {es : List Entry}

/-- An entry is named by its name, and by its version if one is given. -/
theorem isNamed_iff {name : String} {version : Option String} {e : Entry} :
    isNamed name version e = true ↔
      e.name = name ∧ (version = none ∨ version = some e.version) := by
  cases version with
  | none => simp [isNamed]
  | some v => simp [isNamed, eq_comm (a := v)]

/-- A file that does not exist holds no entries. -/
theorem holds_nil (habsent : fs.contains f.path = false)
    (hwritable : fs.isWritable f.path = true) : f.Holds fs [] := by
  refine ⟨?_, by simp, hwritable⟩
  rw [list, habsent]
  rfl

/-- What has been saved is held. -/
theorem holds_of_save (hformat : f.format = .json) (hnodup : (es.map Entry.key).Nodup)
    (hsave : f.save fs es = (.ok (), fs')) : f.Holds fs' es :=
  ⟨list_of_save hformat hsave, hnodup, Files.isWritable_of_write (write_of_save hsave)⟩

/-- A key is there if an entry has its name and version. -/
theorem mem_key_iff {e : Entry} :
    e.key ∈ es.map Entry.key ↔ ∃ other ∈ es, other.name = e.name ∧ other.version = e.version := by
  simp [Entry.key]

/-- The test of names and versions is one of keys. -/
theorem any_key_iff {e : Entry} :
    (es.any fun other => other.name == e.name && other.version == e.version) = true ↔
      e.key ∈ es.map Entry.key := by
  simp [Entry.key]

/-- Registering an entry whose key is there fails and changes nothing, and any other is added at the
    end. -/
theorem holds_register (hformat : f.format = .json) (h : f.Holds fs es) (e : Entry) :
    (e.key ∈ es.map Entry.key ∧
        f.register fs e = (.error (.config (.duplicateEntry e.name e.version)), fs)) ∨
      (e.key ∉ es.map Entry.key ∧
        ∃ fs', f.register fs e = (.ok (), fs') ∧ f.Holds fs' (es ++ [e])) := by
  rw [register, h.list_eq]
  by_cases hkey : e.key ∈ es.map Entry.key
  · exact .inl ⟨hkey, if_pos (any_key_iff.mpr hkey)⟩
  · obtain ⟨fs', hsave⟩ := exists_save_of_isWritable h.isWritable (es ++ [e])
    refine .inr ⟨hkey, fs', ?_, holds_of_save hformat ?_ hsave⟩
    · rw [← hsave]
      exact if_neg fun hany => hkey (any_key_iff.mp hany)
    · rw [List.map_append]
      exact List.nodup_append.mpr ⟨h.nodup, by simp, by simpa using hkey⟩

/-- As many entries are kept as were there exactly if none is named. -/
theorem length_kept_eq_iff {name : String} {version : Option String} :
    (es.filter fun e => !isNamed name version e).length = es.length ↔
      ∀ e ∈ es, ¬ (e.name = name ∧ (version = none ∨ version = some e.version)) := by
  rw [List.length_filter_eq_length_iff]
  simp only [← isNamed_iff, Bool.not_eq_true', Bool.not_eq_true]

/-- Removing what matches nothing fails and changes nothing, and otherwise what matches is gone. -/
theorem holds_remove (hformat : f.format = .json) (h : f.Holds fs es) (name : String)
    (version : Option String) :
    ((∀ e ∈ es, ¬ (e.name = name ∧ (version = none ∨ version = some e.version))) ∧
        ∃ error, f.remove fs name version = (.error error, fs)) ∨
      (¬ (∀ e ∈ es, ¬ (e.name = name ∧ (version = none ∨ version = some e.version))) ∧
        ∃ fs', f.remove fs name version = (.ok (), fs') ∧
          f.Holds fs' (es.filter fun e => !isNamed name version e)) := by
  simp only [remove, h.list_eq]
  by_cases hnone : ∀ e ∈ es, ¬ (e.name = name ∧ (version = none ∨ version = some e.version))
  · exact .inl ⟨hnone, _, if_pos (length_kept_eq_iff.mpr hnone)⟩
  · obtain ⟨fs', hsave⟩ :=
      exists_save_of_isWritable h.isWritable (es.filter fun e => !isNamed name version e)
    refine .inr ⟨hnone, fs', ?_, holds_of_save hformat ?_ hsave⟩
    · rw [if_neg (mt length_kept_eq_iff.mp hnone), hsave]
    · exact h.nodup.sublist (List.Sublist.map _ List.filter_sublist)

/-- The entries that removing leaves, said by the attempt. -/
theorem surviving_remove (es : List Entry) (name : String) (version : Option String) :
    surviving es [⟨.remove name version, true⟩] = es.filter fun e => !isNamed name version e := by
  refine List.filter_congr fun e _ => ?_
  have hremoves : Attempt.removes e ⟨.remove name version, true⟩ = isNamed name version e := by
    rw [Bool.eq_iff_iff, isNamed_iff]
    exact decide_eq_true_iff
  simp [hremoves]

/-- What a change that is made leaves behind. -/
theorem holds_of_make (hformat : f.format = .json) (h : f.Holds fs es) {c : Change}
    (hmake : f.make fs c = (.ok (), fs')) :
    f.Holds fs' (surviving es [⟨c, true⟩] ++ remaining [⟨c, true⟩]) := by
  cases c with
  | register e =>
    rcases holds_register hformat h e with ⟨-, herror⟩ | ⟨-, written, hok, hholds⟩
    · cases herror.symm.trans hmake
    · cases hok.symm.trans hmake
      simpa [surviving, remaining, Attempt.removes] using hholds
  | remove name version =>
    rcases holds_remove hformat h name version with ⟨-, e, herror⟩ | ⟨-, written, hok, hholds⟩
    · cases herror.symm.trans hmake
    · cases hok.symm.trans hmake
      rw [surviving_remove]
      simpa [remaining] using hholds

/-! ### Changes that fail -/

/-- Saving that fails has changed nothing. -/
theorem save_snd_of_error {error : Error} (h : (f.save fs es).1 = .error error) :
    (f.save fs es).2 = fs := by
  rcases save_cases f fs es with ⟨fs', -, hsave⟩ | ⟨fault, hsave⟩
  · rw [hsave] at h
    cases h
  · rw [hsave]

/-- Registering that fails has changed nothing, wherever it fails: reading the catalog, at a key
    that is there, or writing. -/
theorem register_snd_of_error {e : Entry} {error : Error}
    (h : (f.register fs e).1 = .error error) : (f.register fs e).2 = fs := by
  unfold register at h ⊢
  split
  · rfl
  · next es hlist =>
    rw [hlist] at h
    dsimp only at h
    split
    · rfl
    · next hnew =>
      rw [if_neg hnew] at h
      exact save_snd_of_error h

/-- Removing that fails has changed nothing, wherever it fails: reading the catalog, if nothing
    matches, or writing. -/
theorem remove_snd_of_error {name : String} {version : Option String} {error : Error}
    (h : (f.remove fs name version).1 = .error error) : (f.remove fs name version).2 = fs := by
  unfold remove at h ⊢
  split
  · rfl
  · next es hlist =>
    rw [hlist] at h
    dsimp only at h ⊢
    split
    · rfl
    · next hsome =>
      rw [if_neg hsome] at h
      exact save_snd_of_error h

/-- **Failures.** A change that fails leaves all files as they were. -/
theorem make_snd_of_error {c : Change} {error : Error} (h : (f.make fs c).1 = .error error) :
    (f.make fs c).2 = fs := by
  cases c with
  | register e => exact register_snd_of_error h
  | remove name version => exact remove_snd_of_error h

/-- **Step.** After a change a catalog holds what it leaves of what was there, and behind it what it
    has registered. -/
theorem holds_after (hformat : f.format = .json) (h : f.Holds fs es) (c : Change) :
    f.Holds (f.make fs c).2 (surviving es [⟨c, (f.make fs c).1.toBool⟩]
      ++ remaining [⟨c, (f.make fs c).1.toBool⟩]) := by
  rcases hresult : (f.make fs c).1 with error | ⟨⟩
  · rw [make_snd_of_error hresult]
    exact (surviving_append_remaining_of_failed es c).symm ▸ h
  · exact holds_of_make hformat h (Prod.ext hresult rfl)

/-- Removing what has just been registered gives the listing from before. -/
theorem exists_remove_of_register (hformat : f.format = .json) (h : f.Holds fs es) {e : Entry}
    (hregister : f.register fs e = (.ok (), fs')) :
    ∃ fs'', f.remove fs' e.name (some e.version) = (.ok (), fs'') ∧ f.list fs'' = .ok es := by
  rcases holds_register hformat h e with ⟨-, herror⟩ | ⟨hkey, written, hok, hholds⟩
  · cases herror.symm.trans hregister
  cases hok.symm.trans hregister
  -- of all that is there now, just the new entry has its name and version
  have hself : isNamed e.name (some e.version) e = true := by simp [isNamed]
  have hothers : ∀ other ∈ es, isNamed e.name (some e.version) other = false := by
    intro other hother
    have hne : other.key ≠ e.key := fun heq => hkey (List.mem_map.mpr ⟨other, hother, heq⟩)
    simpa [isNamed, Entry.key] using hne
  have hrest : (es ++ [e]).filter (fun other => !isNamed e.name (some e.version) other) = es := by
    have hkept : es.filter (fun other => !isNamed e.name (some e.version) other) = es := by
      rw [List.filter_eq_self]
      intro other hother
      simp [hothers other hother]
    rw [List.filter_append, hkept]
    simp [hself]
  rcases holds_remove hformat hholds e.name (some e.version) with
    ⟨hnone, -⟩ | ⟨-, fs'', hremove, hlast⟩
  · exact absurd (isNamed_iff.mp hself) (hnone e (by simp))
  · exact ⟨fs'', hremove, hrest ▸ hlast.list_eq⟩

/-! ### Any number of changes -/

/-- **Runs.** After any changes a catalog holds what they leave of what was there, and behind it
    what they have registered and not removed. -/
theorem holds_afterAll (hformat : f.format = .json) (h : f.Holds fs es) (cs : List Change) :
    f.Holds (f.afterAll fs cs)
      (surviving es (f.attempts fs cs) ++ remaining (f.attempts fs cs)) := by
  induction cs generalizing fs es with
  | nil => simpa [afterAll, attempts, surviving, remaining] using h
  | cons c cs ih =>
    -- what the first change leaves is there before the others, like what it has registered
    have hrest := ih (holds_after hformat h c)
    rw [attempts, surviving_cons, remaining_cons, ← List.append_assoc, ← surviving_append]
    exact hrest

/-- **Store.**  A JSON catalog that starts absent and can be written, after any changes, some of
    which may have failed:

    * it lists the entries that were registered and not since removed, in the order of their
      registration, and no two of them have one name and version;
    * registering fails exactly if the name and version are there, and removing exactly if no entry
      has the name and, if one is given, the version;
    * what fails leaves the bytes of all files as they were;
    * removing what has just been registered gives the listing from before. -/
theorem listing_after_changes (f : File) (fs : Files) (cs : List Change)
    (hformat : f.format = .json) (habsent : fs.contains f.path = false)
    (hwritable : fs.isWritable f.path = true) :
    let now := f.afterAll fs cs
    let es := remaining (f.attempts fs cs)
    f.list now = .ok es ∧ (es.map fun e => (e.name, e.version)).Nodup ∧
      (∀ e, (f.register now e).1.toBool = false ↔
        ∃ other ∈ es, other.name = e.name ∧ other.version = e.version) ∧
      (∀ name version, (f.remove now name version).1.toBool = false ↔
        ∀ e ∈ es, ¬ (e.name = name ∧ (version = none ∨ version = some e.version))) ∧
      (∀ c, (f.make now c).1.toBool = false →
        ∀ path, (f.make now c).2.read path = now.read path) ∧
      ∀ e now', f.register now e = (.ok (), now') →
        ∃ now'', f.remove now' e.name (some e.version) = (.ok (), now'') ∧
          f.list now'' = .ok es := by
  intro now es
  have hholds : f.Holds now es := by
    simpa [surviving] using holds_afterAll hformat (holds_nil habsent hwritable) cs
  refine ⟨hholds.list_eq, hholds.nodup, ?_, ?_, ?_, ?_⟩
  · intro e
    rw [← mem_key_iff]
    rcases holds_register hformat hholds e with ⟨hkey, herror⟩ | ⟨hkey, fs', hok, -⟩
    · simp [herror, hkey, Except.toBool]
    · simp [hok, hkey, Except.toBool]
  · intro name version
    rcases holds_remove hformat hholds name version with
      ⟨hnone, error, herror⟩ | ⟨hsome, fs', hok, -⟩
    · simp only [herror, Except.toBool, true_iff]
      exact hnone
    · simp only [hok, Except.toBool, Bool.true_eq_false, false_iff]
      exact hsome
  · -- branch by branch, what fails gives back the files that it was given
    intro c hfails path
    rcases hresult : (f.make now c).1 with error | ⟨⟩
    · rw [make_snd_of_error hresult]
    · rw [hresult] at hfails
      cases hfails
  · intro e now' hregister
    exact exists_remove_of_register hformat hholds hregister

/-- Two versions of a tool, the first of which is registered again and then removed, and another
    tool; then all that is left of the first tool is removed, twice. -/
def sampleChanges : List Change :=
  [.register { name := "go", version := "1" }, .register { name := "go", version := "2" },
    .register { name := "go", version := "1" }, .remove "go" (some "1"),
    .register { name := "jq", version := "1" }, .remove "go" none, .remove "go" none]

/-- The changes one by one: the third one fails, and so does the last. -/
theorem listing_after_sampleChanges :
    let f : File := ⟨"library.json"⟩
    let fs : Files := {}
    let es : List Entry := [{ name := "jq", version := "1" }]
    (f.format = .json ∧ fs.contains f.path = false ∧ fs.isWritable f.path = true) ∧
      f.attempts fs sampleChanges
        = sampleChanges.zipWith Attempt.mk [true, true, false, true, true, true, false] ∧
      remaining (f.attempts fs sampleChanges) = es ∧
        f.list (f.afterAll fs sampleChanges) = .ok es := by
  intro f fs es
  have hformat : f.format = .json := by decide +kernel
  have habsent : fs.contains f.path = false := by decide +kernel
  have hwritable : fs.isWritable f.path = true := by decide +kernel
  have hattempts : f.attempts fs sampleChanges
      = sampleChanges.zipWith Attempt.mk [true, true, false, true, true, true, false] := by
    decide +kernel
  have hremaining : remaining (f.attempts fs sampleChanges) = es := by
    rw [hattempts]
    decide +kernel
  have hlist := (listing_after_changes f fs sampleChanges hformat habsent hwritable).1
  exact ⟨⟨hformat, habsent, hwritable⟩, hattempts, hremaining, hremaining ▸ hlist⟩

end File

end ImageSpec.Catalog
