import ImageSpec.Definition
import Mathlib.Data.List.DropRight

namespace ImageSpec.Definition

/-!
# Names with a registry in front

The registry of a definition stands in front of its name unless the name starts with it.  It is
written without the slashes at its end, but it is looked for in the name with all of them.  So the
slashes at the end of a registry do not matter, except for a name that starts with the registry and
with fewer slashes than are looked for: such a name gets the registry a second time.

* `exists_replicate` — what `bare` leaves out.
* `StartsWith.bare` — what starts with a registry and its slashes starts with its bare form.
* `canonical_withRegistry_eq_ok_iff` — the canonical name in terms of the registry.
* `canonical_bare_iff` — when the slashes at the end of a registry do not matter.
* `canonical_prefixed_twice` — a definition and a registry for which they do.
-/

/-- The definition with a registry in its metadata. -/
def withRegistry (d : Definition) (registry : String) : Definition :=
  { d with metadata := d.metadata.insert "registry" registry }

/-- A registry as it is written in front of a name. -/
def bare (registry : String) : String := String.ofList (dropSlashes registry.toList)

/-- A name that starts with a registry and a slash. -/
def StartsWith (registry name : String) : Prop := (registry ++ "/").toList <+: name.toList

instance (registry name : String) : Decidable (StartsWith registry name) :=
  inferInstanceAs (Decidable ((registry ++ "/").toList <+: name.toList))

/-- The name, the version and the digest of a definition, with nothing in front. -/
def identity (d : Definition) : String := d.name ++ ":" ++ d.version ++ "@" ++ d.digest.text

/-! ### Slashes at the end -/

/-- **Left out.** A registry is its bare form and some slashes. -/
theorem exists_replicate (registry : String) :
    ∃ n, registry.toList = (bare registry).toList ++ List.replicate n '/' := by
  have hsplit := List.takeWhile_append_dropWhile (p := (· == '/')) (l := registry.toList.reverse)
  have hslashes : ∀ c ∈ registry.toList.reverse.takeWhile (· == '/'), c = '/' := by
    intro c hc
    have hall := List.all_eq_true.mp List.all_takeWhile c hc
    simpa using hall
  have hreplicate := List.eq_replicate_of_mem hslashes
  refine ⟨(registry.toList.reverse.takeWhile (· == '/')).length, ?_⟩
  rw [hreplicate] at hsplit
  have hreverse := congrArg List.reverse hsplit
  rw [List.reverse_append, List.reverse_replicate, List.reverse_reverse] at hreverse
  rw [bare, String.toList_ofList]
  exact hreverse.symm

/-- A registry loses its slashes once. -/
theorem bare_bare (registry : String) : bare (bare registry) = bare registry := by
  unfold bare dropSlashes
  rw [String.toList_ofList, List.reverse_reverse, List.dropWhile_idempotent]

/-- Something is left of a registry, unless it is made of slashes. -/
theorem bare_ne_empty {registry : String} (h : ∃ c ∈ registry.toList, c ≠ '/') :
    bare registry ≠ "" := by
  obtain ⟨c, hc, hne⟩ := h
  obtain ⟨n, hn⟩ := exists_replicate registry
  intro hempty
  rw [hn, hempty] at hc
  apply hne
  exact List.eq_of_mem_replicate (by simpa using hc)

/-- What is left of a registry holds no blanks if the registry holds none. -/
theorem isBlank_of_mem_bare {registry : String}
    (h : ∀ c ∈ registry.toList, Text.isBlank c = false) :
    ∀ c ∈ (bare registry).toList, Text.isBlank c = false := by
  obtain ⟨n, hn⟩ := exists_replicate registry
  intro c hc
  apply h
  rw [hn]
  exact List.mem_append_left _ hc

/-- **Fewer slashes.** What starts with a registry and all its slashes starts with its bare form and
    one slash. -/
theorem StartsWith.bare {registry name : String} (h : StartsWith registry name) :
    StartsWith (bare registry) name := by
  obtain ⟨n, hn⟩ := exists_replicate registry
  refine List.IsPrefix.trans ?_ h
  refine ⟨List.replicate n '/', ?_⟩
  rw [String.toList_append, String.toList_append, hn, List.append_assoc, List.append_assoc]
  show _ ++ '/' :: List.replicate n '/' = _ ++ (List.replicate n '/' ++ ['/'])
  rw [← List.replicate_succ, List.replicate_succ']

/-! ### Canonical names -/

/-- A text is printable if it is not empty and holds no blanks. -/
theorem isPrintable_iff {s : String} :
    isPrintable s = true ↔ s ≠ "" ∧ ∀ c ∈ s.toList, Text.isBlank c = false := by
  simp [isPrintable]

/-- A registry is put in front unless the name starts with it. -/
theorem qualifier_eq_ite (registry name : String) :
    qualifier registry name = if StartsWith registry name then "" else bare registry ++ "/" := by
  have hiff : isQualified registry.toList name.toList = true ↔ StartsWith registry name := by
    rw [isQualified, List.isPrefixOf_iff_prefix, StartsWith, String.toList_append]
    rfl
  unfold qualifier
  by_cases h : StartsWith registry name
  · rw [if_pos h, if_pos (hiff.mpr h)]
  · rw [if_neg h, if_neg (mt hiff.mp h)]
    rfl

/-- The canonical name of a definition with a registry, with all of its failures. -/
theorem canonical_withRegistry (d : Definition) (registry : String) :
    (d.withRegistry registry).canonical
      = if !isPrintable d.name then
          .error (.malformed d.name "name cannot be printed as an image reference")
        else if !isPrintable d.version then
          .error (.malformed d.name "version cannot be printed as an image tag")
        else if isPrintable registry then .ok (qualifier registry d.name ++ d.identity)
        else .error (.malformed d.name "registry cannot be printed as an image reference") := by
  have hget : (d.withRegistry registry).registry = some registry := by
    show (d.metadata.insert "registry" registry).get? "registry" = some registry
    rw [KeyMap.get?_insert, if_pos rfl]
  unfold canonical
  rw [hget]
  rfl

/-- **The canonical name.** It exists if the three texts can be printed. -/
theorem canonical_withRegistry_eq_ok_iff {d : Definition} {registry name : String} :
    (d.withRegistry registry).canonical = .ok name ↔
      (isPrintable d.name = true ∧ isPrintable d.version = true) ∧ isPrintable registry = true ∧
        name = qualifier registry d.name ++ d.identity := by
  rw [canonical_withRegistry]
  cases isPrintable d.name <;> cases isPrintable d.version <;> cases isPrintable registry <;>
    simp [eq_comm]

/-- Where the name or the version cannot be printed, the registry is not looked at. -/
theorem canonical_withRegistry_congr {d : Definition}
    (h : ¬ (isPrintable d.name = true ∧ isPrintable d.version = true)) (r₁ r₂ : String) :
    (d.withRegistry r₁).canonical = (d.withRegistry r₂).canonical := by
  rw [canonical_withRegistry, canonical_withRegistry]
  cases hname : isPrintable d.name with
  | false => rfl
  | true =>
    cases hversion : isPrintable d.version with
    | false => rfl
    | true => exact absurd ⟨hname, hversion⟩ h

/-! ### One registry or two -/

theorem append_ne_self {front s : String} (h : front ≠ "") : front ++ s ≠ s := by
  intro heq
  apply h
  have hlength := congrArg String.length heq
  rw [String.length_append] at hlength
  rw [← String.length_eq_zero_iff]
  omega

/-- Where all can be printed, the canonical names agree as far as what is put in front does. -/
theorem canonical_withRegistry_eq_iff {d : Definition} {registry : String}
    (hd : isPrintable d.name = true ∧ isPrintable d.version = true)
    (hregistry : isPrintable registry = true) (hbare : isPrintable (bare registry) = true) :
    (d.withRegistry registry).canonical = (d.withRegistry (bare registry)).canonical ↔
      (StartsWith (bare registry) d.name → StartsWith registry d.name) := by
  have hslash : bare registry ++ "/" ≠ "" := by simp
  rw [canonical_withRegistry_eq_ok_iff.mpr ⟨hd, hregistry, rfl⟩,
    canonical_withRegistry_eq_ok_iff.mpr ⟨hd, hbare, rfl⟩, qualifier_eq_ite, qualifier_eq_ite,
    bare_bare]
  by_cases hfull : StartsWith registry d.name
  · -- the name starts with the bare form as well, and nothing is put in front either way
    rw [if_pos hfull, if_pos hfull.bare]
    simp [hfull]
  · by_cases hshort : StartsWith (bare registry) d.name
    · rw [if_neg hfull, if_pos hshort, String.empty_append]
      have hne : bare registry ++ "/" ++ d.identity ≠ d.identity := append_ne_self hslash
      simp [hshort, hfull, hne]
    · rw [if_neg hfull, if_neg hshort]
      simp [hshort]

/-- **Slashes at the end of a registry.** Let a registry hold no white space and, unless it is
    empty, something else than slashes.  A definition has the same canonical name with the registry
    and with its bare form if and only if its name or version cannot be printed, or its name starts
    with both or with neither.  A name that starts with the registry as it stands gets nothing in
    front.  One that starts with the bare form only gets that form again. -/
theorem canonical_bare_iff (d : Definition) (registry : String)
    (hblank : ∀ c ∈ registry.toList, Text.isBlank c = false)
    (hslash : (∀ c ∈ registry.toList, c = '/') → registry = "") :
    ((d.withRegistry registry).canonical = (d.withRegistry (bare registry)).canonical ↔
        (isPrintable d.name = true ∧ isPrintable d.version = true →
          StartsWith (bare registry) d.name → StartsWith registry d.name)) ∧
      (∀ name, (d.withRegistry registry).canonical = .ok name →
        StartsWith registry d.name → name = d.identity) ∧
      ∀ name, (d.withRegistry (bare registry)).canonical = .ok name →
        StartsWith (bare registry) d.name → ¬ StartsWith registry d.name →
          name = d.identity ∧
            (d.withRegistry registry).canonical = .ok (bare registry ++ "/" ++ name) := by
  refine ⟨?_, fun name hname hfull => ?_, fun name hname hshort hfull => ?_⟩
  · by_cases hempty : registry = ""
    · subst hempty
      exact ⟨fun _ _ h => h, fun _ => rfl⟩
    · by_cases hd : isPrintable d.name = true ∧ isPrintable d.version = true
      · have hregistry : isPrintable registry = true := isPrintable_iff.mpr ⟨hempty, hblank⟩
        -- a registry of slashes alone would have an empty bare form, which is not printed
        have hother : ∃ c ∈ registry.toList, c ≠ '/' := by
          simpa using mt hslash hempty
        have hbare : isPrintable (bare registry) = true :=
          isPrintable_iff.mpr ⟨bare_ne_empty hother, isBlank_of_mem_bare hblank⟩
        rw [canonical_withRegistry_eq_iff hd hregistry hbare]
        exact ⟨fun h _ => h, fun h => h hd⟩
      · rw [canonical_withRegistry_congr hd registry (bare registry)]
        exact ⟨fun _ h => absurd h hd, fun _ => rfl⟩
  · -- the name starts with the registry as it stands
    obtain ⟨-, -, rfl⟩ := canonical_withRegistry_eq_ok_iff.mp hname
    rw [qualifier_eq_ite, if_pos hfull, String.empty_append]
  · obtain ⟨hd, hbare, rfl⟩ := canonical_withRegistry_eq_ok_iff.mp hname
    have hregistry : isPrintable registry = true := by
      refine isPrintable_iff.mpr ⟨?_, hblank⟩
      rintro rfl
      cases hbare
    rw [canonical_withRegistry_eq_ok_iff.mpr ⟨hd, hregistry, rfl⟩, qualifier_eq_ite,
      qualifier_eq_ite, if_pos hshort, if_neg hfull, String.empty_append]
    exact ⟨rfl, rfl⟩

/-- A definition of a small system under any name. -/
def namedSystem (name : String) : Definition where
  name := name
  version := "3.19"
  digest :=
    { algorithm := "blake3", encoded := "7c0d", algorithm_ne := by decide, encoded_ne := by decide,
      algorithm_chars := by decide, encoded_chars := by decide }
  metadata := .empty

/-- Slashes at the end of a registry that the name does not start with do not matter. -/
theorem canonical_mirror_bare :
    ((namedSystem "alpine").withRegistry "mirror.local:5000//").canonical
      = ((namedSystem "alpine").withRegistry "mirror.local:5000").canonical := by
  have hprintable : isPrintable "mirror.local:5000//" = true := by decide
  have hiff := (canonical_bare_iff (namedSystem "alpine") "mirror.local:5000//"
    (isPrintable_iff.mp hprintable).2 fun h => absurd (h 'm' (by decide)) (by decide)).1
  have hbare : bare "mirror.local:5000//" = "mirror.local:5000" := by decide
  rw [hbare] at hiff
  refine hiff.mpr fun _ hshort => absurd hshort ?_
  decide

/-- A registry that ends in a slash, and a name that starts with it: the registry comes twice. -/
theorem canonical_prefixed_twice :
    ((namedSystem "ghcr.io/org/alpine").withRegistry "ghcr.io/").canonical
        = .ok "ghcr.io/ghcr.io/org/alpine:3.19@blake3:7c0d" ∧
      ((namedSystem "ghcr.io/org/alpine").withRegistry (bare "ghcr.io/")).canonical
        = .ok "ghcr.io/org/alpine:3.19@blake3:7c0d" ∧
      ((namedSystem "ghcr.io/org/alpine").withRegistry "ghcr.io/").canonical
        ≠ ((namedSystem "ghcr.io/org/alpine").withRegistry (bare "ghcr.io/")).canonical := by
  have htwice : ((namedSystem "ghcr.io/org/alpine").withRegistry "ghcr.io/").canonical
      = .ok "ghcr.io/ghcr.io/org/alpine:3.19@blake3:7c0d" := by with_unfolding_all rfl
  have honce : ((namedSystem "ghcr.io/org/alpine").withRegistry (bare "ghcr.io/")).canonical
      = .ok "ghcr.io/org/alpine:3.19@blake3:7c0d" := by with_unfolding_all rfl
  refine ⟨htwice, honce, ?_⟩
  rw [htwice, honce]
  simp

end ImageSpec.Definition
