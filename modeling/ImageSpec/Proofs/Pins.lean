import ImageSpec.Proofs.Nesting

namespace ImageSpec

/-!
# Pins

A pin asks for a definition by its name and `=` in front of its version.  A catalog keeps versions
apart as they are written, but a pin compares their components, and `1.0` and `1.00` have the same
ones.  A catalog may therefore hold a definition that its own pin does not find: the last definition
whose version has the same components is found in its place.

* `Definition.pin` — the reference that asks for a definition.
* `Catalog.mem_definitions_iff` — what a catalog of a list holds.
* `Catalog.resolve_pin_eq_ok_iff` — what a pin finds.
* `Catalog.resolve_pin_iff_last` — which pins find their own definition, and when all do.
* `Catalog.pin_misses_definition` — a pin that does not.
-/

/-- The reference that asks for exactly the version of a definition. -/
def Definition.pin (d : Definition) : Reference := ⟨d.name, some ("=" ++ d.version)⟩

/-- The definitions of a list that have the name of `d` and a version equal to its own. -/
def Definition.spellings (d : Definition) (ds : List Definition) : List Definition :=
  ds.filter fun e => e.name == d.name && Version.compare e.version d.version == .eq

namespace Definition

/-- The spellings of a definition have its name and a version that compares equal. -/
theorem mem_spellings_iff {d e : Definition} {ds : List Definition} : e ∈ d.spellings ds ↔
    e ∈ ds ∧ e.name = d.name ∧ Version.compare e.version d.version = .eq := by
  simp [spellings]

/-- Only the name and the place of the version in the order count. -/
theorem spellings_congr {d e : Definition} (hname : d.name = e.name)
    (hequal : Version.compare d.version e.version = .eq) (ds : List Definition) :
    d.spellings ds = e.spellings ds := by
  unfold spellings
  congr 1
  funext c
  have hsame : Version.compare c.version d.version = Version.compare c.version e.version :=
    Std.TransCmp.congr_right hequal
  rw [hname, hsame]

/-- Of the versions that a pin admits none exceeds another, so all that fit it are the best. -/
theorem best_pin (d : Definition) (ds : List Definition) : d.pin.best ds = d.spellings ds := by
  have hcandidates : d.pin.candidates ds = d.spellings ds := by
    show ds.filter (fun e => e.name == d.name
      && (Version.Constraint.parse (some ("=" ++ d.version))).admits e.version) = d.spellings ds
    rw [Version.parse_equals]
    rfl
  rw [Reference.best, hcandidates, List.filter_eq_self]
  intro e he
  rw [List.all_eq_true]
  intro other hother
  have heq := (mem_spellings_iff.mp he).2.2
  have hother := (mem_spellings_iff.mp hother).2.2
  rw [Std.TransCmp.eq_trans hother (Std.OrientedCmp.eq_symm heq)]
  rfl

end Definition

namespace Catalog

/-! ### What a catalog holds -/

/-- The last definition of each version is kept. -/
theorem mem_latest_iff {ds : List Definition} {d : Definition} : d ∈ latest ds ↔
    ∃ before after, ds = before ++ d :: after ∧ ∀ later ∈ after, later.version ≠ d.version := by
  constructor
  · intro h
    induction ds with
    | nil => cases h
    | cons c rest ih =>
      rw [latest] at h
      split at h
      · obtain ⟨before, after, rfl, hafter⟩ := ih h
        exact ⟨c :: before, after, rfl, hafter⟩
      · next hlast =>
        rcases List.mem_cons.mp h with rfl | h
        · exact ⟨[], rest, rfl, by simpa using hlast⟩
        · obtain ⟨before, after, rfl, hafter⟩ := ih h
          exact ⟨c :: before, after, rfl, hafter⟩
  · rintro ⟨before, after, rfl, hafter⟩
    obtain ⟨kept, -, hkept⟩ := exists_latest_append_cons before hafter
    rw [hkept]
    simp

/-- A group holds only definitions with its name. -/
theorem mem_definitions_iff_mem_named {ds : List Definition} {d : Definition} :
    d ∈ (ofDefinitions ds).definitions ↔ d ∈ latest (ds.filter (·.name == d.name)) := by
  rw [definitions, List.mem_flatMap]
  constructor
  · rintro ⟨⟨name, group⟩, hentry, hd⟩
    have hget := KeyMap.get?_eq_some_iff.mpr hentry
    rw [get?_groups_ofDefinitions] at hget
    split at hget
    · cases hget
    · cases hget
      -- what is filtered by a name has the name
      have hmem := (List.mem_filter.mp ((latest_sublist _).subset hd)).2
      obtain rfl : d.name = name := by simpa using hmem
      exact hd
  · intro hd
    have hne : ds.filter (·.name == d.name) ≠ [] := by
      intro hnil
      rw [hnil] at hd
      cases hd
    refine ⟨(d.name, latest (ds.filter (·.name == d.name))), ?_, hd⟩
    rw [← KeyMap.get?_eq_some_iff, get?_groups_ofDefinitions, if_neg hne]

/-- **Holding.** A catalog holds the definitions whose name and version do not come again. -/
theorem mem_definitions_iff {ds : List Definition} {d : Definition} :
    d ∈ (ofDefinitions ds).definitions ↔ ∃ before after, ds = before ++ d :: after ∧
      ∀ later ∈ after, later.name = d.name → later.version ≠ d.version := by
  rw [mem_definitions_iff_mem_named, mem_latest_iff]
  constructor
  · rintro ⟨before, after, hfilter, hafter⟩
    obtain ⟨front, rest, rfl, -, rfl⟩ := Version.exists_of_filter_eq_append_cons hfilter
    refine ⟨front, rest, rfl, fun later hlater hname => hafter later ?_⟩
    exact List.mem_filter.mpr ⟨hlater, by simpa using hname⟩
  · rintro ⟨before, after, rfl, hafter⟩
    refine ⟨before.filter (·.name == d.name), after.filter (·.name == d.name), by simp, ?_⟩
    intro later hlater
    obtain ⟨hlater, hname⟩ := List.mem_filter.mp hlater
    exact hafter later hlater (by simpa using hname)

/-! ### What a pin finds -/

/-- **Pins.** A pin finds the last definition with the name and an equal version. -/
theorem resolve_pin_eq_ok_iff {ds : List Definition} {d e : Definition} :
    (ofDefinitions ds).resolve d.pin = .ok e ↔ (d.spellings ds).getLast? = some e := by
  rw [resolve_eq_ok_iff_chooseAmong, chooseAmong_eq_ok_iff, Definition.best_pin]

/-- What a pin finds is held, has the name and an equal version. -/
theorem exists_resolve_pin {ds : List Definition} {d : Definition}
    (h : d ∈ (ofDefinitions ds).definitions) :
    ∃ e ∈ (ofDefinitions ds).definitions, (ofDefinitions ds).resolve d.pin = .ok e ∧
      e.name = d.name ∧ Version.compare e.version d.version = .eq := by
  obtain ⟨before, after, hds, -⟩ := mem_definitions_iff.mp h
  have hne : d.spellings ds ≠ [] :=
    List.ne_nil_of_mem (Definition.mem_spellings_iff.mpr ⟨by simp [hds], rfl, by simp⟩)
  have hlast := List.getLast?_eq_some_getLast hne
  obtain ⟨-, hname, hequal⟩ := Definition.mem_spellings_iff.mp (List.getLast_mem hne)
  refine ⟨_, ?_, resolve_pin_eq_ok_iff.mpr hlast, hname, hequal⟩
  -- behind the last one with an equal version there is none with the same version
  obtain ⟨front, rest, hsplit, -, hrest⟩ := Version.getLast?_filter_eq_some_iff.mp hlast
  refine mem_definitions_iff.mpr ⟨front, rest, hsplit, fun later hlater hsame hversion => ?_⟩
  have hnot := hrest later hlater
  rw [hsame, hversion, hname, hequal] at hnot
  simp at hnot

/-- A pin finds its own definition if and only if no equal version of the name comes later. -/
theorem resolve_pin_self_iff {ds : List Definition} {d : Definition} :
    (ofDefinitions ds).resolve d.pin = .ok d ↔ ∃ before after, ds = before ++ d :: after ∧
      ∀ later ∈ after, later.name = d.name → Version.compare later.version d.version ≠ .eq := by
  rw [resolve_pin_eq_ok_iff, Definition.spellings, Version.getLast?_filter_eq_some_iff]
  simp

/-- **Reliable pins.** For every list of definitions, the pin of a definition that the catalog holds
    finds a definition that it holds, with the same name and an equal version.  It finds the
    definition itself if and only if no definition of the name with an equal version comes later in
    the list.  All pins do so if and only if the catalog holds no two definitions of one name with
    equal versions, which are then written differently. -/
theorem resolve_pin_iff_last (ds : List Definition) :
    (∀ d ∈ (ofDefinitions ds).definitions,
      (∃ e ∈ (ofDefinitions ds).definitions, (ofDefinitions ds).resolve d.pin = .ok e ∧
        e.name = d.name ∧ Version.compare e.version d.version = .eq) ∧
      ((ofDefinitions ds).resolve d.pin = .ok d ↔ ∃ before after, ds = before ++ d :: after ∧
        ∀ later ∈ after, later.name = d.name →
          Version.compare later.version d.version ≠ .eq)) ∧
      ((∀ d ∈ (ofDefinitions ds).definitions, (ofDefinitions ds).resolve d.pin = .ok d) ↔
        ∀ d ∈ (ofDefinitions ds).definitions, ∀ e ∈ (ofDefinitions ds).definitions,
          d.name = e.name → Version.compare d.version e.version = .eq → d = e) := by
  refine ⟨fun d hd => ⟨exists_resolve_pin hd, resolve_pin_self_iff⟩, ?_, ?_⟩
  · -- equal versions are looked for in the same way, so that only one of them can be found
    intro hfound d hd e he hname hequal
    have hlastD := resolve_pin_eq_ok_iff.mp (hfound d hd)
    have hlastE := resolve_pin_eq_ok_iff.mp (hfound e he)
    rw [Definition.spellings_congr hname hequal, hlastE] at hlastD
    exact (Option.some.inj hlastD).symm
  · intro hone d hd
    obtain ⟨e, he, hresolve, hname, hequal⟩ := exists_resolve_pin hd
    rwa [hone e he d hd hname hequal] at hresolve

/-- A definition whose version may be spelled in several ways. -/
def spelled (version : String) : Definition where
  name := "jq"
  version := version
  digest :=
    { algorithm := "sha384", encoded := "0f1e", algorithm_ne := by decide, encoded_ne := by decide,
      algorithm_chars := by decide, encoded_chars := by decide }
  metadata := .empty

/-- Of two spellings of one version the later one is found by its pin. -/
theorem resolve_pin_later_spelling :
    spelled "1.00" ∈ (ofDefinitions [spelled "1.0", spelled "1.00"]).definitions ∧
      (ofDefinitions [spelled "1.0", spelled "1.00"]).resolve (spelled "1.00").pin
        = .ok (spelled "1.00") := by
  have hheld : spelled "1.00" ∈ (ofDefinitions [spelled "1.0", spelled "1.00"]).definitions := by
    decide +kernel
  have hiff := ((resolve_pin_iff_last [spelled "1.0", spelled "1.00"]).1 _ hheld).2
  exact ⟨hheld, hiff.mpr ⟨[spelled "1.0"], [], rfl, by simp⟩⟩

/-- The earlier one is held too, and its pin finds the later one. -/
theorem pin_misses_definition :
    spelled "1.0" ∈ (ofDefinitions [spelled "1.0", spelled "1.00"]).definitions ∧
      (ofDefinitions [spelled "1.0", spelled "1.00"]).resolve (spelled "1.0").pin
        = .ok (spelled "1.00") ∧
      (ofDefinitions [spelled "1.0", spelled "1.00"]).resolve (spelled "1.0").pin
        ≠ .ok (spelled "1.0") := by
  decide +kernel

end Catalog

end ImageSpec
