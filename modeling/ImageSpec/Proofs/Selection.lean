import ImageSpec.Catalog
import ImageSpec.Proofs.VersionOrder
import Mathlib.Data.List.Induction

namespace ImageSpec

/-!
# Choosing a definition

A catalog keeps each version of a name once and moves it to the end when it comes again; a server's
answer may hold a version several times.  Both choose by one rule: among the definitions that fit a
reference, the last one that none exceeds.

* `Version.highest?_eq_getLast?_filter` — the highest candidate, said without a walk over the list.
* `Catalog.latest` — a list with each version once, where it came last;
  `Catalog.named_ofDefinitions` says that these are the groups of a catalog.
* `Catalog.highest?_latest` — an earlier definition of a version that comes again is never the
  highest.
* `Reference.best` — the definitions that fit a reference and that no other one exceeds.
* `Catalog.resolve_eq_ok_iff_chooseAmong` — a catalog and a server's answer agree on references.
-/

/-! ### The last highest element -/

namespace Version

variable {α : Type} {versionOf : α → String}

/-- `a` is the last of the highest elements: none before it is higher, all behind it are lower. -/
def LastHighest (versionOf : α → String) (xs : List α) (a : α) : Prop :=
  ∃ before after, xs = before ++ a :: after ∧
    (∀ c ∈ before, (compare (versionOf c) (versionOf a)).isLE = true) ∧
    ∀ c ∈ after, compare (versionOf c) (versionOf a) = .lt

/-- The last of the highest is one of them. -/
theorem LastHighest.mem {xs : List α} {a : α} (h : LastHighest versionOf xs a) : a ∈ xs := by
  obtain ⟨before, after, rfl, -⟩ := h
  simp

/-- No element exceeds the last highest one. -/
theorem LastHighest.isLE {xs : List α} {a c : α} (h : LastHighest versionOf xs a) (hc : c ∈ xs) :
    (compare (versionOf c) (versionOf a)).isLE = true := by
  obtain ⟨before, after, rfl, hbefore, hafter⟩ := h
  rcases List.mem_append.mp hc with hc | hc
  · exact hbefore c hc
  · rcases List.mem_cons.mp hc with rfl | hc
    · rw [compare_self]
      rfl
    · rw [hafter c hc]
      rfl

/-- One more candidate is the highest, unless the highest of the others exceeds it. -/
theorem highest?_concat (xs : List α) (c : α) :
    highest? versionOf (xs ++ [c]) = some (match highest? versionOf xs with
      | none => c
      | some best => if compare (versionOf best) (versionOf c) == .gt then best else c) := by
  cases xs with
  | nil => rfl
  | cons a rest =>
    rw [List.cons_append, highest?, highest?, List.foldl_append]
    rfl

/-- The search finds the last of the highest. -/
theorem lastHighest_of_highest? {xs : List α} {a : α} (h : highest? versionOf xs = some a) :
    LastHighest versionOf xs a := by
  induction xs using List.reverseRecOn generalizing a with
  | nil => cases h
  | append_singleton xs c ih =>
    rw [highest?_concat, Option.some.injEq] at h
    cases hxs : highest? versionOf xs with
    | none =>
      rw [hxs] at h
      subst h
      have hnil : xs = [] := by
        cases xs with
        | nil => rfl
        | cons a rest => cases hxs
      exact ⟨[], [], by rw [hnil], by simp, by simp⟩
    | some best =>
      rw [hxs] at h
      by_cases hgt : compare (versionOf best) (versionOf c) = .gt
      · -- the new candidate is lower, and stands behind
        dsimp only at h
        rw [if_pos (beq_iff_eq.mpr hgt)] at h
        subst h
        obtain ⟨before, after, rfl, hbefore, hafter⟩ := ih hxs
        refine ⟨before, after ++ [c], by simp, hbefore, ?_⟩
        refine List.forall_mem_append.mpr ⟨hafter, List.forall_mem_singleton.mpr ?_⟩
        exact Std.OrientedCmp.gt_iff_lt.mp hgt
      · -- the new candidate is as high as all the others
        have hle : (compare (versionOf best) (versionOf c)).isLE = true :=
          Ordering.isLE_iff_ne_gt.mpr hgt
        dsimp only at h
        rw [if_neg (mt beq_iff_eq.mp hgt)] at h
        subst h
        refine ⟨xs, [], rfl, fun d hd => ?_, by simp⟩
        exact Std.TransCmp.isLE_trans ((ih hxs).isLE hd) hle

/-- The last of the highest is what the search finds. -/
theorem LastHighest.highest?_eq {xs : List α} {a : α} (h : LastHighest versionOf xs a) :
    highest? versionOf xs = some a := by
  obtain ⟨before, after, rfl, hbefore, hafter⟩ := h
  induction after using List.reverseRecOn with
  | nil =>
    rw [highest?_concat]
    cases hxs : highest? versionOf before with
    | none => rfl
    | some best =>
      have hle := hbefore best (lastHighest_of_highest? hxs).mem
      dsimp only
      rw [if_neg (mt beq_iff_eq.mp (Ordering.isLE_iff_ne_gt.mp hle))]
  | append_singleton after c ih =>
    obtain ⟨hafter, hc⟩ := List.forall_mem_append.mp hafter
    have hgt : compare (versionOf a) (versionOf c) = .gt :=
      Std.OrientedCmp.gt_of_lt (hc c (List.mem_singleton_self c))
    rw [← List.cons_append, ← List.append_assoc, highest?_concat, ih hafter]
    dsimp only
    rw [if_pos (beq_iff_eq.mpr hgt)]

/-- **Highest candidates.** The highest candidate is the last of the highest ones. -/
theorem highest?_eq_some_iff {xs : List α} {a : α} :
    highest? versionOf xs = some a ↔ LastHighest versionOf xs a :=
  ⟨lastHighest_of_highest?, LastHighest.highest?_eq⟩

/-- The search finds nothing where there is nothing. -/
theorem highest?_eq_none_iff {xs : List α} : highest? versionOf xs = none ↔ xs = [] := by
  cases xs <;> simp [highest?]

/-- What stands among the elements with a property stands in the list, and behind it there are the
    same elements with the property. -/
theorem exists_of_filter_eq_append_cons {p : α → Bool} {xs before after : List α} {a : α}
    (h : xs.filter p = before ++ a :: after) :
    ∃ front rest, xs = front ++ a :: rest ∧ p a = true ∧ rest.filter p = after := by
  obtain ⟨front, back, rfl, -, hback⟩ := List.filter_eq_append_iff.mp h
  obtain ⟨skipped, rest, rfl, -, ha, hrest⟩ := List.filter_eq_cons_iff.mp hback
  exact ⟨front ++ skipped, rest, by simp, ha, hrest⟩

/-- The last element with a property. -/
theorem getLast?_filter_eq_some_iff {p : α → Bool} {xs : List α} {a : α} :
    (xs.filter p).getLast? = some a ↔
      ∃ before after, xs = before ++ a :: after ∧ p a = true ∧ ∀ c ∈ after, p c = false := by
  rw [List.getLast?_eq_some_iff]
  constructor
  · rintro ⟨ys, hys⟩
    obtain ⟨before, after, rfl, ha, hafter⟩ := exists_of_filter_eq_append_cons hys
    refine ⟨before, after, rfl, ha, fun c hc => ?_⟩
    simpa using List.filter_eq_nil_iff.mp hafter c hc
  · rintro ⟨before, after, rfl, ha, hafter⟩
    have hnil : after.filter p = [] := List.filter_eq_nil_iff.mpr fun c hc => by simp [hafter c hc]
    exact ⟨before.filter p, by rw [List.filter_append, List.filter_cons_of_pos ha, hnil]⟩

/-- The highest candidate is the last of those that no candidate exceeds. -/
theorem highest?_eq_getLast?_filter (xs : List α) :
    highest? versionOf xs = (xs.filter fun a =>
      xs.all fun c => compare (versionOf c) (versionOf a) != .gt).getLast? := by
  apply Option.ext
  intro a
  rw [highest?_eq_some_iff, getLast?_filter_eq_some_iff]
  constructor
  · intro h
    obtain ⟨before, after, hxs, -, hafter⟩ := id h
    refine ⟨before, after, hxs, ?_, fun c hc => ?_⟩
    · rw [List.all_eq_true]
      intro c hc
      simpa using Ordering.isLE_iff_ne_gt.mp (h.isLE hc)
    · -- the highest one exceeds all that stand behind it
      rw [List.all_eq_false]
      refine ⟨a, h.mem, ?_⟩
      simpa using Std.OrientedCmp.gt_of_lt (hafter c hc)
  · rintro ⟨before, after, hxs, hall, hafter⟩
    have hle : ∀ c ∈ xs, (compare (versionOf c) (versionOf a)).isLE = true := by
      intro c hc
      have hne := List.all_eq_true.mp hall c hc
      exact Ordering.isLE_iff_ne_gt.mpr (by simpa using hne)
    refine ⟨before, after, hxs, fun c hc => hle c (by simp [hxs, hc]), fun c hc => ?_⟩
    -- whatever exceeds `c` does not exceed `a`, so that `c` is below `a`
    obtain ⟨d, hd, hgt⟩ := List.all_eq_false.mp (hafter c hc)
    have hlt : compare (versionOf c) (versionOf d) = .lt :=
      Std.OrientedCmp.gt_iff_lt.mp (by simpa using hgt)
    exact Std.TransCmp.lt_of_lt_of_isLE hlt (hle d hd)

/-! ### Outcomes of a selection -/

variable {name : String} {constraint : Option String}

/-- A selection succeeds with the highest version that is admitted. -/
theorem select_eq_ok_iff {xs : List α} {a : α} :
    select name constraint xs versionOf = .ok a ↔ highest? versionOf (xs.filter fun c =>
      (Constraint.parse constraint).admits (versionOf c)) = some a := by
  unfold select
  cases xs with
  | nil => simp [highest?]
  | cons x xs =>
    rw [List.isEmpty_cons, if_neg Bool.false_ne_true]
    split
    · next best hbest => rw [hbest, Except.ok.injEq, Option.some.injEq]
    · next hnone => simp [hnone]

/-- Where there are candidates, the only failure is that none is admitted. -/
theorem eq_noMatch_of_select {xs : List α} {e : LookupError} (hxs : xs ≠ [])
    (h : select name constraint xs versionOf = .error e) :
    e = .noMatch name (constraint.getD "*") (sort (xs.map versionOf)) := by
  unfold select at h
  rw [if_neg (by simpa using hxs)] at h
  split at h
  · cases h
  · exact (Except.error.inj h).symm

end Version

/-! ### Groups of a catalog -/

namespace Catalog

/-- The definitions of a list, each version once: where it comes last. -/
def latest : List Definition → List Definition
  | [] => []
  | d :: rest =>
    if rest.any fun later => later.version == d.version then latest rest else d :: latest rest

/-- The latest definitions stay in order. -/
theorem latest_sublist (ds : List Definition) : (latest ds).Sublist ds := by
  induction ds with
  | nil => exact .slnil
  | cons d rest ih =>
    rw [latest]
    split
    · exact ih.cons d
    · exact ih.cons_cons d

theorem latest_eq_nil_iff {ds : List Definition} : latest ds = [] ↔ ds = [] := by
  induction ds with
  | nil => simp [latest]
  | cons d rest ih =>
    rw [latest]
    split
    · next hany =>
      have hne : rest ≠ [] := by
        rintro rfl
        cases hany
      simp [ih, hne]
    · simp

/-- One more definition takes the place of the one with its version. -/
theorem latest_concat (ds : List Definition) (d : Definition) :
    latest (ds ++ [d]) = (latest ds).filter (fun other => other.version != d.version) ++ [d] := by
  induction ds with
  | nil => rfl
  | cons c rest ih =>
    rw [List.cons_append, latest, latest, List.any_append, ih]
    by_cases hrest : (rest.any fun later => later.version == c.version) = true
    · simp [hrest]
    · by_cases hd : d.version = c.version
      · simp [hrest, hd]
      · have hne : c.version ≠ d.version := fun h => hd h.symm
        simp [hrest, hd, hne]

/-- A definition stays if its version does not come again. -/
theorem exists_latest_append_cons {d : Definition} (before : List Definition)
    {after : List Definition} (h : ∀ later ∈ after, later.version ≠ d.version) :
    ∃ kept, kept ⊆ before ∧ latest (before ++ d :: after) = kept ++ d :: latest after := by
  induction before with
  | nil =>
    have hany : ¬ (after.any fun later => later.version == d.version) = true := by simpa using h
    exact ⟨[], by simp, by rw [List.nil_append, latest, if_neg hany, List.nil_append]⟩
  | cons c before ih =>
    obtain ⟨kept, hkept, heq⟩ := ih
    rw [List.cons_append, latest, heq]
    split
    · exact ⟨kept, fun x hx => List.mem_cons_of_mem _ (hkept hx), rfl⟩
    · exact ⟨c :: kept, List.cons_subset_cons c hkept, rfl⟩

/-- A definition whose version comes again might as well not be there. -/
theorem latest_append_cons_of_later {d : Definition} (before : List Definition)
    {after : List Definition} (h : ∃ later ∈ after, later.version = d.version) :
    latest (before ++ d :: after) = latest (before ++ after) := by
  obtain ⟨later, hlater, hversion⟩ := h
  induction before with
  | nil =>
    have hany : (after.any fun later => later.version == d.version) = true :=
      List.any_eq_true.mpr ⟨later, hlater, by simpa using hversion⟩
    rw [List.nil_append, latest, if_pos hany, List.nil_append]
  | cons c before ih =>
    have hany : ((before ++ d :: after).any fun x => x.version == c.version)
        = (before ++ after).any fun x => x.version == c.version := by
      rw [List.any_append, List.any_append, List.any_cons]
      by_cases hd : d.version = c.version
      · have hafter : (after.any fun x => x.version == c.version) = true :=
          List.any_eq_true.mpr ⟨later, hlater, by simp [hversion, hd]⟩
        rw [hafter, Bool.or_true]
      · have hbeq : (d.version == c.version) = false := by simpa using hd
        rw [hbeq, Bool.false_or]
    rw [List.cons_append, List.cons_append, latest, latest, hany, ih]

/-- What a constraint admits can be picked before or after earlier definitions are dropped. -/
theorem filter_latest (p : String → Bool) (ds : List Definition) :
    (latest ds).filter (fun d => p d.version) = latest (ds.filter fun d => p d.version) := by
  induction ds with
  | nil => rfl
  | cons d rest ih =>
    rw [latest]
    by_cases hp : p d.version = true
    · -- a later definition of an admitted version is admitted as well
      have hany : ((rest.filter fun d => p d.version).any fun later => later.version == d.version)
          = rest.any fun later => later.version == d.version := by
        rw [List.any_filter]
        congr 1
        funext later
        by_cases hlater : later.version = d.version
        · simp [hlater, hp]
        · simp [hlater]
      have hkeep : ∀ ds : List Definition, (d :: ds).filter (fun d => p d.version)
          = d :: ds.filter fun d => p d.version := fun _ => List.filter_cons_of_pos hp
      rw [hkeep, latest, hany]
      split
      · exact ih
      · rw [hkeep, ih]
    · have hdrop : ∀ ds : List Definition, (d :: ds).filter (fun d => p d.version)
          = ds.filter fun d => p d.version := fun _ => List.filter_cons_of_neg hp
      rw [hdrop]
      split
      · exact ih
      · rw [hdrop, ih]

/-- **Earlier definitions never win.** The highest definition is the same with or without the
    definitions of versions that come again. -/
theorem highest?_latest (ds : List Definition) :
    Version.highest? Definition.version (latest ds) = Version.highest? Definition.version ds := by
  cases h : Version.highest? Definition.version ds with
  | none => rw [Version.highest?_eq_none_iff, latest_eq_nil_iff, ← Version.highest?_eq_none_iff, h]
  | some d =>
    obtain ⟨before, after, rfl, hbefore, hafter⟩ := Version.highest?_eq_some_iff.mp h
    -- the versions behind the highest are lower, so that none of them is its own
    have hne : ∀ later ∈ after, later.version ≠ d.version := by
      intro later hlater heq
      have hlt := hafter later hlater
      rw [heq, Version.compare_self] at hlt
      cases hlt
    obtain ⟨kept, hkept, heq⟩ := exists_latest_append_cons before hne
    rw [heq, Version.highest?_eq_some_iff]
    refine ⟨kept, latest after, rfl, fun c hc => hbefore c (hkept hc), fun c hc => ?_⟩
    exact hafter c ((latest_sublist after).subset hc)

/-- An insertion changes the group of its name, where it comes last. -/
theorem get?_groups_insert (c : Catalog) (d : Definition) (name : String) :
    (c.insert d).groups.get? name = if name = d.name then
      some ((c.named d.name).filter (fun other => other.version != d.version) ++ [d])
    else c.groups.get? name :=
  KeyMap.get?_insert _ _ _ _

/-- **Groups.** The group of a name is there if a definition has the name, and holds the definitions
    with the name, each version once. -/
theorem get?_groups_ofDefinitions (ds : List Definition) (name : String) :
    (ofDefinitions ds).groups.get? name = if (ds.filter (·.name == name)) = [] then none
      else some (latest (ds.filter (·.name == name))) := by
  induction ds using List.reverseRecOn with
  | nil => rfl
  | append_singleton ds d ih =>
    have hfold : ofDefinitions (ds ++ [d]) = (ofDefinitions ds).insert d := by
      rw [ofDefinitions, List.foldl_append]
      rfl
    rw [hfold, get?_groups_insert, List.filter_append]
    by_cases hname : name = d.name
    · subst hname
      have hnamed : (ofDefinitions ds).named d.name = latest (ds.filter (·.name == d.name)) := by
        rw [named, ih]
        split
        · next hnil => rw [hnil]; rfl
        · rfl
      have hone : [d].filter (·.name == d.name) = [d] := by simp
      rw [if_pos rfl, hnamed, hone, if_neg (by simp), latest_concat]
    · have hnone : [d].filter (·.name == name) = [] := by
        have hne : d.name ≠ name := fun h => hname h.symm
        simp [hne]
      rw [if_neg hname, ih, hnone, List.append_nil]

/-- A catalog holds the latest definitions of a name. -/
theorem named_ofDefinitions (ds : List Definition) (name : String) :
    (ofDefinitions ds).named name = latest (ds.filter (·.name == name)) := by
  rw [named, get?_groups_ofDefinitions]
  split
  · next hnil => rw [hnil]; rfl
  · rfl

/-- A definition whose name and version come again leaves no trace in a catalog. -/
theorem ofDefinitions_append_cons_of_later {d : Definition} (before : List Definition)
    {after : List Definition}
    (h : ∃ later ∈ after, later.name = d.name ∧ later.version = d.version) :
    ofDefinitions (before ++ d :: after) = ofDefinitions (before ++ after) := by
  obtain ⟨later, hlater, hname, hversion⟩ := h
  have hgroups : (ofDefinitions (before ++ d :: after)).groups
      = (ofDefinitions (before ++ after)).groups := by
    apply KeyMap.ext_get?
    intro name
    rw [get?_groups_ofDefinitions, get?_groups_ofDefinitions, List.filter_append,
      List.filter_append]
    by_cases hd : d.name = name
    · have hmem : later ∈ after.filter (·.name == name) :=
        List.mem_filter.mpr ⟨hlater, by simp [hname, hd]⟩
      have hne : before.filter (·.name == name) ++ after.filter (·.name == name) ≠ [] :=
        List.append_ne_nil_of_right_ne_nil _ (List.ne_nil_of_mem hmem)
      rw [List.filter_cons_of_pos (by simpa using hd), if_neg (by simp), if_neg hne,
        latest_append_cons_of_later _ ⟨later, hmem, hversion⟩]
    · rw [List.filter_cons_of_neg (by simpa using hd)]
  exact congrArg Catalog.mk hgroups

end Catalog

/-! ### Catalogs and servers -/

/-- The definitions that fit a reference: they have its name and a version that it admits. -/
def Reference.candidates (r : Reference) (ds : List Definition) : List Definition :=
  ds.filter fun d => d.name == r.name && (Version.Constraint.parse r.constraint).admits d.version

/-- The definitions that fit a reference and whose version no other fitting one exceeds. -/
def Reference.best (r : Reference) (ds : List Definition) : List Definition :=
  (r.candidates ds).filter fun d =>
    (r.candidates ds).all fun other => Version.compare other.version d.version != .gt

/-- Definitions with the name that was asked for are chosen from by version alone. -/
theorem chooseAmong_filter (r : Reference) (ds : List Definition) :
    chooseAmong r (ds.filter (·.name == r.name))
      = Version.select r.name r.constraint (ds.filter (·.name == r.name)) Definition.version := by
  have hstray : (ds.filter (·.name == r.name)).find? (fun d => d.name != r.name) = none := by
    rw [List.find?_eq_none]
    intro d hd
    have hname := (List.mem_filter.mp hd).2
    simpa using hname
  rw [chooseAmong, hstray]

/-- The choice among the definitions of a name is the last of the best. -/
theorem chooseAmong_eq_ok_iff {r : Reference} {ds : List Definition} {d : Definition} :
    chooseAmong r (ds.filter (·.name == r.name)) = .ok d ↔ (r.best ds).getLast? = some d := by
  have hcandidates : (ds.filter (·.name == r.name)).filter
        (fun d => (Version.Constraint.parse r.constraint).admits d.version)
      = r.candidates ds := by
    rw [List.filter_filter, Reference.candidates]
    congr 1
    funext d
    rw [Bool.and_comm]
  rw [chooseAmong_filter, Version.select_eq_ok_iff, hcandidates,
    Version.highest?_eq_getLast?_filter, Reference.best]

namespace Catalog

/-- A catalog selects among the latest definitions of a name. -/
theorem resolve_ofDefinitions (ds : List Definition) (r : Reference) :
    (ofDefinitions ds).resolve r = Version.select r.name r.constraint
      (latest (ds.filter (·.name == r.name))) Definition.version := by
  rw [resolve, named_ofDefinitions]

/-- A catalog finds what would be chosen among all definitions with the name. -/
theorem resolve_eq_ok_iff_chooseAmong {ds : List Definition} {r : Reference} {d : Definition} :
    (ofDefinitions ds).resolve r = .ok d ↔
      chooseAmong r (ds.filter (·.name == r.name)) = .ok d := by
  rw [resolve_ofDefinitions, chooseAmong_filter, Version.select_eq_ok_iff,
    Version.select_eq_ok_iff, filter_latest, highest?_latest]

/-- **Catalogs and servers agree.** For every list of definitions, a catalog of them finds a
    definition for a reference exactly when it is chosen among those with the name, and exactly when
    it is the last of the fitting definitions that no fitting one exceeds.  Where both fail, the
    name is unknown if no definition has it, and else no version matches.  A definition whose name
    and version come again leaves no trace. -/
theorem resolve_iff_chooseAmong_iff_last_best (ds : List Definition) (r : Reference) :
    (∀ d, (ofDefinitions ds).resolve r = .ok d ↔
        chooseAmong r (ds.filter (·.name == r.name)) = .ok d) ∧
      (∀ d, chooseAmong r (ds.filter (·.name == r.name)) = .ok d ↔
        (r.best ds).getLast? = some d) ∧
      ((∀ d ∈ ds, d.name ≠ r.name) →
        (ofDefinitions ds).resolve r = .error (.unknownName r.name) ∧
          chooseAmong r (ds.filter (·.name == r.name)) = .error (.unknownName r.name)) ∧
      ((∃ d ∈ ds, d.name = r.name) → ∀ e, (ofDefinitions ds).resolve r = .error e ∨
          chooseAmong r (ds.filter (·.name == r.name)) = .error e →
        ∃ available, e = .noMatch r.name (r.constraint.getD "*") available) ∧
      ∀ before d after, ds = before ++ d :: after →
        (∃ later ∈ after, later.name = d.name ∧ later.version = d.version) →
        ofDefinitions ds = ofDefinitions (before ++ after) := by
  refine ⟨fun d => resolve_eq_ok_iff_chooseAmong, fun d => chooseAmong_eq_ok_iff, ?_, ?_, ?_⟩
  · intro hnone
    have hnil : ds.filter (·.name == r.name) = [] :=
      List.filter_eq_nil_iff.mpr fun d hd => by simpa using hnone d hd
    rw [resolve_ofDefinitions, chooseAmong_filter, hnil]
    exact ⟨rfl, rfl⟩
  · rintro ⟨d, hd, hname⟩ e he
    have hne : ds.filter (·.name == r.name) ≠ [] :=
      List.ne_nil_of_mem (List.mem_filter.mpr ⟨hd, by simpa using hname⟩)
    rw [resolve_ofDefinitions, chooseAmong_filter] at he
    rcases he with he | he
    · exact ⟨_, Version.eq_noMatch_of_select (mt latest_eq_nil_iff.mp hne) he⟩
    · exact ⟨_, Version.eq_noMatch_of_select hne he⟩
  · rintro before d after rfl hlater
    exact ofDefinitions_append_cons_of_later before hlater

end Catalog

end ImageSpec
