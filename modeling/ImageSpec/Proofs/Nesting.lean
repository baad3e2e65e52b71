import ImageSpec.Proofs.Candidates

namespace ImageSpec.Version

/-!
# Nested constraints

Of the constraints that name one version, `=V` is the narrowest, then `V` by itself, then `>=V`, and
no constraint at all is the widest.  The order of versions compares components, and `V` by itself
looks at components too, so the versions that begin with those of `V` stand together in the order.

* `exact_admits_iff`, `leading_admits_iff`, `atLeast_admits_iff` — constraints in terms of components
  and of the order.
* `isLE_of_isPrefix`, `isPrefix_of_between` — a beginning stands first among its continuations, and
  nothing else stands between them.
* `NotLower` — an outcome that is at least as good as another.
* `notLower_of_admits` — a wider constraint gives an outcome that is not lower.
* `constraints_nested` — the four constraints and their outcomes.
-/

/-! ### Beginnings in the order of a dictionary -/

/-- Components are compared one by one, and the first that differs decides. -/
theorem isLE_compareComponents_cons_iff {a b : Component} {as bs : List Component} :
    (compareComponents (a :: as) (b :: bs)).isLE = true ↔
      a.compare b = .lt ∨ a = b ∧ (compareComponents as bs).isLE = true := by
  rw [compareComponents]
  cases h : a.compare b with
  | lt => simp
  | eq => simp [Component.eq_of_compare h]
  | gt =>
    have hne : a ≠ b := by
      rintro rfl
      simp at h
    simp [hne]

/-- A beginning does not stand behind what it begins. -/
theorem isLE_of_isPrefix {as bs : List Component} (h : as <+: bs) :
    (compareComponents as bs).isLE = true := by
  induction as generalizing bs with
  | nil => cases bs <;> rfl
  | cons a as ih =>
    obtain ⟨rest, rfl⟩ := h
    exact isLE_compareComponents_cons_iff.mpr (.inr ⟨rfl, ih (List.prefix_append as rest)⟩)

/-- **Beginnings are convex.** What stands between two continuations of `front` continues it too. -/
theorem isPrefix_of_between {front as bs cs : List Component} (has : front <+: as)
    (hcs : front <+: cs) (hab : (compareComponents as bs).isLE = true)
    (hbc : (compareComponents bs cs).isLE = true) : front <+: bs := by
  induction front generalizing as bs cs with
  | nil => exact List.nil_prefix
  | cons a front ih =>
    obtain ⟨restA, rfl⟩ := has
    obtain ⟨restC, rfl⟩ := hcs
    cases bs with
    | nil => cases hab
    | cons b bs =>
      -- the first component is not before and not behind `a`, and then the rest is between the rests
      rcases isLE_compareComponents_cons_iff.mp hab with hlt | ⟨rfl, hrestA⟩
      · rcases isLE_compareComponents_cons_iff.mp hbc with hgt | ⟨rfl, -⟩
        · have hswap : b.compare a = .gt := Std.OrientedCmp.gt_of_lt hlt
          rw [hgt] at hswap
          cases hswap
        · simp at hlt
      · rcases isLE_compareComponents_cons_iff.mp hbc with hgt | ⟨-, hrestC⟩
        · simp at hgt
        · obtain ⟨rest, rfl⟩ := ih (List.prefix_append front restA) (List.prefix_append front restC)
            hrestA hrestC
          exact ⟨rest, rfl⟩

/-! ### What constraints admit -/

/-- An exact constraint admits the versions with the same components. -/
theorem exact_admits_iff {v w : String} :
    (Constraint.exact v).admits w = true ↔ components w = components v := by
  rw [← compare_eq_eq_iff]
  exact beq_iff_eq

/-- A leading constraint admits the versions whose components start with its own. -/
theorem leading_admits_iff {v w : String} :
    (Constraint.leading v).admits w = true ↔ components v <+: components w :=
  List.isPrefixOf_iff_prefix

/-- A lower bound admits the versions from it on. -/
theorem atLeast_admits_iff {v w : String} :
    (Constraint.atLeast v).admits w = true ↔ (compare v w).isLE = true := by
  show (compare w v != .lt) = true ↔ (compare v w).isLE = true
  have hswap : compare v w = (compare w v).swap := Std.OrientedCmp.eq_swap
  rw [hswap]
  cases compare w v <;> decide

/-- What starts with neither of these characters is no word for all versions. -/
theorem not_any_of_head? {c : String} {first : Char} (h : c.toList.head? = some first)
    (hstar : first ≠ '*') (hlatest : first ≠ 'l') : ¬ (c = "*" ∨ c = "latest") := by
  rintro (rfl | rfl)
  · exact hstar (Option.some.inj h).symm
  · exact hlatest (Option.some.inj h).symm

/-- A sign of equality makes an exact constraint. -/
theorem parse_equals (v : String) : Constraint.parse (some ("=" ++ v)) = .exact v := by
  have hlist : ("=" ++ v).toList = '=' :: v.toList := by simp
  have hany := not_any_of_head? (by rw [hlist]; rfl) (by decide) (by decide)
  simp [Constraint.parse, if_neg hany, hlist]

/-- A `>=` makes a lower bound. -/
theorem parse_atLeast (v : String) : Constraint.parse (some (">=" ++ v)) = .atLeast v := by
  have hlist : (">=" ++ v).toList = '>' :: '=' :: v.toList := by simp
  have hany := not_any_of_head? (by rw [hlist]; rfl) (by decide) (by decide)
  simp [Constraint.parse, if_neg hany, hlist]

/-! ### Wider constraints -/

section

variable {α : Type}

/-- The second outcome is not lower than the first: where the first picks a candidate the second
    picks one too, and its version is not before that of the first. -/
def NotLower (versionOf : α → String) (first second : Except LookupError α) : Prop :=
  ∀ a, first = .ok a → ∃ b, second = .ok b ∧ (compare (versionOf a) (versionOf b)).isLE = true

/-- What admits more picks as high a version or a higher one. -/
theorem notLower_of_admits {narrow wide : Option String}
    (h : ∀ w, (Constraint.parse narrow).admits w = true → (Constraint.parse wide).admits w = true)
    (name : String) (xs : List α) (versionOf : α → String) :
    NotLower versionOf (select name narrow xs versionOf) (select name wide xs versionOf) := by
  intro a ha
  have hpicks := select_eq_ok_iff_picks.mp ha
  have hwide := h _ hpicks.admitted
  obtain ⟨b, hb⟩ : ∃ b, select name wide xs versionOf = .ok b :=
    exists_select_eq_ok_iff.mpr ⟨a, hpicks.mem, hwide⟩
  exact ⟨b, hb, (select_eq_ok_iff_picks.mp hb).highest a hpicks.mem hwide⟩

/-- What is the same starts with the same. -/
theorem leading_admits_of_exact {v w : String} (h : (Constraint.exact v).admits w = true) :
    (Constraint.leading v).admits w = true := by
  have hequal : components w = components v := exact_admits_iff.mp h
  exact leading_admits_iff.mpr (hequal ▸ List.prefix_rfl)

/-- What starts with a version comes not before it. -/
theorem atLeast_admits_of_leading {v w : String} (h : (Constraint.leading v).admits w = true) :
    (Constraint.atLeast v).admits w = true :=
  atLeast_admits_iff.mpr (isLE_of_isPrefix (leading_admits_iff.mp h))

/-- **Constraints nest.** Whatever `v` is, a version that `=v` admits is admitted by the leading
    components of `v`, and one that these admit is admitted by `>=v`; the versions with the leading
    components of `v` are an interval of the order.  If `v` by itself is read as leading components,
    then in the order `=v`, `v`, `>=v`, no constraint, every outcome of a choice among the same
    candidates is not lower than the one before. -/
theorem constraints_nested (v : String) :
    (∀ w, (Constraint.exact v).admits w = true → (Constraint.leading v).admits w = true) ∧
      (∀ w, (Constraint.leading v).admits w = true → (Constraint.atLeast v).admits w = true) ∧
      (∀ low w high, (Constraint.leading v).admits low = true →
        (Constraint.leading v).admits high = true → (compare low w).isLE = true →
        (compare w high).isLE = true → (Constraint.leading v).admits w = true) ∧
      (Constraint.parse (some v) = .leading v →
        ∀ (name : String) (xs : List α) (versionOf : α → String),
          NotLower versionOf (select name (some ("=" ++ v)) xs versionOf)
              (select name (some v) xs versionOf) ∧
            NotLower versionOf (select name (some v) xs versionOf)
              (select name (some (">=" ++ v)) xs versionOf) ∧
            NotLower versionOf (select name (some (">=" ++ v)) xs versionOf)
              (select name none xs versionOf)) := by
  refine ⟨fun _ => leading_admits_of_exact, fun _ => atLeast_admits_of_leading, ?_, ?_⟩
  · intro low w high hlow hhigh hle hge
    rw [leading_admits_iff] at hlow hhigh ⊢
    exact isPrefix_of_between hlow hhigh hle hge
  · intro hparse name xs versionOf
    -- each constraint admits what the one before it admits
    refine ⟨notLower_of_admits (fun w hw => ?_) name xs versionOf,
      notLower_of_admits (fun w hw => ?_) name xs versionOf,
      notLower_of_admits (fun w _ => rfl) name xs versionOf⟩
    · rw [parse_equals] at hw
      rw [hparse]
      exact leading_admits_of_exact hw
    · rw [hparse] at hw
      rw [parse_atLeast]
      exact atLeast_admits_of_leading hw

/-- Among these versions `=1.0` admits three spellings of one version, and `1.0` one more. -/
theorem selected_above_exact :
    let versions := ["1.0", "1.00", "1.0.5", "+1.0", "1.05"]
    (Constraint.parse (some "1.0") = .leading "1.0" ∧
        select "tool" (some ("=" ++ "1.0")) versions id = .ok "+1.0") ∧
      ∃ b, select "tool" (some "1.0") versions id = .ok b ∧ (compare "+1.0" b).isLE = true := by
  intro versions
  have hparse : Constraint.parse (some "1.0") = .leading "1.0" := by decide +kernel
  have hexact : select "tool" (some ("=" ++ "1.0")) versions id = .ok "+1.0" := by decide +kernel
  have hnested := (constraints_nested "1.0").2.2.2 hparse "tool" versions id
  exact ⟨⟨hparse, hexact⟩, hnested.1 "+1.0" hexact⟩

end

end ImageSpec.Version
