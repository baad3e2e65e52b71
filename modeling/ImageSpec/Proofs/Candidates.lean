import ImageSpec.Proofs.Selection
import Mathlib.Data.List.Pairwise

namespace ImageSpec.Version

/-!
# Choosing among candidates

A choice has three outcomes.  Without candidates the name is unknown; where no candidate is admitted
the failure lists all versions, sorted; else a candidate is picked.  Versions that are written
differently may be equal in the order, and then the place in the list decides: the last one is
picked, and the sorted list keeps equal versions in the order in which they came.

* `IsStableSort` — what a stable sort is, and `isStableSort_iff_eq_sort`: there is exactly one.
* `Picks` — the admitted candidate that no admitted one exceeds, and that no equal one follows.
* `select_eq_ok_iff_picks`, `select_eq_unknownName_iff`, `select_eq_noMatch_iff` — the outcomes.
* `select_eq_of_perm` — where no two versions are equal, the order of the candidates is irrelevant.
-/

/-! ### Sorted versions -/

/-- `sorted` is the stable sort of `versions`: the same versions in ascending order, where those that
    are equal in the order of versions stand as they did before. -/
structure IsStableSort (versions sorted : List String) : Prop where
  perm : sorted.Perm versions
  ascending : sorted.Pairwise fun a b => (compare a b).isLE = true
  stable : ∀ v, sorted.filter (fun w => compare w v == .eq)
    = versions.filter fun w => compare w v == .eq

/-- Versions are sorted by merging. -/
theorem sort_eq_mergeSort (versions : List String) :
    sort versions = versions.mergeSort fun a b => (compare a b).isLE := by
  have hle : (fun a b => compare a b != .gt) = fun a b => (compare a b).isLE := by
    funext a b
    cases compare a b <;> rfl
  rw [sort, hle]

/-- Of two versions, one is at most the other. -/
theorem isLE_or_isLE (a b : String) : ((compare a b).isLE || (compare b a).isLE) = true := by
  have hswap : compare b a = (compare a b).swap := Std.OrientedCmp.eq_swap
  rw [hswap]
  cases compare a b <;> rfl

/-- Being different does not depend on the order of the two. -/
theorem compare_ne_eq_symm {a b : String} (h : compare a b ≠ .eq) : compare b a ≠ .eq :=
  fun heq => h (Std.OrientedCmp.eq_symm heq)

/-- Sorting is stable. -/
theorem isStableSort_sort (versions : List String) : IsStableSort versions (sort versions) := by
  rw [sort_eq_mergeSort]
  have htrans : ∀ a b c : String, (compare a b).isLE = true → (compare b c).isLE = true →
      (compare a c).isLE = true := fun _ _ _ => Std.TransCmp.isLE_trans
  refine ⟨List.mergeSort_perm _ _, List.pairwise_mergeSort htrans isLE_or_isLE _, fun v => ?_⟩
  -- The versions equal to `v` are in order as they come, so that sorting keeps them as a sublist;
  -- there are as many of them afterwards.
  have hequal : (versions.filter fun w => compare w v == .eq).Pairwise
      fun a b => (compare a b).isLE = true := by
    refine List.pairwise_of_forall_mem_list fun a ha b hb => ?_
    have hav : compare a v = .eq := by simpa using (List.mem_filter.mp ha).2
    have hbv : compare b v = .eq := by simpa using (List.mem_filter.mp hb).2
    rw [Std.TransCmp.eq_trans hav (Std.OrientedCmp.eq_symm hbv)]
    rfl
  have hsub := (List.sublist_mergeSort htrans isLE_or_isLE hequal List.filter_sublist).filter
    fun w => compare w v == .eq
  rw [List.filter_filter] at hsub
  simp only [Bool.and_self] at hsub
  have hlength := ((List.mergeSort_perm versions fun a b => (compare a b).isLE).filter
    fun w => compare w v == .eq).length_eq
  exact (hsub.eq_of_length hlength.symm).symm

/-- A version is among those that are equal to it. -/
theorem mem_filter_equal_iff {v : String} {vs : List String} :
    v ∈ vs.filter (fun w => compare w v == .eq) ↔ v ∈ vs := by
  simp

/-- Lists in ascending order are equal if they have the same versions in each place of the order. -/
theorem eq_of_ascending {vs ws : List String}
    (hvs : vs.Pairwise fun a b => (compare a b).isLE = true)
    (hws : ws.Pairwise fun a b => (compare a b).isLE = true)
    (h : ∀ v, vs.filter (fun w => compare w v == .eq) = ws.filter fun w => compare w v == .eq) :
    vs = ws := by
  induction vs generalizing ws with
  | nil =>
    refine (List.eq_nil_iff_forall_not_mem.mpr fun v hv => ?_).symm
    rw [← mem_filter_equal_iff, ← h v] at hv
    cases hv
  | cons a vs ih =>
    have ha : a ∈ ws := by
      rw [← mem_filter_equal_iff, ← h a, mem_filter_equal_iff]
      exact List.mem_cons_self
    cases ws with
    | nil => cases ha
    | cons b ws =>
      have hb : b ∈ a :: vs := by
        rw [← mem_filter_equal_iff, h b, mem_filter_equal_iff]
        exact List.mem_cons_self
      obtain ⟨hlowestVs, hascVs⟩ := List.pairwise_cons.mp hvs
      obtain ⟨hlowestWs, hascWs⟩ := List.pairwise_cons.mp hws
      -- each of the two heads is in both lists and the lowest in one of them
      have hab : (compare a b).isLE = true := by
        rcases List.mem_cons.mp hb with rfl | hb
        · simp
        · exact hlowestVs b hb
      have hba : (compare b a).isLE = true := by
        rcases List.mem_cons.mp ha with rfl | ha
        · simp
        · exact hlowestWs a ha
      have heq : compare b a = .eq := Std.OrientedCmp.isLE_antisymm hba hab
      -- and so it is the first of those that are equal to it, in both lists
      obtain rfl : a = b := by
        have hfirst := h a
        rw [List.filter_cons_of_pos (by simp), List.filter_cons_of_pos (by simp [heq])] at hfirst
        exact (List.cons.inj hfirst).1
      refine congrArg (a :: ·) (ih hascVs hascWs fun v => ?_)
      have hv := h v
      by_cases hav : compare a v = .eq
      · rw [List.filter_cons_of_pos (by simp [hav]), List.filter_cons_of_pos (by simp [hav])] at hv
        exact (List.cons.inj hv).2
      · rwa [List.filter_cons_of_neg (by simp [hav]), List.filter_cons_of_neg (by simp [hav])] at hv

/-- **Sorting.** There is one stable sort of a list of versions, and `sort` gives it. -/
theorem isStableSort_iff_eq_sort {versions sorted : List String} :
    IsStableSort versions sorted ↔ sorted = sort versions := by
  constructor
  · intro h
    have hsort := isStableSort_sort versions
    refine eq_of_ascending h.ascending hsort.ascending fun v => ?_
    rw [h.stable, hsort.stable]
  · rintro rfl
    exact isStableSort_sort versions

/-- Where no two versions are equal, sorting forgets the order in which they came. -/
theorem sort_eq_of_perm {vs ws : List String} (hperm : vs.Perm ws)
    (hne : vs.Pairwise fun a b => compare a b ≠ .eq) : sort vs = sort ws := by
  have hvs := isStableSort_sort vs
  have hws := isStableSort_sort ws
  have hsymm : Std.Symm fun a b : String => compare a b ≠ .eq := ⟨fun _ _ => compare_ne_eq_symm⟩
  refine List.Perm.eq_of_pairwise ?_ hvs.ascending hws.ascending
    (hvs.perm.trans (hperm.trans hws.perm.symm))
  intro a b ha hb hab hba
  have ha : a ∈ vs := hvs.perm.mem_iff.mp ha
  have hb : b ∈ vs := hperm.mem_iff.mpr (hws.perm.mem_iff.mp hb)
  by_contra hdiff
  exact hne.forall ha hb hdiff (Std.OrientedCmp.isLE_antisymm hab hba)

/-! ### The candidate that is picked -/

section

variable {α : Type} {versionOf : α → String}

/-- `a` is what a constraint picks from candidates: it is admitted, no admitted candidate exceeds it,
    and behind it in the list no admitted candidate is equal to it in the order of versions. -/
structure Picks (c : Constraint) (versionOf : α → String) (xs : List α) (a : α) : Prop where
  admitted : c.admits (versionOf a) = true
  highest : ∀ b ∈ xs, c.admits (versionOf b) = true →
    (compare (versionOf b) (versionOf a)).isLE = true
  last : ∃ before after, xs = before ++ a :: after ∧
    ∀ b ∈ after, c.admits (versionOf b) = true → compare (versionOf b) (versionOf a) ≠ .eq

/-- What is picked is one of the candidates. -/
theorem Picks.mem {c : Constraint} {xs : List α} {a : α} (h : Picks c versionOf xs a) : a ∈ xs := by
  obtain ⟨before, after, rfl, -⟩ := h.last
  simp

/-- What is picked is the last highest one of those that are admitted. -/
theorem picks_iff_lastHighest {c : Constraint} {xs : List α} {a : α} :
    Picks c versionOf xs a ↔
      LastHighest versionOf (xs.filter fun b => c.admits (versionOf b)) a := by
  constructor
  · rintro ⟨hadmitted, hhighest, before, after, rfl, hlast⟩
    refine ⟨before.filter fun b => c.admits (versionOf b),
      after.filter fun b => c.admits (versionOf b), ?_, fun b hb => ?_, fun b hb => ?_⟩
    · simp [hadmitted]
    · obtain ⟨hb, hadmits⟩ := List.mem_filter.mp hb
      exact hhighest b (by simp [hb]) hadmits
    · -- behind it, what is not higher and not equal is lower
      obtain ⟨hb, hadmits⟩ := List.mem_filter.mp hb
      have hle := hhighest b (by simp [hb]) hadmits
      have hne := hlast b hb hadmits
      cases hcompare : compare (versionOf b) (versionOf a) with
      | lt => rfl
      | eq => exact absurd hcompare hne
      | gt => simp [hcompare] at hle
  · intro h
    obtain ⟨before, after, hfilter, -, hafter⟩ := id h
    obtain ⟨front, rest, rfl, hadmitted, hrest⟩ := exists_of_filter_eq_append_cons hfilter
    refine ⟨hadmitted, fun b hb hadmits => h.isLE (List.mem_filter.mpr ⟨hb, hadmits⟩),
      front, rest, rfl, fun b hb hadmits heq => ?_⟩
    have hlt := hafter b (hrest ▸ List.mem_filter.mpr ⟨hb, hadmits⟩)
    rw [heq] at hlt
    cases hlt

/-- Where no two versions are equal, the same candidate is picked in every order of the list. -/
theorem Picks.of_perm {c : Constraint} {xs ys : List α} {a : α} (h : Picks c versionOf xs a)
    (hperm : xs.Perm ys)
    (hne : xs.Pairwise fun a b => compare (versionOf a) (versionOf b) ≠ .eq) :
    Picks c versionOf ys a := by
  refine ⟨h.admitted, fun b hb => h.highest b (hperm.mem_iff.mpr hb), ?_⟩
  obtain ⟨before, after, rfl⟩ := List.append_of_mem (hperm.mem_iff.mp h.mem)
  have hys := (List.Perm.pairwise_iff compare_ne_eq_symm hperm).mp hne
  have hafter := (List.pairwise_cons.mp (List.pairwise_append.mp hys).2.1).1
  exact ⟨before, after, rfl, fun b hb _ => compare_ne_eq_symm (hafter b hb)⟩

/-! ### Outcomes -/

variable {name : String} {constraint : Option String} {xs : List α}

/-- **Success.** A candidate is selected if and only if it is the one to pick. -/
theorem select_eq_ok_iff_picks {a : α} : select name constraint xs versionOf = .ok a ↔
    Picks (Constraint.parse constraint) versionOf xs a := by
  rw [select_eq_ok_iff, highest?_eq_some_iff, picks_iff_lastHighest]

/-- A candidate is picked as soon as one is admitted. -/
theorem exists_select_eq_ok_iff : (∃ a, select name constraint xs versionOf = .ok a) ↔
    ∃ a ∈ xs, (Constraint.parse constraint).admits (versionOf a) = true := by
  constructor
  · rintro ⟨a, h⟩
    have hpicks := select_eq_ok_iff_picks.mp h
    exact ⟨a, hpicks.mem, hpicks.admitted⟩
  · rintro ⟨b, hb, hadmits⟩
    have hsome : (highest? versionOf (xs.filter fun c =>
        (Constraint.parse constraint).admits (versionOf c))).isSome = true := by
      rw [Option.isSome_iff_ne_none, ne_eq, highest?_eq_none_iff]
      exact List.ne_nil_of_mem (List.mem_filter.mpr ⟨hb, hadmits⟩)
    obtain ⟨a, ha⟩ := Option.isSome_iff_exists.mp hsome
    exact ⟨a, select_eq_ok_iff.mpr ha⟩

/-- **Unknown names.** A name is unknown if and only if there are no candidates. -/
theorem select_eq_unknownName_iff :
    select name constraint xs versionOf = .error (.unknownName name) ↔ xs = [] := by
  constructor
  · intro h
    by_contra hne
    cases eq_noMatch_of_select hne h
  · rintro rfl
    rfl

/-- The failure for lack of an admitted version lists all versions in a stable sort. -/
theorem select_eq_noMatch_iff {available : List String} :
    select name constraint xs versionOf
        = .error (.noMatch name (constraint.getD "*") available) ↔
      xs ≠ [] ∧ (∀ a ∈ xs, (Constraint.parse constraint).admits (versionOf a) = false) ∧
        IsStableSort (xs.map versionOf) available := by
  rw [isStableSort_iff_eq_sort]
  constructor
  · intro h
    have hne : xs ≠ [] := by
      intro hnil
      rw [select_eq_unknownName_iff.mpr hnil] at h
      cases h
    refine ⟨hne, fun a ha => ?_, ?_⟩
    · rw [← Bool.not_eq_true]
      intro hadmits
      obtain ⟨b, hb⟩ := exists_select_eq_ok_iff.mpr ⟨a, ha, hadmits⟩
      rw [hb] at h
      cases h
    · -- with candidates there is no other failure
      have herror := eq_noMatch_of_select hne h
      cases herror
      rfl
  · rintro ⟨hne, hnone, rfl⟩
    cases h : select name constraint xs versionOf with
    | ok a =>
      obtain ⟨b, hb, hadmits⟩ := exists_select_eq_ok_iff.mp ⟨a, h⟩
      simp [hnone b hb] at hadmits
    | error e => rw [eq_noMatch_of_select hne h]

/-- Where no two versions are equal, every order of the candidates gives the same outcome. -/
theorem select_eq_of_perm {ys : List α} (hperm : xs.Perm ys)
    (hne : xs.Pairwise fun a b => compare (versionOf a) (versionOf b) ≠ .eq) :
    select name constraint xs versionOf = select name constraint ys versionOf := by
  by_cases hnil : xs = []
  · subst hnil
    rw [List.nil_perm.mp hperm]
  cases hxs : select name constraint xs versionOf with
  | ok a =>
    have hpicks := (select_eq_ok_iff_picks.mp hxs).of_perm hperm hne
    exact (select_eq_ok_iff_picks.mpr hpicks).symm
  | error e =>
    obtain ⟨-, hnone, -⟩ := select_eq_noMatch_iff.mp (eq_noMatch_of_select hnil hxs ▸ hxs)
    rw [eq_noMatch_of_select hnil hxs]
    refine (select_eq_noMatch_iff.mpr ⟨?_, fun a ha => hnone a (hperm.mem_iff.mpr ha), ?_⟩).symm
    · rintro rfl
      exact hnil hperm.eq_nil
    · rw [sort_eq_of_perm (hperm.map versionOf) (List.pairwise_map.mpr hne)]
      exact isStableSort_sort _

/-- **Selection.** For every list of candidates exactly one of three things happens.  The name is
    unknown if there are no candidates.  No version matches if there are candidates and none of them
    is admitted, and then all their versions are listed in a stable sort.  Else a candidate is picked
    that is admitted, that no admitted one exceeds, and that no equal admitted one follows.  Where no
    two candidates have equal versions, none of this depends on their order. -/
theorem select_outcomes (name : String) (constraint : Option String) (xs : List α)
    (versionOf : α → String) :
    (select name constraint xs versionOf = .error (.unknownName name) ↔ xs = []) ∧
      (∀ available, select name constraint xs versionOf
            = .error (.noMatch name (constraint.getD "*") available) ↔
          xs ≠ [] ∧ (∀ a ∈ xs, (Constraint.parse constraint).admits (versionOf a) = false) ∧
            IsStableSort (xs.map versionOf) available) ∧
      (∀ a, select name constraint xs versionOf = .ok a ↔
        Picks (Constraint.parse constraint) versionOf xs a) ∧
      ((∃ a, select name constraint xs versionOf = .ok a) ↔
        ∃ a ∈ xs, (Constraint.parse constraint).admits (versionOf a) = true) ∧
      ∀ ys, xs.Perm ys → (xs.Pairwise fun a b => compare (versionOf a) (versionOf b) ≠ .eq) →
        select name constraint xs versionOf = select name constraint ys versionOf :=
  ⟨select_eq_unknownName_iff, fun _ => select_eq_noMatch_iff, fun _ => select_eq_ok_iff_picks,
    exists_select_eq_ok_iff, fun _ => select_eq_of_perm⟩

/-- The highest version that begins with `3` is found in a list and in the reverse of the list. -/
theorem select_reversed :
    let versions := ["3.18", "3.19.1", "edge", "3.19", "4.0"]
    (versions.Perm versions.reverse ∧ versions.Pairwise fun a b => compare a b ≠ .eq) ∧
      select "alpine" (some "3") versions.reverse id = .ok "3.19.1" := by
  intro versions
  have hperm : versions.Perm versions.reverse := (List.reverse_perm versions).symm
  have hne : versions.Pairwise fun a b => compare a b ≠ .eq := by decide +kernel
  have hselect : select "alpine" (some "3") versions id = .ok "3.19.1" := by decide +kernel
  have hsame := (select_outcomes "alpine" (some "3") versions id).2.2.2.2 versions.reverse hperm hne
  exact ⟨⟨hperm, hne⟩, hsame.symm.trans hselect⟩

end

end ImageSpec.Version
