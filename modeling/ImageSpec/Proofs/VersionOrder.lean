import ImageSpec.Version.Constraint

namespace ImageSpec.Version

/-!
# The order of versions

Versions are compared component by component, and so they are ordered as words are in a dictionary
whose letters are the components.

* `Component.compare_swap`, `Component.isLE_trans` — components are ordered totally; numbers and
  texts never mix.
* `compareComponents_eq_compareLex` — lists of components are ordered as in a dictionary.
* `compare_eq_eq_iff` — versions stand in the same place of the order exactly when they have the
  same components, however these are written.
-/

/-! ### Components -/

namespace Component

/-- The other way round, the comparison is the opposite. -/
theorem compare_swap (a b : Component) : a.compare b = (b.compare a).swap := by
  cases a with
  | number m =>
    cases b with
    | number n =>
      show Ord.compare m n = (Ord.compare n m).swap
      exact Std.OrientedOrd.eq_swap
    | text t => rfl
  | text s =>
    cases b with
    | number n => rfl
    | text t =>
      show Ord.compare s t = (Ord.compare t s).swap
      exact Std.OrientedOrd.eq_swap

theorem isLE_trans {a b c : Component} (hab : (a.compare b).isLE = true)
    (hbc : (b.compare c).isLE = true) : (a.compare c).isLE = true := by
  -- A text is never before a number, so only the two kinds by themselves are left to compare.
  match a, b, c, hab, hbc with
  | .number l, .number m, .number n, hab, hbc =>
    show (Ord.compare l n).isLE = true
    exact Std.TransOrd.isLE_trans (b := m) hab hbc
  | .number _, .number _, .text _, _, _ => rfl
  | .number _, .text _, .text _, _, _ => rfl
  | .text r, .text s, .text t, hab, hbc =>
    show (Ord.compare r t).isLE = true
    exact Std.TransOrd.isLE_trans (b := s) hab hbc

/-- Components that compare equal are equal. -/
theorem eq_of_compare {a b : Component} (h : a.compare b = .eq) : a = b := by
  match a, b, h with
  | .number m, .number n, h =>
    have heq : Ord.compare m n = .eq := h
    rw [Std.LawfulEqOrd.eq_of_compare heq]
  | .text s, .text t, h =>
    have heq : Ord.compare s t = .eq := h
    rw [Std.LawfulEqOrd.eq_of_compare heq]

instance : Std.TransCmp Component.compare where
  eq_swap := compare_swap _ _
  isLE_trans := isLE_trans

instance : Std.LawfulEqCmp Component.compare where
  eq_of_compare := eq_of_compare

@[simp] theorem compare_self (a : Component) : a.compare a = .eq := Std.ReflCmp.compare_self

end Component

/-! ### Versions -/

/-- Lists of components are ordered as words in a dictionary. -/
theorem compareComponents_eq_compareLex (as bs : List Component) :
    compareComponents as bs = List.compareLex Component.compare as bs := by
  induction as generalizing bs with
  | nil => cases bs <;> rfl
  | cons a as ih =>
    cases bs with
    | nil => rfl
    | cons b bs => rw [compareComponents, List.compareLex_cons_cons, ih]

/-- Versions are compared by their components, the first that differs deciding. -/
theorem compare_eq_compareLex (a b : String) :
    compare a b = List.compareLex Component.compare (components a) (components b) :=
  compareComponents_eq_compareLex (components a) (components b)

/-- **Versions are ordered totally**, up to different ways to write the same components. -/
instance : Std.TransCmp compare where
  eq_swap {a b} := by
    rw [compare_eq_compareLex, compare_eq_compareLex]
    exact Std.OrientedCmp.eq_swap
  isLE_trans {a b c} hab hbc := by
    rw [compare_eq_compareLex] at hab hbc ⊢
    exact Std.TransCmp.isLE_trans hab hbc

@[simp] theorem compare_self (a : String) : compare a a = .eq := Std.ReflCmp.compare_self

/-- Versions are equal in the order exactly when they have the same components. -/
theorem compare_eq_eq_iff {a b : String} : compare a b = .eq ↔ components a = components b := by
  rw [compare_eq_compareLex]
  exact Std.LawfulEqCmp.compare_eq_iff_eq

end ImageSpec.Version
