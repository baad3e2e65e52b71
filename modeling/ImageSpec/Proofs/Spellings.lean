import ImageSpec.Proofs.Nesting
import Mathlib.Data.List.Forall2

namespace ImageSpec

/-!
# Spellings of a version

A number can be written in more than one way: with zeros in front of its digits, and with one `+` in
front of all.  Versions that differ in nothing else stand in the same place of the order, and no
others do.  What is too large for 64 bits is a text, and so is a part without digits.

* `Text.Numeral` — the digits of a number with zeros in front of them; `Text.word?_eq_some_iff` says
  that these are the texts that are read as it.
* `Version.Spells`, `Version.SamePart` — parts of a version that stand for a number, and parts that
  stand for the same component.
* `Version.components_eq_iff_forall₂` — equal components, said by the parts between dots.
* `Version.compare_append_dot` — more components make a version higher.
* `Version.compare_totalPreorder` — the laws of the order.
-/

namespace Text

/-! ### Digits -/

/-- A numeral is read in base ten. -/
theorem decimal_eq_ofDigitChars (cs : List Char) : decimal cs = Nat.ofDigitChars 10 cs 0 :=
  Nat.ofDigitChars_eq_foldl.symm

/-- The digits of a number, with any zeros in front of them. -/
def Numeral (cs : List Char) (n : Nat) : Prop :=
  ∃ zeros, cs = List.replicate zeros '0' ++ Nat.toDigits 10 n

namespace Numeral

variable {cs : List Char} {n : Nat}

/-- A numeral of a number is read as that number. -/
theorem decimal_eq (h : Numeral cs n) : decimal cs = n := by
  obtain ⟨zeros, rfl⟩ := h
  rw [decimal_eq_ofDigitChars, Nat.ofDigitChars_append, Nat.ofDigitChars_replicate_zero,
    Nat.mul_zero, Nat.ofDigitChars_ten_toDigits]

theorem ne_nil (h : Numeral cs n) : cs ≠ [] := by
  obtain ⟨zeros, rfl⟩ := h
  exact List.append_ne_nil_of_right_ne_nil _ Nat.toDigits_ne_nil

theorem isDigit (h : Numeral cs n) {d : Char} (hd : d ∈ cs) : d.isDigit = true := by
  obtain ⟨zeros, rfl⟩ := h
  rcases List.mem_append.mp hd with hd | hd
  · obtain rfl := List.eq_of_mem_replicate hd
    rfl
  · exact Nat.isDigit_of_mem_toDigits (by decide) (by decide) hd

end Numeral

theorem decimal_concat (cs : List Char) (d : Char) :
    decimal (cs ++ [d]) = 10 * decimal cs + (d.toNat - '0'.toNat) := by
  simp [decimal]

/-- A digit is written as itself. -/
theorem toDigits_of_isDigit {d : Char} (h : d.isDigit = true) :
    d.toNat - '0'.toNat < 10 ∧ Nat.toDigits 10 (d.toNat - '0'.toNat) = [d] := by
  obtain ⟨hlow, hhigh⟩ := Char.isDigit_iff_toNat.mp h
  have hzero : '0'.toNat = 48 := rfl
  have hnine : '9'.toNat = 57 := rfl
  have hlt : d.toNat - '0'.toNat < 10 := by omega
  refine ⟨hlt, ?_⟩
  rw [Nat.toDigits_of_lt_base hlt, List.singleton_inj]
  apply Char.toNat_inj.mp
  rw [Nat.toNat_digitChar_of_lt_ten hlt]
  omega

/-- Digits are a numeral of the number that they stand for. -/
theorem numeral_decimal {cs : List Char} (hne : cs ≠ [])
    (hdigits : ∀ d ∈ cs, d.isDigit = true) : Numeral cs (decimal cs) := by
  induction cs using List.reverseRecOn with
  | nil => exact absurd rfl hne
  | append_singleton cs d ih =>
    -- the last digit is also the last one of the value
    obtain ⟨hcs, hd⟩ := List.forall_mem_append.mp hdigits
    obtain ⟨hlt, hlast⟩ := toDigits_of_isDigit (hd d (List.mem_singleton_self d))
    rw [decimal_concat]
    by_cases hnil : cs = []
    · subst hnil
      refine ⟨0, ?_⟩
      show [d] = Nat.toDigits 10 (10 * 0 + (d.toNat - '0'.toNat))
      rw [Nat.mul_zero, Nat.zero_add, hlast]
    · obtain ⟨zeros, hzeros⟩ := ih hnil hcs
      by_cases hvalue : decimal cs = 0
      · -- all digits before the last one are zeros
        refine ⟨zeros + 1, ?_⟩
        rw [hvalue, Nat.toDigits_zero] at hzeros
        rw [hvalue, Nat.mul_zero, Nat.zero_add, hlast, List.replicate_succ', ← hzeros]
      · refine ⟨zeros, ?_⟩
        rw [← Nat.toDigits_append_toDigits (by decide) (Nat.pos_of_ne_zero hvalue) hlt, hlast,
          ← List.append_assoc, ← hzeros]

/-- **Numbers of 64 bits.** A text is read as a number if it is a numeral of it and the number
    fits. -/
theorem word?_eq_some_iff {cs : List Char} {n : Nat} :
    word? cs = some n ↔ n < UInt64.size ∧ Numeral cs n := by
  constructor
  · intro h
    unfold word? at h
    split at h
    · cases h
    · next hne =>
      split at h
      · next hcheck =>
        cases h
        rw [Bool.and_eq_true, List.all_eq_true, decide_eq_true_eq] at hcheck
        exact ⟨hcheck.2, numeral_decimal (by simpa using hne) hcheck.1⟩
      · cases h
  · rintro ⟨hfits, hnumeral⟩
    have hcheck : (cs.all Char.isDigit && decide (n < wordCount)) = true := by
      rw [Bool.and_eq_true, List.all_eq_true, decide_eq_true_eq]
      exact ⟨fun d hd => hnumeral.isDigit hd, hfits⟩
    rw [word?, hnumeral.decimal_eq, if_neg (by simpa using hnumeral.ne_nil), if_pos hcheck]

end Text

namespace Version

/-! ### Parts of a version -/

/-- A part of a version stands for a number of 64 bits: it is a numeral, with one `+` in front of it
    or none. -/
structure Spells (part : List Char) (n : Nat) : Prop where
  fits : n < UInt64.size
  written : Text.Numeral part n ∨ ∃ digits, part = '+' :: digits ∧ Text.Numeral digits n

/-- Without a sign in front, a number is a word. -/
theorem number?_of_head?_ne {part : List Char} (h : part.head? ≠ some '+') :
    number? part = Text.word? part := by
  unfold number?
  split
  · exact absurd rfl h
  · rfl

/-- **Numbers as parts.** A part is read as the number that it spells. -/
theorem number?_eq_some_iff {part : List Char} {n : Nat} :
    number? part = some n ↔ Spells part n := by
  by_cases hplus : part.head? = some '+'
  · obtain ⟨digits, rfl⟩ := List.head?_eq_some_iff.mp hplus
    show Text.word? digits = some n ↔ _
    rw [Text.word?_eq_some_iff]
    constructor
    · rintro ⟨hfits, hnumeral⟩
      exact ⟨hfits, .inr ⟨digits, rfl, hnumeral⟩⟩
    · rintro ⟨hfits, hnumeral | ⟨_, heq, hnumeral⟩⟩
      · -- a sign is no digit
        cases hnumeral.isDigit List.mem_cons_self
      · cases heq
        exact ⟨hfits, hnumeral⟩
  · rw [number?_of_head?_ne hplus, Text.word?_eq_some_iff]
    constructor
    · rintro ⟨hfits, hnumeral⟩
      exact ⟨hfits, .inl hnumeral⟩
    · rintro ⟨hfits, hnumeral | ⟨_, rfl, -⟩⟩
      · exact ⟨hfits, hnumeral⟩
      · exact absurd rfl hplus

/-- Two parts stand for the same component: for one number, or they are one text that is no
    number. -/
def SamePart (part part' : List Char) : Prop :=
  (∃ n, Spells part n ∧ Spells part' n) ∨ part = part' ∧ ∀ n, ¬ Spells part n

/-- Two parts are the same component if they spell the same. -/
theorem ofText_eq_iff {part part' : List Char} :
    Component.ofText part = Component.ofText part' ↔ SamePart part part' := by
  unfold Component.ofText SamePart
  simp only [← number?_eq_some_iff]
  cases hpart : number? part with
  | none =>
    cases hpart' : number? part' with
    | none => simp [String.ofList_inj]
    | some m =>
      have hne : part ≠ part' := by
        rintro rfl
        rw [hpart] at hpart'
        cases hpart'
      simp [hne]
  | some n =>
    cases hpart' : number? part' with
    | none => simp
    | some m => simp [eq_comm]

/-- **Equal components.** Two versions have the same components if their parts between dots are the
    same, one by one. -/
theorem components_eq_iff_forall₂ {a b : String} :
    components a = components b ↔
      List.Forall₂ SamePart (a.toList.splitOn '.') (b.toList.splitOn '.') := by
  unfold components
  rw [Text.splitAt_eq_splitOn, Text.splitAt_eq_splitOn, ← List.forall₂_eq_eq_eq,
    List.forall₂_map_left_iff, List.forall₂_map_right_iff]
  simp only [ofText_eq_iff]

/-! ### More components -/

/-- A dot divides components. -/
theorem components_append_dot (a more : String) :
    components (a ++ "." ++ more) = components a ++ components more := by
  have hlist : (a ++ "." ++ more).toList = a.toList ++ '.' :: more.toList := by simp
  rw [components, hlist, Text.splitAt_append_cons, List.map_append]
  rfl

theorem components_ne_nil (a : String) : components a ≠ [] := by
  unfold components
  rw [Text.splitAt_eq_splitOn]
  exact mt List.map_eq_nil_iff.mp (List.splitOn_ne_nil '.' a.toList)

/-- **Extensions.** A version stands before all that go on behind it with a dot. -/
theorem compare_append_dot (a more : String) : compare a (a ++ "." ++ more) = .lt := by
  -- the components of `a` are a beginning, and at least one more follows
  have hcomponents := components_append_dot a more
  have hle : (compare a (a ++ "." ++ more)).isLE = true := by
    rw [compare, hcomponents]
    exact isLE_of_isPrefix (List.prefix_append _ _)
  have hne : compare a (a ++ "." ++ more) ≠ .eq := by
    rw [ne_eq, compare_eq_eq_iff, hcomponents]
    intro heq
    exact components_ne_nil more (List.self_eq_append_right.mp heq)
  exact (Ordering.isLE_iff_eq_lt_or_eq_eq.mp hle).resolve_right hne

/-- **The order of versions is a total preorder.** Turning a comparison round reverses its outcome,
    and comparisons chain.  Two versions are equal in the order if and only if they have equal
    components: as many parts between dots, of which each two in the same place spell one number of
    64 bits, or are one text that spells none.  Whatever goes on behind a version with a dot is
    higher. -/
theorem compare_totalPreorder :
    (∀ a b, compare b a = (compare a b).swap) ∧
      (∀ a b c, (compare a b).isLE = true → (compare b c).isLE = true →
        (compare a c).isLE = true) ∧
      (∀ a b c outcome, compare a b = outcome → compare b c = outcome → compare a c = outcome) ∧
      (∀ a b, (compare a b = .eq ↔ components a = components b) ∧
        (components a = components b ↔
          List.Forall₂ SamePart (a.toList.splitOn '.') (b.toList.splitOn '.'))) ∧
      ∀ a more, compare a (a ++ "." ++ more) = .lt := by
  refine ⟨fun a b => Std.OrientedCmp.eq_swap, fun a b c => Std.TransCmp.isLE_trans, ?_,
    fun a b => ⟨compare_eq_eq_iff, components_eq_iff_forall₂⟩, compare_append_dot⟩
  intro a b c outcome hab hbc
  cases outcome with
  | lt => exact Std.TransCmp.lt_trans hab hbc
  | eq => exact Std.TransCmp.eq_trans hab hbc
  | gt => exact Std.TransCmp.gt_trans hab hbc

/-- The largest number of 64 bits stands before the next one, which is a text, and its
    extensions. -/
theorem compare_largest_number :
    ((compare "+1.018446744073709551615" "1.18446744073709551616").isLE = true ∧
        (compare "1.18446744073709551616" "01.18446744073709551616.").isLE = true) ∧
      (compare "+1.018446744073709551615" "01.18446744073709551616.").isLE = true := by
  have hlow : (compare "+1.018446744073709551615" "1.18446744073709551616").isLE = true := by
    decide +kernel
  have hhigh : (compare "1.18446744073709551616" "01.18446744073709551616.").isLE = true := by
    decide +kernel
  exact ⟨⟨hlow, hhigh⟩, compare_totalPreorder.2.1 _ _ _ hlow hhigh⟩

end Version

end ImageSpec
