import ImageSpec.Proofs.Legal
import ImageSpec.Script
import Mathlib.Data.List.Basic
import Mathlib.Logic.Function.Basic

namespace ImageSpec.Script

/-!
# Placeholders

The template of an installation command has placeholders for the name, the version and the digest of
a definition.  They are replaced one after the other, so that the version is also put into what came
from the name, and the digest into what came from both.  Here this is compared with a reading that
goes through the template once.

* `fill` — the template read once from the left, with a value for each placeholder.
* `occurrences` — the number of times that a placeholder occurs in a text.
* `replaced_eq_fill` — one replacement is such a reading, in which two placeholders stay.
* `fill_append_written` — a placeholder is filled whatever stands around it.
* `replaced_fill_eq_iff` — when one replacement after others does what one reading does.
* `installCommand_eq_fill_iff` — when the three replacements together do.
* `version_read_as_placeholder` — a version that is replaced by the digest.
-/

/-- The placeholders of a template. -/
inductive Placeholder where
  | name
  | version
  | digest
deriving DecidableEq, Repr

namespace Placeholder

/-- What stands behind the opening brace of a placeholder. -/
def tail : Placeholder → List Char
  | name => "name\x7d".toList
  | version => "version\x7d".toList
  | digest => "digest\x7d".toList

/-- A placeholder as it is written. -/
def written (p : Placeholder) : List Char := '\x7b' :: p.tail

/-- What a definition has for a placeholder. -/
def value (d : Definition) : Placeholder → List Char
  | name => d.name.toList
  | version => d.version.toList
  | digest => d.digest.text.toList

/-- The placeholder that a text starts with. -/
def start? (cs : List Char) : Option Placeholder :=
  [name, version, digest].find? fun p => p.written.isPrefixOf cs

end Placeholder

open Placeholder

/-- The text with a value for each placeholder, read once from the left: what comes from a value is
    not read again. -/
def fill (value : Placeholder → List Char) (cs : List Char) : List Char :=
  match cs with
  | [] => []
  | c :: rest =>
    match start? (c :: rest) with
    | some p => value p ++ fill value (rest.drop p.tail.length)
    | none => c :: fill value rest
termination_by cs.length
decreasing_by
  · simp only [List.length_drop, List.length_cons]
    omega
  · simp

/-- The text with one placeholder replaced. -/
def replaced (p : Placeholder) (replacement cs : List Char) : List Char :=
  replaceAll '\x7b' p.tail replacement cs

/-- The number of places of a text at which a placeholder starts. -/
def occurrences (p : Placeholder) : List Char → Nat
  | [] => 0
  | c :: rest => occurrences p rest + if p.written.isPrefixOf (c :: rest) then 1 else 0

/-! ### Where placeholders start -/

/-- The one opening brace of a placeholder is its first character. -/
theorem brace_not_mem_tail (p : Placeholder) : '\x7b' ∉ p.tail := by
  cases p <;> decide

/-- A text starts with at most one placeholder. -/
theorem eq_of_written_start {p q : Placeholder} {cs : List Char} (hp : p.written <+: cs)
    (hq : q.written <+: cs) : p = q := by
  have hall : ∀ p q : Placeholder, p.written <+: q.written → p = q := by
    intro p q
    cases p <;> cases q <;> decide
  rcases List.prefix_or_prefix_of_prefix hp hq with h | h
  · exact hall p q h
  · exact (hall q p h).symm

/-- The placeholder that is found stands at the start of the text. -/
theorem prefix_of_start? {cs : List Char} {p : Placeholder} (h : start? cs = some p) :
    p.written <+: cs := by
  rw [start?] at h
  have hstarts := List.find?_some h
  exact List.isPrefixOf_iff_prefix.mp hstarts

/-- A placeholder is found if and only if the text starts with it. -/
theorem start?_eq_some_iff {cs : List Char} {p : Placeholder} :
    start? cs = some p ↔ p.written <+: cs := by
  constructor
  · exact prefix_of_start?
  · intro h
    cases hstart : start? cs with
    | none =>
      have hnone := List.find?_eq_none.mp hstart p (by cases p <;> decide)
      exact absurd (List.isPrefixOf_iff_prefix.mpr h) hnone
    | some q =>
      rw [eq_of_written_start h (prefix_of_start? hstart)]

/-- None is found if and only if the text starts with none. -/
theorem start?_eq_none_iff {cs : List Char} :
    start? cs = none ↔ ∀ p : Placeholder, ¬ p.written <+: cs := by
  rw [Option.eq_none_iff_forall_ne_some]
  exact forall_congr' fun _ => not_congr start?_eq_some_iff

/-- A text is read as placeholders and single characters. -/
@[elab_as_elim]
theorem reading_induction {motive : List Char → Prop} (nil : motive [])
    (placeholder : ∀ (p : Placeholder) rest, motive rest → motive (p.written ++ rest))
    (char : ∀ c rest, start? (c :: rest) = none → motive rest → motive (c :: rest))
    (cs : List Char) : motive cs := by
  induction hn : cs.length using Nat.strongRecOn generalizing cs with
  | ind n ih =>
    cases cs with
    | nil => exact nil
    | cons c rest =>
      cases hstart : start? (c :: rest) with
      | none => exact char c rest hstart (ih rest.length (by simp [← hn]) rest rfl)
      | some p =>
        obtain ⟨after, hafter⟩ := start?_eq_some_iff.mp hstart
        have hlength := congrArg List.length hafter
        rw [written, List.length_append, List.length_cons, hn] at hlength
        rw [← hafter]
        exact placeholder p after (ih after.length (by omega) after rfl)

/-! ### One reading -/

section Fill

variable {value : Placeholder → List Char}

theorem fill_nil : fill value [] = [] := by rw [fill]

/-- A placeholder at the start gets its value. -/
theorem fill_written_append (p : Placeholder) (rest : List Char) :
    fill value (p.written ++ rest) = value p ++ fill value rest := by
  have hstart : start? (p.written ++ rest) = some p :=
    start?_eq_some_iff.mpr (List.prefix_append _ _)
  rw [written, List.cons_append] at hstart ⊢
  rw [fill, hstart]
  simp

/-- A character that starts no placeholder stays. -/
theorem fill_cons {c : Char} {rest : List Char} (h : start? (c :: rest) = none) :
    fill value (c :: rest) = c :: fill value rest := by
  rw [fill, h]

/-- With placeholders for themselves a text stays as it is. -/
theorem fill_written (cs : List Char) : fill written cs = cs := by
  induction cs using reading_induction with
  | nil => exact fill_nil
  | placeholder p rest ih => rw [fill_written_append, ih]
  | char c rest h ih => rw [fill_cons h, ih]

end Fill

/-- A text without the first character of the pattern stays. -/
theorem replaceAll_append_of_not_mem {first : Char} {others replacement front : List Char}
    (h : first ∉ front) (rest : List Char) :
    replaceAll first others replacement (front ++ rest)
      = front ++ replaceAll first others replacement rest := by
  induction front with
  | nil => rfl
  | cons c front ih =>
    have hc : first ≠ c := List.ne_of_not_mem_cons h
    have hstarts : ¬ (first :: others).isPrefixOf (c :: (front ++ rest)) = true := by
      simp [List.isPrefixOf, hc]
    rw [List.cons_append, replaceAll, if_neg hstarts, ih (List.not_mem_of_not_mem_cons h),
      List.cons_append]

/-- **One replacement.** To replace one placeholder is to read the text once, with the other two for
    themselves. -/
theorem replaced_eq_fill (p : Placeholder) (replacement cs : List Char) :
    replaced p replacement cs = fill (Function.update written p replacement) cs := by
  rw [replaced]
  induction cs using reading_induction with
  | nil => rw [replaceAll, fill_nil]
  | placeholder q rest ih =>
    rw [fill_written_append, ← ih]
    by_cases hq : q = p
    · subst hq
      have hstarts : ('\x7b' :: q.tail).isPrefixOf ('\x7b' :: (q.tail ++ rest)) = true :=
        List.isPrefixOf_iff_prefix.mpr (by simp)
      rw [Function.update_self, written, List.cons_append, replaceAll, if_pos hstarts,
        List.drop_left]
    · -- another placeholder stays, and as it has one brace only, so does all of it
      have hstarts : ¬ ('\x7b' :: p.tail).isPrefixOf ('\x7b' :: (q.tail ++ rest)) = true := by
        intro h
        have hp : p.written <+: q.written ++ rest := List.isPrefixOf_iff_prefix.mp h
        exact hq (eq_of_written_start (List.prefix_append _ _) hp)
      rw [Function.update_of_ne hq, written, List.cons_append, replaceAll, if_neg hstarts,
        replaceAll_append_of_not_mem (brace_not_mem_tail q), List.cons_append]
  | char c rest h ih =>
    have hstarts : ¬ ('\x7b' :: p.tail).isPrefixOf (c :: rest) = true := fun hp =>
      start?_eq_none_iff.mp h p (List.isPrefixOf_iff_prefix.mp hp)
    rw [fill_cons h, replaceAll, if_neg hstarts, ih]

/-! ### Counting placeholders -/

/-- A character that starts no occurrence adds none. -/
theorem occurrences_cons_of_not_start {p : Placeholder} {c : Char} {rest : List Char}
    (h : ¬ p.written <+: c :: rest) : occurrences p (c :: rest) = occurrences p rest := by
  rw [occurrences, if_neg fun hp => h (List.isPrefixOf_iff_prefix.mp hp), Nat.add_zero]

/-- A text without an opening brace adds no occurrence. -/
theorem occurrences_append_of_not_mem {p : Placeholder} {front : List Char}
    (h : '\x7b' ∉ front) (rest : List Char) :
    occurrences p (front ++ rest) = occurrences p rest := by
  induction front with
  | nil => rfl
  | cons c front ih =>
    have hc : '\x7b' ≠ c := List.ne_of_not_mem_cons h
    have hstarts : ¬ p.written <+: c :: (front ++ rest) := fun hp =>
      hc (List.cons_prefix_cons.mp hp).1
    rw [List.cons_append, occurrences_cons_of_not_start hstarts,
      ih (List.not_mem_of_not_mem_cons h)]

/-- A placeholder in front is an occurrence of itself and of no other one. -/
theorem occurrences_written_append (p q : Placeholder) (rest : List Char) :
    occurrences p (q.written ++ rest) = (if q = p then 1 else 0) + occurrences p rest := by
  have hstarts : p.written.isPrefixOf (q.written ++ rest) = true ↔ q = p := by
    rw [List.isPrefixOf_iff_prefix]
    constructor
    · exact eq_of_written_start (List.prefix_append _ _)
    · rintro rfl
      exact List.prefix_append _ _
  rw [written.eq_def q, List.cons_append] at hstarts ⊢
  rw [occurrences, occurrences_append_of_not_mem (brace_not_mem_tail q),
    Nat.add_comm]
  simp only [hstarts]

/-- A text has no fewer occurrences than its end. -/
theorem occurrences_le_append (p : Placeholder) (front rest : List Char) :
    occurrences p rest ≤ occurrences p (front ++ rest) := by
  induction front with
  | nil => exact Nat.le_refl _
  | cons c front ih => exact Nat.le_trans ih (Nat.le_add_right _ _)

/-- An opening brace belongs to no placeholder that started before it. -/
theorem prefix_append_cons_iff {word front : List Char} {b : Char} (h : b ∉ word)
    (after : List Char) : word <+: front ++ b :: after ↔ word <+: front := by
  constructor
  · intro hword
    rcases List.prefix_or_prefix_of_prefix hword (List.prefix_append front (b :: after))
      with hfront | ⟨more, rfl⟩
    · exact hfront
    · cases more with
      | nil => exact (List.append_nil front).symm ▸ List.prefix_refl front
      | cons c more =>
        have hc := (List.cons_prefix_cons.mp ((List.prefix_append_right_inj front).mp hword)).1
        exact absurd (by simp [hc]) h
  · intro hword
    exact hword.trans (List.prefix_append _ _)

/-- An opening brace behind a text changes nothing about its start. -/
theorem start?_cons_append_brace (c : Char) (rest after : List Char) :
    start? (c :: (rest ++ '\x7b' :: after)) = start? (c :: rest) := by
  refine Option.ext fun p => ?_
  rw [start?_eq_some_iff, start?_eq_some_iff, written, List.cons_prefix_cons, List.cons_prefix_cons,
    prefix_append_cons_iff (brace_not_mem_tail p)]

/-- A text is cut before an opening brace without changing how it is read. -/
theorem fill_append_brace (value : Placeholder → List Char) (front after : List Char) :
    fill value (front ++ '\x7b' :: after) = fill value front ++ fill value ('\x7b' :: after) := by
  induction front using reading_induction with
  | nil => rw [fill_nil, List.nil_append, List.nil_append]
  | placeholder p rest ih =>
    rw [List.append_assoc, fill_written_append, fill_written_append, ih, List.append_assoc]
  | char c rest h ih =>
    have hcut := (start?_cons_append_brace c rest after).trans h
    rw [List.cons_append, fill_cons hcut, fill_cons h, ih, List.cons_append]

/-- No occurrence goes over an opening brace. -/
theorem occurrences_append_brace (p : Placeholder) (front after : List Char) :
    occurrences p (front ++ '\x7b' :: after)
      = occurrences p front + occurrences p ('\x7b' :: after) := by
  induction front using reading_induction with
  | nil => exact (Nat.zero_add _).symm
  | placeholder q rest ih =>
    rw [List.append_assoc, occurrences_written_append, occurrences_written_append, ih,
      Nat.add_assoc]
  | char c rest h ih =>
    have hcut := start?_eq_none_iff.mp ((start?_cons_append_brace c rest after).trans h) p
    rw [List.cons_append, occurrences_cons_of_not_start hcut,
      occurrences_cons_of_not_start (start?_eq_none_iff.mp h p), ih]

/-- **A placeholder in its surroundings.** What stands before and after a placeholder is read on its
    own. -/
theorem fill_append_written (value : Placeholder → List Char) (p : Placeholder)
    (front after : List Char) :
    fill value (front ++ (p.written ++ after))
      = fill value front ++ (value p ++ fill value after) := by
  rw [← fill_written_append p after, written, List.cons_append, fill_append_brace]

/-- A placeholder between two texts is an occurrence of its own. -/
theorem occurrences_append_written (p q : Placeholder) (front after : List Char) :
    occurrences p (front ++ (q.written ++ after))
      = occurrences p front + ((if q = p then 1 else 0) + occurrences p after) := by
  rw [← occurrences_written_append p q after, written.eq_def q, List.cons_append,
    occurrences_append_brace]

/-- A text without a placeholder, or with a first one. -/
theorem exists_first (p : Placeholder) (cs : List Char) :
    occurrences p cs = 0 ∨
      ∃ front after, cs = front ++ (p.written ++ after) ∧ occurrences p front = 0 := by
  induction cs with
  | nil => exact .inl rfl
  | cons c rest ih =>
    -- Either it starts here, or the first one of the rest is the first one.
    by_cases hp : p.written <+: c :: rest
    · obtain ⟨after, hafter⟩ := hp
      exact .inr ⟨[], after, hafter.symm, rfl⟩
    · rcases ih with hnone | ⟨front, after, rfl, hfront⟩
      · exact .inl ((occurrences_cons_of_not_start hp).trans hnone)
      · have hc : ¬ p.written <+: c :: front := fun h =>
          hp (h.trans (List.prefix_append (c :: front) _))
        exact .inr ⟨c :: front, after, rfl, (occurrences_cons_of_not_start hc).trans hfront⟩

/-- A text is a sequence of parts without a placeholder, with the placeholder between them. -/
@[elab_as_elim]
theorem split_induction (p : Placeholder) {motive : List Char → Prop}
    (last : ∀ cs, occurrences p cs = 0 → motive cs)
    (next : ∀ front after, occurrences p front = 0 → motive after →
      motive (front ++ (p.written ++ after)))
    (cs : List Char) : motive cs := by
  induction hn : cs.length using Nat.strongRecOn generalizing cs with
  | ind n ih =>
    rcases exists_first p cs with hnone | ⟨front, after, rfl, hfront⟩
    · exact last cs hnone
    · refine next front after hfront (ih after.length ?_ after rfl)
      rw [← hn, written, List.cons_append, List.length_append, List.length_cons, List.length_append]
      omega

/-! ### Values for the placeholders of a text -/

/-- Only the values of placeholders that occur matter. -/
theorem fill_congr {value value' : Placeholder → List Char} {cs : List Char}
    (h : ∀ p, occurrences p cs ≠ 0 → value p = value' p) : fill value cs = fill value' cs := by
  induction cs using reading_induction with
  | nil => rw [fill_nil, fill_nil]
  | placeholder q rest ih =>
    have hq : value q = value' q := h q (by simp [occurrences_written_append])
    have hrest : fill value rest = fill value' rest := ih fun p hp =>
      h p (Nat.ne_of_gt (Nat.lt_of_lt_of_le (Nat.pos_of_ne_zero hp) (occurrences_le_append p _ _)))
    rw [fill_written_append, fill_written_append, hq, hrest]
  | char c rest hc ih =>
    have hrest : fill value rest = fill value' rest := ih fun p hp =>
      h p (by rwa [occurrences_cons_of_not_start (start?_eq_none_iff.mp hc p)])
    rw [fill_cons hc, fill_cons hc, hrest]

section Update

variable {value : Placeholder → List Char} {p : Placeholder} {replacement : List Char}

/-- The value of a placeholder that does not occur plays no part. -/
theorem fill_update_of_occurrences {cs : List Char} (h : occurrences p cs = 0) :
    fill (Function.update value p replacement) cs = fill value cs := by
  refine fill_congr fun q hq => Function.update_of_ne ?_ _ _
  rintro rfl
  exact hq h

/-- A placeholder that stands for itself is not lost. -/
theorem occurrences_le_fill (h : value p = p.written) (cs : List Char) :
    occurrences p cs ≤ occurrences p (fill value cs) := by
  induction cs using reading_induction with
  | nil => exact Nat.zero_le _
  | placeholder q rest ih =>
    rw [fill_written_append, occurrences_written_append]
    by_cases hq : q = p
    · subst hq
      rw [h, occurrences_written_append]
      omega
    · rw [if_neg hq, Nat.zero_add]
      exact Nat.le_trans ih (occurrences_le_append p _ _)
  | char c rest hc ih =>
    rw [fill_cons hc, occurrences_cons_of_not_start (start?_eq_none_iff.mp hc p)]
    exact Nat.le_trans ih (occurrences_le_append p [c] _)

/-- A value for one more placeholder changes a count of characters by as much for each of its
    occurrences. -/
theorem countP_fill_update (h : value p = p.written) (kind : Char → Bool) (cs : List Char) :
    (fill (Function.update value p replacement) cs).countP kind
        + occurrences p cs * p.written.countP kind
      = (fill value cs).countP kind + occurrences p cs * replacement.countP kind := by
  induction cs using reading_induction with
  | nil => simp [fill_nil, occurrences]
  | placeholder q rest ih =>
    rw [fill_written_append, fill_written_append, occurrences_written_append]
    by_cases hq : q = p
    · subst hq
      simp only [Function.update_self, h, List.countP_append, if_true, Nat.add_mul, Nat.one_mul]
      omega
    · simp only [Function.update_of_ne hq, List.countP_append, if_neg hq, Nat.zero_add]
      omega
  | char c rest hc ih =>
    rw [fill_cons hc, fill_cons hc, occurrences_cons_of_not_start (start?_eq_none_iff.mp hc p)]
    simp only [List.countP_cons]
    omega

/-- How long a text gets by another value for a placeholder that stood for itself. -/
theorem length_fill_update (h : value p = p.written) (cs : List Char) :
    (fill (Function.update value p replacement) cs).length + occurrences p cs * p.written.length
      = (fill value cs).length + occurrences p cs * replacement.length := by
  simpa only [List.countP_true] using countP_fill_update h (fun _ => true) cs

/-- It stays as long as it is if the value is as long as the placeholder. -/
theorem length_fill_update_of_length (h : value p = p.written)
    (hlength : replacement.length = p.written.length) (cs : List Char) :
    (fill (Function.update value p replacement) cs).length = (fill value cs).length := by
  have hboth : (fill (Function.update value p replacement) cs).length
      + occurrences p cs * p.written.length
        = (fill value cs).length + occurrences p cs * replacement.length := length_fill_update h cs
  rw [hlength] at hboth
  exact Nat.add_right_cancel hboth

end Update

/-! ### One replacement -/

section Replaced

variable {p : Placeholder} {replacement : List Char}

/-- An occurrence is replaced, whatever stands around it. -/
theorem replaced_append_written (front after : List Char) :
    replaced p replacement (front ++ (p.written ++ after))
      = replaced p replacement front ++ (replacement ++ replaced p replacement after) := by
  simp only [replaced_eq_fill, fill_append_written, Function.update_self]

/-- Another placeholder stays, whatever stands around it. -/
theorem replaced_append_written_of_ne {q : Placeholder} (h : q ≠ p) (front after : List Char) :
    replaced p replacement (front ++ (q.written ++ after))
      = replaced p replacement front ++ (q.written ++ replaced p replacement after) := by
  simp only [replaced_eq_fill, fill_append_written, Function.update_of_ne h]

/-- Where a placeholder does not occur, replacing it changes nothing. -/
theorem replaced_of_occurrences {cs : List Char} (h : occurrences p cs = 0) :
    replaced p replacement cs = cs := by
  rw [replaced_eq_fill, fill_update_of_occurrences h, fill_written]

/-- Replacing a placeholder loses no occurrence of another one. -/
theorem occurrences_le_replaced {q : Placeholder} (h : q ≠ p) (cs : List Char) :
    occurrences q cs ≤ occurrences q (replaced p replacement cs) := by
  rw [replaced_eq_fill]
  exact occurrences_le_fill (Function.update_of_ne h _ _) cs

/-- How many characters of a kind a text has after a replacement. -/
theorem countP_replaced (kind : Char → Bool) (cs : List Char) :
    (replaced p replacement cs).countP kind + occurrences p cs * p.written.countP kind
      = cs.countP kind + occurrences p cs * replacement.countP kind := by
  have hcount : (fill (Function.update written p replacement) cs).countP kind
      + occurrences p cs * p.written.countP kind
        = (fill written cs).countP kind + occurrences p cs * replacement.countP kind :=
    countP_fill_update rfl kind cs
  rwa [← replaced_eq_fill, fill_written] at hcount

/-- How long a text is after a replacement. -/
theorem length_replaced (cs : List Char) :
    (replaced p replacement cs).length + occurrences p cs * p.written.length
      = cs.length + occurrences p cs * replacement.length := by
  simpa only [List.countP_true] using countP_replaced (fun _ => true) cs

/-- It stays as long as it is if the replacement is as long as the placeholder. -/
theorem length_replaced_of_length (h : replacement.length = p.written.length) (cs : List Char) :
    (replaced p replacement cs).length = cs.length := by
  rw [replaced_eq_fill, length_fill_update_of_length rfl h, fill_written]

/-- A replacement that changes nothing has nothing to replace. -/
theorem occurrences_eq_zero_of_replaced_eq_self (hne : replacement ≠ p.written)
    (hlength : replacement.length = p.written.length) {cs : List Char}
    (h : replaced p replacement cs = cs) : occurrences p cs = 0 := by
  rw [replaced_eq_fill] at h
  induction cs using reading_induction with
  | nil => rfl
  | placeholder q rest ih =>
    rw [fill_written_append] at h
    by_cases hq : q = p
    · subst hq
      rw [Function.update_self] at h
      exact absurd (List.append_inj h hlength).1 hne
    · rw [Function.update_of_ne hq] at h
      rw [occurrences_written_append, if_neg hq, ih (List.append_cancel_left h)]
  | char c rest hc ih =>
    rw [fill_cons hc] at h
    rw [occurrences_cons_of_not_start (start?_eq_none_iff.mp hc p), ih (List.cons.inj h).2]

end Replaced

/-! ### One replacement after others -/

/-- Where more occurrences come to the same length, the placeholder is as long as what replaces
    it. -/
theorem eq_or_eq_of_mul_add_mul_eq {few many short long : Nat} (hle : few ≤ many)
    (h : many * long + few * short = few * long + many * short) : many = few ∨ long = short := by
  obtain ⟨more, rfl⟩ := Nat.exists_eq_add_of_le hle
  rw [Nat.add_mul, Nat.add_mul] at h
  have hmore : more * long = more * short := by omega
  rcases Nat.eq_zero_or_pos more with hzero | hpos
  · exact .inl (by omega)
  · exact .inr (Nat.eq_of_mul_eq_mul_left hpos hmore)

section Passes

variable {value : Placeholder → List Char} {p : Placeholder} {replacement : List Char}

/-- Without new occurrences a replacement after others gives what one reading gives. -/
theorem replaced_fill_of_occurrences_eq (h : value p = p.written) {cs : List Char}
    (hcount : occurrences p (fill value cs) = occurrences p cs) :
    replaced p replacement (fill value cs)
      = fill (Function.update value p replacement) cs := by
  induction cs using split_induction p with
  | last cs hnone =>
    rw [replaced_of_occurrences (hcount.trans hnone), fill_update_of_occurrences hnone]
  | next front after hfront ih =>
    -- The occurrence between the two parts stays, and each part has at least its own: so neither
    -- has a new one.
    have hkept := occurrences_le_fill h after
    rw [fill_append_written, h] at hcount ⊢
    rw [occurrences_append_written, occurrences_append_written, hfront] at hcount
    have hnone : occurrences p (fill value front) = 0 := by omega
    rw [replaced_append_written, fill_append_written, Function.update_self,
      replaced_of_occurrences hnone, fill_update_of_occurrences hfront, ih (by omega)]

/-- A replacement after others that gives what one reading gives, with a value as long as the
    placeholder: the two texts have the same parts. -/
theorem occurrences_eq_of_length (h : value p = p.written) (hne : replacement ≠ p.written)
    (hlength : replacement.length = p.written.length) {cs : List Char}
    (hsame : replaced p replacement (fill value cs)
      = fill (Function.update value p replacement) cs) :
    occurrences p (fill value cs) = occurrences p cs := by
  induction cs using split_induction p with
  | last cs hnone =>
    rw [fill_update_of_occurrences hnone] at hsame
    rw [hnone, occurrences_eq_zero_of_replaced_eq_self hne hlength hsame]
  | next front after hfront ih =>
    rw [fill_append_written, h] at hsame ⊢
    rw [replaced_append_written, fill_append_written, Function.update_self,
      fill_update_of_occurrences hfront] at hsame
    -- The replacement keeps the length of the first part, so the two sides agree on it.
    obtain ⟨hbefore, hafter⟩ :=
      List.append_inj hsame (length_replaced_of_length hlength (fill value front))
    rw [occurrences_append_written, occurrences_append_written, hfront,
      occurrences_eq_zero_of_replaced_eq_self hne hlength hbefore,
      ih (List.append_cancel_left hafter)]

/-- **One replacement after others.** It gives what one reading gives if and only if the values that
    are already there made no new occurrence, or the placeholder is replaced by itself. -/
theorem replaced_fill_eq_iff (h : value p = p.written) (cs : List Char) :
    replaced p replacement (fill value cs) = fill (Function.update value p replacement) cs
      ↔ occurrences p (fill value cs) = occurrences p cs ∨ replacement = p.written := by
  constructor
  · intro hsame
    by_cases hne : replacement = p.written
    · exact .inr hne
    · refine .inl ?_
      -- both ways come out equally long, so the occurrences make up for the lengths
      have hmany : (replaced p replacement (fill value cs)).length
          + occurrences p (fill value cs) * p.written.length
            = (fill value cs).length + occurrences p (fill value cs) * replacement.length :=
        length_replaced (fill value cs)
      have hfew : (fill (Function.update value p replacement) cs).length
          + occurrences p cs * p.written.length
            = (fill value cs).length + occurrences p cs * replacement.length :=
        length_fill_update h cs
      rw [hsame] at hmany
      have heven : occurrences p (fill value cs) * replacement.length
          + occurrences p cs * p.written.length
            = occurrences p cs * replacement.length
              + occurrences p (fill value cs) * p.written.length := by omega
      rcases eq_or_eq_of_mul_add_mul_eq (occurrences_le_fill h cs) heven with hcount | hlength
      · exact hcount
      · exact occurrences_eq_of_length h hne hlength hsame
  · rintro (hcount | rfl)
    · exact replaced_fill_of_occurrences_eq h hcount
    · rw [replaced_eq_fill, Function.update_eq_self, fill_written, ← h, Function.update_eq_self]

variable {q : Placeholder} {next : List Char}

/-- A placeholder that stands for itself still does when another one gets a value. -/
theorem update_written (hne : p ≠ q) (hq : value q = q.written) :
    Function.update value p replacement q = q.written := by
  rw [Function.update_of_ne hne.symm, hq]

/-- Neither a reading nor a replacement loses an occurrence of a placeholder that stands for itself.
    -/
theorem occurrences_le_replaced_fill (hne : p ≠ q) (hq : value q = q.written) (cs : List Char) :
    occurrences q cs ≤ occurrences q (replaced p replacement (fill value cs)) :=
  Nat.le_trans (occurrences_le_fill hq cs) (occurrences_le_replaced hne.symm _)

/-- Two replacements after others that give what one reading gives: if the second had nothing new to
    replace and the first replaced by texts of the same length, the first gave it too. -/
theorem replaced_fill_of_next (hne : p ≠ q) (hp : value p = p.written) (hq : value q = q.written)
    (hlength : replacement.length = p.written.length) {cs : List Char}
    (hcount : occurrences q (replaced p replacement (fill value cs)) = occurrences q cs)
    (hsame : replaced q next (replaced p replacement (fill value cs))
      = fill (Function.update (Function.update value p replacement) q next) cs) :
    replaced p replacement (fill value cs) = fill (Function.update value p replacement) cs := by
  induction cs using split_induction q with
  | last cs hnone =>
    rwa [replaced_of_occurrences (hcount.trans hnone), fill_update_of_occurrences hnone] at hsame
  | next front after hfront ih =>
    have hkept : occurrences q after ≤ occurrences q (replaced p replacement (fill value after)) :=
      occurrences_le_replaced_fill hne hq after
    rw [fill_append_written, hq, replaced_append_written_of_ne hne.symm] at hcount hsame ⊢
    rw [occurrences_append_written, occurrences_append_written, hfront] at hcount
    -- The second replacement leaves the first part alone, and this part is as long as it should be.
    have hnone : occurrences q (replaced p replacement (fill value front)) = 0 := by omega
    rw [replaced_append_written, fill_append_written, Function.update_self,
      replaced_of_occurrences hnone, fill_update_of_occurrences hfront] at hsame
    have hlengths : (replaced p replacement (fill value front)).length
        = (fill (Function.update value p replacement) front).length := by
      rw [length_replaced_of_length hlength, length_fill_update_of_length hp hlength]
    obtain ⟨hbefore, hafter⟩ := List.append_inj hsame hlengths
    rw [hbefore, ih (by omega) (List.append_cancel_left hafter), fill_append_written,
      update_written hne hq]

/-- Two replacements after others that give what one reading gives: what they replace too much comes
    out even in every count of characters. -/
theorem countP_of_next (hne : p ≠ q) (hp : value p = p.written) (hq : value q = q.written)
    {cs : List Char}
    (hsame : replaced q next (replaced p replacement (fill value cs))
      = fill (Function.update (Function.update value p replacement) q next) cs)
    (kind : Char → Bool) :
    occurrences p (fill value cs) * replacement.countP kind
        + occurrences p cs * p.written.countP kind
        + (occurrences q (replaced p replacement (fill value cs)) * next.countP kind
          + occurrences q cs * q.written.countP kind)
      = occurrences p cs * replacement.countP kind
        + occurrences p (fill value cs) * p.written.countP kind
        + (occurrences q cs * next.countP kind
          + occurrences q (replaced p replacement (fill value cs)) * q.written.countP kind) := by
  have hq' : Function.update value p replacement q = q.written := update_written hne hq
  -- each way counts what it takes out against what it puts in
  have hfirst : (replaced p replacement (fill value cs)).countP kind
      + occurrences p (fill value cs) * p.written.countP kind
        = (fill value cs).countP kind + occurrences p (fill value cs) * replacement.countP kind :=
    countP_replaced kind (fill value cs)
  have hsecond : (replaced q next (replaced p replacement (fill value cs))).countP kind
      + occurrences q (replaced p replacement (fill value cs)) * q.written.countP kind
        = (replaced p replacement (fill value cs)).countP kind
          + occurrences q (replaced p replacement (fill value cs)) * next.countP kind :=
    countP_replaced kind (replaced p replacement (fill value cs))
  have hfirst' : (fill (Function.update value p replacement) cs).countP kind
      + occurrences p cs * p.written.countP kind
        = (fill value cs).countP kind + occurrences p cs * replacement.countP kind :=
    countP_fill_update hp kind cs
  have hsecond' :
      (fill (Function.update (Function.update value p replacement) q next) cs).countP kind
        + occurrences q cs * q.written.countP kind
        = (fill (Function.update value p replacement) cs).countP kind
          + occurrences q cs * next.countP kind :=
    countP_fill_update hq' kind cs
  rw [hsame] at hsecond
  omega

/-- **Two replacements after others.** If the second value has a character that no placeholder has,
    they give what one reading gives if and only if the first does and the second has nothing new to
    replace. -/
theorem replaced_replaced_fill_eq_iff (hne : p ≠ q) (hp : value p = p.written)
    (hq : value q = q.written) {kind : Char → Bool}
    (hkind : ∀ r : Placeholder, r.written.countP kind = 0) (hnext : 0 < next.countP kind)
    (cs : List Char) :
    replaced q next (replaced p replacement (fill value cs))
        = fill (Function.update (Function.update value p replacement) q next) cs
      ↔ (occurrences p (fill value cs) = occurrences p cs ∨ replacement = p.written) ∧
          occurrences q (replaced p replacement (fill value cs)) = occurrences q cs := by
  have hq' : Function.update value p replacement q = q.written := update_written hne hq
  rw [← replaced_fill_eq_iff hp]
  constructor
  · intro hsame
    have hkept : occurrences q cs ≤ occurrences q (replaced p replacement (fill value cs)) :=
      occurrences_le_replaced_fill hne hq cs
    -- The placeholders have no characters of this kind, so more of them can only be too many: the
    -- second replaced nothing new.
    have hcount : occurrences q (replaced p replacement (fill value cs)) = occurrences q cs := by
      have heven := countP_of_next hne hp hq hsame kind
      have hmore := Nat.mul_le_mul_right (replacement.countP kind) (occurrences_le_fill hp cs)
      simp only [hkind, Nat.mul_zero, Nat.add_zero] at heven
      have hle : occurrences q (replaced p replacement (fill value cs)) * next.countP kind
          ≤ occurrences q cs * next.countP kind := by omega
      exact Nat.le_antisymm (Nat.le_of_mul_le_mul_right hle hnext) hkept
    refine ⟨?_, hcount⟩
    -- Now the first alone has to come out even in length.
    have heven := countP_of_next hne hp hq hsame fun _ => true
    simp only [List.countP_true, hcount] at heven
    have heven' := Nat.add_right_cancel heven
    rcases eq_or_eq_of_mul_add_mul_eq (occurrences_le_fill hp cs) heven' with hfirst | hlength
    · exact replaced_fill_of_occurrences_eq hp hfirst
    · exact replaced_fill_of_next hne hp hq hlength hcount hsame
  · rintro ⟨hfirst, hcount⟩
    rw [hfirst] at hcount ⊢
    exact replaced_fill_of_occurrences_eq hq' hcount

end Passes

/-! ### Three replacements -/

/-- The template after the name is in it. -/
def named (template : String) (d : Definition) : List Char :=
  replaced .name d.name.toList template.toList

/-- The template after the name and the version are in it. -/
def versioned (template : String) (d : Definition) : List Char :=
  replaced .version d.version.toList (named template d)

/-- The digest is put in last. -/
theorem installCommand_eq_replaced (template : String) (d : Definition) :
    installCommand template d = replaced .digest d.digest.text.toList (versioned template d) := rfl

/-- The values of a definition are put in one after the other. -/
theorem value_eq_update (d : Definition) :
    value d = Function.update (Function.update (Function.update written .name d.name.toList)
      .version d.version.toList) .digest d.digest.text.toList := by
  funext p
  cases p <;> rfl

/-- No placeholder has a colon. -/
theorem countP_colon_written (p : Placeholder) : p.written.countP (· == ':') = 0 := by
  cases p <;> decide

/-- Every digest has one. -/
theorem countP_colon_text_pos (digest : Digest) : 0 < digest.text.toList.countP (· == ':') := by
  refine List.countP_pos_iff.mpr ⟨':', ?_, rfl⟩
  simp [Digest.text]

/-- **Placeholders are replaced one after the other.** The command is the template read once, with
    the definition's values for the placeholders, if and only if the name makes no placeholder for
    the version and the two make none for the digest.  The version may also be its own
    placeholder. -/
theorem installCommand_eq_fill_iff (template : String) (d : Definition) :
    installCommand template d = fill (value d) template.toList
      ↔ (occurrences .version (named template d) = occurrences .version template.toList ∨
            d.version.toList = written .version) ∧
          occurrences .digest (versioned template d) = occurrences .digest template.toList := by
  rw [installCommand_eq_replaced, value_eq_update, versioned, named, replaced_eq_fill .name]
  have hversion : Function.update written .name d.name.toList .version = written .version :=
    Function.update_of_ne (by decide) _ _
  have hdigest : Function.update written .name d.name.toList .digest = written .digest :=
    Function.update_of_ne (by decide) _ _
  exact replaced_replaced_fill_eq_iff (by decide) hversion hdigest countP_colon_written
    (countP_colon_text_pos d.digest) template.toList

/-- A tool whose version is written as the placeholder for the digest. -/
def taggedTool : Definition :=
  ⟨"fetch", "\x7bdigest\x7d", Realization.sampleDigest,
    KeyMap.empty.insert "install" "fetch --tag \x7bversion\x7d"⟩

/-- **A version that is replaced.** The template asks for the version, and the command has the
    digest in its place. -/
theorem version_read_as_placeholder :
    ∃ template, taggedTool.installTemplate = some template ∧
      fill (value taggedTool) template.toList = "fetch --tag \x7bdigest\x7d".toList ∧
      installCommand template taggedTool = "fetch --tag sha512:ab12".toList ∧
      ∀ naming, installLine naming taggedTool = .ok "RUN fetch --tag sha512:ab12".toList := by
  refine ⟨"fetch --tag \x7bversion\x7d", rfl, ?_, ?_, ?_⟩
  · with_unfolding_all rfl
  · with_unfolding_all rfl
  · intro naming
    with_unfolding_all rfl

end ImageSpec.Script
