import ImageSpec.Proofs.ReferenceText

namespace ImageSpec.Reference

/-!
# The separator of a constraint

Behind its last slash a text may hold several colons, and each of them cuts it into a name and a
constraint.  Reading takes the first one, so that a constraint may hold further colons but the last
segment of a name cannot.  The first colon is the last one only where no other follows.

* `ColonCut`, `FirstColon`, `LastColon` — the colons behind the last slash.
* `firstColon_iff`, `lastColon_iff` — which cut is at the first of them, and which at the last.
* `exists_lastColon` — where there is a cut, there is one at the last colon.
* `parse_first_colon` — what reading does, and when it makes no difference.
* `parse_misses_last_colon` — a text where it does.
-/

/-! ### Colons behind the last slash -/

/-- A colon behind the last slash of a text, with what stands before it and behind it. -/
structure ColonCut (s name constraint : String) : Prop where
  text : name ++ ":" ++ constraint = s
  behind : '/' ∉ constraint.toList

/-- The cut at the first colon behind the last slash. -/
def FirstColon (s name constraint : String) : Prop :=
  ColonCut s name constraint ∧
    ∀ name' constraint', ColonCut s name' constraint' → name.length ≤ name'.length

/-- The cut at the last colon behind the last slash. -/
def LastColon (s name constraint : String) : Prop :=
  ColonCut s name constraint ∧
    ∀ name' constraint', ColonCut s name' constraint' → name'.length ≤ name.length

/-- The number of colons behind the last slash. -/
def colonsBehind (s : String) : Nat := (cutPath s.toList).2.count ':'

theorem ColonCut.toList {s name constraint : String} (h : ColonCut s name constraint) :
    s.toList = name.toList ++ ':' :: constraint.toList := by
  rw [← h.text]
  simp

/-- A colon with no slash behind it is a cut. -/
theorem colonCut_ofList {s : String} {name constraint : List Char}
    (h : s.toList = name ++ ':' :: constraint) (hslash : '/' ∉ constraint) :
    ColonCut s (String.ofList name) (String.ofList constraint) where
  text := by
    apply String.toList_injective
    rw [h]
    simp
  behind := by simpa using hslash

/-- Of two cuts, the one with the longer name is inside the constraint of the other. -/
theorem ColonCut.inside {s name constraint name' constraint' : String}
    (h : ColonCut s name constraint) (h' : ColonCut s name' constraint')
    (hlt : name.length < name'.length) :
    ∃ mid, name'.toList = name.toList ++ ':' :: mid ∧
      constraint.toList = mid ++ ':' :: constraint'.toList := by
  have hsame : name.toList ++ ':' :: constraint.toList
      = name'.toList ++ ':' :: constraint'.toList := by
    rw [← h.toList, ← h'.toList]
  have hlength : name.toList.length < name'.toList.length := by
    rwa [String.length_toList, String.length_toList]
  rcases List.append_eq_append_iff.mp hsame with ⟨more, hname, hrest⟩ | ⟨more, hname, hrest⟩
  · cases more with
    | nil =>
      rw [hname] at hlength
      simp at hlength
    | cons c mid =>
      obtain ⟨rfl, hmid⟩ := List.cons.inj hrest
      exact ⟨mid, hname, hmid⟩
  · rw [hname, List.length_append] at hlength
    omega

/-- A colon in the last segment is one with no slash behind it. -/
theorem exists_colon_behind {cs : List Char} (h : ':' ∈ (cutPath cs).2) :
    ∃ front mid, cs = front ++ ':' :: mid ∧ '/' ∉ mid := by
  obtain ⟨before, mid, hlast⟩ := List.append_of_mem h
  refine ⟨(cutPath cs).1 ++ before, mid, ?_, fun hslash => ?_⟩
  · rw [List.append_assoc, ← hlast, append_cutPath]
  · apply slash_not_mem_cutPath cs
    rw [hlast]
    simp [hslash]

/-- **The first colon.** A cut is at the first colon if the last segment of its name has none. -/
theorem firstColon_iff {s name constraint : String} :
    FirstColon s name constraint ↔ ColonCut s name constraint ∧ EndsPlain name := by
  rw [endsPlain_iff]
  constructor
  · rintro ⟨h, hfirst⟩
    refine ⟨h, fun hmem => ?_⟩
    -- a colon in the last segment of the name would be a cut with a shorter name
    obtain ⟨front, mid, hname, hmid⟩ := exists_colon_behind hmem
    have htext : s.toList = front ++ ':' :: (mid ++ ':' :: constraint.toList) := by
      rw [h.toList, hname]
      simp
    have hslash : '/' ∉ mid ++ ':' :: constraint.toList := by simp [hmid, h.behind]
    have hle := hfirst _ _ (colonCut_ofList htext hslash)
    have hlength : name.length = front.length + (mid.length + 1) := by
      rw [← String.length_toList, hname, List.length_append, List.length_cons]
    rw [String.length_ofList] at hle
    omega
  · rintro ⟨h, hplain⟩
    refine ⟨h, fun name' constraint' h' => Nat.le_of_not_lt fun hlt => ?_⟩
    obtain ⟨mid, hname, hconstraint⟩ := h'.inside h hlt
    have hslash : '/' ∉ ':' :: mid := by
      intro hmem
      apply h'.behind
      rw [hconstraint]
      simpa using Or.inl hmem
    apply hplain
    rw [hname, cutPath_append _ hslash]
    simp

/-- **The last colon.** A cut is at the last colon if its constraint has none. -/
theorem lastColon_iff {s name constraint : String} :
    LastColon s name constraint ↔ ColonCut s name constraint ∧ ':' ∉ constraint.toList := by
  constructor
  · rintro ⟨h, hlast⟩
    refine ⟨h, fun hmem => ?_⟩
    obtain ⟨before, after, hconstraint⟩ := List.append_of_mem hmem
    -- a colon in the constraint would make a cut further on
    have htext : s.toList = (name.toList ++ ':' :: before) ++ ':' :: after := by
      rw [h.toList, hconstraint]
      simp
    have hslash : '/' ∉ after := by
      intro hslash
      apply h.behind
      rw [hconstraint]
      simp [hslash]
    have hle := hlast _ _ (colonCut_ofList htext hslash)
    simp only [String.length_ofList, List.length_append, List.length_cons,
      String.length_toList] at hle
    omega
  · rintro ⟨h, hcolon⟩
    refine ⟨h, fun name' constraint' h' => Nat.le_of_not_lt fun hlt => ?_⟩
    obtain ⟨mid, -, hconstraint⟩ := h.inside h' hlt
    apply hcolon
    rw [hconstraint]
    simp

/-- The last colon is behind every cut or is the cut itself. -/
theorem exists_lastColon {s name constraint : String} (h : ColonCut s name constraint) :
    ∃ name' constraint', LastColon s name' constraint' ∧ name.toList <+: name'.toList := by
  by_cases hcolon : ':' ∈ constraint.toList
  · -- read backwards, the last colon is the first one
    obtain ⟨after, before, hreverse, hafter⟩ :=
      List.eq_append_cons_of_mem (List.mem_reverse.mpr hcolon)
    have hconstraint : constraint.toList = before.reverse ++ ':' :: after.reverse := by
      rw [← List.reverse_reverse constraint.toList, hreverse]
      simp
    have htext : s.toList = (name.toList ++ ':' :: before.reverse) ++ ':' :: after.reverse := by
      rw [h.toList, hconstraint]
      simp
    have hslash : '/' ∉ after.reverse := by
      intro hslash
      apply h.behind
      rw [hconstraint]
      simpa using Or.inr (List.mem_reverse.mp hslash)
    refine ⟨_, _, lastColon_iff.mpr ⟨colonCut_ofList htext hslash, by simpa using hafter⟩, ?_⟩
    rw [String.toList_ofList]
    exact List.prefix_append _ _
  · exact ⟨name, constraint, lastColon_iff.mpr ⟨h, hcolon⟩, List.prefix_rfl⟩

/-- Behind the first colon there are all others. -/
theorem FirstColon.colonsBehind_eq {s name constraint : String}
    (h : FirstColon s name constraint) :
    colonsBehind s = constraint.toList.count ':' + 1 := by
  obtain ⟨hcut, hplain⟩ := firstColon_iff.mp h
  have hslash : '/' ∉ ':' :: constraint.toList := by simpa using hcut.behind
  have hnone : (cutPath name.toList).2.count ':' = 0 :=
    List.count_eq_zero.mpr (endsPlain_iff.mp hplain)
  rw [colonsBehind, hcut.toList, cutPath_append _ hslash, List.count_append, hnone,
    List.count_cons_self]
  omega

/-! ### Reading -/

/-- **Reading cuts at the first colon.** Where a constraint is read, the name is what stands before
    the first colon behind the last slash, and the constraint is what stands behind it.  The last of
    these colons is there too, at the end of the name or farther on, and the two are the same if and
    only if one colon alone stands behind the last slash. -/
theorem parse_first_colon {s : String} {r : Reference} {constraint : String}
    (h : parse s = .ok r) (hconstraint : r.constraint = some constraint) :
    FirstColon s r.name constraint ∧
      (∃ name last, LastColon s name last ∧ r.name.toList <+: name.toList) ∧
      (LastColon s r.name constraint ↔ colonsBehind s = 1) := by
  obtain ⟨htext, hwritable⟩ := parse_eq_ok_iff.mp h
  have hcut : ColonCut s r.name constraint := by
    constructor
    · rw [← htext, text, hconstraint]
    · intro hslash
      exact ((hwritable.isConstraint constraint hconstraint).chars '/' hslash).2 rfl
  have hfirst : FirstColon s r.name constraint := firstColon_iff.mpr ⟨hcut, hwritable.endsPlain⟩
  refine ⟨hfirst, exists_lastColon hcut, ?_⟩
  rw [hfirst.colonsBehind_eq, lastColon_iff]
  constructor
  · rintro ⟨-, hnone⟩
    rw [List.count_eq_zero.mpr hnone]
  · intro hone
    exact ⟨hcut, List.count_eq_zero.mp (by omega)⟩

/-- The port of a registry is no separator, and the one colon behind the path is the last. -/
theorem parse_registry_at_last_colon :
    parse "localhost:5000/tools/jq:1.7" = .ok ⟨"localhost:5000/tools/jq", some "1.7"⟩ ∧
      LastColon "localhost:5000/tools/jq:1.7" "localhost:5000/tools/jq" "1.7" := by
  have hread : parse "localhost:5000/tools/jq:1.7"
      = .ok ⟨"localhost:5000/tools/jq", some "1.7"⟩ := by with_unfolding_all rfl
  have hone : colonsBehind "localhost:5000/tools/jq:1.7" = 1 := by decide +kernel
  exact ⟨hread, (parse_first_colon hread rfl).2.2.mpr hone⟩

/-- With two colons behind the path, the last one is in the constraint. -/
theorem parse_misses_last_colon :
    parse "jq:1:6" = .ok ⟨"jq", some "1:6"⟩ ∧ LastColon "jq:1:6" "jq:1" "6" ∧
      ¬ LastColon "jq:1:6" "jq" "1:6" := by
  have hread : parse "jq:1:6" = .ok ⟨"jq", some "1:6"⟩ := by with_unfolding_all rfl
  have hlast : LastColon "jq:1:6" "jq:1" "6" :=
    lastColon_iff.mpr ⟨⟨by decide, by decide⟩, by decide⟩
  refine ⟨hread, hlast, fun h => ?_⟩
  exact (lastColon_iff.mp h).2 (by decide)

end ImageSpec.Reference
