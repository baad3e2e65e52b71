namespace ImageSpec

/-!
# Maps with ordered text keys

`KeyMap α` is a finite map from texts to `α` that keeps its entries in the order of their keys.  Two
maps with the same entries are equal, whatever the order of insertion was.
-/

/-- A finite map from texts, in ascending order of its keys. -/
structure KeyMap (α : Type) where
  entries : List (String × α)
  sorted : entries.Pairwise (fun a b => a.1 < b.1) := by simp
deriving DecidableEq

namespace KeyMap

variable {α : Type}

/-- Two maps with the same entries are equal. -/
@[ext] theorem ext {m n : KeyMap α} (h : m.entries = n.entries) : m = n := by
  cases m
  cases n
  cases h
  rfl

/-- The map without entries. -/
def empty : KeyMap α := { entries := [] }

instance : Inhabited (KeyMap α) := ⟨empty⟩

/-- The value of a key. -/
def get? (m : KeyMap α) (key : String) : Option α := m.entries.lookup key

/-- Puts an entry in its place among ordered entries, instead of one with the same key. -/
def insertEntry (key : String) (value : α) : List (String × α) → List (String × α)
  | [] => [(key, value)]
  | (k, v) :: rest =>
    if key < k then (key, value) :: (k, v) :: rest
    else if key = k then (key, value) :: rest
    else (k, v) :: insertEntry key value rest

/-- Every entry after an insertion is the new one or an old one. -/
theorem mem_insertEntry {key : String} {value : α} {l : List (String × α)} {e : String × α}
    (h : e ∈ insertEntry key value l) : e = (key, value) ∨ e ∈ l := by
  induction l with
  | nil => simpa [insertEntry] using h
  | cons x rest ih =>
    obtain ⟨k, v⟩ := x
    unfold insertEntry at h
    split at h
    · simpa using h
    · split at h
      · rcases List.mem_cons.mp h with h | h
        · exact Or.inl h
        · exact Or.inr (List.mem_cons_of_mem _ h)
      · rcases List.mem_cons.mp h with h | h
        · exact Or.inr (by simp [h])
        · exact (ih h).imp_right (List.mem_cons_of_mem _)

/-- Two different texts are in order one way or the other. -/
theorem lt_of_not_lt_of_ne {a b : String} (h : ¬ a < b) (hne : a ≠ b) : b < a := by
  rw [← String.not_le]
  intro hle
  exact hne (String.le_antisymm hle (String.not_lt.mp h))

/-- Insertion keeps the entries in order. -/
theorem sorted_insertEntry {key : String} {value : α} {l : List (String × α)}
    (h : l.Pairwise (fun a b => a.1 < b.1)) :
    (insertEntry key value l).Pairwise (fun a b => a.1 < b.1) := by
  induction l with
  | nil => simp [insertEntry]
  | cons x rest ih =>
    obtain ⟨k, v⟩ := x
    obtain ⟨hx, hrest⟩ := List.pairwise_cons.mp h
    unfold insertEntry
    split
    · rename_i hlt
      refine List.pairwise_cons.mpr ⟨?_, h⟩
      intro e he
      rcases List.mem_cons.mp he with rfl | he
      · exact hlt
      · exact String.lt_trans hlt (hx e he)
    · split
      · rename_i heq
        subst heq
        exact List.pairwise_cons.mpr ⟨hx, hrest⟩
      · rename_i hnlt hne
        refine List.pairwise_cons.mpr ⟨?_, ih hrest⟩
        intro e he
        rcases mem_insertEntry he with rfl | he
        · exact lt_of_not_lt_of_ne hnlt hne
        · exact hx e he

/-- The map with one more entry; an earlier value of the key is lost. -/
def insert (m : KeyMap α) (key : String) (value : α) : KeyMap α :=
  { entries := insertEntry key value m.entries, sorted := sorted_insertEntry m.sorted }

/-- The map that holds the pairs of a list; of several values of one key the last counts. -/
def ofList (pairs : List (String × α)) : KeyMap α :=
  pairs.foldl (fun m (key, value) => m.insert key value) empty

/-- The number of keys. -/
def size (m : KeyMap α) : Nat := m.entries.length

/-- Whether there is no entry. -/
def isEmpty (m : KeyMap α) : Bool := m.entries.isEmpty

/-! ### Values of keys -/

@[simp] theorem get?_empty (key : String) : (empty : KeyMap α).get? key = none := rfl

theorem lookup_cons_eq_ite {κ : Type} [DecidableEq κ] (key k : κ) (v : α) (rest : List (κ × α)) :
    ((k, v) :: rest).lookup key = if key = k then some v else rest.lookup key := by
  rw [List.lookup_cons]
  by_cases h : key = k
  · simp [h]
  · have hbeq : (key == k) = false := by simpa using h
    rw [hbeq, if_neg h]

/-- Of the entries, an insertion changes the one under its key. -/
theorem lookup_insertEntry (key key' : String) (value : α) (l : List (String × α)) :
    (insertEntry key value l).lookup key' = if key' = key then some value else l.lookup key' := by
  induction l with
  | nil => rw [insertEntry, lookup_cons_eq_ite]
  | cons x rest ih =>
    obtain ⟨k, v⟩ := x
    unfold insertEntry
    split
    · rw [lookup_cons_eq_ite]
    · split
      · rename_i heq
        subst heq
        rw [lookup_cons_eq_ite, lookup_cons_eq_ite]
        split <;> rfl
      · rename_i hne
        rw [lookup_cons_eq_ite, lookup_cons_eq_ite, ih]
        by_cases h : key' = key
        · subst h
          rw [if_neg hne, if_pos rfl, if_pos rfl]
        · rw [if_neg h, if_neg h]

/-- After an insertion the key has the new value and every other key its old one. -/
theorem get?_insert (m : KeyMap α) (key key' : String) (value : α) :
    (m.insert key value).get? key' = if key' = key then some value else m.get? key' :=
  lookup_insertEntry key key' value m.entries

/-- The value of a key is the one that stands with it. -/
theorem get?_eq_some_iff {m : KeyMap α} {key : String} {value : α} :
    m.get? key = some value ↔ (key, value) ∈ m.entries := by
  obtain ⟨entries, sorted⟩ := m
  show entries.lookup key = some value ↔ (key, value) ∈ entries
  induction entries with
  | nil => simp
  | cons x rest ih =>
    obtain ⟨k, v⟩ := x
    obtain ⟨hfirst, hrest⟩ := List.pairwise_cons.mp sorted
    rw [lookup_cons_eq_ite, List.mem_cons]
    by_cases h : key = k
    · subst h
      -- the key stands in front, and not again behind
      have hnot : (key, value) ∉ rest := fun hmem => String.lt_irrefl key (hfirst _ hmem)
      simp [hnot, eq_comm]
    · rw [if_neg h, ih hrest]
      simp [h]

/-- Maps with the same values for all keys are equal. -/
theorem ext_get? {m n : KeyMap α} (h : ∀ key, m.get? key = n.get? key) : m = n := by
  have hmem : ∀ e, e ∈ m.entries ↔ e ∈ n.entries := by
    intro e
    rw [← get?_eq_some_iff, ← get?_eq_some_iff, h]
  have hnodup : ∀ l : KeyMap α, l.entries.Nodup := by
    intro l
    refine l.sorted.imp ?_
    intro a b hlt heq
    rw [heq] at hlt
    exact String.lt_irrefl _ hlt
  apply ext
  refine List.Perm.eq_of_pairwise ?_ m.sorted n.sorted ?_
  · intro a b _ _ hab hba
    exact absurd (String.lt_trans hab hba) (String.lt_irrefl _)
  · exact (List.perm_ext_iff_of_nodup (hnodup m) (hnodup n)).mpr hmem

end KeyMap

/-- What an artifact says about itself: free texts under free keys. -/
abbrev Metadata : Type := KeyMap String

end ImageSpec
