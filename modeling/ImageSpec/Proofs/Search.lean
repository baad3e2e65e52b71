import ImageSpec.Proofs.Walk

namespace ImageSpec.Walk

/-!
# The search for a cycle against the walk

The first pass of the search keeps single vertices on its stack, with repetitions; the walk keeps
visits.  `Shadows` relates the two stacks, and from it follows that a search which is not broken off
leaves the vertices exactly as the walk does (`eq_foldl_visit_of_searchFrom`).  For the second pass,
`second?_eq_none_iff` says when it comes to no second vertex, and `exists_before_of_second?` which
vertex the second one is.
-/

variable {n : Nat} {next : Fin n → List (Fin n)}

/-! ### Vertices that have not been seen -/

/-- The fresh ones of some units are those that are unseen. -/
theorem mem_fresh {w : Walk n} {us : List (Fin n)} {u : Fin n} :
    u ∈ w.fresh us ↔ u ∈ us ∧ u ∈ w.unseen := by
  simp [fresh]

theorem fresh_cons_of_mem {w : Walk n} {u : Fin n} (h : u ∈ w.unseen) (us : List (Fin n)) :
    w.fresh (u :: us) = u :: w.fresh us :=
  List.filter_cons_of_pos (by simpa using h)

theorem fresh_cons_of_not_mem {w : Walk n} {u : Fin n} (h : u ∉ w.unseen) (us : List (Fin n)) :
    w.fresh (u :: us) = w.fresh us :=
  List.filter_cons_of_neg (by simpa using h)

/-- Vertices that are fresh after another one is seen were fresh before. -/
theorem fresh_discover (w : Walk n) (a : Fin n) (us : List (Fin n)) :
    (w.discover a).fresh us = (w.discover a).fresh (w.fresh us) := by
  unfold fresh
  rw [List.filter_filter]
  apply List.filter_congr
  intro u _
  have herase : u ∈ (w.discover a).unseen → u ∈ w.unseen := List.mem_of_mem_erase
  by_cases hu : u ∈ (w.discover a).unseen
  · simp [hu, herase hu]
  · simp [hu]

/-! ### Steps of the walk, several at a time -/

/-- A visit whose pending vertices have all been seen is closed. -/
theorem run_of_pending_seen {w : Walk n} {v : Fin n} {pending : List (Fin n)}
    {rest : List (Visit n)} (hs : Sound next w (⟨v, pending⟩ :: rest))
    (h : w.fresh pending = []) :
    Sound next (w.finish v) rest ∧
      run next w (⟨v, pending⟩ :: rest) = run next (w.finish v) rest := by
  induction pending with
  | nil => exact ⟨hs.finish, by rw [run]⟩
  | cons u pending ih =>
    have hu : u ∉ w.unseen := by
      intro hu
      rw [fresh_cons_of_mem hu] at h
      cases h
    rw [fresh_cons_of_not_mem hu] at h
    rw [run, if_neg hu]
    exact ih (hs.skip hu) h

/-- The first pending vertex that has not been seen is visited next. -/
theorem run_of_pending_unseen {w : Walk n} {v u : Fin n} {pending others : List (Fin n)}
    {rest : List (Visit n)} (hs : Sound next w (⟨v, pending⟩ :: rest))
    (h : w.fresh pending = u :: others) :
    ∃ later, w.fresh later = others ∧
      Sound next (w.discover u) (⟨u, next u⟩ :: ⟨v, later⟩ :: rest) ∧
      run next w (⟨v, pending⟩ :: rest)
        = run next (w.discover u) (⟨u, next u⟩ :: ⟨v, later⟩ :: rest) := by
  induction pending with
  | nil => cases h
  | cons a pending ih =>
    by_cases ha : a ∈ w.unseen
    · rw [fresh_cons_of_mem ha, List.cons.injEq] at h
      obtain ⟨rfl, hothers⟩ := h
      refine ⟨pending, hothers, hs.discover ha, ?_⟩
      rw [run, if_pos ha]
    · rw [fresh_cons_of_not_mem ha] at h
      obtain ⟨later, hlater, hsound, hrun⟩ := ih (hs.skip ha) h
      refine ⟨later, hlater, hsound, ?_⟩
      rw [run, if_neg ha, hrun]

/-! ### The two stacks -/

/-- `Shadows w above visits stack`: the open visits stand on the stack of a search, each as its
    vertex with vertices that wait on top of it.  Waiting and pending are the same vertices in the
    same order, as far as they are unseen; a waiting vertex that has been seen has been left, or is
    the vertex of a visit above, which `above` collects. -/
inductive Shadows (w : Walk n) : List (Fin n) → List (Visit n) → List (Fin n) → Prop
  | nil {above : List (Fin n)} : Shadows w above [] []
  | cons {above pending waiting below : List (Fin n)} {v : Fin n} {rest : List (Visit n)}
      (same : w.fresh pending = w.fresh waiting)
      (met : ∀ u ∈ waiting, u ∈ w.unseen ∨ u ∈ w.finished ∨ u ∈ above)
      (seen : v ∉ w.unseen) (isOpen : v ∉ w.finished)
      (tail : Shadows w (v :: above) rest below) :
      Shadows w above (⟨v, pending⟩ :: rest) (waiting ++ v :: below)

namespace Shadows

variable {w : Walk n} {above above' stack : List (Fin n)} {visits : List (Visit n)} {a : Fin n}

/-- The stacks stay related when a vertex is seen that becomes the vertex of a visit above. -/
theorem discover (h : Shadows w above visits stack) (hsub : above ⊆ above') (ha : a ∈ above') :
    Shadows (w.discover a) above' visits stack := by
  induction h generalizing above' with
  | nil => exact .nil
  | cons same met seen isOpen tail ih =>
    refine .cons (by rw [fresh_discover, same, ← fresh_discover]) ?_ ?_ isOpen ?_
    · intro u hu
      by_cases hne : u = a
      · exact Or.inr (Or.inr (hne ▸ ha))
      · rcases met u hu with h | h | h
        · exact Or.inl ((List.mem_erase_of_ne hne).mpr h)
        · exact Or.inr (Or.inl h)
        · exact Or.inr (Or.inr (hsub h))
    · exact fun h => seen (List.mem_of_mem_erase h)
    · exact ih (List.cons_subset_cons _ hsub) (List.mem_cons_of_mem _ ha)

/-- The stacks stay related when the vertex of a visit above is left. -/
theorem finish (h : Shadows w above visits stack) (hsub : above ⊆ a :: above')
    (hopen : a ∉ visits.map Visit.vertex) : Shadows (w.finish a) above' visits stack := by
  induction h generalizing above' with
  | nil => exact .nil
  | @cons above pending waiting below v rest same met seen isOpen tail ih =>
    rw [List.map_cons, List.mem_cons, not_or] at hopen
    refine .cons same ?_ seen ?_ ?_
    · intro u hu
      rcases met u hu with h | h | h
      · exact Or.inl h
      · exact Or.inr (Or.inl (List.mem_cons_of_mem _ h))
      · rcases List.mem_cons.mp (hsub h) with rfl | h
        · exact Or.inr (Or.inl List.mem_cons_self)
        · exact Or.inr (Or.inr h)
    · exact List.not_mem_cons_of_ne_of_not_mem (fun h => hopen.1 h.symm) isOpen
    · apply ih _ hopen.2
      intro u hu
      rcases List.mem_cons.mp hu with rfl | hu
      · simp
      · rcases List.mem_cons.mp (hsub hu) with rfl | hu <;> simp_all

end Shadows

/-! ### The first pass -/

/-- A search breaks off only at a vertex that is its own neighbour. -/
theorem mem_next_of_search_error {w : Walk n} {stack : List (Fin n)} {u : Fin n}
    (h : search next w stack = .error u) : u ∈ next u := by
  fun_induction search next w stack with
  | case1 => cases h
  | case2 w v rest hv hself =>
    cases h
    exact hself
  | case3 w v rest hv hself ih => exact ih h
  | case4 w v rest hv ih => exact ih h

/-- A search that is not broken off has seen no vertex that is its own neighbour. -/
theorem not_mem_next_of_search_ok {w w' : Walk n} {stack : List (Fin n)}
    (h : search next w stack = .ok w') {u : Fin n} (hu : u ∈ w.unseen) :
    u ∈ w'.unseen ∨ u ∉ next u := by
  fun_induction search next w stack with
  | case1 =>
    cases h
    exact Or.inl hu
  | case2 => cases h
  | case3 w v rest hv hself ih =>
    by_cases hne : u = v
    · exact Or.inr (hne ▸ hself)
    · exact ih h ((List.mem_erase_of_ne hne).mpr hu)
  | case4 w v rest hv ih => exact ih h (by rwa [unseen_leave])

/-- A vertex that has just been seen shadows a new visit with all its neighbours pending. -/
theorem Shadows.enter {w : Walk n} {visits : List (Visit n)} {below : List (Fin n)} {v : Fin n}
    (hs : Sound next (w.discover v) (⟨v, next v⟩ :: visits))
    (h : Shadows (w.discover v) [v] visits below) :
    Shadows (w.discover v) [] (⟨v, next v⟩ :: visits)
      ((w.discover v).fresh (next v) ++ v :: below) := by
  have hself : (w.discover v).fresh (next v)
      = (w.discover v).fresh ((w.discover v).fresh (next v)) := by
    simp [fresh]
  refine .cons hself ?_ ?_ hs.not_mem_finished h
  · intro u hu
    exact Or.inl (mem_fresh.mp hu).2
  · have hnd := (List.nodup_append.mp hs.nodup).2.2
    exact fun hv => hnd v hv v (by simp) rfl

/-- **Simulation.** A search that is not broken off ends as the walk does whose visits its stack
    shadows. -/
theorem eq_run_of_search {w w' : Walk n} {visits : List (Visit n)} {stack : List (Fin n)}
    (hs : Sound next w visits) (hsh : Shadows w [] visits stack)
    (h : search next w stack = .ok w') : w' = run next w visits := by
  fun_induction search next w stack generalizing visits with
  | case1 w =>
    cases h
    generalize hstack : ([] : List (Fin n)) = stack at hsh
    cases hsh with
    | nil => rw [run]
    | cons => simp at hstack
  | case2 => cases h
  | case3 w v rest hv hself ih =>
    generalize hstack : v :: rest = stack at hsh
    cases hsh with
    | nil => cases hstack
    | @cons _ pending waiting below x visits same met seen isOpen tail =>
      -- The vertex on top is unseen, so it is waiting: it is the next one that the walk visits.
      cases waiting with
      | nil =>
        cases hstack
        exact absurd hv seen
      | cons a waiting =>
        cases hstack
        rw [fresh_cons_of_mem hv] at same
        obtain ⟨later, hlater, hsound, hrun⟩ := run_of_pending_unseen hs same
        rw [hrun]
        apply ih hsound _ h
        apply Shadows.enter hsound
        refine .cons (by rw [fresh_discover, hlater, ← fresh_discover]) ?_ ?_ isOpen ?_
        · intro u hu
          rcases met u (List.mem_cons_of_mem _ hu) with hm | hm | hm
          · by_cases hne : u = v
            · exact Or.inr (Or.inr (by simp [hne]))
            · exact Or.inl ((List.mem_erase_of_ne hne).mpr hm)
          · exact Or.inr (Or.inl hm)
          · cases hm
        · exact fun hx => seen (List.mem_of_mem_erase hx)
        · exact tail.discover (by simp) (by simp)
  | case4 w v rest hv ih =>
    generalize hstack : v :: rest = stack at hsh
    cases hsh with
    | nil => cases hstack
    | @cons _ pending waiting below x visits same met seen isOpen tail =>
      cases waiting with
      | nil =>
        -- The vertex on top is that of the innermost visit, which is closed.
        cases hstack
        obtain ⟨hsound, hrun⟩ := run_of_pending_seen hs same
        rw [hrun]
        rw [leave, if_neg isOpen] at ih h
        apply ih hsound _ h
        apply tail.finish (List.Subset.refl _)
        have hnd := (List.nodup_append.mp (List.nodup_append.mp hs.nodup).2.1).2.1
        exact (List.nodup_cons.mp hnd).1
      | cons a waiting =>
        -- The vertex on top waits although it has been seen: it was left in the meantime.
        cases hstack
        have hleft : v ∈ w.finished := by
          rcases met v List.mem_cons_self with hm | hm | hm
          · exact absurd hm hv
          · exact hm
          · cases hm
        rw [leave, if_pos hleft] at ih h
        apply ih hs _ h
        rw [fresh_cons_of_not_mem hv] at same
        exact .cons same (fun u hu => met u (List.mem_cons_of_mem _ hu)) seen isOpen tail

/-- A search that is not broken off takes a walk as far as visits of the same vertices do. -/
theorem eq_foldl_visit_of_searchFrom {w w' : Walk n} (hs : Sound next w []) {vs : List (Fin n)}
    (h : searchFrom next w vs = .ok w') : w' = vs.foldl (visit next) w := by
  induction vs generalizing w with
  | nil =>
    cases h
    rfl
  | cons v vs ih =>
    rw [List.foldl_cons]
    by_cases hv : v ∈ w.unseen
    · rw [searchFrom, if_pos hv] at h
      split at h
      · cases h
      · next w₁ hsearch =>
        -- a search that is not broken off shadows the walk
        have hvisit : w₁ = visit next w v := by
          rw [visit, if_pos hv]
          rw [search, if_pos hv] at hsearch
          split at hsearch
          · cases hsearch
          · exact eq_run_of_search (hs.enter hv) (Shadows.enter (hs.enter hv) .nil) hsearch
        rw [hvisit] at h
        exact ih (hs.visit v) h
    · rw [searchFrom, if_neg hv] at h
      rw [visit, if_neg hv]
      exact ih hs h

/-- A search from several vertices breaks off only at a vertex that is its own neighbour. -/
theorem mem_next_of_searchFrom_error {w : Walk n} {vs : List (Fin n)} {u : Fin n}
    (h : searchFrom next w vs = .error u) : u ∈ next u := by
  induction vs generalizing w with
  | nil => cases h
  | cons v vs ih =>
    rw [searchFrom] at h
    split at h
    · split at h
      · next hsearch =>
        cases h
        exact mem_next_of_search_error hsearch
      · exact ih h
    · exact ih h

/-- A search from several vertices that is not broken off has seen no vertex that is its own
    neighbour. -/
theorem not_mem_next_of_searchFrom_ok {w w' : Walk n} {vs : List (Fin n)}
    (h : searchFrom next w vs = .ok w') {u : Fin n} (hu : u ∈ w.unseen) :
    u ∈ w'.unseen ∨ u ∉ next u := by
  induction vs generalizing w with
  | nil =>
    cases h
    exact Or.inl hu
  | cons v vs ih =>
    rw [searchFrom] at h
    split at h
    · split at h
      · cases h
      · next hsearch =>
        rcases not_mem_next_of_search_ok hsearch hu with hu | hu
        · exact ih h hu
        · exact Or.inr hu
    · exact ih h hu

/-! ### The second pass -/

/-- A search comes to no further vertex exactly when all those on its stack have been seen. -/
theorem draw_eq_none_iff {unseen stack : List (Fin n)} :
    draw next unseen stack = none ↔ ∀ v ∈ stack, v ∉ unseen := by
  induction stack with
  | nil => simp [draw]
  | cons v stack ih =>
    rw [draw]
    by_cases hv : v ∈ unseen
    · simp [hv]
    · simp [hv, ih]

/-- The vertex that a search comes to next stands on its stack and has not been seen. -/
theorem mem_of_draw {unseen stack : List (Fin n)} {drawn : Fin n × List (Fin n) × List (Fin n)}
    (h : draw next unseen stack = some drawn) : drawn.1 ∈ stack ∧ drawn.1 ∈ unseen := by
  induction stack with
  | nil => cases h
  | cons v stack ih =>
    rw [draw] at h
    by_cases hv : v ∈ unseen
    · rw [if_pos hv, Option.some.injEq] at h
      subst h
      exact ⟨List.mem_cons_self, hv⟩
    · rw [if_neg hv] at h
      obtain ⟨hstack, hu⟩ := ih h
      exact ⟨List.mem_cons_of_mem _ hstack, hu⟩

/-- A search that starts from an unseen vertex comes to this vertex first, and then has its unseen
    neighbours on the stack. -/
theorem exists_second?_cons (next : Fin n → List (Fin n)) {unseen : List (Fin n)} {v : Fin n}
    (hv : v ∈ unseen) (vs : List (Fin n)) :
    ∃ stack, (∀ u, u ∈ stack ↔ u ∈ next v ∧ u ∈ unseen.erase v) ∧
      second? next unseen (v :: vs) = (draw next (unseen.erase v) stack).elim
        (second? next (unseen.erase v) vs) (fun drawn => some drawn.1) := by
  refine ⟨(next v).filter fun u => u ∈ unseen.erase v, by simp, ?_⟩
  rw [second?, draw, if_pos hv, List.append_nil]
  dsimp only
  split
  · next h => rw [h, Option.elim_none]
  · next h => rw [h, Option.elim_some]

/-- **Second pass.** From none of some vertices, which are those unseen, does a search come to a
    second one exactly when no vertex has a neighbour that comes behind it. -/
theorem second?_eq_none_iff {unseen vs : List (Fin n)} (hperm : unseen.Perm vs) (hnd : vs.Nodup) :
    second? next unseen vs = none ↔ vs.Pairwise fun v u => u ∉ next v := by
  induction vs generalizing unseen with
  | nil => simp [second?]
  | cons v vs ih =>
    have hv : v ∈ unseen := hperm.mem_iff.mpr List.mem_cons_self
    have hrest : (unseen.erase v).Perm vs := by
      simpa using hperm.erase v
    obtain ⟨stack, hstack, hsecond⟩ := exists_second?_cons next hv vs
    have hnone : draw next (unseen.erase v) stack = none ↔ ∀ u ∈ vs, u ∉ next v := by
      rw [draw_eq_none_iff]
      simp only [hstack, hrest.mem_iff]
      constructor
      · exact fun h u hu hn => h u ⟨hn, hu⟩ hu
      · exact fun h u hu => absurd hu.1 (h u hu.2)
    rw [hsecond, List.pairwise_cons, ← hnone, ← ih hrest (List.nodup_cons.mp hnd).2]
    cases draw next (unseen.erase v) stack with
    | none => simp
    | some drawn => simp

/-- **The second vertex.** It is a neighbour of a vertex that stands somewhere before it. -/
theorem exists_before_of_second? {unseen vs : List (Fin n)} (hperm : unseen.Perm vs) {u : Fin n}
    (h : second? next unseen vs = some u) : ∃ v, u ∈ next v ∧ [v, u].Sublist vs := by
  induction vs generalizing unseen with
  | nil => cases h
  | cons v vs ih =>
    have hv : v ∈ unseen := hperm.mem_iff.mpr List.mem_cons_self
    have hrest : (unseen.erase v).Perm vs := by
      simpa using hperm.erase v
    obtain ⟨stack, hstack, hsecond⟩ := exists_second?_cons next hv vs
    rw [hsecond] at h
    cases hdraw : draw next (unseen.erase v) stack with
    | none =>
      rw [hdraw] at h
      obtain ⟨a, ha, hsub⟩ := ih hrest h
      exact ⟨a, ha, hsub.cons v⟩
    | some drawn =>
      rw [hdraw] at h
      obtain rfl : drawn.1 = u := Option.some.inj h
      -- what is unseen when `v` has come up stands behind `v`
      obtain ⟨hmem, hunseen⟩ := mem_of_draw hdraw
      have hu : drawn.1 ∈ vs := hrest.mem_iff.mp hunseen
      exact ⟨v, ((hstack _).mp hmem).1, (List.singleton_sublist.mpr hu).cons_cons v⟩

end ImageSpec.Walk
