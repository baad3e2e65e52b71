import ImageSpec.Proofs.UnitOrder

namespace ImageSpec.UnitGraph

open Relation

/-!
# The order of units as a recursion

The order of the units is read off a walk that keeps its open visits on a stack and marks a unit
when its visit is opened.  In a graph without cycles the marks make no difference, and the order is
the one that a recursion over prerequisites gives:

* `place`, `postOrder` — the recursion: prerequisites first, as listed, and then the unit.
* `exists_run_eq_place` — the run lemma: the walk closes a visit with the units left that the
  recursion places.
* `exists_place_eq` — what is placed for a unit is behind what was placed before, and the unit waits
  for it or is it.
* `order_eq_postOrder_and_hoisted` — the walk gives the order of the recursion, and only units that
  others wait for are moved forward.
* `place_addEdge` — a prerequisite that is placed already changes nothing.
* `order_addEdge_of_before` — nor does it change the order.
-/

variable {n : Nat} {g : UnitGraph n}

/-- Without cycles, every chain of prerequisites ends. -/
theorem Acyclic.wellFounded (hg : g.Acyclic) : WellFounded fun p u => g.Awaits u p :=
  Subrelation.wf (fun h => (topological_finished hg).before _ _ h)
    (InvImage.wf (Walk.all g.prerequisites).finished.reverse.idxOf Nat.lt_wfRel.wf)

/-- Places a unit behind those that have been placed, unless it is one of them: first its
    prerequisites, in the order in which they are listed, and then the unit itself. -/
def place (g : UnitGraph n) (hg : g.Acyclic) (placed : List (Fin n)) (u : Fin n) : List (Fin n) :=
  if u ∈ placed then placed
  else (g.prerequisites u).attach.foldl (fun placed p => g.place hg placed p.1) placed ++ [u]
termination_by hg.wellFounded.wrap u
decreasing_by exact mem_prerequisites.mp p.2

/-- All units, each placed when its turn comes. -/
def postOrder (g : UnitGraph n) (hg : g.Acyclic) : List (Fin n) :=
  (List.finRange n).foldl (g.place hg) []

section Placing

variable (hg : g.Acyclic)

theorem place_of_mem {placed : List (Fin n)} {u : Fin n} (h : u ∈ placed) :
    g.place hg placed u = placed := by
  rw [place, if_pos h]

/-- A unit comes right behind those that it waits for. -/
theorem place_of_not_mem {placed : List (Fin n)} {u : Fin n} (h : u ∉ placed) :
    g.place hg placed u = (g.prerequisites u).foldl (g.place hg) placed ++ [u] := by
  rw [place, if_neg h, List.foldl_attach]

/-- A unit has its place once it is placed. -/
theorem mem_place_self (placed : List (Fin n)) (u : Fin n) : u ∈ g.place hg placed u := by
  by_cases h : u ∈ placed
  · rwa [place_of_mem hg h]
  · simp [place_of_not_mem hg h]

/-! ### The walk and the recursion -/

/-- A unit waits for what is pending on its visit. -/
theorem awaits_of_pending {w : Walk n} {v u : Fin n} {pending : List (Fin n)}
    {rest : List (Visit n)} (hs : Walk.Sound g.prerequisites w (⟨v, u :: pending⟩ :: rest)) :
    g.Awaits v u :=
  mem_prerequisites.mp (hs.listed _ List.mem_cons_self List.mem_cons_self)

include hg in
/-- In a graph without cycles, a pending prerequisite has been left as soon as it has been seen. -/
theorem mem_finished_of_pending {w : Walk n} {v u : Fin n} {pending : List (Fin n)}
    {rest : List (Visit n)} (hs : Walk.Sound g.prerequisites w (⟨v, u :: pending⟩ :: rest))
    (hu : u ∉ w.unseen) : u ∈ w.finished := by
  by_contra hf
  exact hg.not_reaches_prerequisites (awaits_of_pending hs) (hs.reaches_top hu hf)

/-- **Run lemma.** The walk closes the visit on top of its stack with those units left, in their
    order, that the recursion has placed when it is through with what is pending. -/
theorem exists_run_eq_place (v : Fin n) {w : Walk n} {pending : List (Fin n)}
    {rest : List (Visit n)} (hs : Walk.Sound g.prerequisites w (⟨v, pending⟩ :: rest)) :
    ∃ w', Walk.Sound g.prerequisites w' rest ∧
      Walk.run g.prerequisites w (⟨v, pending⟩ :: rest) = Walk.run g.prerequisites w' rest ∧
      w'.finished.reverse = pending.foldl (g.place hg) w.finished.reverse ++ [v] := by
  -- Visits are opened on top of that of `v` for prerequisites of `v`: the outer induction goes along
  -- prerequisites and covers these visits, the inner one goes along what is pending.
  induction v using hg.wellFounded.induction generalizing w pending rest with
  | h v ihv =>
    induction pending generalizing w with
    | nil =>
      refine ⟨w.finish v, hs.finish, by rw [Walk.run], ?_⟩
      simp [Walk.finish]
    | cons u pending ihp =>
      by_cases hu : u ∈ w.unseen
      · obtain ⟨w₁, hs₁, hrun₁, hplaced₁⟩ := ihv u (awaits_of_pending hs) (hs.discover hu)
        obtain ⟨w₂, hs₂, hrun₂, hplaced₂⟩ := ihp hs₁
        have hnew : u ∉ w.finished.reverse := by
          simpa using hs.not_mem_finished_of_unseen hu
        refine ⟨w₂, hs₂, ?_, ?_⟩
        · rw [Walk.run, if_pos hu, hrun₁, hrun₂]
        · rw [hplaced₂, hplaced₁, List.foldl_cons, place_of_not_mem hg hnew]
          rfl
      · have hleft : u ∈ w.finished.reverse :=
          List.mem_reverse.mpr (mem_finished_of_pending hg hs hu)
        obtain ⟨w', hs', hrun, hplaced⟩ := ihp (hs.skip hu)
        refine ⟨w', hs', ?_, ?_⟩
        · rw [Walk.run, if_neg hu, hrun]
        · rw [hplaced, List.foldl_cons, place_of_mem hg hleft]

/-- A visit of a unit leaves what the recursion places. -/
theorem finished_visit {w : Walk n} (hs : Walk.Sound g.prerequisites w []) (v : Fin n) :
    (Walk.visit g.prerequisites w v).finished.reverse = g.place hg w.finished.reverse v := by
  unfold Walk.visit
  by_cases hv : v ∈ w.unseen
  · obtain ⟨w', -, hrun, hplaced⟩ := exists_run_eq_place hg v (hs.enter hv)
    have hnew : v ∉ w.finished.reverse := by
      simpa using hs.not_mem_finished_of_unseen hv
    rw [if_pos hv, hrun, Walk.run, hplaced, place_of_not_mem hg hnew]
    rfl
  · have hleft : v ∈ w.finished.reverse := by
      simpa using hs.mem_finished_or_open hv
    rw [if_neg hv, place_of_mem hg hleft]

/-- Visits in turn leave the units in the order in which they are placed. -/
theorem finished_foldl_visit (vs : List (Fin n)) {w : Walk n}
    (hs : Walk.Sound g.prerequisites w []) :
    (vs.foldl (Walk.visit g.prerequisites) w).finished.reverse
      = vs.foldl (g.place hg) w.finished.reverse := by
  induction vs generalizing w with
  | nil => rfl
  | cons v vs ih => rw [List.foldl_cons, List.foldl_cons, ih (hs.visit v), finished_visit hg hs]

/-- **Refinement.** The order of the units is the one that the recursion gives. -/
theorem order_eq_postOrder : g.order = .ok (g.postOrder hg) := by
  have hplaced : (Walk.all g.prerequisites).finished.reverse = g.postOrder hg :=
    finished_foldl_visit hg (List.finRange n) (Walk.sound_start g.prerequisites)
  rw [order, cycle?_eq_none_iff.mpr hg, ← hplaced]

/-! ### What is placed for a unit -/

/-- Placing several units places what each of them brings. -/
theorem exists_foldl_eq {f : List (Fin n) → Fin n → List (Fin n)} {us : List (Fin n)}
    (h : ∀ u ∈ us, ∀ placed, ∃ new, f placed u = placed ++ new ∧
      ∀ x ∈ new, ReflTransGen g.Awaits u x) (placed : List (Fin n)) :
    ∃ new, us.foldl f placed = placed ++ new ∧ ∀ x ∈ new, ∃ u ∈ us, ReflTransGen g.Awaits u x := by
  induction us generalizing placed with
  | nil => exact ⟨[], by simp, by simp⟩
  | cons u us ih =>
    obtain ⟨hu, hus⟩ := List.forall_mem_cons.mp h
    obtain ⟨first, hfirst, hreach⟩ := hu placed
    obtain ⟨others, hothers, hreaches⟩ := ih hus (placed ++ first)
    refine ⟨first ++ others, ?_, ?_⟩
    · rw [List.foldl_cons, hfirst, hothers, List.append_assoc]
    · intro x hx
      rcases List.mem_append.mp hx with hx | hx
      · exact ⟨u, List.mem_cons_self, hreach x hx⟩
      · obtain ⟨a, ha, hax⟩ := hreaches x hx
        exact ⟨a, List.mem_cons_of_mem _ ha, hax⟩

/-- **Placing a unit** puts units behind those that have been placed: the unit, and others that it
    waits for. -/
theorem exists_place_eq (u : Fin n) (placed : List (Fin n)) :
    ∃ new, g.place hg placed u = placed ++ new ∧ ∀ x ∈ new, ReflTransGen g.Awaits u x := by
  induction u using hg.wellFounded.induction generalizing placed with
  | h u ih =>
    by_cases hu : u ∈ placed
    · exact ⟨[], by simp [place_of_mem hg hu], by simp⟩
    · obtain ⟨new, hnew, hreaches⟩ :=
        exists_foldl_eq (fun p hp => ih p (mem_prerequisites.mp hp)) placed
      refine ⟨new ++ [u], ?_, ?_⟩
      · rw [place_of_not_mem hg hu, hnew, List.append_assoc]
      · intro x hx
        rcases List.mem_append.mp hx with hx | hx
        · obtain ⟨p, hp, hpx⟩ := hreaches x hx
          exact ReflTransGen.head (mem_prerequisites.mp hp) hpx
        · rw [List.mem_singleton.mp hx]

/-- What is placed is waited for by some unit that was asked for. -/
theorem exists_foldl_place_eq (us placed : List (Fin n)) :
    ∃ new, us.foldl (g.place hg) placed = placed ++ new ∧
      ∀ x ∈ new, ∃ u ∈ us, ReflTransGen g.Awaits u x :=
  exists_foldl_eq (fun u _ => exists_place_eq hg u) placed

end Placing

/-! ### What is moved -/

/-- Before a unit at the front of a list stand units at the front. -/
theorem mem_of_idxOf_lt {front rest : List (Fin n)} {i j : Fin n} (hi : i ∈ front)
    (h : (front ++ rest).idxOf j < (front ++ rest).idxOf i) : j ∈ front := by
  by_contra hj
  rw [List.idxOf_append_of_mem hi, List.idxOf_append_of_notMem hj] at h
  have hlt : front.idxOf i < front.length := List.idxOf_lt_length_iff.mpr hi
  omega

/-- **Hoisting.** A unit that comes before an earlier one is waited for, by that one or by a unit
    that is earlier still. -/
theorem exists_transGen_of_hoisted (hg : g.Acyclic) {i j : Fin n}
    (h : (g.postOrder hg).idxOf j < (g.postOrder hg).idxOf i) (hij : i < j) :
    ∃ k ≤ i, TransGen g.Awaits k j := by
  obtain ⟨before, behind, hrange⟩ := List.append_of_mem (List.mem_finRange i)
  have hle : ∀ k ∈ before ++ [i], k ≤ i := by
    have hsorted := List.pairwise_lt_finRange n
    rw [hrange, List.pairwise_append] at hsorted
    intro k hk
    rcases List.mem_append.mp hk with hk | hk
    · exact Fin.le_of_lt (hsorted.2.2 k hk i List.mem_cons_self)
    · exact Fin.le_of_eq (List.mem_singleton.mp hk)
  -- when the turn of `i` is over, `i` is placed, and so is everything that comes before it
  have hsplit : g.postOrder hg
      = behind.foldl (g.place hg) ((before ++ [i]).foldl (g.place hg) []) := by
    rw [postOrder, hrange, List.append_cons, List.foldl_append]
  obtain ⟨later, hlater, -⟩ :=
    exists_foldl_place_eq hg behind ((before ++ [i]).foldl (g.place hg) [])
  obtain ⟨front, hfront, hreaches⟩ := exists_foldl_place_eq hg (before ++ [i]) []
  rw [List.nil_append] at hfront
  have hi : i ∈ front := by
    rw [← hfront, List.foldl_concat]
    exact mem_place_self hg _ i
  rw [hsplit, hlater, hfront] at h
  obtain ⟨k, hk, hkj⟩ := hreaches j (mem_of_idxOf_lt hi h)
  have hki : k ≤ i := hle k hk
  rcases reflTransGen_iff_eq_or_transGen.mp hkj with rfl | hkj
  · exact absurd hij (Fin.not_lt.mpr hki)
  · exact ⟨k, hki, hkj⟩

/-- A list of all units in which none comes before an earlier one has them as in the text. -/
theorem eq_finRange_of_idxOf {order : List (Fin n)} (hperm : order.Perm (List.finRange n))
    (h : ∀ i j, order.idxOf j < order.idxOf i → ¬ i < j) : order = List.finRange n := by
  have hnodup : order.Nodup := hperm.nodup_iff.mpr (List.nodup_finRange n)
  have hsorted : order.Pairwise (· ≤ ·) := by
    rw [List.pairwise_iff_getElem]
    intro a b ha hb hab
    have hbefore : order.idxOf order[a] < order.idxOf order[b] := by
      rwa [hnodup.idxOf_getElem, hnodup.idxOf_getElem]
    exact Fin.not_lt.mp (h _ _ hbefore)
  exact hperm.eq_of_pairwise (fun _ _ _ _ => Fin.le_antisymm) hsorted
    ((List.pairwise_lt_finRange n).imp Fin.le_of_lt)

/-- **Nothing to move.** If every prerequisite is earlier in the text than the unit that lists it,
    the units keep the order of the text. -/
theorem order_eq_finRange (h : ∀ u p, g.Awaits u p → p < u) :
    g.order = .ok (List.finRange n) := by
  have hfall : ∀ u p, TransGen g.Awaits u p → p < u := by
    intro u p hp
    induction hp with
    | single hp => exact h _ _ hp
    | tail _ hp ih => exact Fin.lt_trans (h _ _ hp) ih
  have hg : g.Acyclic := fun u hu => Fin.lt_irrefl u (hfall u u hu)
  have hperm := (topological_of_order (order_eq_postOrder hg)).perm
  have hrange : g.postOrder hg = List.finRange n := by
    apply eq_finRange_of_idxOf hperm
    intro i j hji hij
    -- a unit that is no later than `i` would wait for `j`
    obtain ⟨k, hk, hwait⟩ := exists_transGen_of_hoisted hg hji hij
    exact Fin.lt_irrefl j (Fin.lt_trans (Fin.lt_of_lt_of_le (hfall k j hwait) hk) hij)
  rw [order_eq_postOrder hg, hrange]

/-- **The order of the units.**  In a graph without cycles the units come in the order of the
    recursion over prerequisites.  A unit that comes before one that is earlier in the text is moved
    there for a reason: the earlier unit waits for it, or another one does that is earlier still.
    If all prerequisites are earlier than the units that wait for them, nothing is moved. -/
theorem order_eq_postOrder_and_hoisted (hg : g.Acyclic) :
    g.order = .ok (g.postOrder hg) ∧
      (∀ i j, (g.postOrder hg).idxOf j < (g.postOrder hg).idxOf i → i < j →
        ∃ k ≤ i, TransGen g.Awaits k j) ∧
      ((∀ u p, g.Awaits u p → p < u) → g.order = .ok (List.finRange n)) :=
  ⟨order_eq_postOrder hg, fun _ _ => exists_transGen_of_hoisted hg, order_eq_finRange⟩

/-- The second unit lists the last one and then the one behind it. -/
def hoisting : UnitGraph 5 where
  unit u := ⟨"s" ++ u.val.repr, ⟨u.val + 1, 1⟩⟩
  edges := [⟨1, 4⟩, ⟨1, 2⟩, ⟨4, 0⟩]

/-- The order of the graph: the last unit moves in front of those that wait for it. -/
theorem order_hoisting : hoisting.order = .ok [0, 4, 2, 1, 3] := by
  cbv

theorem acyclic_hoisting : hoisting.Acyclic :=
  exists_order_iff_acyclic.mp ⟨_, order_hoisting⟩

/-- The third unit does not wait for the last one, which is moved in front of it, but the second
    unit does. -/
theorem hoisted_of_hoisting :
    hoisting.order = .ok [0, 4, 2, 1, 3] ∧ ∃ k ≤ (2 : Fin 5), TransGen hoisting.Awaits k 4 := by
  obtain ⟨horder, hhoisted, -⟩ := order_eq_postOrder_and_hoisted acyclic_hoisting
  have hlist : hoisting.postOrder acyclic_hoisting = [0, 4, 2, 1, 3] :=
    Except.ok.inj (horder.symm.trans order_hoisting)
  refine ⟨order_hoisting, hhoisted 2 4 ?_ (by decide)⟩
  rw [hlist]
  decide

/-! ### Prerequisites that are placed already -/

/-- One more edge adds its prerequisite behind the others. -/
theorem prerequisites_addEdge (g : UnitGraph n) (e : Edge n) (u : Fin n) :
    (g.addEdge e).prerequisites u
      = g.prerequisites u ++ if e.dependent = u then [e.prerequisite] else [] := by
  by_cases h : e.dependent = u <;> simp [prerequisites, addEdge, List.filterMap_append, h]

/-- One more edge makes its dependent wait for its prerequisite. -/
theorem awaits_addEdge {e : Edge n} {u p : Fin n} :
    (g.addEdge e).Awaits u p ↔ g.Awaits u p ∨ ⟨u, p⟩ = e := by
  simp [Awaits, addEdge]

/-- An order stays one when a unit gets a prerequisite that comes before it. -/
theorem Topological.addEdge {order : List (Fin n)} (h : g.Topological order) {u v : Fin n}
    (hbefore : order.idxOf v < order.idxOf u) : (g.addEdge ⟨u, v⟩).Topological order where
  perm := h.perm
  before := by
    intro a p hp
    rcases awaits_addEdge.mp hp with hp | hp
    · exact h.before a p hp
    · cases hp
      exact hbefore

/-- Placing several units comes to the same in two ways that agree on each of them, as far as these
    are placed in the given order. -/
theorem foldl_congr_of_isPrefix {f f' : List (Fin n) → Fin n → List (Fin n)}
    {order us placed : List (Fin n)}
    (hextends : ∀ us placed : List (Fin n), placed <+: us.foldl f placed)
    (h : ∀ u ∈ us, ∀ placed, f placed u <+: order → f' placed u = f placed u)
    (horder : us.foldl f placed <+: order) : us.foldl f' placed = us.foldl f placed := by
  induction us generalizing placed with
  | nil => rfl
  | cons u us ih =>
    obtain ⟨hu, hus⟩ := List.forall_mem_cons.mp h
    rw [List.foldl_cons] at horder
    have hfirst : f placed u <+: order := (hextends us (f placed u)).trans horder
    rw [List.foldl_cons, List.foldl_cons, hu placed hfirst, ih hus horder]

/-- Placing more units moves none that has its place. -/
theorem isPrefix_foldl_place (hg : g.Acyclic) (us placed : List (Fin n)) :
    placed <+: us.foldl (g.place hg) placed := by
  obtain ⟨new, hnew, -⟩ := exists_foldl_place_eq hg us placed
  exact ⟨new, hnew.symm⟩

/-- **Placing with one more prerequisite.** As far as the units are placed in an order in which `v`
    comes before `u`, they are placed in the same way if `u` waits for `v` as well. -/
theorem place_addEdge (hg : g.Acyclic) {u v : Fin n} (hg' : (g.addEdge ⟨u, v⟩).Acyclic)
    {order : List (Fin n)} (hbefore : order.idxOf v < order.idxOf u) (x : Fin n)
    {placed : List (Fin n)} (horder : g.place hg placed x <+: order) :
    (g.addEdge ⟨u, v⟩).place hg' placed x = g.place hg placed x := by
  induction x using hg.wellFounded.induction generalizing placed with
  | h x ih =>
    by_cases hx : x ∈ placed
    · rw [place_of_mem hg hx, place_of_mem hg' hx]
    · rw [place_of_not_mem hg hx] at horder ⊢
      rw [place_of_not_mem hg' hx, prerequisites_addEdge, List.foldl_append]
      have hsame : (g.prerequisites x).foldl ((g.addEdge ⟨u, v⟩).place hg') placed
          = (g.prerequisites x).foldl (g.place hg) placed :=
        foldl_congr_of_isPrefix (isPrefix_foldl_place hg)
          (fun p hp placed => ih p (mem_prerequisites.mp hp))
          ((List.prefix_append _ [x]).trans horder)
      rw [hsame]
      by_cases hux : u = x
      · -- the turn of `v` comes last, and then `v` is placed, as it comes before `u` in the order
        subst hux
        obtain ⟨rest, rfl⟩ := horder
        have hmem := mem_of_idxOf_lt (by simp) hbefore
        have hne : v ≠ u := by
          rintro rfl
          exact Nat.lt_irrefl _ hbefore
        have hv : v ∈ (g.prerequisites u).foldl (g.place hg) placed :=
          (List.mem_append.mp hmem).resolve_right (by simpa using hne)
        simp [place_of_mem hg' hv]
      · simp [hux]

/-- **Prerequisites that are met change nothing.**  The units of a graph without cycles have an
    order.  If `v` comes before `u` there and is listed as one more prerequisite of `u`, the graph
    still has no cycle, and the order stays the same. -/
theorem order_addEdge_of_before (hg : g.Acyclic) :
    ∃ order, g.order = .ok order ∧ ∀ u v, order.idxOf v < order.idxOf u →
      (g.addEdge ⟨u, v⟩).prerequisites u = g.prerequisites u ++ [v] ∧
        (g.addEdge ⟨u, v⟩).Acyclic ∧ (g.addEdge ⟨u, v⟩).order = .ok order := by
  have horder := order_eq_postOrder hg
  refine ⟨g.postOrder hg, horder, ?_⟩
  intro u v hbefore
  have hg' : (g.addEdge ⟨u, v⟩).Acyclic := ((topological_of_order horder).addEdge hbefore).acyclic
  have hsame : (g.addEdge ⟨u, v⟩).postOrder hg' = g.postOrder hg :=
    foldl_congr_of_isPrefix (isPrefix_foldl_place hg)
      (fun x _ _ => place_addEdge hg hg' hbefore x) (List.prefix_refl _)
  refine ⟨?_, hg', ?_⟩
  · rw [prerequisites_addEdge, if_pos rfl]
  · rw [order_eq_postOrder hg', hsame]

/-- The third unit may list the last one as well, which has been moved in front of it. -/
theorem order_addEdge_hoisting :
    (hoisting.addEdge ⟨2, 4⟩).Acyclic ∧ (hoisting.addEdge ⟨2, 4⟩).order = .ok [0, 4, 2, 1, 3] := by
  obtain ⟨order, horder, hinert⟩ := order_addEdge_of_before acyclic_hoisting
  obtain rfl : order = [0, 4, 2, 1, 3] := Except.ok.inj (horder.symm.trans order_hoisting)
  exact (hinert 2 4 (by decide)).2

end ImageSpec.UnitGraph
