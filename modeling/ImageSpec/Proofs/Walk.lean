import ImageSpec.UnitGraph.Walk
import Mathlib.Data.List.Perm.Basic
import Mathlib.Logic.Relation

namespace ImageSpec.Walk

open Relation

/-!
# What a depth-first walk leaves behind

A walk leaves every vertex exactly once, and it leaves a vertex before its neighbours only where
they lead back to it:

* `Sound next w stack` — the invariant that joins the state of a walk and its open visits.
* `Sound.run` — a walk that goes on until its stack is empty keeps the invariant; one lemma for each
  kind of step comes before it.
* `perm_finished_all` and `later_finished_all` — what holds of the walk through all vertices.
-/

variable {n : Nat} {next : Fin n → List (Fin n)}

/-- `Reaches next v u`: some neighbours in a row lead from `v` to `u`. -/
def Reaches (next : Fin n → List (Fin n)) : Fin n → Fin n → Prop :=
  ReflTransGen fun v u => u ∈ next v

/-- The invariant of a walk.  Every vertex is unseen, left or open, and each in one way only.  An
    open vertex leads to those above it on the stack, and its neighbours are pending or seen.  A
    vertex that has been left has only such unfinished neighbours as lead back to it. -/
structure Sound (next : Fin n → List (Fin n)) (w : Walk n) (stack : List (Visit n)) : Prop where
  partition : (w.unseen ++ (w.finished ++ stack.map Visit.vertex)).Perm (List.finRange n)
  path : stack.Pairwise fun above below => Reaches next below.vertex above.vertex
  listed : ∀ x ∈ stack, x.pending ⊆ next x.vertex
  looked : ∀ x ∈ stack, ∀ u ∈ next x.vertex, u ∈ x.pending ∨ u ∉ w.unseen
  back : ∀ v ∈ w.finished, ∀ u ∈ next v, u ∈ w.finished ∨ Reaches next u v
  later : w.finished.Pairwise fun v u => v ∈ next u → Reaches next v u

/-- Before its first step a walk is sound. -/
theorem sound_start (next : Fin n → List (Fin n)) : Sound next (start n) [] where
  partition := by simp [start]
  path := List.Pairwise.nil
  listed := by simp
  looked := by simp
  back := by simp [start]
  later := by simp [start]

namespace Sound

variable {w : Walk n} {stack rest : List (Visit n)} {v u : Fin n} {pending : List (Fin n)}

/-- No vertex is counted twice. -/
theorem nodup (h : Sound next w stack) :
    (w.unseen ++ (w.finished ++ stack.map Visit.vertex)).Nodup :=
  h.partition.nodup_iff.mpr (List.nodup_finRange n)

/-- A vertex that has been seen has been left or is open. -/
theorem mem_finished_or_open (h : Sound next w stack) (hv : v ∉ w.unseen) :
    v ∈ w.finished ∨ v ∈ stack.map Visit.vertex := by
  have hmem := h.partition.mem_iff.mpr (List.mem_finRange v)
  rw [List.mem_append, List.mem_append] at hmem
  exact hmem.resolve_left hv

/-- An open vertex has not been left. -/
theorem not_mem_finished (h : Sound next w (⟨v, pending⟩ :: rest)) : v ∉ w.finished := by
  have hnd := (List.nodup_append.mp h.nodup).2.1
  intro hv
  exact (List.nodup_append.mp hnd).2.2 v hv v (by simp) rfl

/-- An unseen vertex has not been left. -/
theorem not_mem_finished_of_unseen (h : Sound next w stack) (hv : v ∈ w.unseen) :
    v ∉ w.finished := by
  intro hf
  exact (List.nodup_append.mp h.nodup).2.2 v hv v (List.mem_append_left _ hf) rfl

/-- A seen vertex that has not been left leads to the vertex on top of the stack. -/
theorem reaches_top (h : Sound next w (⟨v, pending⟩ :: rest)) (hu : u ∉ w.unseen)
    (hf : u ∉ w.finished) : Reaches next u v := by
  have hopen := (h.mem_finished_or_open hu).resolve_left hf
  rw [List.map_cons, List.mem_cons] at hopen
  rcases hopen with rfl | hopen
  · exact ReflTransGen.refl
  · obtain ⟨x, hx, rfl⟩ := List.mem_map.mp hopen
    exact (List.pairwise_cons.mp h.path).1 x hx

/-- With one pending vertex less, those that are pending are neighbours still. -/
theorem listed_tail (h : Sound next w (⟨v, u :: pending⟩ :: rest)) :
    ∀ x ∈ (⟨v, pending⟩ :: rest : List (Visit n)), x.pending ⊆ next x.vertex := by
  intro x hx
  rcases List.mem_cons.mp hx with rfl | hx
  · exact List.Subset.trans (List.subset_cons_self u pending) (h.listed _ List.mem_cons_self)
  · exact h.listed x (List.mem_cons_of_mem _ hx)

/-! ### Steps -/

/-- Leaving the vertex on top of the stack, which has nothing pending, keeps a walk sound. -/
theorem finish (h : Sound next w (⟨v, []⟩ :: rest)) : Sound next (w.finish v) rest where
  partition := by
    refine List.Perm.trans ?_ h.partition
    simp only [Walk.finish, List.map_cons, List.cons_append]
    exact (List.perm_middle.symm).append_left _
  path := (List.pairwise_cons.mp h.path).2
  listed x hx := h.listed x (List.mem_cons_of_mem _ hx)
  looked x hx := h.looked x (List.mem_cons_of_mem _ hx)
  back := by
    intro a ha u hu
    rcases List.mem_cons.mp ha with rfl | ha
    · -- All neighbours of the vertex have been seen, so those not yet left lie on the path to it.
      have hseen := (h.looked ⟨a, []⟩ (by simp) u hu).resolve_left (by simp)
      by_cases hf : u ∈ w.finished
      · exact Or.inl (List.mem_cons_of_mem _ hf)
      · exact Or.inr (h.reaches_top hseen hf)
    · exact (h.back a ha u hu).imp_left (List.mem_cons_of_mem _)
  later := by
    refine List.pairwise_cons.mpr ⟨?_, h.later⟩
    intro u hu hv
    -- `v` is left only now, so it leads back to every vertex left before that has it as a neighbour.
    exact (h.back u hu v hv).resolve_left h.not_mem_finished

/-- Visiting a pending neighbour that has not been seen keeps a walk sound. -/
theorem discover (h : Sound next w (⟨v, u :: pending⟩ :: rest)) (hu : u ∈ w.unseen) :
    Sound next (w.discover u) (⟨u, next u⟩ :: ⟨v, pending⟩ :: rest) where
  partition := by
    refine List.Perm.trans ?_ h.partition
    -- the vertex goes over from the unseen ones to the open ones
    have hperm := (List.perm_cons_erase hu).symm
    simp only [Walk.discover, List.map_cons]
    rw [← List.append_assoc, ← List.append_assoc]
    refine List.perm_middle.trans ?_
    exact (hperm.append_right w.finished).append_right _
  path := by
    refine List.pairwise_cons.mpr ⟨?_, ?_⟩
    · intro x hx
      have hstep : Reaches next v u := ReflTransGen.single (h.listed _ List.mem_cons_self (by simp))
      rcases List.mem_cons.mp hx with rfl | hx
      · exact hstep
      · exact ((List.pairwise_cons.mp h.path).1 x hx).trans hstep
    · exact List.pairwise_cons.mpr (List.pairwise_cons.mp h.path)
  listed := by
    intro x hx
    rcases List.mem_cons.mp hx with rfl | hx
    · exact List.Subset.refl _
    · exact h.listed_tail x hx
  looked := by
    intro x hx a ha
    have herase : a ∉ w.unseen → a ∉ (w.discover u).unseen := fun hn hm =>
      hn (List.mem_of_mem_erase hm)
    rcases List.mem_cons.mp hx with rfl | hx
    · exact Or.inl ha
    · rcases List.mem_cons.mp hx with rfl | hx
      · have hcases := h.looked ⟨v, u :: pending⟩ (by simp) a ha
        rw [List.mem_cons, or_assoc] at hcases
        rcases hcases with rfl | hp | hn
        · -- The neighbour is no longer pending, but now it has been seen.
          right
          exact (List.nodup_append.mp h.nodup).1.not_mem_erase
        · exact Or.inl hp
        · exact Or.inr (herase hn)
      · exact (h.looked x (List.mem_cons_of_mem _ hx) a ha).imp_right herase
  back := h.back
  later := h.later

/-- Passing over a pending neighbour that has been seen keeps a walk sound. -/
theorem skip (h : Sound next w (⟨v, u :: pending⟩ :: rest)) (hu : u ∉ w.unseen) :
    Sound next w (⟨v, pending⟩ :: rest) where
  partition := h.partition
  path := List.pairwise_cons.mpr (List.pairwise_cons.mp h.path)
  listed := h.listed_tail
  looked := by
    intro x hx a ha
    rcases List.mem_cons.mp hx with rfl | hx
    · have hcases := h.looked ⟨v, u :: pending⟩ (by simp) a ha
      rw [List.mem_cons, or_assoc] at hcases
      rcases hcases with rfl | hcases
      · exact Or.inr hu
      · exact hcases
    · exact h.looked x (List.mem_cons_of_mem _ hx) a ha
  back := h.back
  later := h.later

/-! ### Runs -/

/-- **Run lemma.** A sound walk is sound when all its visits are closed. -/
theorem run (h : Sound next w stack) : Sound next (Walk.run next w stack) [] := by
  fun_induction Walk.run next w stack with
  | case1 => exact h
  | case2 w v rest ih => exact ih h.finish
  | case3 w v u pending rest hu ih => exact ih (h.discover hu)
  | case4 w v u pending rest hu ih => exact ih (h.skip hu)

/-- Opening a visit when none is open keeps a walk sound. -/
theorem enter (h : Sound next w []) (hv : v ∈ w.unseen) :
    Sound next (w.discover v) [⟨v, next v⟩] where
  partition := by
    refine List.Perm.trans ?_ h.partition
    have hperm := (List.perm_cons_erase hv).symm
    simp only [Walk.discover, List.map_cons, List.map_nil, List.append_nil]
    rw [← List.append_assoc]
    exact List.perm_append_comm.trans (hperm.append_right w.finished)
  path := List.pairwise_singleton _ _
  listed := by simp
  looked := by
    intro x hx u hu
    rw [List.mem_singleton.mp hx] at hu ⊢
    exact Or.inl hu
  back := h.back
  later := h.later

/-- A visit of any vertex keeps a walk sound. -/
theorem visit (h : Sound next w []) (v : Fin n) : Sound next (Walk.visit next w v) [] := by
  unfold Walk.visit
  split
  · next hv => exact (h.enter hv).run
  · exact h

end Sound

/-! ### The whole walk -/

/-- A run sees no vertex anew that it had seen. -/
theorem unseen_run_subset (w : Walk n) (stack : List (Visit n)) :
    (run next w stack).unseen ⊆ w.unseen := by
  fun_induction run next w stack with
  | case1 => exact List.Subset.refl _
  | case2 w v rest ih => exact ih
  | case3 w v u pending rest hu ih => exact List.Subset.trans ih List.erase_subset
  | case4 w v u pending rest hu ih => exact ih

/-- A vertex has been seen once it has been visited, and so has every vertex seen before. -/
theorem mem_unseen_visit {w : Walk n} (h : Sound next w []) {u v : Fin n}
    (hu : u ∈ (visit next w v).unseen) : u ≠ v ∧ u ∈ w.unseen := by
  unfold visit at hu
  split at hu
  · have hmem := unseen_run_subset _ _ hu
    exact (List.Nodup.mem_erase_iff (List.nodup_append.mp h.nodup).1).mp hmem
  · next hv =>
    refine ⟨?_, hu⟩
    rintro rfl
    exact hv hu

/-- Visits of several vertices keep a walk sound and leave none of these vertices unseen. -/
theorem sound_foldl_visit (vs : List (Fin n)) {w : Walk n} (h : Sound next w []) :
    Sound next (vs.foldl (visit next) w) [] ∧
      ∀ u ∈ (vs.foldl (visit next) w).unseen, u ∉ vs ∧ u ∈ w.unseen := by
  induction vs generalizing w with
  | nil => exact ⟨h, fun u hu => ⟨by simp, hu⟩⟩
  | cons v vs ih =>
    obtain ⟨hsound, hseen⟩ := ih (h.visit v)
    refine ⟨hsound, ?_⟩
    intro u hu
    obtain ⟨hvs, hu⟩ := hseen u hu
    obtain ⟨hne, hw⟩ := mem_unseen_visit h hu
    exact ⟨List.not_mem_cons_of_ne_of_not_mem hne hvs, hw⟩

/-- The walk through all vertices is sound, and it has seen them all. -/
theorem sound_all (next : Fin n → List (Fin n)) :
    Sound next (all next) [] ∧ (all next).unseen = [] := by
  obtain ⟨hsound, hseen⟩ := sound_foldl_visit (List.finRange n) (sound_start next)
  refine ⟨hsound, List.eq_nil_iff_forall_not_mem.mpr ?_⟩
  intro u hu
  exact (hseen u hu).1 (List.mem_finRange u)

/-- **Each vertex once.** The walk through all vertices leaves each of them exactly once. -/
theorem perm_finished_all (next : Fin n → List (Fin n)) :
    (all next).finished.Perm (List.finRange n) := by
  obtain ⟨hsound, hseen⟩ := sound_all next
  simpa [hseen] using hsound.partition

/-- **Finishing order.** Where the walk leaves a neighbour of a vertex later than the vertex, the
    neighbour leads back to the vertex. -/
theorem later_finished_all (next : Fin n → List (Fin n)) :
    (all next).finished.Pairwise fun v u => v ∈ next u → Reaches next v u :=
  (sound_all next).1.later

end ImageSpec.Walk
