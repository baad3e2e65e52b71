import ImageSpec.Proofs.Caching

namespace ImageSpec.Library

/-!
# A cache in front of a library that changes

A library need not give the same answer twice: it may fail and recover, or hold something else the
next time.  A cache in front of it makes up for that.  The first definition that is found for a
reference stays the answer, and failures leave no trace, so the reference is asked for again until
it is found.

* `Event`, `Session` — look-ups in any order, between which the library may change by itself.
* `found` — the distinct references that were found.
* `Faithful` — a cache holds what was found, and nothing else; `Faithful.next` is one event and
  `faithful_session` any number of them.
* `lookup_after_events` — what a look-up does after any events.
-/

variable {σ : Type}

/-! ### Events -/

/-- What can happen around a cache: a reference is looked up, or the library behind the cache
    changes by itself. -/
inductive Event (σ : Type) where
  | lookup (r : Reference)
  | change (f : σ → σ)

/-- The look-ups that were answered, in order, each with its answer. -/
abbrev Past : Type := List (Reference × Except LookupError Definition)

/-- A cache over a library that notes what reaches it, and the past of the cache. -/
structure Session (σ : Type) where
  cache : Cached (Recorded σ)
  past : Past

/-- The session in which a reference was looked up once more. -/
def Session.ask (l : Library σ) (s : Session σ) (r : Reference) : Session σ where
  cache := (l.recorded.cached.lookup r s.cache).2
  past := s.past ++ [(r, (l.recorded.cached.lookup r s.cache).1)]

/-- What an event leads to. -/
def Session.next (l : Library σ) (s : Session σ) : Event σ → Session σ
  | .lookup r => s.ask l r
  | .change f => { s with cache.inner.inner := f s.cache.inner.inner }

/-- What events in turn lead to, from an empty cache over a library in the state `s`. -/
def session (l : Library σ) (s : σ) (events : List (Event σ)) : Session σ :=
  events.foldl (Session.next l) ⟨⟨⟨s, []⟩, []⟩, []⟩

/-- The distinct references that were found. -/
def found (past : Past) : List Reference := ((past.filter (·.2.isOk)).map (·.1)).eraseDups

section Found

variable {past : Past} {r : Reference} {d : Definition}

/-- A reference was found if some look-up gave a definition. -/
theorem mem_found_iff : r ∈ found past ↔ ∃ d, (r, .ok d) ∈ past := by
  rw [found, List.mem_eraseDups, List.mem_map]
  constructor
  · rintro ⟨⟨r', answer⟩, hmem, rfl⟩
    obtain ⟨hmem, hok⟩ := List.mem_filter.mp hmem
    cases answer with
    | error cause => cases hok
    | ok d => exact ⟨d, hmem⟩
  · rintro ⟨d, hmem⟩
    exact ⟨(r, .ok d), List.mem_filter.mpr ⟨hmem, rfl⟩, rfl⟩

/-- A reference that was found before adds nothing. -/
theorem found_concat_of_mem (h : (r, .ok d) ∈ past) :
    found (past ++ [(r, .ok d)]) = found past := by
  have hmem : r ∈ (past.filter (·.2.isOk)).map (·.1) :=
    List.mem_eraseDups.mp (mem_found_iff.mpr ⟨d, h⟩)
  rw [found, List.filter_append, List.map_append]
  exact eraseDups_concat_of_mem hmem

/-- A reference that is found for the first time comes last. -/
theorem found_concat_of_notMem (h : ∀ d, (r, .ok d) ∉ past) :
    found (past ++ [(r, .ok d)]) = found past ++ [r] := by
  have hmem : r ∉ (past.filter (·.2.isOk)).map (·.1) := by
    intro hmem
    obtain ⟨d, hd⟩ := mem_found_iff.mp (List.mem_eraseDups.mpr hmem)
    exact h d hd
  rw [found, List.filter_append, List.map_append]
  exact eraseDups_concat_of_notMem hmem

theorem found_concat_error (past : Past) (r : Reference) (cause : LookupError) :
    found (past ++ [(r, .error cause)]) = found past := by
  have hnone : [(r, (.error cause : Except LookupError Definition))].filter (·.2.isOk) = [] := rfl
  rw [found, List.filter_append, hnone, List.append_nil]
  rfl

end Found

/-! ### What the cache holds -/

/-- What a look-up in a cache can do: answer from what it holds, or ask the library and hold on to a
    definition. -/
theorem lookup_cached_cases (l : Library σ) (st : Cached σ) (r : Reference) :
    (∃ d, st.answers.lookup r = some d ∧ l.cached.lookup r st = (.ok d, st)) ∨
      st.answers.lookup r = none ∧
        ((∃ d, (l.lookup r st.inner).1 = .ok d ∧ l.cached.lookup r st
            = (.ok d, ⟨(l.lookup r st.inner).2, (r, d) :: st.answers⟩)) ∨
          ∃ cause, (l.lookup r st.inner).1 = .error cause ∧ l.cached.lookup r st
            = (.error cause, ⟨(l.lookup r st.inner).2, st.answers⟩)) := by
  cases hheld : st.answers.lookup r with
  | some d => exact .inl ⟨d, rfl, lookup_cached_of_some l hheld⟩
  | none =>
    refine .inr ⟨rfl, ?_⟩
    cases hanswer : (l.lookup r st.inner).1 with
    | ok d => exact .inl ⟨d, rfl, lookup_cached_of_ok hheld hanswer⟩
    | error cause => exact .inr ⟨cause, rfl, lookup_cached_of_error hheld hanswer⟩

/-- A reference that is not held is looked up in the library, and its answer is passed on. -/
theorem lookup_cached_of_none (l : Library σ) {st : Cached σ} {r : Reference}
    (h : st.answers.lookup r = none) :
    (l.cached.lookup r st).1 = (l.lookup r st.inner).1 ∧
      (l.cached.lookup r st).2.inner = (l.lookup r st.inner).2 := by
  rcases lookup_cached_cases l st r with
    ⟨d, hd, -⟩ | ⟨-, ⟨d, hanswer, hresult⟩ | ⟨cause, hanswer, hresult⟩⟩
  · rw [h] at hd
    cases hd
  · rw [hresult, hanswer]
    exact ⟨rfl, rfl⟩
  · rw [hresult, hanswer]
    exact ⟨rfl, rfl⟩

/-- A failure is not held. -/
theorem answers_of_failure {l : Library σ} {st : Cached σ} {r : Reference} {cause : LookupError}
    (h : (l.cached.lookup r st).1 = .error cause) :
    (l.cached.lookup r st).2.answers = st.answers := by
  rcases lookup_cached_cases l st r with
    ⟨d, -, hresult⟩ | ⟨-, ⟨d, -, hresult⟩ | ⟨cause, -, hresult⟩⟩
  · rw [hresult]
  · rw [hresult] at h
    cases h
  · rw [hresult]

/-- The answers that are held are those that were given: each reference that was found stands with
    the one definition that it was found with. -/
structure Faithful (answers : List (Reference × Definition)) (past : Past) : Prop where
  lookup_iff : ∀ r d, answers.lookup r = some d ↔ (r, .ok d) ∈ past
  length_eq : answers.length = (found past).length

theorem faithful_nil : Faithful [] [] := ⟨by simp, rfl⟩

namespace Faithful

variable {answers : List (Reference × Definition)} {past : Past} {r : Reference}

/-- Nothing is held for a reference that was not found. -/
theorem lookup_eq_none_iff (h : Faithful answers past) :
    answers.lookup r = none ↔ ∀ d, (r, .ok d) ∉ past := by
  rw [Option.eq_none_iff_forall_ne_some]
  exact forall_congr' fun d => not_congr (h.lookup_iff r d)

/-- A hit says again what is known. -/
theorem hit (h : Faithful answers past) {d : Definition} (hd : answers.lookup r = some d) :
    Faithful answers (past ++ [(r, .ok d)]) := by
  have hknown : (r, .ok d) ∈ past := (h.lookup_iff r d).mp hd
  refine ⟨fun r' d' => ?_, ?_⟩
  · rw [h.lookup_iff, List.mem_append, List.mem_singleton]
    constructor
    · exact Or.inl
    · rintro (hmem | heq)
      · exact hmem
      · rw [heq]
        exact hknown
  · rw [h.length_eq, found_concat_of_mem hknown]

/-- A definition of a reference that was not found before is held from now on. -/
theorem hold (h : Faithful answers past) (hr : answers.lookup r = none) (d : Definition) :
    Faithful ((r, d) :: answers) (past ++ [(r, .ok d)]) := by
  have hnew := h.lookup_eq_none_iff.mp hr
  refine ⟨fun r' d' => ?_, ?_⟩
  · rw [KeyMap.lookup_cons_eq_ite, List.mem_append, List.mem_singleton]
    by_cases heq : r' = r
    · subst heq
      simp [hnew, eq_comm]
    · simp [heq, h.lookup_iff]
  · rw [found_concat_of_notMem hnew, List.length_append, ← h.length_eq]
    rfl

/-- A failure is not held. -/
theorem failure (h : Faithful answers past) (cause : LookupError) :
    Faithful answers (past ++ [(r, .error cause)]) := by
  refine ⟨fun r' d' => ?_, ?_⟩
  · rw [h.lookup_iff, List.mem_append, List.mem_singleton]
    simp
  · rw [h.length_eq, found_concat_error]

/-- **One event.** A look-up ends in one of the three ways, and a change of the library does not
    touch the cache. -/
theorem next {s : Session σ} (h : Faithful s.cache.answers s.past) (l : Library σ) (e : Event σ) :
    Faithful (s.next l e).cache.answers (s.next l e).past := by
  cases e with
  | change f => exact h
  | lookup r =>
    show Faithful (s.ask l r).cache.answers (s.ask l r).past
    unfold Session.ask
    rcases lookup_cached_cases l.recorded s.cache r with
      ⟨d, hd, hresult⟩ | ⟨hnone, ⟨d, -, hresult⟩ | ⟨cause, -, hresult⟩⟩
    · rw [hresult]
      exact h.hit hd
    · rw [hresult]
      exact h.hold hnone d
    · rw [hresult]
      exact h.failure cause

end Faithful

/-- **Any events.** -/
theorem faithful_session (l : Library σ) (s : σ) (events : List (Event σ)) :
    Faithful (session l s events).cache.answers (session l s events).past := by
  induction events using List.reverseRecOn with
  | nil => exact faithful_nil
  | append_singleton events e ih =>
    rw [session, List.foldl_append]
    exact ih.next l e

/-! ### Look-ups -/

/-- **Memoization.** Whatever a library does, and whatever look-ups and changes came before: a
    reference that was found once is answered with that definition, without a call to the library
    and with the cache as it was.  A look-up gets through to the library if and only if its
    reference was not found before, and then its answer is the library's, be it a definition or a
    failure.  A failure leaves what the cache holds as it was.  The cache holds as many answers as
    distinct references were found. -/
theorem lookup_after_events (l : Library σ) (s : σ) (events : List (Event σ)) (r : Reference) :
    let now := session l s events
    let result := l.recorded.cached.lookup r now.cache
    (∀ d, (r, .ok d) ∈ now.past → result = (.ok d, now.cache)) ∧
      (result.2.inner.calls = now.cache.inner.calls ++ [r] ↔ ∀ d, (r, .ok d) ∉ now.past) ∧
      ((∀ d, (r, .ok d) ∉ now.past) →
        (result.1, result.2.inner.inner) = l.lookup r now.cache.inner.inner) ∧
      (∀ cause, result.1 = .error cause → result.2.answers = now.cache.answers) ∧
      now.cache.size = (found now.past).length := by
  intro now result
  have h : Faithful now.cache.answers now.past := faithful_session l s events
  have hhit : ∀ d, (r, .ok d) ∈ now.past → result = (.ok d, now.cache) := fun d hd =>
    lookup_cached_of_some l.recorded ((h.lookup_iff r d).mpr hd)
  have hmiss : (∀ d, (r, .ok d) ∉ now.past) →
      result.1 = (l.recorded.lookup r now.cache.inner).1 ∧
        result.2.inner = (l.recorded.lookup r now.cache.inner).2 := fun hnew =>
    lookup_cached_of_none l.recorded (h.lookup_eq_none_iff.mpr hnew)
  refine ⟨hhit, ⟨fun hreached d hd => ?_, fun hnew => ?_⟩, fun hnew => ?_,
    fun cause hcause => answers_of_failure hcause, h.length_eq⟩
  · -- a hit leaves the record as it was
    have hsame : now.cache.inner.calls = now.cache.inner.calls ++ [r] := by
      rwa [hhit d hd] at hreached
    have hlength := congrArg List.length hsame
    rw [List.length_append, List.length_singleton] at hlength
    omega
  · rw [(hmiss hnew).2]
    exact List.reverse_cons
  · rw [(hmiss hnew).1, (hmiss hnew).2]
    rfl

/-- A library that is busy at first, and then has a newer version each time it is asked. -/
def flaky : Library Nat where
  lookup r n :=
    if n = 0 then (.error (.unavailable "busy"), 1)
    else (.ok ⟨r.name, if n = 1 then "1.0" else "2.0", Realization.sampleDigest, .empty⟩, n + 1)

/-- Look-ups of one reference, with a jump of the library in between. -/
def flakyEvents : List (Event Nat) :=
  [.lookup ⟨"jq", none⟩, .lookup ⟨"jq", none⟩, .change (· + 5), .lookup ⟨"jq", none⟩]

/-- A further look-up of `jq` is answered with what the second one found, although the library would
    have something else by now, and one of `curl` gets through to it. -/
theorem lookup_flaky :
    let now := session flaky 0 flakyEvents
    now.past.map (·.2.isOk) = [false, true, true] ∧
      flaky.recorded.cached.lookup ⟨"jq", none⟩ now.cache
        = (.ok ⟨"jq", "1.0", Realization.sampleDigest, .empty⟩, now.cache) ∧
      (flaky.recorded.cached.lookup ⟨"curl", none⟩ now.cache).2.inner.calls
        = [⟨"jq", none⟩, ⟨"jq", none⟩, ⟨"curl", none⟩] ∧
      now.cache.size = 1 := by
  intro now
  have hpast : now.past = [(⟨"jq", none⟩, .error (.unavailable "busy")),
      (⟨"jq", none⟩, .ok ⟨"jq", "1.0", Realization.sampleDigest, .empty⟩),
      (⟨"jq", none⟩, .ok ⟨"jq", "1.0", Realization.sampleDigest, .empty⟩)] := by
    with_unfolding_all rfl
  have hcalls : now.cache.inner.calls = [⟨"jq", none⟩, ⟨"jq", none⟩] := by with_unfolding_all rfl
  obtain ⟨hhit, -, -, -, hsize⟩ := lookup_after_events flaky 0 flakyEvents ⟨"jq", none⟩
  obtain ⟨-, hreached, -⟩ := lookup_after_events flaky 0 flakyEvents ⟨"curl", none⟩
  refine ⟨by rw [hpast]; rfl, hhit _ ?_, ?_, hsize.trans ?_⟩
  · show _ ∈ now.past
    rw [hpast]
    simp
  · refine (hreached.mpr fun d => ?_).trans ?_
    · show _ ∉ now.past
      rw [hpast]
      simp
    · show now.cache.inner.calls ++ _ = _
      rw [hcalls]
      rfl
  · show (found now.past).length = 1
    rw [hpast]
    with_unfolding_all rfl

end ImageSpec.Library
