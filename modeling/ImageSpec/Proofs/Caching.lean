import ImageSpec.Proofs.Builds
import ImageSpec.Proofs.Lookups
import Mathlib.Data.List.Induction

namespace ImageSpec

open Realization

/-!
# A cache does not show

A service may put a cache around its library.  Where the answers of the library depend only on the
reference, nobody who sends requests to the service can tell; only the library can, which is asked
for a definition that it has once.

* `Library.CacheHolds` — what a cache holds after look-ups, and which of them got through;
  `CacheHolds.lookup` is one look-up and `exists_cacheHolds` any number of them.
* `Library.AnswersWith.recorded`, `Library.AnswersWith.cached` — neither wrapper changes an answer.
* `Service.serveAll_eq` — the responses of a service, and what it asks of its library, as functions
  of the requests and the answers.
* `Service.serveAll_cached` — a cache over whole runs.
-/

/-! ### Answers of wrapped libraries -/

namespace Library

variable {σ : Type} {l : Library σ} {s : σ} {answer : Answers}

/-- A library comes to the states that look-ups in turn lead to. -/
theorem reaches_iff {s' : σ} : l.Reaches s s' ↔ ∃ refs, s' = l.after s refs := by
  constructor
  · intro h
    induction h with
    | refl => exact ⟨[], rfl⟩
    | tail _ hstep ih =>
      obtain ⟨refs, rfl⟩ := ih
      obtain ⟨r, rfl⟩ := hstep
      refine ⟨refs ++ [r], ?_⟩
      rw [after_append]
      rfl
  · rintro ⟨refs, rfl⟩
    exact l.reaches_after s refs

/-- A library answers in one way if it does so after any look-ups. -/
theorem answersWith_iff :
    l.AnswersWith s answer ↔ ∀ refs r, (l.lookup r (l.after s refs)).1 = answer r := by
  constructor
  · exact fun h refs r => h _ (l.reaches_after s refs) r
  · intro h s' hs' r
    obtain ⟨refs, rfl⟩ := reaches_iff.mp hs'
    exact h refs r

/-- Look-ups do not change the answers that are to come. -/
theorem AnswersWith.after (hl : l.AnswersWith s answer) (refs : List Reference) :
    l.AnswersWith (l.after s refs) answer :=
  fun s' hs' => hl s' ((l.reaches_after s refs).trans hs')

/-- Keeping a record does not change the answers. -/
theorem AnswersWith.recorded (hl : l.AnswersWith s answer) (past : List Reference) :
    l.recorded.AnswersWith ⟨s, past⟩ answer := by
  rw [answersWith_iff] at hl ⊢
  intro refs r
  rw [after_recorded]
  exact hl refs r

/-! ### What a cache holds -/

section Lookup

variable {st : Cached σ} {r : Reference} {d : Definition}

/-- A definition that is held is the answer, and the library is not asked. -/
theorem lookup_cached_of_some (l : Library σ) (h : st.answers.lookup r = some d) :
    l.cached.lookup r st = (.ok d, st) := by
  simp only [cached, h]

/-- A definition that is found is the answer, and it is held from then on. -/
theorem lookup_cached_of_ok (hnone : st.answers.lookup r = none)
    (h : (l.lookup r st.inner).1 = .ok d) :
    l.cached.lookup r st = (.ok d, ⟨(l.lookup r st.inner).2, (r, d) :: st.answers⟩) := by
  simp only [cached, hnone]
  rcases hlook : l.lookup r st.inner with ⟨result, state⟩
  rw [hlook] at h
  cases h
  rfl

/-- A failure is the answer, and it is not held. -/
theorem lookup_cached_of_error {cause : LookupError} (hnone : st.answers.lookup r = none)
    (h : (l.lookup r st.inner).1 = .error cause) :
    l.cached.lookup r st = (.error cause, ⟨(l.lookup r st.inner).2, st.answers⟩) := by
  simp only [cached, hnone]
  rcases hlook : l.lookup r st.inner with ⟨result, state⟩
  rw [hlook] at h
  cases h
  rfl

end Lookup

/-- The distinct references of a list that have a definition. -/
def resolved (answer : Answers) (refs : List Reference) : List Reference :=
  (refs.filter fun r => (answer r).isOk).eraseDups

section Resolved

variable {refs : List Reference} {r : Reference}

/-- A reference that is there already adds nothing. -/
theorem resolved_concat_of_mem (hr : r ∈ refs) :
    resolved answer (refs ++ [r]) = resolved answer refs := by
  cases hanswer : answer r with
  | error cause => simp [resolved, hanswer, Except.isOk, Except.toBool]
  | ok d =>
    have hmem : r ∈ refs.filter fun r => (answer r).isOk := by
      simp [hr, hanswer, Except.isOk, Except.toBool]
    have hnew : [r].filter (fun r => (answer r).isOk) = [r] := by
      simp [hanswer, Except.isOk, Except.toBool]
    rw [resolved, List.filter_append, hnew, eraseDups_concat_of_mem hmem]
    rfl

/-- A new reference that has a definition is added. -/
theorem resolved_concat_of_notMem {d : Definition} (hr : r ∉ refs) (hd : answer r = .ok d) :
    resolved answer (refs ++ [r]) = resolved answer refs ++ [r] := by
  have hmem : r ∉ refs.filter fun r => (answer r).isOk := by simp [hr]
  have hnew : [r].filter (fun r => (answer r).isOk) = [r] := by
    simp [hd, Except.isOk, Except.toBool]
  rw [resolved, List.filter_append, hnew, eraseDups_concat_of_notMem hmem]
  rfl

/-- A reference without a definition adds nothing. -/
theorem resolved_concat_of_error {cause : LookupError} (hcause : answer r = .error cause) :
    resolved answer (refs ++ [r]) = resolved answer refs := by
  simp [resolved, hcause, Except.isOk, Except.toBool]

end Resolved

/-- After look-ups of `attempts`, of which `misses` got through to the library, a cache holds the
    definitions that were found.  A reference that has a definition got through once, and one that
    has none each time. -/
structure CacheHolds (l : Library σ) (s : σ) (answer : Answers)
    (attempts misses : List Reference) (st : Cached σ) : Prop where
  inner : st.inner = l.after s misses
  answers : Remembers answer attempts st.answers
  size : st.size = (resolved answer attempts).length
  count_of_ok : ∀ r d, answer r = .ok d → misses.count r = if r ∈ attempts then 1 else 0
  count_of_error : ∀ r cause, answer r = .error cause → misses.count r = attempts.count r

/-- Before the first look-up, a cache holds nothing. -/
theorem cacheHolds_nil (l : Library σ) (s : σ) (answer : Answers) :
    CacheHolds l s answer [] [] ⟨s, []⟩ where
  inner := rfl
  answers := remembers_nil answer
  size := rfl
  count_of_ok := by simp
  count_of_error := by simp

namespace CacheHolds

variable {attempts misses : List Reference} {st : Cached σ} {r : Reference}

/-- A hit: nothing gets through to the library, and the cache stays as it is. -/
theorem hit (h : CacheHolds l s answer attempts misses st) {d : Definition} (hr : r ∈ attempts)
    (hd : answer r = .ok d) : CacheHolds l s answer (attempts ++ [r]) misses st where
  inner := h.inner
  answers := h.answers.concat fun _ _ => hr
  size := by rw [h.size, resolved_concat_of_mem hr]
  count_of_ok := by
    intro r' d' hd'
    -- a hit attempts nothing new
    have hsame : r' ∈ attempts ++ [r] ↔ r' ∈ attempts := by
      rw [List.mem_append, List.mem_singleton]
      constructor
      · rintro (hr' | rfl)
        · exact hr'
        · exact hr
      · exact Or.inl
    rw [h.count_of_ok r' d' hd', if_congr hsame rfl rfl]
  count_of_error := by
    intro r' cause hcause
    have hne : r ≠ r' := by
      rintro rfl
      rw [hd] at hcause
      cases hcause
    rw [h.count_of_error r' cause hcause]
    simp [List.count_append, hne]

/-- A miss: the reference gets through, and a definition is remembered. -/
theorem miss_of_ok (h : CacheHolds l s answer attempts misses st) {d : Definition}
    (hr : r ∉ attempts) (hd : answer r = .ok d) :
    CacheHolds l s answer (attempts ++ [r]) (misses ++ [r])
      ⟨(l.lookup r st.inner).2, (r, d) :: st.answers⟩ where
  inner := by
    rw [h.inner, after_append]
    rfl
  answers := h.answers.concat_of_ok hd
  size := by
    have hsize : st.answers.length = (resolved answer attempts).length := h.size
    rw [resolved_concat_of_notMem hr hd, List.length_append, ← hsize]
    rfl
  count_of_ok := by
    intro r' d' hd'
    rw [List.count_append, h.count_of_ok r' d' hd']
    by_cases hne : r = r'
    · subst hne
      simp [hr]
    · simp [hne, Ne.symm hne]
  count_of_error := by
    intro r' cause hcause
    rw [List.count_append, List.count_append, h.count_of_error r' cause hcause]

/-- A failure: the reference gets through, and nothing is remembered. -/
theorem miss_of_error (h : CacheHolds l s answer attempts misses st) {cause : LookupError}
    (hcause : answer r = .error cause) :
    CacheHolds l s answer (attempts ++ [r]) (misses ++ [r])
      ⟨(l.lookup r st.inner).2, st.answers⟩ where
  inner := by
    rw [h.inner, after_append]
    rfl
  answers := by
    refine h.answers.concat fun d hd => ?_
    rw [hcause] at hd
    cases hd
  size := by
    rw [resolved_concat_of_error hcause]
    exact h.size
  count_of_ok := by
    intro r' d' hd'
    have hne : r ≠ r' := by
      rintro rfl
      rw [hd'] at hcause
      cases hcause
    rw [List.count_append, h.count_of_ok r' d' hd']
    simp [hne, Ne.symm hne]
  count_of_error := by
    intro r' cause' hcause'
    rw [List.count_append, List.count_append, h.count_of_error r' cause' hcause']

/-- **One look-up.** A cache answers as its library does, and goes on holding what it should. -/
theorem lookup (hl : l.AnswersWith s answer) (h : CacheHolds l s answer attempts misses st)
    (r : Reference) :
    (l.cached.lookup r st).1 = answer r ∧
      ∃ misses', CacheHolds l s answer (attempts ++ [r]) misses' (l.cached.lookup r st).2 := by
  have hinner : (l.lookup r st.inner).1 = answer r := by
    rw [h.inner]
    exact answersWith_iff.mp hl misses r
  cases hremembered : st.answers.lookup r with
  | some d =>
    obtain ⟨hr, hd⟩ := (h.answers r d).mp hremembered
    rw [lookup_cached_of_some l hremembered]
    exact ⟨hd.symm, misses, h.hit hr hd⟩
  | none =>
    cases hanswer : answer r with
    | error cause =>
      rw [lookup_cached_of_error hremembered (hinner.trans hanswer)]
      exact ⟨rfl, misses ++ [r], h.miss_of_error hanswer⟩
    | ok d =>
      -- it would be remembered if it had been looked up before
      have hr : r ∉ attempts := by
        intro hr
        rw [(h.answers r d).mpr ⟨hr, hanswer⟩] at hremembered
        cases hremembered
      rw [lookup_cached_of_ok hremembered (hinner.trans hanswer)]
      exact ⟨rfl, misses ++ [r], h.miss_of_ok hr hanswer⟩

end CacheHolds

/-- **Any number of look-ups.** -/
theorem exists_cacheHolds (hl : l.AnswersWith s answer) (attempts : List Reference) :
    ∃ misses, CacheHolds l s answer attempts misses (l.cached.after ⟨s, []⟩ attempts) := by
  induction attempts using List.reverseRecOn with
  | nil => exact ⟨[], cacheHolds_nil l s answer⟩
  | append_singleton attempts r ih =>
    obtain ⟨misses, h⟩ := ih
    rw [after_append]
    exact (h.lookup hl r).2

/-- A cache does not change the answers. -/
theorem AnswersWith.cached (hl : l.AnswersWith s answer) :
    l.cached.AnswersWith ⟨s, []⟩ answer := by
  rw [answersWith_iff]
  intro attempts r
  obtain ⟨misses, h⟩ := exists_cacheHolds hl attempts
  exact (h.lookup hl r).1

end Library

/-! ### Requests -/

namespace Service

/-- What a service is asked to do. -/
inductive Request where
  | plan (source : Source)
  | build (source : Source) (sink : Sink)

/-- What comes of a request. -/
inductive Response where
  | planned (result : Except Error Realization)
  | built (result : Except Error Unit) (sink : Sink)

variable {σ : Type}

/-- Does what is asked for. -/
def serve (service : Service σ) : Request → σ → Response × σ
  | .plan source, s =>
    let (result, s) := service.plan source s
    (.planned result, s)
  | .build source sink, s =>
    let ((result, sink), s) := service.build source sink s
    (.built result sink, s)

/-- Does what is asked for, one request after the other. -/
def serveAll (service : Service σ) : List Request → σ → List Response × σ
  | [], s => ([], s)
  | request :: rest, s =>
    let (response, s) := service.serve request s
    let (responses, s) := service.serveAll rest s
    (response :: responses, s)

/-- The plan of a source, given the answers to its references. -/
def planned (answer : Answers) (source : Source) : Except Error Realization :=
  match readSource source with
  | .error e => .error e
  | .ok spec => Fresh.realize answer spec

/-- The response to a request, given the answers to its references. -/
def respond (naming : Script.Naming) (answer : Answers) : Request → Response
  | .plan source => .planned (planned answer source)
  | .build source sink =>
    match planned answer source with
    | .error e => .built (.error e) sink
    | .ok r => .built (emitScript naming r sink).1 (emitScript naming r sink).2

/-- The references that a source makes a service look up. -/
def sourceLookups (answer : Answers) (source : Source) : List Reference :=
  match readSource source with
  | .error _ => []
  | .ok spec => spec.lookups answer

/-- The references that a request makes a service look up. -/
def requestLookups (answer : Answers) : Request → List Reference
  | .plan source => sourceLookups answer source
  | .build source _ => sourceLookups answer source

variable {l : Library σ} {s : σ} {answer : Answers}

/-- A plan and what it asks of the library, as functions of the source and the answers. -/
theorem plan_eq (hl : l.AnswersWith s answer) (source : Source) :
    (ofLibrary l).plan source s
      = (planned answer source, l.after s (sourceLookups answer source)) := by
  have hplan : (ofLibrary l).plan source s = match readSource source with
      | .error e => (.error e, s)
      | .ok spec => spec.realize l s := rfl
  rw [hplan, planned, sourceLookups]
  cases readSource source with
  | error e => rfl
  | ok spec =>
    have hresult := realize_eq_fresh hl spec
    have hstate := realize_snd_eq_after l s spec
    rw [hl.answersAlong_eq] at hstate
    exact Prod.ext hresult hstate

/-- A response and what it asks of the library, as functions of the request and the answers. -/
theorem serve_eq (hl : l.AnswersWith s answer) (request : Request) :
    (ofLibrary l).serve request s
      = (respond l.canonical answer request, l.after s (requestLookups answer request)) := by
  cases request with
  | plan source =>
    rw [serve, plan_eq hl]
    rfl
  | build source sink =>
    rw [serve, build, plan_eq hl, respond, requestLookups]
    cases planned answer source <;> rfl

/-- **Requests in turn.** The responses of a service, and what it asks of its library, depend only
    on the requests and the answers. -/
theorem serveAll_eq (hl : l.AnswersWith s answer) (requests : List Request) :
    (ofLibrary l).serveAll requests s
      = (requests.map (respond l.canonical answer),
          l.after s (requests.flatMap (requestLookups answer))) := by
  induction requests generalizing s with
  | nil => rfl
  | cons request rest ih =>
    rw [serveAll, serve_eq hl]
    dsimp only
    rw [ih (hl.after _), List.map_cons, List.flatMap_cons, Library.after_append]

/-- **A cache does not show.**  Let the answers of a library depend only on the reference.  Whatever
    plans and builds are asked of a service with a cache around the library, one after the other,
    each ends as it does without the cache, and the service attempts the same look-ups.  Of these,
    a reference that has a definition gets through to the library once, and one that has none gets
    through each time.  The cache then holds as many answers as there are distinct references that
    were found. -/
theorem serveAll_cached (hl : l.AnswersWith s answer) (requests : List Request) :
    let run := (ofLibrary l.recorded.cached.recorded).serveAll requests ⟨⟨⟨s, []⟩, []⟩, []⟩
    let attempts := run.2.calls
    let reached := run.2.inner.inner.calls
    run.1 = ((ofLibrary l).serveAll requests s).1 ∧
      attempts = ((ofLibrary l.recorded).serveAll requests ⟨s, []⟩).2.calls ∧
      (∀ r d, answer r = .ok d → reached.count r = if r ∈ attempts then 1 else 0) ∧
      (∀ r cause, answer r = .error cause → reached.count r = attempts.count r) ∧
      run.2.inner.size = (attempts.filter fun r => (answer r).isOk).eraseDups.length := by
  intro run attempts reached
  have hrecorded : l.recorded.AnswersWith ⟨s, []⟩ answer := hl.recorded []
  have hall : l.recorded.cached.recorded.AnswersWith ⟨⟨⟨s, []⟩, []⟩, []⟩ answer :=
    hrecorded.cached.recorded []
  have hrun : run = (requests.map (respond l.canonical answer),
      l.recorded.cached.recorded.after ⟨⟨⟨s, []⟩, []⟩, []⟩
        (requests.flatMap (requestLookups answer))) := serveAll_eq hall requests
  have hattempts : attempts = requests.flatMap (requestLookups answer) := by
    show run.2.calls = _
    rw [hrun, Library.calls_after_recorded]
  -- the outer record keeps the attempts, the inner one what the cache let through
  have hinner : run.2.inner = l.recorded.cached.after ⟨⟨s, []⟩, []⟩ attempts := by
    rw [hrun, Library.after_recorded, hattempts]
  obtain ⟨misses, hcache⟩ := Library.exists_cacheHolds hrecorded attempts
  rw [← hinner] at hcache
  have hreached : reached = misses := by
    show run.2.inner.inner.calls = misses
    rw [hcache.inner, Library.calls_after_recorded]
  refine ⟨?_, ?_, ?_, ?_, hcache.size⟩
  · rw [hrun, serveAll_eq hl]
  · rw [hattempts, serveAll_eq hrecorded, Library.calls_after_recorded]
  · rw [hreached]
    exact hcache.count_of_ok
  · rw [hreached]
    exact hcache.count_of_error

/-- A source with a tool that the sample catalog does not have. -/
def ghostSource : Source := .ok "base=\"debian\" dep=\"ghost\"".toUTF8

/-- Both references of the source are looked up, the missing one as well. -/
theorem sourceLookups_ghostSource :
    sourceLookups sampleCatalog.resolve ghostSource = [⟨"debian", none⟩, ⟨"ghost", none⟩] := by
  have hread : readSource ghostSource
      = .ok [.base ⟨1, 1⟩ ⟨"debian", none⟩, .dep ⟨1, 15⟩ ⟨"ghost", none⟩] := by
    rw [ghostSource, readSource, Specification.ofBytes_toUTF8]
    with_unfolding_all rfl
  rw [sourceLookups, hread]
  with_unfolding_all rfl

/-- Planned and then built, it makes the library look for the base image once and for the tool
    twice. -/
theorem reached_ghostSource :
    let requests := [Request.plan ghostSource, .build ghostSource {}]
    let run := (ofLibrary Catalog.library.recorded.cached.recorded).serveAll requests
      ⟨⟨⟨sampleCatalog, []⟩, []⟩, []⟩
    Catalog.library.AnswersWith sampleCatalog sampleCatalog.resolve ∧
      run.2.inner.inner.calls.count ⟨"debian", none⟩ = 1 ∧
      run.2.inner.inner.calls.count ⟨"ghost", none⟩ = 2 ∧ run.2.inner.size = 1 := by
  intro requests run
  have hl := Catalog.library_answersWith sampleCatalog
  obtain ⟨-, hattempts, hok, herror, hsize⟩ := serveAll_cached hl requests
  have hcalls : run.2.calls = [⟨"debian", none⟩, ⟨"ghost", none⟩, ⟨"debian", none⟩,
      ⟨"ghost", none⟩] := by
    rw [hattempts, serveAll_eq (hl.recorded []), Library.calls_after_recorded]
    simp [requests, requestLookups, sourceLookups_ghostSource]
  have hdebian : sampleCatalog.resolve ⟨"debian", none⟩
      = .ok ⟨"debian", "12", sampleDigest, .empty⟩ := by with_unfolding_all rfl
  have hghost : sampleCatalog.resolve ⟨"ghost", none⟩ = .error (.unknownName "ghost") := by
    with_unfolding_all rfl
  have hmem : (⟨"debian", none⟩ : Reference) ∈ run.2.calls := by simp [hcalls]
  refine ⟨hl, ?_, ?_, ?_⟩
  · exact (hok _ _ hdebian).trans (if_pos hmem)
  · rw [herror _ _ hghost, hcalls]
    rfl
  · rw [hsize, hcalls]
    with_unfolding_all rfl

end Service

end ImageSpec
