import ImageSpec.Definition
import ImageSpec.Reference

namespace ImageSpec

/-!
# Libraries

A library binds references to definitions and gives each definition the name under which a script
mentions it.  A look-up may change the library: it may be counted, remembered, or answered by a
source that changes.  So a library with states in `σ` is a pair of functions, and the wrappers
`recorded` and `cached` make a library from a library.
-/

/-- A source of definitions whose state is a `σ`. -/
structure Library (σ : Type) where
  /-- Binds a reference to a definition. -/
  lookup : Reference → σ → Except LookupError Definition × σ
  /-- The name under which a script mentions a definition. -/
  canonical : Definition → Except LookupError String := Definition.canonical

namespace Library

variable {σ : Type}

/-! ### Recorded look-ups -/

/-- A library's state with the references that reached it, the latest first. -/
structure Recorded (σ : Type) where
  inner : σ
  latestFirst : List Reference := []

/-- The references that reached a library, in order. -/
def Recorded.calls (s : Recorded σ) : List Reference := s.latestFirst.reverse

/-- The library that also notes every reference it is asked for. -/
def recorded (l : Library σ) : Library (Recorded σ) where
  lookup r s :=
    let (answer, inner) := l.lookup r s.inner
    (answer, ⟨inner, r :: s.latestFirst⟩)
  canonical := l.canonical

/-! ### Remembered answers -/

/-- A library's state with the answers that it has given. -/
structure Cached (σ : Type) where
  inner : σ
  answers : List (Reference × Definition) := []

/-- The number of answers that are remembered. -/
def Cached.size (s : Cached σ) : Nat := s.answers.length

/-- The library that remembers every definition it has found; failures are not remembered. -/
def cached (l : Library σ) : Library (Cached σ) where
  lookup r s :=
    match s.answers.lookup r with
    | some d => (.ok d, s)
    | none =>
      match l.lookup r s.inner with
      | (.ok d, inner) => (.ok d, ⟨inner, (r, d) :: s.answers⟩)
      | (.error e, inner) => (.error e, ⟨inner, s.answers⟩)
  canonical := l.canonical

end Library

end ImageSpec
