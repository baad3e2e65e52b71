import ImageSpec.Realization

namespace ImageSpec

/-!
# Building

A service builds specifications over one library: it reads a source, realizes it and writes the
script to a sink.  Each of the three stages can be replaced.
-/

/-- The bytes of a specification, or the fault that kept them from being read. -/
abbrev Source : Type := Except IoFault ByteArray

/-- Where a script is written to: the faults that it answers with, and what it has received. -/
structure Sink where
  onWrite : Option IoFault := none
  onFlush : Option IoFault := none
  received : String := ""

namespace Sink

/-- Writes a text; nothing is written for the empty text. -/
def write (s : Sink) (text : String) : Except IoFault Sink :=
  if text.isEmpty then .ok s
  else match s.onWrite with
    | some fault => .error fault
    | none => .ok { s with received := s.received ++ text }

/-- Makes sure that everything written has arrived. -/
def flush (s : Sink) : Except IoFault Unit :=
  match s.onFlush with
  | some fault => .error fault
  | none => .ok ()

end Sink

/-- The stages of a build over a library with states in `σ`. -/
structure Service (σ : Type) where
  library : Library σ
  read : Source → Except Error Specification
  realize : Library σ → Specification → σ → Except Error Realization × σ
  emit : Script.Naming → Realization → Sink → Except Error Unit × Sink

namespace Service

variable {σ : Type}

/-! ### Stages -/

/-- Reads a specification from a source. -/
def readSource : Source → Except Error Specification
  | .error fault => .error (.input fault)
  | .ok bytes => (Specification.ofBytes bytes).mapError .malformed

/-- Writes the script of a realization to a sink. -/
def emitScript (naming : Script.Naming) (r : Realization) (sink : Sink) :
    Except Error Unit × Sink :=
  match Script.render naming r.steps with
  | .error e => (.error (.emission e), sink)
  | .ok script =>
    match sink.write script with
    | .error fault => (.error (.sink fault), sink)
    | .ok written => (written.flush.mapError .sink, written)

/-! ### Assembly -/

/-- A service that is being put together; a stage that is not given is the usual one. -/
structure Assembly (σ : Type) where
  library : Library σ
  read : Option (Source → Except Error Specification) := none
  realize : Option (Library σ → Specification → σ → Except Error Realization × σ) := none
  emit : Option (Script.Naming → Realization → Sink → Except Error Unit × Sink) := none

namespace Assembly

/-- The service. -/
def build (a : Assembly σ) : Service σ where
  library := a.library
  read := a.read.getD readSource
  realize := a.realize.getD Specification.realize
  emit := a.emit.getD emitScript

/-- Which stages are given, as developers see it. -/
def describe (a : Assembly σ) : String :=
  "BuildServiceBuilder \x7b parser: " ++ toString a.read.isSome ++ ", realizer: "
    ++ toString a.realize.isSome ++ ", emitter: " ++ toString a.emit.isSome ++ ", .. \x7d"

end Assembly

/-- The service with the usual stages. -/
def ofLibrary (l : Library σ) : Service σ := Assembly.build { library := l }

/-- A service, as developers see it. -/
def describe (_ : Service σ) : String := "BuildService \x7b .. \x7d"

/-! ### Runs -/

/-- Reads and realizes a specification. -/
def plan (service : Service σ) (source : Source) (s : σ) : Except Error Realization × σ :=
  match service.read source with
  | .error e => (.error e, s)
  | .ok spec => service.realize service.library spec s

/-- Reads and realizes a specification and writes its script. -/
def build (service : Service σ) (source : Source) (sink : Sink) (s : σ) :
    (Except Error Unit × Sink) × σ :=
  match service.plan source s with
  | (.error e, s) => ((.error e, sink), s)
  | (.ok r, s) => (service.emit service.library.canonical r sink, s)

end Service

end ImageSpec
