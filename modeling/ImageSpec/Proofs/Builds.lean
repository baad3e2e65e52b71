import ImageSpec.Service

namespace ImageSpec

/-!
# Builds stage by stage

* `Text.decode_toUTF8`, `Specification.ofBytes_toUTF8` — the bytes of a text are read as that text.
* `Service.build_eq_buildRead` — a build is reading, and then what is made of what was read.
* `Service.of_build_eq_ok` — what a build that succeeds has read, realized and written.
-/

/-! ### Texts as bytes -/

namespace Text

/-- Behind any bytes, those of a text are read as that text. -/
theorem decodeFrom_append (before : ByteArray) (cs : List Char) :
    decodeFrom (before ++ cs.utf8Encode) before.size = ⟨cs, none⟩ := by
  induction cs generalizing before with
  | nil => rw [decodeFrom, dif_neg (by simp)]
  | cons c cs ih =>
    have hchar : (before ++ (c :: cs).utf8Encode).utf8DecodeChar? before.size = some c := by
      rw [ByteArray.utf8DecodeChar?_eq_utf8DecodeChar?_extract,
        ByteArray.extract_append_eq_right rfl (by simp)]
      exact List.utf8DecodeChar?_utf8Encode_cons
    have hsize : before.size < (before ++ (c :: cs).utf8Encode).size :=
      ByteArray.lt_size_of_isSome_utf8DecodeChar? (by rw [hchar]; rfl)
    rw [decodeFrom, dif_pos hsize, hchar]
    -- the first character goes over to what was read before
    have hnext : before ++ (c :: cs).utf8Encode = (before ++ [c].utf8Encode) ++ cs.utf8Encode := by
      rw [List.utf8Encode_cons, ByteArray.append_assoc]
    have hindex : before.size + c.utf8Size = (before ++ [c].utf8Encode).size := by
      rw [ByteArray.size_append, List.utf8Encode_singleton]
      simp
    dsimp only
    rw [hnext, hindex, ih]

/-- The bytes of a text are read as that text. -/
theorem decode_toUTF8 (s : String) : decode s.toUTF8 = ⟨s.toList, none⟩ := by
  have h := decodeFrom_append ByteArray.empty s.toList
  rw [String.utf8Encode_toList] at h
  simpa [decode] using h

end Text

/-- A specification is read from the bytes of a text as from the text. -/
theorem Specification.ofBytes_toUTF8 (text : String) :
    ofBytes text.toUTF8 = ofChars text.toList := by
  rw [ofBytes, Text.decode_toUTF8]

namespace Service

variable {σ : Type}

/-! ### Stages -/

/-- How a build goes on from what was read. -/
def buildRead (l : Library σ) (sink : Sink) (s : σ) :
    Except SyntaxError Specification → (Except Error Unit × Sink) × σ
  | .error e => ((.error (.malformed e), sink), s)
  | .ok spec =>
    match spec.realize l s with
    | (.error e, s) => ((.error e, sink), s)
    | (.ok r, s) => (emitScript l.canonical r sink, s)

/-- The usual service reads the source first, and nothing else depends on its bytes. -/
theorem build_eq_buildRead (l : Library σ) (bytes : ByteArray) (sink : Sink) (s : σ) :
    (ofLibrary l).build (.ok bytes) sink s = buildRead l sink s (Specification.ofBytes bytes) := by
  have hread : (ofLibrary l).read (.ok bytes)
      = (Specification.ofBytes bytes).mapError .malformed := rfl
  rw [build, plan, hread]
  cases Specification.ofBytes bytes with
  | error e => rfl
  | ok spec => rfl

/-! ### Success -/

/-- A sink that takes a text has received it behind all that it had. -/
theorem received_of_write {sink sink' : Sink} {text : String} (h : sink.write text = .ok sink') :
    sink'.received = sink.received ++ text := by
  unfold Sink.write at h
  split at h
  · next hempty =>
    cases h
    rw [String.isEmpty_iff.mp hempty, String.append_empty]
  · split at h <;> cases h
    rfl

/-- A script that is emitted is received whole, behind what was there. -/
theorem received_of_emitScript {naming : Script.Naming} {r : Realization} {sink sink' : Sink}
    (h : emitScript naming r sink = (.ok (), sink')) :
    ∃ script, Script.render naming r.steps = .ok script ∧
      sink'.received = sink.received ++ script := by
  unfold emitScript at h
  cases hscript : Script.render naming r.steps with
  | error e =>
    rw [hscript] at h
    cases h
  | ok script =>
    rw [hscript] at h
    dsimp only at h
    refine ⟨script, rfl, ?_⟩
    cases hwrite : sink.write script with
    | error fault =>
      rw [hwrite] at h
      cases h
    | ok written =>
      rw [hwrite] at h
      obtain ⟨-, rfl⟩ := Prod.mk.inj h
      exact received_of_write hwrite

/-- A build that succeeds has read a specification, realized it and written its script. -/
theorem of_build_eq_ok {l : Library σ} {bytes : ByteArray} {sink sink' : Sink} {s s' : σ}
    (h : (ofLibrary l).build (.ok bytes) sink s = ((.ok (), sink'), s')) :
    ∃ spec r script, Specification.ofBytes bytes = .ok spec ∧ spec.realize l s = (.ok r, s') ∧
      Script.render l.canonical r.steps = .ok script ∧
      sink'.received = sink.received ++ script := by
  rw [build_eq_buildRead] at h
  cases hread : Specification.ofBytes bytes with
  | error e =>
    rw [hread] at h
    cases h
  | ok spec =>
    rw [hread, buildRead] at h
    rcases hr : spec.realize l s with ⟨e | r, s''⟩
    · rw [hr] at h
      cases h
    · rw [hr] at h
      obtain ⟨hemit, rfl⟩ := Prod.mk.inj h
      obtain ⟨script, hscript, hreceived⟩ := received_of_emitScript hemit
      exact ⟨spec, r, script, rfl, hr, hscript, hreceived⟩

end Service

end ImageSpec
