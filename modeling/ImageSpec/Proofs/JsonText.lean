import ImageSpec.Json.Printer
import ImageSpec.Json.Reader
import ImageSpec.Script.Quoting
import Mathlib.Tactic.Common

namespace ImageSpec

/-!
# JSON is read as it was written

A value is printed over several lines and read in two passes, first into tokens and then into a
value.  So there are two round trips, with the tokens of a value between them.

* `Json.piecesOf_quoted` — every string is read back, whatever characters it holds.
* `Json.Lexes` — a text is read as tokens wherever it stands; `lexes_pretty` gives the tokens of a
  printed value, which do not depend on its layout.
* `Json.foldlM_step_toTokens` — the tokens of a value complete that value in whatever arrays and
  objects are open.
* `Json.ofChars?_pretty` — a value made of strings, arrays and objects is read back.
* `Script.ofChars?_execForm` — so is a list of arguments, which is an array on one line.
-/

namespace Json

/-! ### Strings -/

/-- Four hexadecimal digits are read as a number. -/
theorem unit?_hexDigit (a b c d : Nat) :
    unit? (some (Text.hexDigit a)) (some (Text.hexDigit b)) (some (Text.hexDigit c))
        (some (Text.hexDigit d))
      = some (((a % 16 * 16 + b % 16) * 16 + c % 16) * 16 + d % 16) := by
  simp [unit?, Text.hexValue?_hexDigit]

/-- A character in front of a string that is read. -/
def prepend (c : Char) : List Piece × List Symbol → List Piece × List Symbol :=
  fun (pieces, rest) => (.char c :: pieces, rest)

/-- A short escape is read as its character. -/
theorem piecesOf_backslash {e c : Char} (hu : e ≠ 'u') (he : unescape? e = some c)
    (rest : List Symbol) :
    piecesOf (some '\\' :: some e :: rest) = (piecesOf rest).map (prepend c) := by
  rw [piecesOf, he]
  · rcases piecesOf rest with _ | ⟨pieces, rest'⟩ <;> rfl
  · intro _ _ _ _ _ _ h
    exact hu h

/-- An escape of four digits is read as its character. -/
theorem piecesOf_unit {c : Char} (hc : c.toNat < 0xD800) (rest : List Symbol) :
    piecesOf (some '\\' :: some 'u' :: (Text.hexPadded 4 c.toNat).map some ++ rest)
      = (piecesOf rest).map (prepend c) := by
  have hunit : ((c.toNat / 16 / 16 / 16 % 16 * 16 + c.toNat / 16 / 16 % 16) * 16
      + c.toNat / 16 % 16) * 16 + c.toNat % 16 = c.toNat := by omega
  have hpiece : Piece.ofUnit c.toNat = .char c := by
    rw [Piece.ofUnit, if_neg (by omega), Char.ofNat_toNat]
  simp only [Text.hexPadded, List.nil_append, List.cons_append, List.map_cons, List.map_nil]
  rw [piecesOf, unit?_hexDigit, hunit]
  rcases piecesOf rest with _ | ⟨pieces, rest'⟩
  · rfl
  · simp [hpiece, prepend]

/-- A character that is not escaped is read as itself. -/
theorem piecesOf_plain {c : Char} (hquote : c ≠ '"') (hbackslash : c ≠ '\\')
    (hlow : ¬ c.toNat < 0x20) (rest : List Symbol) :
    piecesOf (some c :: rest) = (piecesOf rest).map (prepend c) := by
  rw [piecesOf]
  · rw [if_neg (by simp [hbackslash, hlow])]
    rcases piecesOf rest with _ | ⟨pieces, rest'⟩ <;> rfl
  · exact hquote
  · intro _ _ _ _ _ _ h
    exact absurd h hbackslash
  · intro _ _ _ h
    exact absurd h hbackslash

/-- A character is read as it was written. -/
theorem piecesOf_escape (c : Char) (rest : List Symbol) :
    piecesOf ((escape c).map some ++ rest) = (piecesOf rest).map (prepend c) := by
  unfold escape
  split
  case h_8 hquote hbackslash _ _ _ _ _ =>
    split
    · next hlow => exact piecesOf_unit (by omega) rest
    · next hlow => exact piecesOf_plain hquote hbackslash hlow rest
  all_goals exact piecesOf_backslash (by decide) rfl rest

/-- **Strings.** A string is read as it was written, whatever characters it holds. -/
theorem piecesOf_quoted (cs : List Char) (rest : List Symbol) :
    piecesOf ((cs.flatMap escape).map some ++ some '"' :: rest)
      = some (cs.map Piece.char, rest) := by
  induction cs with
  | nil => rw [List.flatMap_nil, List.map_nil, List.nil_append, piecesOf, List.map_nil]
  | cons c cs ih =>
    rw [List.flatMap_cons, List.map_append, List.append_assoc, piecesOf_escape, ih]
    rfl

/-- Characters are put together as they are. -/
theorem assemble_map_char (cs : List Char) : assemble (cs.map Piece.char) = some cs := by
  induction cs with
  | nil => rfl
  | cons c cs ih => rw [List.map_cons, assemble, ih, Option.map_some]

/-! ### Tokens -/

/-- A text is read as these tokens, whatever follows it. -/
def Lexes (text : List Char) (ts : List Token) : Prop :=
  ∀ rest, tokens (text.map some ++ rest) = (tokens rest).map (ts ++ ·)

/-- Texts that are read one after the other are read together. -/
theorem Lexes.append {text text' : List Char} {ts ts' : List Token} (h : Lexes text ts)
    (h' : Lexes text' ts') : Lexes (text ++ text') (ts ++ ts') := by
  intro rest
  rw [List.map_append, List.append_assoc, h, h', Option.map_map]
  congr 1
  funext us
  exact (List.append_assoc ts ts' us).symm

/-- A text is read as its tokens where nothing follows. -/
theorem Lexes.tokens_eq {text : List Char} {ts : List Token} (h : Lexes text ts) :
    tokens (text.map some) = some ts := by
  have hall := h []
  rwa [List.append_nil, tokens, Option.map_some, List.append_nil] at hall

/-- A token is read first, and then what follows it. -/
theorem tokens_of_tokenOf {c : Char} {rest rest' : List Symbol} {t : Token}
    (hc : isLayout c = false) (h : tokenOf (some c :: rest) = some (t, rest')) :
    tokens (some c :: rest) = (tokens rest').map (t :: ·) := by
  rw [tokens, Option.any_some, hc, if_neg Bool.false_ne_true]
  split
  · next hnone =>
    rw [h] at hnone
    cases hnone
  · next t' rest'' hsome =>
    rw [h] at hsome
    cases hsome
    rfl

/-- Blanks are read as nothing. -/
theorem lexes_layout {text : List Char} (h : ∀ c ∈ text, isLayout c = true) : Lexes text [] := by
  intro rest
  induction text with
  | nil => simp
  | cons c text ih =>
    obtain ⟨hc, htext⟩ := List.forall_mem_cons.mp h
    rw [List.map_cons, List.cons_append, tokens, Option.any_some, if_pos hc, ih htext]

theorem lexes_nil : Lexes [] [] := lexes_layout fun _ hc => absurd hc List.not_mem_nil

/-- A line break with the blanks behind it is read as nothing. -/
theorem lexes_lineBreak (depth : Nat) : Lexes (lineBreak depth) [] := by
  refine lexes_layout fun c hc => ?_
  rcases List.mem_cons.mp hc with rfl | hc
  · rfl
  · rw [List.eq_of_mem_replicate hc]
    rfl

/-- A symbol, that is a character which is a token by itself. -/
theorem lexes_symbol {c : Char} {t : Token} (hc : isLayout c = false)
    (h : ∀ rest, tokenOf (some c :: rest) = some (t, rest)) : Lexes [c] [t] :=
  fun rest => tokens_of_tokenOf hc (h rest)

/-- A quoted string is read as one token. -/
theorem lexes_quoted (s : String) : Lexes (quoted s.toList) [.string (some s)] := by
  intro rest
  have htext : (quoted s.toList).map some ++ rest
      = some '"' :: ((s.toList.flatMap escape).map some ++ some '"' :: rest) := by
    simp [quoted]
  rw [htext]
  have hstring : ∀ cs : List Symbol, tokenOf (some '"' :: cs) = (piecesOf cs).map
      fun (pieces, rest) => (.string ((assemble pieces).map String.ofList), rest) := fun _ => rfl
  refine tokens_of_tokenOf rfl ?_
  rw [hstring, piecesOf_quoted]
  simp [assemble_map_char]

mutual

/-- The tokens of a value. -/
def toTokens : Json → List Token
  | null => [.null]
  | bool b => [.bool b]
  | number written => [.number written]
  | string value => [.string value]
  | array [] => [.openBracket, .closeBracket]
  | array (v :: vs) => [.openBracket] ++ toTokens v ++ itemTokens vs ++ [.closeBracket]
  | object [] => [.openBrace, .closeBrace]
  | object ((key, v) :: ms) =>
    [.openBrace, .string key, .colon] ++ toTokens v ++ memberTokens ms ++ [.closeBrace]

/-- The tokens of the items behind the first. -/
def itemTokens : List Json → List Token
  | [] => []
  | v :: vs => [.comma] ++ toTokens v ++ itemTokens vs

/-- The tokens of the members behind the first. -/
def memberTokens : List (Option String × Json) → List Token
  | [] => []
  | (key, v) :: ms => [.comma, .string key, .colon] ++ toTokens v ++ memberTokens ms

end

mutual

/-- Whether a value is made of strings, arrays and objects alone. -/
def isTextual : Json → Bool
  | string value => value.isSome
  | array items => areTextual items
  | object members => haveText members
  | _ => false

/-- Whether all items are made of strings, arrays and objects alone. -/
def areTextual : List Json → Bool
  | [] => true
  | v :: vs => isTextual v && areTextual vs

/-- Whether all members are made of strings, arrays and objects alone. -/
def haveText : List (Option String × Json) → Bool
  | [] => true
  | (key, v) :: ms => key.isSome && isTextual v && haveText ms

end

/-- The test for items is one for each of them. -/
theorem areTextual_iff {vs : List Json} :
    areTextual vs = true ↔ ∀ v ∈ vs, v.isTextual = true := by
  induction vs with
  | nil => simp [areTextual]
  | cons v vs ih => simp [areTextual, ih]

/-- The test for members is one for each key and each value. -/
theorem haveText_iff {ms : List (Option String × Json)} :
    haveText ms = true ↔ ∀ m ∈ ms, m.1.isSome = true ∧ m.2.isTextual = true := by
  induction ms with
  | nil => simp [haveText]
  | cons m ms ih => simp only [haveText, Bool.and_eq_true, ih, List.forall_mem_cons]

/-- What stands between the name of a member and its value. -/
theorem lexes_colon : Lexes [':', ' '] [.colon] := by
  have hcolon : Lexes [':'] [.colon] := lexes_symbol rfl fun _ => rfl
  exact hcolon.append (lexes_layout (by simp [isLayout]))

/-- What stands between two items or two members. -/
theorem lexes_comma (depth : Nat) : Lexes (',' :: lineBreak depth) [.comma] := by
  have hcomma : Lexes [','] [.comma] := lexes_symbol rfl fun _ => rfl
  exact hcomma.append (lexes_lineBreak depth)

section Enclosed

variable {text : List Char} {ts : List Token}

/-- On lines of its own a text is read as the same tokens. -/
theorem Lexes.onLines (h : Lexes text ts) (inner outer : Nat) :
    Lexes (lineBreak inner ++ text ++ lineBreak outer) ts := by
  have hlines := ((lexes_lineBreak inner).append h).append (lexes_lineBreak outer)
  rwa [List.nil_append, List.append_nil] at hlines

/-- Brackets around a text are brackets around its tokens. -/
theorem Lexes.inBrackets (h : Lexes text ts) :
    Lexes (['['] ++ text ++ [']']) ([.openBracket] ++ ts ++ [.closeBracket]) := by
  have hopen : Lexes ['['] [.openBracket] := lexes_symbol rfl fun _ => rfl
  have hclose : Lexes [']'] [.closeBracket] := lexes_symbol rfl fun _ => rfl
  exact (hopen.append h).append hclose

/-- Braces around a text are braces around its tokens. -/
theorem Lexes.inBraces (h : Lexes text ts) :
    Lexes (['\x7b'] ++ text ++ ['\x7d']) ([.openBrace] ++ ts ++ [.closeBrace]) := by
  have hopen : Lexes ['\x7b'] [.openBrace] := lexes_symbol rfl fun _ => rfl
  have hclose : Lexes ['\x7d'] [.closeBrace] := lexes_symbol rfl fun _ => rfl
  exact (hopen.append h).append hclose

end Enclosed

/-- An array with items goes over several lines. -/
theorem pretty_array_cons (depth : Nat) (v : Json) (vs : List Json) :
    pretty depth (array (v :: vs)) = ['['] ++ lineBreak (depth + 1) ++ pretty (depth + 1) v
      ++ prettyItems (depth + 1) vs ++ lineBreak depth ++ [']'] := rfl

/-- An object with members goes over several lines. -/
theorem pretty_object_cons (depth : Nat) (key : Option String) (v : Json)
    (ms : List (Option String × Json)) :
    pretty depth (object ((key, v) :: ms)) = ['\x7b'] ++ lineBreak (depth + 1)
      ++ quoted ((key.getD "").toList) ++ [':', ' '] ++ pretty (depth + 1) v
      ++ prettyMembers (depth + 1) ms ++ lineBreak depth ++ ['\x7d'] := rfl

mutual

/-- **Tokens.** A printed value is read as its tokens, wherever it stands. -/
theorem lexes_pretty (depth : Nat) : ∀ v : Json, v.isTextual = true →
    Lexes (pretty depth v) v.toTokens
  | string (some s), _ => lexes_quoted s
  | array [], _ => lexes_nil.inBrackets
  | array (v :: vs), h => by
    rw [isTextual, areTextual, Bool.and_eq_true] at h
    have hitems := (lexes_pretty (depth + 1) v h.1).append (lexes_prettyItems (depth + 1) vs h.2)
    have hall := (hitems.onLines (depth + 1) depth).inBrackets
    simpa [pretty_array_cons, toTokens] using hall
  | object [], _ => lexes_nil.inBraces
  | object ((some key, v) :: ms), h => by
    rw [isTextual, haveText, Bool.and_eq_true, Bool.and_eq_true] at h
    have hmember := ((lexes_quoted key).append lexes_colon).append
      (lexes_pretty (depth + 1) v h.1.2)
    have hmembers := hmember.append (lexes_prettyMembers (depth + 1) ms h.2)
    -- the lines between the braces are deeper by one
    have hall := (hmembers.onLines (depth + 1) depth).inBraces
    simpa [pretty_object_cons, toTokens] using hall

/-- The items behind the first are read as their tokens. -/
theorem lexes_prettyItems (depth : Nat) : ∀ vs : List Json, areTextual vs = true →
    Lexes (prettyItems depth vs) (itemTokens vs)
  | [], _ => lexes_nil
  | v :: vs, h => by
    rw [areTextual, Bool.and_eq_true] at h
    have hitem := (lexes_comma depth).append (lexes_pretty depth v h.1)
    have hall := hitem.append (lexes_prettyItems depth vs h.2)
    simpa [prettyItems, itemTokens] using hall

/-- The members behind the first are read as their tokens. -/
theorem lexes_prettyMembers (depth : Nat) : ∀ ms : List (Option String × Json),
    haveText ms = true → Lexes (prettyMembers depth ms) (memberTokens ms)
  | [], _ => lexes_nil
  | (some key, v) :: ms, h => by
    rw [haveText, Bool.and_eq_true, Bool.and_eq_true] at h
    have hmember := (((lexes_comma depth).append (lexes_quoted key)).append lexes_colon).append
      (lexes_pretty depth v h.1.2)
    have hall := hmember.append (lexes_prettyMembers depth ms h.2)
    simpa [prettyMembers, memberTokens] using hall

end

/-! ### Values -/

/-- No value starts with a closing bracket. -/
theorem exists_toTokens_eq_cons (v : Json) :
    ∃ t ts, v.toTokens = t :: ts ∧ t ≠ .closeBracket := by
  rcases v with _ | b | written | value | items | members
  · exact ⟨_, _, rfl, by simp⟩
  · exact ⟨_, _, rfl, by simp⟩
  · exact ⟨_, _, rfl, by simp⟩
  · exact ⟨_, _, rfl, by simp⟩
  · cases items <;> exact ⟨_, _, rfl, by simp⟩
  · cases members <;> exact ⟨_, _, rfl, by simp⟩

/-- Behind an opening bracket a value is read as the first item. -/
theorem foldlM_step_opened (v : Json) (frames : List Frame) (rest : List Token) :
    (v.toTokens ++ rest).foldlM step (.opened frames)
      = (v.toTokens ++ rest).foldlM step (.value (.items [] :: frames)) := by
  obtain ⟨t, ts, hv, ht⟩ := exists_toTokens_eq_cons v
  -- only a closing bracket is taken otherwise there, and no value starts with it
  have hstep : step (.opened frames) t = step (.value (.items [] :: frames)) t := by
    cases t <;> first | rfl | exact absurd rfl ht
  rw [hv, List.cons_append, List.foldlM_cons, List.foldlM_cons, hstep]

theorem foldlM_step_cons {s s' : State} {t : Token} {ts : List Token} (h : step s t = some s') :
    (t :: ts).foldlM step s = ts.foldlM step s' := by
  rw [List.foldlM_cons, h, Option.bind_eq_bind, Option.bind_some]

mutual

/-- **Values.** The tokens of a value complete it, whatever arrays and objects are open. -/
theorem foldlM_step_toTokens : ∀ (v : Json) (frames : List Frame) (rest : List Token),
    (v.toTokens ++ rest).foldlM step (.value frames) = rest.foldlM step (.complete v frames)
  | null, _, _ => rfl
  | bool _, _, _ => rfl
  | number _, _, _ => rfl
  | string _, _, _ => rfl
  | array [], _, _ => rfl
  | array (v :: vs), frames, rest => by
    have htokens : (array (v :: vs)).toTokens ++ rest
        = .openBracket :: (v.toTokens ++ (itemTokens vs ++ .closeBracket :: rest)) := by
      simp [toTokens]
    rw [htokens, foldlM_step_cons rfl, foldlM_step_opened, foldlM_step_toTokens v,
      foldlM_step_itemTokens vs, List.reverse_nil, List.nil_append]
  | object [], _, _ => rfl
  | object ((key, v) :: ms), frames, rest => by
    have htokens : (object ((key, v) :: ms)).toTokens ++ rest = .openBrace :: .string key :: .colon
        :: (v.toTokens ++ (memberTokens ms ++ .closeBrace :: rest)) := by
      simp [toTokens]
    rw [htokens, foldlM_step_cons rfl, foldlM_step_cons rfl, foldlM_step_cons rfl,
      foldlM_step_toTokens v, foldlM_step_memberTokens ms, List.reverse_nil, List.nil_append]

/-- The items behind the first and the bracket complete the array. -/
theorem foldlM_step_itemTokens : ∀ (vs : List Json) (v : Json) (done : List Json)
    (frames : List Frame) (rest : List Token),
    (itemTokens vs ++ .closeBracket :: rest).foldlM step (.complete v (.items done :: frames))
      = rest.foldlM step (.complete (.array (done.reverse ++ v :: vs)) frames)
  | [], v, done, frames, rest => by
    rw [itemTokens, List.nil_append, foldlM_step_cons rfl, List.reverse_cons]
  | next :: vs, v, done, frames, rest => by
    have htokens : itemTokens (next :: vs) ++ .closeBracket :: rest
        = .comma :: (next.toTokens ++ (itemTokens vs ++ .closeBracket :: rest)) := by
      simp [itemTokens]
    rw [htokens, foldlM_step_cons rfl, foldlM_step_toTokens next, foldlM_step_itemTokens vs,
      List.reverse_cons, List.append_assoc, List.singleton_append]

/-- The members behind the first and the brace complete the object. -/
theorem foldlM_step_memberTokens : ∀ (ms : List (Option String × Json)) (key : Option String)
    (v : Json) (done : List (Option String × Json)) (frames : List Frame) (rest : List Token),
    (memberTokens ms ++ .closeBrace :: rest).foldlM step (.complete v (.members done key :: frames))
      = rest.foldlM step (.complete (.object (done.reverse ++ (key, v) :: ms)) frames)
  | [], key, v, done, frames, rest => by
    rw [memberTokens, List.nil_append, foldlM_step_cons rfl, List.reverse_cons]
  | (next, w) :: ms, key, v, done, frames, rest => by
    have htokens : memberTokens ((next, w) :: ms) ++ .closeBrace :: rest = .comma :: .string next
        :: .colon :: (w.toTokens ++ (memberTokens ms ++ .closeBrace :: rest)) := by
      simp [memberTokens]
    rw [htokens, foldlM_step_cons rfl, foldlM_step_cons rfl, foldlM_step_cons rfl,
      foldlM_step_toTokens w, foldlM_step_memberTokens ms, List.reverse_cons, List.append_assoc,
      List.singleton_append]

end

/-- A value is read back from its tokens. -/
theorem ofTokens?_toTokens (v : Json) : ofTokens? v.toTokens = some v := by
  have h := foldlM_step_toTokens v [] []
  rw [List.append_nil] at h
  rw [ofTokens?, h]
  rfl

/-- A text that is read as the tokens of a value is read as the value. -/
theorem Lexes.ofChars?_eq {text : List Char} {v : Json} (h : Lexes text v.toTokens) :
    ofChars? text = some v := by
  rw [ofChars?, ofSymbols?, h.tokens_eq, Option.bind_eq_bind, Option.bind_some,
    ofTokens?_toTokens]

/-- **Round trip.** A value made of strings, arrays and objects is read as it was printed. -/
theorem ofChars?_pretty (depth : Nat) {v : Json} (h : v.isTextual = true) :
    ofChars? (pretty depth v) = some v :=
  (lexes_pretty depth v h).ofChars?_eq

/-! ### Arrays on one line -/

/-- The tokens of strings with commas between them. -/
theorem lexes_joinWith_quoted (s : String) (rest : List String) :
    Lexes (Text.joinWith [','] ((s :: rest).map fun s => quoted s.toList))
      ([.string (some s)] ++ itemTokens (rest.map fun s => string (some s))) := by
  unfold Text.joinWith
  induction rest generalizing s with
  | nil => simpa [itemTokens] using lexes_quoted s
  | cons next rest ih =>
    have hcomma : Lexes [','] [.comma] := lexes_symbol rfl fun _ => rfl
    have hall := ((lexes_quoted s).append hcomma).append (ih next)
    rw [List.map_cons, List.map_cons, List.intercalate_cons_cons]
    simpa [itemTokens, toTokens] using hall

/-- An array of strings tells its strings. -/
theorem eq_of_array_eq {items items' : List String}
    (h : array (items.map fun s => string (some s)) = array (items'.map fun s => string (some s))) :
    items = items' := by
  refine (List.map_inj_right fun s s' heq => ?_).mp (array.inj h)
  cases heq
  rfl

end Json

namespace Script

/-- **Arguments.** A list of arguments is read back from its JSON array. -/
theorem ofChars?_execForm (arguments : List String) :
    Json.ofChars? (execForm arguments)
      = some (.array (arguments.map fun argument => .string (some argument))) := by
  apply Json.Lexes.ofChars?_eq
  cases arguments with
  | nil => exact Json.lexes_nil.inBrackets
  | cons first rest => exact (Json.lexes_joinWith_quoted first rest).inBrackets

/-- A list of arguments is determined by the array that is written for it. -/
theorem execForm_injective : Function.Injective execForm := by
  intro arguments arguments' h
  have hread := congrArg Json.ofChars? h
  rw [ofChars?_execForm, ofChars?_execForm] at hread
  exact Json.eq_of_array_eq (Option.some.inj hread)

end Script

end ImageSpec
