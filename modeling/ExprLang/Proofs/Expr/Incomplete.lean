import ExprLang.Proofs.Expr.Completion
import ExprLang.Proofs.Token.Continuation

namespace ExprLang

namespace Parser

def fillerText (c : List Token) : List Char := c.flatMap fun t => t.text.toList ++ [' ']

theorem spells_fillerText {c : List Token} (hc : ∀ t ∈ c, t ∈ fillers) :
    Spells (fillerText c) c := by
  induction c with
  | nil => exact .nil
  | cons t c ih =>
    obtain ⟨ht, hc⟩ := List.forall_mem_cons.mp hc
    have hrest : Spells (' ' :: fillerText c) c := .blank rfl (ih hc)
    have hmark {d : Char} (hd : Lexeme.isMark d = true) :
        Spells (fillerText (mark d :: c)) (mark d :: c) := by
      simpa [fillerText, mark] using hrest.mark hd
    simp only [fillers, List.mem_cons, List.not_mem_nil, or_false] at ht
    rcases ht with rfl | rfl | rfl | rfl | rfl
    · have hx : Spells ("x".toList ++ ' ' :: fillerText c) (missing :: c) :=
        .word (by decide) (by simp [Lexeme.isNamePart, Lexeme.isNameStart, Lexeme.isDigit]) hrest
      simpa [fillerText, missing] using hx
    · exact hmark rfl
    · exact hmark rfl
    · exact hmark rfl
    · exact hmark rfl

namespace Extension

/-- The same tokens at other places, except that strings may be others, and none after them. -/
def relocated (p q : Position) : Extension where
  Same t u := u.kind = t.kind ∧ (t.kind ≠ .string → u.text = t.text)
  kind_eq h := h.1
  text_eq h := h.2
  fin := .eof p
  more := []
  fin' := .eof q

theorem relocated_of_erase {p q : Position} {ts us : List Token} (h : us.map Token.erase = ts) :
    List.Forall₂ (relocated p q).Same ts us := by
  subst h
  rw [List.forall₂_map_left_iff]
  exact List.forall₂_same.mpr fun t _ => ⟨rfl, fun _ => rfl⟩

/-- Tokens of a text that goes on as in a given stream. -/
def onwards (p : Position) (s : TokenStream) : Extension where
  Same := Token.Akin
  kind_eq h := h.kind_eq
  text_eq h := h.text_eq
  fin := .eof p
  more := s.tokens
  fin' := s.ending

theorem position_of_onwards {p : Position} {s : TokenStream} {e e' : ParseError}
    (h : (onwards p s).SameError e e') : e'.position = e.position := by
  have hposition (expected : Expected) (t : Token) :
      (ParseError.unexpected expected t).position = t.position := by
    rw [ParseError.unexpected]
    split <;> rfl
  cases h with
  | found hakin expected => rw [hposition, hposition, hakin.position_eq]
  | fault hakin _ => exact hakin.position_eq

end Extension

end Parser

namespace TokenStream

variable {cs : List Char} {p : Position} {e : ParseError}

/-- A program that lacks its end has a completion: what closes a string, and then fillers. -/
theorem exists_parse_append {expected : Expected}
    (h : (collect false [] ⟨cs, p⟩).parse = .error e) (he : e.fault = .unexpectedEnd expected) :
    ∃ w program, (collect false [] ⟨cs ++ w, p⟩).parse = .ok program := by
  have hts : Parser.NoEnd (collect false [] ⟨cs, p⟩).tokens := fun t ht => isEof_of_mem ht
  obtain ⟨⟨q, hfin⟩, c, es, hc, hread⟩ := Parser.exists_readsAll hts ⟨e, h, expected, he⟩
  obtain ⟨-, closing, hclosing⟩ := collect_append_of_eof hfin
  obtain ⟨us, r, hcollect, hus⟩ := hclosing ('\n' :: Parser.fillerText c)
    (by simp [Lexeme.Breaks, Lexeme.isLineBreak])
  obtain ⟨q', hend, hwords⟩ := (Parser.spells_fillerText hc).blank (c := '\n') rfl false r
  -- The parser takes the tokens with fillers after them, so it takes those of the completed text.
  have htokens : List.Forall₂ (Parser.Extension.relocated q q').Same
      ((collect false [] ⟨cs, p⟩).tokens ++ c)
      (us ++ (collect false [] ⟨'\n' :: Parser.fillerText c, r⟩).tokens) :=
    List.rel_append (hus.imp fun t u h => ⟨h.kind_eq, h.text_eq⟩)
      (Parser.Extension.relocated_of_erase hwords)
  rw [hfin] at hread
  obtain ⟨program, hprogram⟩ :=
    Parser.Extension.parse_of_ok htokens ⟨rfl, q', rfl⟩ (Parser.parse_of_readsAll hread)
  refine ⟨closing ++ '\n' :: Parser.fillerText c, program, ?_⟩
  rw [hcollect, prepend, hend]
  rwa [Parser.Extension.relocated, List.append_nil] at hprogram

theorem parse_append_of_breaks {w : List Char} (hw : Lexeme.Breaks w)
    (h : (collect false [] ⟨cs, p⟩).parse = .error e)
    (he : ∀ expected, e.fault ≠ .unexpectedEnd expected) :
    ∃ e', (collect false [] ⟨cs ++ w, p⟩).parse = .error e' ∧ e'.position = e.position := by
  cases hfin : (collect false [] ⟨cs, p⟩).ending with
  | failed fault =>
    rw [collect_append_of_failed hw hfin]
    exact ⟨e, h, rfl⟩
  | eof q =>
    obtain ⟨us, s, hcollect, hus⟩ := (collect_append_of_eof hfin).1 w hw
    have hstream : collect false [] ⟨cs, p⟩ = ⟨(collect false [] ⟨cs, p⟩).tokens, .eof q⟩ := by
      rw [← hfin]
    rw [hstream] at h
    rw [hcollect]
    rcases Parser.Extension.parse_of_error (x := .onwards q s) hus h with
      ⟨e', he', hsame⟩ | hended
    · exact ⟨e', he', Parser.Extension.position_of_onwards hsame⟩
    · cases hended with
      | eof expected _ => exact absurd rfl (he expected)

end TokenStream

/-- An unexpected end of the text is the error of the incomplete programs, those that some text
completes. Any other error is there to stay: what is written on the lines below does not move it. -/
theorem parse_append_of_error {source : String} {e : ParseError} (h : parse source = .error e) :
    ((∃ expected, e.fault = .unexpectedEnd expected) →
      ∃ r program, parse (source ++ r) = .ok program) ∧
    ((∀ expected, e.fault ≠ .unexpectedEnd expected) →
      ∀ r, ∃ e', parse (source ++ "\n" ++ r) = .error e' ∧ e'.position = e.position) := by
  have h : (TokenStream.collect false [] ⟨source.toList, .start⟩).parse = .error e := h
  constructor
  · rintro ⟨expected, he⟩
    obtain ⟨w, program, hparse⟩ := TokenStream.exists_parse_append h he
    refine ⟨String.ofList w, program, ?_⟩
    rw [parse, parseWith, TokenStream.ofSource, Cursor.ofSource, String.toList_append,
      String.toList_ofList]
    exact hparse
  · intro he r
    have hbreaks : Lexeme.Breaks ('\n' :: r.toList) := by
      simp [Lexeme.Breaks, Lexeme.isLineBreak]
    obtain ⟨e', he', hposition⟩ := TokenStream.parse_append_of_breaks hbreaks h he
    refine ⟨e', ?_, hposition⟩
    rw [parse, parseWith, TokenStream.ofSource, Cursor.ofSource, String.append_assoc,
      String.toList_append, String.toList_append]
    exact he'

theorem parse_append_of_error_pending :
    (∃ r program, parse ("f('a\\" ++ r) = .ok program) ∧
      ∀ r, ∃ e', parse ("1 2" ++ "\n" ++ r) = .error e' ∧ e'.position = ⟨1, 3⟩ :=
  ⟨(parse_append_of_error (e := ⟨.unexpectedEnd (.mark ','), ⟨1, 6⟩⟩)
      (by with_unfolding_all rfl)).1 ⟨_, rfl⟩,
    (parse_append_of_error (e := ⟨.unexpectedToken .statementEnd .number "2", ⟨1, 3⟩⟩)
      (by with_unfolding_all rfl)).2 (by simp)⟩

end ExprLang
