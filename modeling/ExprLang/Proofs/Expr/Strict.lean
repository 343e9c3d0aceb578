import ExprLang.Proofs.Expr.Layout

namespace ExprLang

namespace TokenStream
open Lexeme

variable {w l tail : List Char}

/-- `Opens cs p s s'`: the characters `cs` from `p` on end with an unclosed string, after the tokens
of `s`. It is the last token of `s'` and the fault that ends `s`. -/
def Opens (cs : List Char) (p : Position) (s s' : TokenStream) : Prop :=
  ∃ before l text q, cs = before ++ l ∧ Unclosed l ∧
    s.ending = .failed ⟨.unterminatedString, p.advance cs before.length⟩ ∧
    s' = ⟨s.tokens ++ [⟨.string, text, p.advance cs before.length⟩], .eof q⟩

theorem Opens.prepend {s s' : TokenStream} {p : Position} (t : Token)
    (h : Opens tail (p.advance (w ++ (l ++ tail)) (w ++ l).length) s s') :
    Opens (w ++ (l ++ tail)) p (prepend [t] s) (prepend [t] s') := by
  obtain ⟨before, l', text, q, rfl, hopen, hs, rfl⟩ := h
  rw [← advance_pieces] at hs ⊢
  exact ⟨w ++ (l ++ before), l', text, q, by simp, hopen, hs, rfl⟩

/-- Strict reading comes to the same tokens, or to all but an unclosed string at the end. -/
theorem collect_strict (cs : List Char) (p : Position) :
    collect true [] ⟨cs, p⟩ = collect false [] ⟨cs, p⟩ ∨
      Opens cs p (collect true [] ⟨cs, p⟩) (collect false [] ⟨cs, p⟩) := by
  obtain ⟨w, rest, rfl, hw, rfl | ⟨kind, text, l, tail, rfl, hl⟩ | ⟨c, tail, rfl, hc⟩⟩ :=
    Cursor.exists_next cs
  · rw [List.append_nil, collect_of_trivia hw, collect_of_trivia hw]
    exact .inl rfl
  · by_cases hopen : Unclosed l
    · obtain rfl := hl.nil_of_unclosed (hl.unclosed_append hopen)
      rw [List.append_nil] at hw ⊢
      obtain ⟨hstrict, text, q, hlax⟩ := collect_of_unclosed hw hopen p
      rw [hstrict, hlax]
      exact .inr ⟨w, l, text, q, rfl, hopen, rfl, rfl⟩
    · have hshorter := hl.length_lt w
      rw [collect_of_closed hw hl hopen, collect_of_closed hw hl hopen]
      exact (collect_strict tail _).imp (congrArg _) (Opens.prepend _)
  · rw [collect_of_isStray hw hc, collect_of_isStray hw hc]
    exact .inl rfl
termination_by cs.length

end TokenStream

/-- Strict reading differs only in unclosed strings. A text gives the same program or the same error
strictly or not, or it is a fault that the string which is its last token is unclosed. If there is
no such fault, all tokens are the same. -/
theorem parse_strict (source : String) :
    ((Lexer.ofSource source true).parse = (Lexer.ofSource source false).parse ∨
      ∃ before l ts text p q, source.toList = before ++ l ∧ Lexeme.Unclosed l ∧
        p = Position.start.advance source.toList before.length ∧
        TokenStream.ofSource source false = ⟨ts ++ [⟨.string, text, p⟩], .eof q⟩ ∧
        (Lexer.ofSource source true).parse = .error ⟨.lex .unterminatedString, p⟩) ∧
    ((∀ p, (TokenStream.ofSource source true).ending ≠ .failed ⟨.unterminatedString, p⟩) →
      TokenStream.ofSource source true = TokenStream.ofSource source false) := by
  have hparse (strict : Bool) : (Lexer.ofSource source strict).parse =
      (TokenStream.ofSource source strict).parse := (Lexer.parse_ofSource source strict).1
  rw [hparse, hparse]
  have hcases : TokenStream.ofSource source true = TokenStream.ofSource source false ∨
      TokenStream.Opens source.toList .start (.ofSource source true) (.ofSource source false) :=
    TokenStream.collect_strict source.toList .start
  rcases hcases with heq | ⟨before, l, text, q, hsource, hl, hend, hlax⟩
  · exact ⟨.inl (congrArg _ heq), fun _ => heq⟩
  · refine ⟨?_, fun hclosed => absurd hend (hclosed _)⟩
    obtain ⟨err, herr, rfl | hall⟩ := TokenStream.parse_of_failed hend
    · exact .inr ⟨before, l, _, text, _, q, hsource, hl, rfl, hlax, herr⟩
    · -- The parser stops before it gets to the string.
      have htokens : (TokenStream.ofSource source true).tokens <+:
          (TokenStream.ofSource source false).tokens := by
        rw [hlax]
        exact List.prefix_append _ _
      exact .inl (herr.trans (hall _ htokens).symm)

/-- A string that has its own quote in it, and a stray character before one that is not closed. -/
theorem parse_strict_closed :
    TokenStream.ofSource "f('it\\'s')" true = TokenStream.ofSource "f('it\\'s')" false ∧
    TokenStream.ofSource "f($, 'x)" true = TokenStream.ofSource "f($, 'x)" false := by
  refine ⟨(parse_strict _).2 fun p => ?_, (parse_strict _).2 fun p => ?_⟩
  · have hend : (TokenStream.ofSource "f('it\\'s')" true).ending = .eof ⟨1, 11⟩ := by decide +kernel
    simp [hend]
  · have hend : (TokenStream.ofSource "f($, 'x)" true).ending =
        .failed ⟨.unexpectedChar '$', ⟨1, 3⟩⟩ := by decide +kernel
    simp [hend]

end ExprLang
