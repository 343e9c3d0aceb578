import ExprLang.Expr.OnDemand
import ExprLang.Proofs.Expr.Lockstep
import ExprLang.Proofs.Token.Segmentation

namespace ExprLang

/-- The tokens that a lexer will give, the one it keeps first. -/
def Lexer.stream (lx : Lexer) : TokenStream :=
  match lx.peeked with
  | none => .collect lx.strict [] lx.cursor
  | some t =>
    if t.isEof then ⟨[], .eof t.position⟩ else .prepend [t] (.collect lx.strict [] lx.cursor)

namespace OnDemand

section Looking

variable {lx kept : Lexer} {t : Token}

theorem stream_of_peeked (h : lx.peeked = some t) (ht : t.isEof = true) :
    lx.stream = ⟨[], .eof t.position⟩ := by
  simp only [Lexer.stream, h, if_pos ht]

theorem stream_of_kept (h : lx.peeked = some t) (ht : t.isEof = false) :
    lx.stream = .prepend [t] lx.next.2.stream := by
  simp [Lexer.stream, Lexer.next, h, ht]

theorem stream_of_none (h : lx.peeked = none) : lx.stream = .collect lx.strict [] lx.cursor := by
  simp only [Lexer.stream, h]

theorem peek_of_error {e : LexError} (h : lx.peek = (.error e, kept)) :
    peek lx = .error (.ofLex e) := by
  unfold peek
  split
  · rename_i h'
    rw [h] at h'
    cases h'
    rfl
  · rename_i h'
    rw [h] at h'
    cases h'

theorem peek_of_ended (h : lx.peek = (.ok t, kept)) (ht : t.isEof = true) :
    peek lx = .ok (.ended t kept (Lexer.unread_peek h).2) := by
  unfold peek
  split
  · rename_i h'
    rw [h] at h'
    cases h'
  · rename_i h'
    rw [h] at h'
    cases h'
    exact dif_pos ht

theorem peek_of_next (h : lx.peek = (.ok t, kept)) (ht : t.isEof = false) :
    ∃ hkept hafter, peek lx = .ok (.next t kept kept.next.2 hkept hafter) := by
  unfold peek
  split
  · rename_i h'
    rw [h] at h'
    cases h'
  · rename_i h'
    rw [h] at h'
    cases h'
    have hle := Lexer.unread_peek h
    have hlt := Lexer.unread_next (Lexer.next_peek h) ht
    exact ⟨hle.2, Nat.lt_of_lt_of_le hlt hle.2, dif_neg (Bool.eq_false_iff.mp ht)⟩

theorem unexpected_of_peeked (expected : Expected) (h : lx.peeked = some t) :
    source.unexpected expected lx = .unexpected expected t := by
  have hpeek : lx.peek = (.ok t, { lx with peeked := some t }) := by
    simp only [Lexer.peek, Lexer.next, h]
  simp only [source, Source.reporting]
  cases ht : t.isEof with
  | true =>
    rw [peek_of_ended hpeek ht]
    rfl
  | false =>
    obtain ⟨_, _, hlook⟩ := peek_of_next hpeek ht
    rw [hlook]
    rfl

/-- What a look at the next token can give: the end mark, the fault that ends the tokens, or the
first of them. What a lexer shows stays the same. -/
inductive Shown (lx : Lexer) : Except ParseError (Look Lexer.unread lx) → TokenStream → Prop
  | ended {mark kept hkept} (h : mark.isEof = true) (hpeeked : kept.peeked = some mark) :
      Shown lx (.ok (.ended mark kept hkept)) ⟨[], .eof mark.position⟩
  | failed {e : LexError} : Shown lx (.error (.ofLex e)) ⟨[], .failed e⟩
  | next {t kept hkept hafter} (h : t.isEof = false) (hpeeked : kept.peeked = some t) :
      Shown lx (.ok (.next t kept kept.next.2 hkept hafter)) (.prepend [t] kept.next.2.stream)

theorem shown_of_ok (h : lx.peek = (.ok t, kept)) (hstream : kept.stream = lx.stream) :
    Shown lx (peek lx) lx.stream := by
  have hpeeked := (Lexer.unread_peek h).1
  rw [← hstream]
  cases ht : t.isEof with
  | true =>
    rw [peek_of_ended h ht, stream_of_peeked hpeeked ht]
    exact .ended ht hpeeked
  | false =>
    obtain ⟨_, _, hlook⟩ := peek_of_next h ht
    rw [hlook, stream_of_kept hpeeked ht]
    exact .next ht hpeeked

theorem shown (lx : Lexer) : Shown lx (peek lx) lx.stream := by
  cases hpeeked : lx.peeked with
  | some t =>
    have hpeek : lx.peek = (.ok t, { lx with peeked := some t }) := by
      simp only [Lexer.peek, Lexer.next, hpeeked]
    refine shown_of_ok hpeek ?_
    simp only [Lexer.stream, hpeeked]
  | none =>
    rcases htoken : lx.cursor.token lx.strict with ⟨e | t, cursor⟩
    · have hpeek : lx.peek = (.error e, { lx with cursor }) := by
        simp only [Lexer.peek, Lexer.next, hpeeked, htoken]
      rw [peek_of_error hpeek, stream_of_none hpeeked, TokenStream.collect_failed [] htoken]
      exact .failed
    · have hpeek : lx.peek = (.ok t, ⟨cursor, some t, lx.strict⟩) := by
        simp only [Lexer.peek, Lexer.next, hpeeked, htoken]
      refine shown_of_ok hpeek ?_
      cases ht : t.isEof with
      | true =>
        rw [stream_of_none hpeeked, TokenStream.collect_eof [] htoken ht]
        exact stream_of_peeked rfl ht
      | false =>
        rw [stream_of_none hpeeked, TokenStream.collect_token [] htoken ht,
          TokenStream.collect_before]
        exact stream_of_kept rfl ht

end Looking

section Moved

variable (f : Position → Position) (fin : TokenStream.Ending)

/-- A lexer shows tokens that are the given ones when their places are moved. -/
def Shows (lx : Lexer) (ts : List Token) : Prop := lx.stream.moved f = ⟨ts, fin⟩

/-- A lexical error is the fault that ends the tokens. -/
def Genuine (e : ParseError) : Prop :=
  ∀ fault, e.fault = .lex fault → fin = .failed ⟨fault, f e.position⟩

/-- A lexer and the tokens that it shows. Nothing is left on one side only. -/
def moving : Pairing Lexer (List Token) ParseError ParseError where
  State := Shows f fin
  Same t u := u = t.moved f
  Error e e' := e' = e.moved f ∧ Genuine f fin e
  Done _ := False
  Want _ := False
  Loose := False
  Exact := True
  place := f

variable {f fin} {lx : Lexer} {ts : List Token}

theorem genuine_ofLex {e : LexError} (h : fin = .failed ⟨e.fault, f e.position⟩) :
    Genuine f fin (.ofLex e) := by
  intro fault hfault
  cases hfault
  exact h

theorem genuine_unexpected (expected : Expected) (t : Token) :
    Genuine f fin (.unexpected expected t) := by
  intro fault hfault
  rw [ParseError.unexpected] at hfault
  split at hfault <;> cases hfault

theorem error_unexpected {t : Token} {us : List Token} (expected : Expected)
    (hlx : lx.peeked = some t) (hus : (Parser.source fin).unexpected expected us =
      .unexpected expected (t.moved f)) :
    (moving f fin).Error (source.unexpected expected lx)
      ((Parser.source fin).unexpected expected us) := by
  rw [unexpected_of_peeked expected hlx, hus]
  exact ⟨(ParseError.moved_unexpected f expected t).symm, genuine_unexpected expected t⟩

theorem Shows.sees (hlx : Shows f fin lx ts) :
    (moving f fin).Sees source (Parser.source fin) (peek lx) ((Parser.source fin).peek ts) := by
  have hshown := shown lx
  rw [Shows] at hlx
  generalize lx.stream = stream at hshown hlx
  generalize peek lx = r at hshown
  cases hshown with
  | failed =>
    cases hlx
    exact .error ⟨rfl, genuine_ofLex rfl⟩
  | @ended mark kept _ h hpeeked =>
    cases hlx
    have hkept : Shows f (.eof (f mark.position)) kept [] :=
      congrArg _ (stream_of_peeked hpeeked h)
    refine .both (.ended hkept fun expected => error_unexpected expected hpeeked ?_)
    have hmoved : (mark.moved f).isEof = true := h
    rw [ParseError.unexpected, if_pos hmoved]
    rfl
  | @next t kept _ _ h hpeeked =>
    obtain ⟨rfl, rfl⟩ := (TokenStream.mk.injEq ..).mp hlx
    have hkept : Shows f _ kept _ := congrArg _ (stream_of_kept hpeeked h)
    exact .both (.next rfl hkept rfl fun expected => error_unexpected expected hpeeked rfl)

theorem simulation : (moving f fin).Simulation source (Parser.source fin) where
  kind_eq h := by
    cases h
    rfl
  text_eq h _ := by
    cases h
    rfl
  eq_moved _ := id
  raised := by
    rintro t u fault rfl hraised
    refine ⟨rfl, fun e he => ?_⟩
    cases hraised <;> cases he
  look := Shows.sees
  alone := False.elim
  want _ := False.elim

end Moved

end OnDemand

namespace Lexer

/-- The tokens that a lexer shows are the program in it, or they have its error, when all places are
moved. A lexical error is the one that ends the tokens. -/
theorem parse_stream (lx : Lexer) {f : Position → Position} (hf : f .start = .start) :
    (lx.stream.moved f).parse = (lx.parse.map (Expr.moved f)).mapError (ParseError.moved f) ∧
      ∀ e fault, lx.parse = .error e → e.fault = .lex fault →
        (lx.stream.moved f).ending = .failed ⟨fault, f e.position⟩ := by
  generalize hstream : lx.stream.moved f = s
  have hfollows := OnDemand.simulation.follows_parse hf (hstream : OnDemand.Shows f _ lx s.tokens)
  rw [parse, TokenStream.parse]
  generalize OnDemand.source.parse lx = r at hfollows ⊢
  generalize (Parser.source s.ending).parse s.tokens = r' at hfollows ⊢
  cases hfollows with
  | @ok e e' h =>
    have h : e' = e.moved f := h trivial
    subst h
    exact ⟨rfl, fun _ _ h => by cases h⟩
  | error h =>
    obtain ⟨rfl, hgenuine⟩ := h
    refine ⟨rfl, fun e fault he => ?_⟩
    cases he
    exact hgenuine fault
  | past h =>
    rcases h with ⟨_, _, h⟩ | ⟨_, _, _, h⟩ <;> exact h.elim

theorem stream_ofSource (source : String) (strict : Bool) :
    (ofSource source strict).stream = TokenStream.ofSource source strict := rfl

/-- The program in a text is the one that its tokens are, and a lexical error is the one that ends
the tokens. -/
theorem parse_ofSource (source : String) (strict : Bool) :
    (ofSource source strict).parse = parseWith strict source ∧
      ∀ e fault, (ofSource source strict).parse = .error e → e.fault = .lex fault →
        (TokenStream.ofSource source strict).ending = .failed ⟨fault, e.position⟩ := by
  have h := (ofSource source strict).parse_stream (f := id) rfl
  rw [stream_ofSource, TokenStream.moved_id] at h
  refine ⟨?_, h.2⟩
  rw [parseWith, h.1]
  cases (ofSource source strict).parse with
  | ok e => simp [Except.map, Except.mapError]
  | error e => rfl

end Lexer

namespace Parser

theorem ReadsAll.eof {fin : TokenStream.Ending} {ts : List Token} {es : List Expr}
    (h : ReadsAll fin ts es) : ∃ p, fin = .eof p := by
  induction h with
  | nil hend => exact hend
  | last _ hend => exact hend
  | cons _ _ _ ih => exact ih

/-- The tokens before a lexical fault, in a text where others follow. -/
def Extension.resumed (e : LexError) (more : List Token) (fin : TokenStream.Ending) :
    Extension where
  Same := Eq
  kind_eq h := h ▸ rfl
  text_eq h _ := h ▸ rfl
  fin := .failed e
  more := more
  fin' := fin

theorem Extension.eq_of_resumed {e : LexError} {more : List Token} {fin : TokenStream.Ending}
    {err err' : ParseError} (h : (resumed e more fin).SameError err err') : err' = err := by
  cases h with
  | found hsame expected => rw [show _ = _ from hsame]
  | fault hsame fault => rw [show _ = _ from hsame]

end Parser

namespace TokenStream

theorem toExcept_eq_error {s : TokenStream} {e : LexError} :
    s.toExcept = .error e ↔ s.ending = .failed e := by
  cases hend : s.ending <;> simp [toExcept, hend]

variable {s : TokenStream}

theorem eof_of_parse {program : Expr} (h : s.parse = .ok program) : ∃ p, s.ending = .eof p := by
  obtain ⟨_, -, hread⟩ := Parser.readsAll_of_parse h
  exact hread.eof

/-- A text with a lexical fault is no program. The error is that fault, or it is there in all texts
that start with the same tokens. -/
theorem parse_of_failed {e : LexError} (h : s.ending = .failed e) :
    ∃ err, s.parse = .error err ∧ (err = .ofLex e ∨
      ∀ s' : TokenStream, s.tokens <+: s'.tokens → s'.parse = .error err) := by
  cases hparse : s.parse with
  | ok program =>
    obtain ⟨p, hp⟩ := eof_of_parse hparse
    rw [h] at hp
    cases hp
  | error err =>
    refine ⟨err, rfl, ?_⟩
    by_cases herr : err = .ofLex e
    · exact .inl herr
    refine .inr fun s' hprefix => ?_
    obtain ⟨more, hmore⟩ := hprefix
    have hstream : s = ⟨s.tokens, .failed e⟩ := by rw [← h]
    rw [hstream] at hparse
    rcases Parser.Extension.parse_of_error (x := .resumed e more s'.ending)
      (List.forall₂_same.mpr fun _ _ => rfl) hparse with ⟨err', herr', hsame⟩ | hended
    · rw [Parser.Extension.eq_of_resumed hsame] at herr'
      exact (congrArg (fun ts => TokenStream.parse ⟨ts, s'.ending⟩) hmore.symm).trans herr'
    · cases hended
      exact absurd rfl herr

end TokenStream

/-- Parsing while the text is being read agrees with lexing the text first. A program has no lexical
fault, and a lexical error is the fault there is. A text with a fault is no program, and the error
is that fault or one that stays in all texts with the tokens before it. Texts with the same tokens
are the same program. -/
theorem parse_agrees_tokenize (source : String) :
    (Lexer.ofSource source false).parse = parse source ∧
    (∀ program, (Lexer.ofSource source false).parse = .ok program →
      ∃ ts, tokenize source = .ok ts) ∧
    (∀ err fault, (Lexer.ofSource source false).parse = .error err → err.fault = .lex fault →
      tokenize source = .error ⟨fault, err.position⟩) ∧
    (∀ e, tokenize source = .error e →
      ∃ err, (Lexer.ofSource source false).parse = .error err ∧ (err = .ofLex e ∨
        (∀ fault, err.fault ≠ .lex fault) ∧ ∀ other,
          (TokenStream.ofSource source false).tokens <+: (TokenStream.ofSource other false).tokens →
            (Lexer.ofSource other false).parse = .error err)) ∧
    ∀ other, TokenStream.ofSource other false = TokenStream.ofSource source false →
      (Lexer.ofSource other false).parse = (Lexer.ofSource source false).parse := by
  have hparse (source : String) : (Lexer.ofSource source false).parse = parse source :=
    (Lexer.parse_ofSource source false).1
  have hlex {err : ParseError} {fault : LexFault}
      (herr : (Lexer.ofSource source false).parse = .error err) (hfault : err.fault = .lex fault) :
      (TokenStream.ofSource source false).ending = .failed ⟨fault, err.position⟩ :=
    (Lexer.parse_ofSource source false).2 err fault herr hfault
  refine ⟨hparse source, fun program h => ?_, fun err fault herr hfault => ?_, fun e he => ?_,
    fun other h => ?_⟩
  · rw [hparse] at h
    obtain ⟨p, hp⟩ := TokenStream.eof_of_parse h
    exact ⟨_, by rw [tokenize, TokenStream.toExcept, hp]⟩
  · exact TokenStream.toExcept_eq_error.mpr (hlex herr hfault)
  · have hend := TokenStream.toExcept_eq_error.mp he
    obtain ⟨err, herr, hcause⟩ := TokenStream.parse_of_failed hend
    have herr : (Lexer.ofSource source false).parse = .error err := (hparse source).trans herr
    refine ⟨err, herr, hcause.elim .inl fun hall => ?_⟩
    by_cases hfault : ∃ fault, err.fault = .lex fault
    · obtain ⟨fault, hfault⟩ := hfault
      obtain ⟨_, position⟩ := err
      cases hfault
      cases hend.symm.trans (hlex herr rfl)
      exact .inl rfl
    · exact .inr ⟨not_exists.mp hfault, fun other hother => (hparse other).trans (hall _ hother)⟩
  · rw [hparse, hparse, parse, parseWith, h]
    rfl

theorem parse_agrees_tokenize_stray :
    (∃ ts, tokenize "let f(n) = n; f('a')" = .ok ts) ∧
    tokenize "f(x, $)" = .error ⟨.unexpectedChar '$', ⟨1, 6⟩⟩ ∧
    (∀ other, (TokenStream.ofSource "1 2 $" false).tokens <+:
        (TokenStream.ofSource other false).tokens →
      (Lexer.ofSource other false).parse =
        .error ⟨.unexpectedToken .statementEnd .number "2", ⟨1, 3⟩⟩) ∧
    (Lexer.ofSource "f(x)# one" false).parse = (Lexer.ofSource "f(x)# two" false).parse := by
  refine ⟨?_, ?_, ?_, ?_⟩
  · exact (parse_agrees_tokenize _).2.1
      (.block .start
        [.define ⟨1, 1⟩ "f" (some (.lambda ⟨1, 1⟩ (some "f") ["n"] (.var ⟨1, 12⟩ "n"))),
        .call ⟨1, 15⟩ (.var ⟨1, 15⟩ "f") [.string ⟨1, 17⟩ "a"]]) (by with_unfolding_all rfl)
  · exact (parse_agrees_tokenize _).2.2.1 ⟨.lex (.unexpectedChar '$'), ⟨1, 6⟩⟩ _
      (by with_unfolding_all rfl) rfl
  · obtain ⟨err, herr, hcause⟩ := (parse_agrees_tokenize "1 2 $").2.2.2.1
      ⟨.unexpectedChar '$', ⟨1, 5⟩⟩ (by decide +kernel)
    have hparse : (Lexer.ofSource "1 2 $" false).parse =
        .error ⟨.unexpectedToken .statementEnd .number "2", ⟨1, 3⟩⟩ := by with_unfolding_all rfl
    cases hparse.symm.trans herr
    exact hcause.resolve_left (by decide) |>.2
  · exact (parse_agrees_tokenize _).2.2.2.2 _ (by decide +kernel)

end ExprLang
