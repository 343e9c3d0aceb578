import ExprLang.Proofs.Expr.OnDemand
import ExprLang.Proofs.Token.Literal

namespace ExprLang

namespace Lexer
open Lexeme

variable {lx : Lexer} {e : LexError} {c : Char} {p : Position}

theorem fst_peek (lx : Lexer) : lx.peek.1 = lx.next.1 := by
  unfold peek
  split <;> simp [*]

theorem fst_atEnd_eq_error (lx : Lexer) : lx.atEnd.1 = .error e ↔ lx.next.1 = .error e := by
  rw [← fst_peek]
  unfold atEnd
  rcases lx.peek with ⟨r, after⟩
  cases r <;> simp [Except.map]

theorem isStray_of_next (h : lx.next.1 = .error ⟨.unexpectedChar c, p⟩) : IsStray c := by
  unfold next at h
  split at h
  · cases h
  · rcases htoken : lx.cursor.token lx.strict with ⟨r, cursor⟩
    simp only [htoken] at h
    subst h
    exact Cursor.isStray_of_token htoken

end Lexer

namespace OnDemand

/-- How parsing stops without a result: a rule refuses the next token of a lexer, or something else
is wrong. -/
inductive Halt where
  | refused (expected : Expected) (lx : Lexer)
  | failed (e : ParseError)

def Halt.error : Halt → ParseError
  | refused expected lx => source.unexpected expected lx
  | failed e => e

/-- Tokens that a lexer reads when they are looked at. An error says at which lexer a token was
refused, and the reason is not looked for. -/
def halting : Source Lexer.unread Halt where
  peek lx := (peek lx).mapError .failed
  unexpected := .refused
  fault := .failed

section Legible

variable {lx after : Lexer} {t : Token}

/-- A number that the lexer keeps can be read as one. -/
def Legible (lx : Lexer) : Prop :=
  ∀ t, lx.peeked = some t → t.kind = .number → ∃ x, Number.ofLiteral? t.text = some x

theorem legible_of_none (h : lx.peeked = none) : Legible lx := by
  intro t ht
  rw [h] at ht
  cases ht

theorem Legible.peek (hlx : Legible lx) (h : lx.peek = (.ok t, after)) : Legible after := by
  intro u hu hkind
  rw [(Lexer.unread_peek h).1] at hu
  cases hu
  cases hpeeked : lx.peeked with
  | some u =>
    simp only [Lexer.peek, Lexer.next, hpeeked] at h
    cases h
    exact hlx t hpeeked hkind
  | none =>
    rcases htoken : lx.cursor.token lx.strict with ⟨e | u, cursor⟩
    · simp only [Lexer.peek, Lexer.next, hpeeked, htoken] at h
      cases h
    · simp only [Lexer.peek, Lexer.next, hpeeked, htoken] at h
      cases h
      have hlexeme : t.isEof = false := decide_eq_false (by simp [hkind])
      obtain ⟨c, cs, l, hl, hk, htext⟩ := Cursor.lexeme_of_token htoken hlexeme
      rw [htext]
      exact Lexeme.ofLiteral?_of_number hl (hk ▸ hkind)

end Legible

/-- The lexer keeps the token that is refused, and a number token is not at fault. -/
def Halt.Proper : Halt → Prop
  | refused _ lx => ∃ t, lx.peeked = some t
  | failed e => ∀ text, e.fault ≠ .invalidNumber text

theorem Halt.Proper.error_ne {h : Halt} (hproper : h.Proper) (text : String) :
    h.error.fault ≠ .invalidNumber text := by
  cases h with
  | refused expected lx =>
    obtain ⟨t, ht⟩ := hproper
    rw [Halt.error, unexpected_of_peeked expected ht, ParseError.unexpected]
    split <;> simp
  | failed e => exact hproper text

/-- A lexer beside itself. All halts are proper. -/
def refusing : Pairing Lexer Lexer Halt ParseError where
  State lx lx' := lx' = lx ∧ Legible lx
  Same t u := u = t ∧ (t.kind = .number → ∃ x, Number.ofLiteral? t.text = some x)
  Error h e := e = h.error ∧ h.Proper
  Done _ := False
  Want _ := False
  Loose := False
  Exact := True
  place := id

theorem Legible.sees {lx : Lexer} (hlx : Legible lx) :
    refusing.Sees halting source (halting.peek lx) (source.peek lx) := by
  change refusing.Sees halting source ((OnDemand.peek lx).mapError .failed) (OnDemand.peek lx)
  rcases hpeek : lx.peek with ⟨e | t, kept⟩
  · rw [peek_of_error hpeek]
    exact .error ⟨rfl, by simp [Halt.Proper, ParseError.ofLex]⟩
  · have hpeeked := (Lexer.unread_peek hpeek).1
    have hkept := hlx.peek hpeek
    have hunexpected (expected : Expected) :
        refusing.Error (halting.unexpected expected kept) (source.unexpected expected kept) :=
      ⟨rfl, t, hpeeked⟩
    cases ht : t.isEof with
    | true =>
      rw [peek_of_ended hpeek ht]
      exact .both (.ended ⟨rfl, hkept⟩ hunexpected)
    | false =>
      obtain ⟨_, _, hlook⟩ := peek_of_next hpeek ht
      rw [hlook]
      have hnone : kept.next.2.peeked = none := by simp only [Lexer.next, hpeeked]
      exact .both (.next ⟨rfl, hkept t hpeeked⟩ ⟨rfl, hkept⟩ ⟨rfl, legible_of_none hnone⟩
        hunexpected)

theorem simulation_refusing : refusing.Simulation halting source where
  kind_eq h := h.1 ▸ rfl
  text_eq h _ := h.1 ▸ rfl
  eq_moved _ h := h.1
  raised := by
    rintro t u fault ⟨rfl, hlegible⟩ hraised
    refine ⟨rfl, fun text hfault => ?_⟩
    cases hraised with
    | number hkind hnone =>
      obtain ⟨x, hx⟩ := hlegible hkind
      rw [hnone] at hx
      cases hx
    | condition | operator | initializer => cases hfault
  look := by
    rintro lx _ ⟨rfl, hlx⟩
    exact hlx.sees
  alone := False.elim
  want _ := False.elim

/-- Parsing comes to the same when it says which token was refused, and it halts properly. -/
theorem Legible.parse {lx : Lexer} (hlx : Legible lx) :
    (halting.parse lx).mapError Halt.error = lx.parse ∧
      ∀ h, halting.parse lx = .error h → h.Proper := by
  have hfollows := simulation_refusing.follows_parse rfl ⟨rfl, hlx⟩
  rw [Lexer.parse]
  generalize halting.parse lx = r at hfollows ⊢
  generalize source.parse lx = r' at hfollows ⊢
  cases hfollows with
  | @ok e e' h =>
    have h : e' = e.moved id := h trivial
    rw [Expr.moved_id] at h
    subst h
    exact ⟨rfl, fun _ h => by cases h⟩
  | error h =>
    obtain ⟨rfl, hproper⟩ := h
    refine ⟨rfl, fun h hr => ?_⟩
    cases hr
    exact hproper
  | past h =>
    rcases h with ⟨_, _, h⟩ | ⟨_, _, _, h⟩ <;> exact h.elim

/-- Guards against what cannot happen are never reached. No text has a number that cannot be read.
No lexer finds a character unexpected that could start a string, a number, a name, a mark or an
operator. And parsing a text that says at which lexer a token was refused is never in want of that
token: the lexer keeps it, and the error is about it. -/
theorem guards_unreached :
    (∀ source strict text p,
      (Lexer.ofSource source strict).parse ≠ .error ⟨.invalidNumber text, p⟩) ∧
    (∀ (lx : Lexer) c p, (lx.next.1 = .error ⟨.unexpectedChar c, p⟩ ∨
        lx.peek.1 = .error ⟨.unexpectedChar c, p⟩ ∨ lx.atEnd.1 = .error ⟨.unexpectedChar c, p⟩) →
      Lexeme.isQuote c = false ∧ Lexeme.isDigit c = false ∧ Lexeme.isNameStart c = false ∧
        Lexeme.isMark c = false ∧ Lexeme.isOperatorChar c = false) ∧
    ∀ source strict, (halting.parse (.ofSource source strict)).mapError Halt.error =
        (Lexer.ofSource source strict).parse ∧
      ∀ expected lx, halting.parse (.ofSource source strict) = .error (.refused expected lx) →
        ∃ t, lx.peeked = some t ∧
          OnDemand.source.unexpected expected lx = .unexpected expected t := by
  have hlegible (source : String) (strict : Bool) : Legible (.ofSource source strict) :=
    legible_of_none rfl
  refine ⟨fun source strict text p h => ?_, fun lx c p h => ?_, fun source strict => ?_⟩
  · obtain ⟨hparse, hproper⟩ := (hlegible source strict).parse
    rw [h] at hparse
    cases hhalt : halting.parse (.ofSource source strict) with
    | ok e =>
      rw [hhalt] at hparse
      cases hparse
    | error halt =>
      rw [hhalt] at hparse
      exact (hproper halt hhalt).error_ne text (congrArg ParseError.fault (Except.error.inj hparse))
  · have hstray : Lexeme.IsStray c := by
      rw [Lexer.fst_peek, Lexer.fst_atEnd_eq_error, or_self, or_self] at h
      exact Lexer.isStray_of_next h
    exact ⟨hstray.quote, hstray.digit, hstray.nameStart, hstray.mark, hstray.operatorChar⟩
  · obtain ⟨hparse, hproper⟩ := (hlegible source strict).parse
    refine ⟨hparse, fun expected lx hrefused => ?_⟩
    obtain ⟨t, ht⟩ := hproper _ hrefused
    exact ⟨t, ht, unexpected_of_peeked expected ht⟩

/-- A bracket in the place of an expression, and a character in the place of a token. -/
theorem guards_unreached_bracket :
    (∃ lx t, halting.parse (.ofSource ")" true) = .error (.refused .expression lx) ∧
      lx.peeked = some t ∧
      (Lexer.ofSource ")" true).parse = .error (.unexpected .expression t)) ∧
    (Lexer.ofSource " $" true).next.1 = .error ⟨.unexpectedChar '$', ⟨1, 2⟩⟩ ∧
      Lexeme.isOperatorChar '$' = false := by
  constructor
  · have hrefused : halting.parse (.ofSource ")" true) =
        .error (.refused .expression ⟨⟨[], ⟨1, 2⟩⟩, some ⟨.punctuation, ")", ⟨1, 1⟩⟩, true⟩) := by
      with_unfolding_all rfl
    obtain ⟨hparse, hkept⟩ := guards_unreached.2.2 ")" true
    obtain ⟨t, ht, herror⟩ := hkept _ _ hrefused
    rw [hrefused] at hparse
    exact ⟨_, t, hrefused, ht, herror ▸ hparse.symm⟩
  · have hnext : (Lexer.ofSource " $" true).next.1 = .error ⟨.unexpectedChar '$', ⟨1, 2⟩⟩ := by
      decide +kernel
    exact ⟨hnext, (guards_unreached.2.1 _ _ _ (.inl hnext)).2.2.2.2⟩

end OnDemand

end ExprLang
