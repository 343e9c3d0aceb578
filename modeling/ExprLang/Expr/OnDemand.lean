import ExprLang.Expr.Rules
import ExprLang.Token.Lexer

namespace ExprLang

namespace Cursor

theorem length_rest_token_le {strict : Bool} {cur next : Cursor} {result : Except LexError Token}
    (h : cur.token strict = (result, next)) : next.rest.length ≤ cur.rest.length := by
  have hskip : cur.skipTrivia.rest.length ≤ cur.rest.length := by
    simp [skipTrivia, length_rest_skip]
  unfold token at h
  dsimp only at h
  split at h
  · cases h
    exact hskip
  · split at h
    · cases h
      rw [length_rest_skip]
      omega
    · cases h
      rw [length_rest_skip]
      omega
    · cases h
      exact hskip

end Cursor

namespace Lexer

/-- How much there is to read: the characters ahead, and one for a token that is kept. -/
def unread (lx : Lexer) : Nat :=
  lx.cursor.rest.length + if lx.peeked.all (·.isEof) then 0 else 1

theorem unread_next {lx after : Lexer} {t : Token} (h : lx.next = (.ok t, after))
    (ht : t.isEof = false) : after.unread < lx.unread := by
  unfold next at h
  split at h
  · rename_i u hu
    cases h
    simp [unread, hu, ht]
  · rename_i hu
    cases htoken : lx.cursor.token lx.strict with
    | mk result cursor =>
      simp only [htoken] at h
      cases h
      have hshorter := Cursor.length_rest_token htoken ht
      simp only [unread, hu]
      exact Nat.add_lt_add_right hshorter _

theorem unread_peek {lx after : Lexer} {t : Token} (h : lx.peek = (.ok t, after)) :
    after.peeked = some t ∧ after.unread ≤ lx.unread := by
  unfold peek next at h
  cases hpeeked : lx.peeked with
  | some u =>
    simp only [hpeeked] at h
    cases h
    simp [unread, hpeeked]
  | none =>
    cases htoken : lx.cursor.token lx.strict with
    | mk result cursor =>
      simp only [hpeeked, htoken] at h
      cases result with
      | error e => cases h
      | ok u =>
        cases h
        have hle := Cursor.length_rest_token_le htoken
        cases ht : t.isEof with
        | true => simpa [unread, hpeeked, ht] using hle
        | false =>
          have hshorter := Cursor.length_rest_token htoken ht
          simpa [unread, hpeeked, ht] using Nat.succ_le_of_lt hshorter

theorem next_peek {lx after : Lexer} {t : Token} (h : lx.peek = (.ok t, after)) :
    after.next = (.ok t, after.next.2) := by
  simp only [next, (unread_peek h).1]

end Lexer

namespace OnDemand

/-- The next token of a lexer, and the lexer that keeps it. Taking a token that is kept is no
reading, so it does not fail. -/
def peek (lx : Lexer) : Except ParseError (Look Lexer.unread lx) :=
  match h : lx.peek with
  | (.error e, _) => .error (.ofLex e)
  | (.ok t, kept) =>
    if ht : t.isEof then .ok (.ended t kept (Lexer.unread_peek h).2)
    else .ok (.next t kept kept.next.2 (Lexer.unread_peek h).2
      (Nat.lt_of_lt_of_le (Lexer.unread_next (Lexer.next_peek h) (eq_false_of_ne_true ht))
        (Lexer.unread_peek h).2))

def source : Source Lexer.unread ParseError := .reporting peek

end OnDemand

def Lexer.parse (lx : Lexer) : Except ParseError Expr := OnDemand.source.parse lx

end ExprLang
