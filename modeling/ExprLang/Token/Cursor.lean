import ExprLang.Token.Lexeme

namespace ExprLang

structure LexError where
  fault : LexFault
  position : Position
deriving DecidableEq, Repr

def LexFault.message : LexFault → String
  | .unexpectedChar c => "unexpected character " ++ Text.quotedChar c
  | .unterminatedString => "unterminated string literal"

def LexError.message (e : LexError) : String :=
  e.fault.message ++ " (" ++ e.position.render ++ ")"

structure Cursor where
  rest : List Char
  position : Position
deriving DecidableEq, Repr

namespace Cursor

def ofSource (source : String) : Cursor := ⟨source.toList, .start⟩

def skip (cur : Cursor) (n : Nat) : Cursor :=
  ⟨cur.rest.drop n, cur.position.advance cur.rest n⟩

def skipTrivia (cur : Cursor) : Cursor := cur.skip (Lexeme.trivia false 0 cur.rest)

/-- Reads the next token, and leaves the cursor after it. At the end of the text the token is the
end mark. A character that starts no token is not passed; an unclosed string is passed whole. -/
def token (strict : Bool) (cur : Cursor) : Except LexError Token × Cursor :=
  let cur := cur.skipTrivia
  match cur.rest with
  | [] => (.ok (.eof cur.position), cur)
  | c :: cs =>
    match Lexeme.read strict c cs with
    | .ok l => (.ok ⟨l.kind, l.text, cur.position⟩, cur.skip l.length)
    | .error .unterminatedString =>
      (.error ⟨.unterminatedString, cur.position⟩, cur.skip cur.rest.length)
    | .error (.unexpectedChar u) => (.error ⟨.unexpectedChar u, cur.position⟩, cur)

theorem length_rest_skip (cur : Cursor) (n : Nat) :
    (cur.skip n).rest.length = cur.rest.length - n := by
  simp [skip]

theorem length_rest_token {strict : Bool} {cur next : Cursor} {t : Token}
    (h : cur.token strict = (.ok t, next)) (ht : t.isEof = false) :
    next.rest.length < cur.rest.length := by
  have hskip : cur.skipTrivia.rest.length ≤ cur.rest.length := by
    simp [skipTrivia, length_rest_skip]
  unfold token at h
  dsimp only at h
  split at h
  · cases h
    simp [Token.isEof, Token.eof] at ht
  · rename_i c cs hcs
    split at h
    · rename_i l hl
      cases h
      have hpos := Lexeme.length_pos_of_read hl
      have hlen : 0 < cur.skipTrivia.rest.length := by simp [hcs]
      rw [length_rest_skip]
      omega
    · cases h
    · cases h

end Cursor

end ExprLang
