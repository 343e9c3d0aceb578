import ExprLang.Token.Cursor

namespace ExprLang

structure Lexer where
  cursor : Cursor
  peeked : Option Token
  strict : Bool
deriving DecidableEq, Repr

namespace Lexer

def ofSource (source : String) (strict : Bool) : Lexer := ⟨.ofSource source, none, strict⟩

/-- Takes the next token; at the end of the text that is the end mark, again and again. -/
def next (lx : Lexer) : Except LexError Token × Lexer :=
  match lx.peeked with
  | some t => (.ok t, { lx with peeked := none })
  | none =>
    let (result, cursor) := lx.cursor.token lx.strict
    (result, { lx with cursor })

def peek (lx : Lexer) : Except LexError Token × Lexer :=
  match lx.next with
  | (.ok t, after) => (.ok t, { after with peeked := some t })
  | (.error e, after) => (.error e, after)

def atEnd (lx : Lexer) : Except LexError Bool × Lexer :=
  let (result, after) := lx.peek
  (result.map Token.isEof, after)

/-- The place of the next token when it is known, otherwise of the next unread character. -/
def position (lx : Lexer) : Position :=
  match lx.peeked with
  | some t => t.position
  | none => lx.cursor.position

def fail (lx : Lexer) (fault : LexFault) : LexError := ⟨fault, lx.position⟩

end Lexer

end ExprLang
