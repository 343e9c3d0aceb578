import ExprLang.Expr.Rules
import ExprLang.Token.Stream

namespace ExprLang

namespace Parser

abbrev Parsed (whole : List Token) (α : Type) := Taken (@List.length Token) whole.length α

def peek (fin : TokenStream.Ending) : (ts : List Token) → Except ParseError (Look List.length ts)
  | t :: rest => .ok (.next t (t :: rest) rest (Nat.le_refl _) (Nat.lt_succ_self _))
  | [] =>
    match fin with
    | .eof p => .ok (.ended (.eof p) [] (Nat.le_refl _))
    | .failed e => .error (.ofLex e)

/-- Tokens that have been read from the text before, and how it ends. -/
def source (fin : TokenStream.Ending) : Source (@List.length Token) ParseError :=
  .reporting (peek fin)

end Parser

def TokenStream.parse (s : TokenStream) : Except ParseError Expr :=
  (Parser.source s.ending).parse s.tokens

/-- The program that a text is. In `strict` reading string literals have to be closed. -/
def parseWith (strict : Bool) (source : String) : Except ParseError Expr :=
  (TokenStream.ofSource source strict).parse

def parse (source : String) : Except ParseError Expr := parseWith false source

end ExprLang
