import ExprLang.Position
import ExprLang.Text.Quoted

namespace ExprLang

namespace Token

inductive Kind where
  | number
  | string
  | boolean
  | keyword
  | name
  | punctuation
  | operator
  | endOfInput
deriving DecidableEq, Repr, Inhabited

/-- The short word for a kind in diagnostics and token listings. -/
def Kind.label : Kind → String
  | .number => "num"
  | .string => "str"
  | .boolean => "bool"
  | .keyword => "kw"
  | .name => "var"
  | .punctuation => "punc"
  | .operator => "op"
  | .endOfInput => "eof"

end Token

structure Token where
  kind : Token.Kind
  text : String
  position : Position
deriving DecidableEq, Repr, Inhabited

namespace Token

def eof (p : Position) : Token := ⟨.endOfInput, "", p⟩

def isEof (t : Token) : Bool := t.kind = .endOfInput

/-- A token is the punctuation mark `c` when `c` is its whole text. -/
def isMark (t : Token) (c : Char) : Bool := t.kind = .punctuation && t.text.toList = [c]

def isKeyword (t : Token) (word : String) : Bool := t.kind = .keyword && t.text = word

def isOperator (t : Token) (symbol : String) : Bool := t.kind = .operator && t.text = symbol

def isName (t : Token) : Bool := t.kind = .name

def describe (t : Token) : String :=
  match t.kind with
  | .endOfInput => "end of input"
  | .string => "str " ++ Text.quoted t.text
  | kind => kind.label ++ " `" ++ t.text ++ "`"

end Token

end ExprLang
