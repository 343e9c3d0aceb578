import ExprLang.Token.Cursor

namespace ExprLang

/-- What would have been right in place of a token. -/
inductive Expected where
  | mark (c : Char)
  | identifier
  | expression
  | statementEnd
deriving DecidableEq, Repr

def Expected.describe : Expected → String
  | .mark c => "`" ++ String.singleton c ++ "`"
  | .identifier => "identifier"
  | .expression => "expression"
  | .statementEnd => "`;` or end of input"

inductive ParseFault where
  | unexpectedToken (expected : Expected) (kind : Token.Kind) (text : String)
  | unexpectedEnd (expected : Expected)
  /-- A conditional with nothing between the parentheses of its condition. -/
  | emptyCondition
  /-- An operator with no meaning between two operands. -/
  | unknownOperator (symbol : String)
  /-- A parameter of a function definition with an initial value. -/
  | initializerInDefinition (name : String)
  | invalidNumber (text : String)
  | lex (fault : LexFault)
deriving DecidableEq, Repr

def ParseFault.message : ParseFault → String
  | .unexpectedToken expected kind text =>
    "expected " ++ expected.describe ++ ", found " ++ Token.describe ⟨kind, text, .start⟩
  | .unexpectedEnd expected => "expected " ++ expected.describe ++ ", found end of input"
  | .emptyCondition => "expected condition, found `()`"
  | .unknownOperator symbol => "unknown operator `" ++ symbol ++ "`"
  | .initializerInDefinition name =>
    "parameter `" ++ name ++ "` of a function definition cannot have a default value"
  | .invalidNumber text => "invalid number literal `" ++ text ++ "`"
  | .lex fault => fault.message

structure ParseError where
  fault : ParseFault
  position : Position
deriving DecidableEq, Repr

namespace ParseError

def message (e : ParseError) : String :=
  e.fault.message ++ " (" ++ e.position.render ++ ")"

def ofLex (e : LexError) : ParseError := ⟨.lex e.fault, e.position⟩

def unexpected (expected : Expected) (t : Token) : ParseError :=
  if t.isEof then ⟨.unexpectedEnd expected, t.position⟩
  else ⟨.unexpectedToken expected t.kind t.text, t.position⟩

end ParseError

end ExprLang
