namespace ExprLang

inductive Operator where
  | or
  | and
  | less
  | greater
  | lessEqual
  | greaterEqual
  | equal
  | notEqual
  | identical
  | notIdentical
  | add
  | subtract
  | multiply
  | divide
  | modulo
deriving DecidableEq, Repr, Inhabited

namespace Operator

def all : List Operator :=
  [or, and, less, greater, lessEqual, greaterEqual, equal, notEqual, identical, notIdentical,
    add, subtract, multiply, divide, modulo]

def symbol : Operator → String
  | or => "||"
  | and => "&&"
  | less => "<"
  | greater => ">"
  | lessEqual => "<="
  | greaterEqual => ">="
  | equal => "=="
  | notEqual => "!="
  | identical => "==="
  | notIdentical => "!=="
  | add => "+"
  | subtract => "-"
  | multiply => "*"
  | divide => "/"
  | modulo => "%"

/-- The operator written as `text`. There is none for `=`, `&`, `|` and `!`. -/
def ofSymbol? (text : String) : Option Operator := all.find? fun op => op.symbol = text

def precedence : Operator → Nat
  | multiply | divide | modulo => 20
  | add | subtract => 10
  | less | greater | lessEqual | greaterEqual | equal | notEqual | identical | notIdentical => 7
  | and => 3
  | or => 2

def isArithmetic : Operator → Bool
  | add | subtract | multiply | divide | modulo => true
  | _ => false

def isOrdering : Operator → Bool
  | less | greater | lessEqual | greaterEqual => true
  | _ => false

end Operator

/-- What may stand between two operands. -/
inductive Connective where
  | assign
  | binary (op : Operator)
deriving DecidableEq, Repr

namespace Connective

def ofSymbol? (text : String) : Option Connective :=
  if text = "=" then some .assign else (Operator.ofSymbol? text).map .binary

def precedence : Connective → Nat
  | assign => 1
  | binary op => op.precedence

/-- The right side of an operator takes only what binds tighter, so chains group to the left. The
right side of an assignment takes everything. -/
def rightBound : Connective → Nat
  | assign => 0
  | binary op => op.precedence

end Connective

end ExprLang
