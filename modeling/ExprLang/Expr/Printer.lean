import ExprLang.Expr
import ExprLang.Number.Numeral

namespace ExprLang

namespace Expr

/-- Whether an expression ends in one that would take in a following operator, argument list or
`else`. -/
def isOpenEnded : Expr → Bool
  | lambda .. | define .. | scope .. | branch .. => true
  | _ => false

def isBranch : Expr → Bool
  | branch .. => true
  | _ => false

end Expr

namespace Printer

/-- What a character of a string is written as between the quotes. -/
def escape (c : Char) : List Char := if c = '"' || c = '\\' then ['\\', c] else [c]

def literal (text : String) : List Char := '"' :: text.toList.flatMap escape ++ ['"']

def indent (depth : Nat) : List Char := List.replicate (4 * depth) ' '

/-- Puts parentheses around what `body` writes when they are needed. -/
def parenthesize (needed : Bool) (body : List Char → List Char) (rest : List Char) : List Char :=
  if needed then '(' :: body (')' :: rest) else body rest

def joined : List String → List Char
  | [] => []
  | [s] => s.toList
  | s :: more => s.toList ++ ", ".toList ++ joined more

def lambdaName : Option String → List Char
  | none => []
  | some name => ' ' :: name.toList

mutual

/-- Writes an expression at a level of indentation in front of `rest`. -/
def write (depth : Nat) : Expr → List Char → List Char
  | .number _ x, rest => (Number.Style.source.render x).toList ++ rest
  | .string _ s, rest => literal s ++ rest
  | .boolean _ b, rest => (if b then "true" else "false").toList ++ rest
  | .array _ items, rest => '[' :: writeList depth items (']' :: rest)
  | .var _ name, rest => name.toList ++ rest
  | .define _ name init, rest =>
    "let ".toList ++ name.toList ++ writeInit depth init rest
  | .scope _ bindings body, rest =>
    "let (".toList ++ writeBindings depth bindings (") ".toList ++ write depth body rest)
  | .assign _ target value, rest =>
    '(' :: parenthesize target.isOpenEnded (write depth target)
      (" = ".toList ++ parenthesize value.isOpenEnded (write depth value) (')' :: rest))
  | .binary _ op left right, rest =>
    '(' :: parenthesize left.isOpenEnded (write depth left)
      (' ' :: op.symbol.toList ++
        ' ' :: parenthesize right.isOpenEnded (write depth right) (')' :: rest))
  | .lambda _ name params body, rest =>
    "fn".toList ++ lambdaName name ++ '(' :: joined params ++ ") ".toList ++ write depth body rest
  | .call _ callee args, rest =>
    parenthesize callee.isOpenEnded (write depth callee)
      ('(' :: writeList depth args (')' :: rest))
  | .method _ receiver method args, rest =>
    receiver.toList ++ '.' :: method.toList ++ '(' :: writeList depth args (')' :: rest)
  | .branch _ cond consequent chained alternative, rest =>
    let needed := consequent.isOpenEnded && (chained.isSome || alternative.isSome)
    let ending := if chained.isSome then rest else writeAlternative depth alternative rest
    "if (".toList ++ write depth cond (") ".toList ++
      parenthesize needed (write depth consequent) (writeChained depth chained ending))
  | .block _ statements, rest =>
    if statements.isEmpty then "\x7b\x7d".toList ++ rest
    else
      "\x7b\n".toList ++ writeStatements (depth + 1) statements (indent depth ++ '}' :: rest)

def writeList (depth : Nat) : List Expr → List Char → List Char
  | [], rest => rest
  | [e], rest => write depth e rest
  | e :: more, rest => write depth e (", ".toList ++ writeList depth more rest)

/-- Statements on lines of their own, with a semicolon after all but the last. -/
def writeStatements (depth : Nat) : List Expr → List Char → List Char
  | [], rest => rest
  | [e], rest => indent depth ++ write depth e ('\n' :: rest)
  | e :: more, rest =>
    indent depth ++ write depth e (";\n".toList ++ writeStatements depth more rest)

def writeInit (depth : Nat) : Option Expr → List Char → List Char
  | none, rest => rest
  | some e, rest => " = ".toList ++ write depth e rest

def writeBinding (depth : Nat) : Binding Expr → List Char → List Char
  | ⟨name, init⟩, rest => name.toList ++ writeInit depth init rest

def writeBindings (depth : Nat) : List (Binding Expr) → List Char → List Char
  | [], rest => rest
  | [b], rest => writeBinding depth b rest
  | b :: more, rest => writeBinding depth b (", ".toList ++ writeBindings depth more rest)

def writeChained (depth : Nat) : Option Expr → List Char → List Char
  | none, rest => rest
  | some e, rest => " else ".toList ++ write depth e rest

/-- Any other expression after `else`. A conditional stands in parentheses there, since bare it
would be read as a chained one. -/
def writeAlternative (depth : Nat) : Option Expr → List Char → List Char
  | none, rest => rest
  | some e, rest => " else ".toList ++ parenthesize e.isBranch (write depth e) rest

end

/-- The statements of a program, each with a semicolon on a line of its own. -/
def writeProgram : List Expr → List Char
  | [] => []
  | e :: more => write 0 e (";\n".toList ++ writeProgram more)

end Printer

def Expr.print (e : Expr) : String := String.ofList (Printer.write 0 e [])

/-- A program in canonical form: one statement a line for a block, else one expression. -/
def Expr.printProgram (e : Expr) : String :=
  match e with
  | .block _ statements => String.ofList (Printer.writeProgram statements)
  | e => String.ofList (Printer.write 0 e ['\n'])

end ExprLang
