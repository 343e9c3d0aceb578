import ExprLang.Number.Literal

namespace ExprLang

structure RunOptions where
  /-- How many function calls may be under way at once. -/
  limit : Option Nat
  /-- Whether to tell how long the run took. -/
  time : Bool
  path : Option String
deriving DecidableEq, Repr

namespace RunOptions

def default : RunOptions := ⟨none, false, none⟩

inductive Fault where
  | invalidDepth (text : String)
  | unknownOption (argument : String)
deriving DecidableEq, Repr

def Fault.message : Fault → String
  | invalidDepth text => "invalid --max-depth value '" ++ text ++ "'"
  | unknownOption argument => "unknown option '" ++ argument ++ "'"

/-- A depth: decimal digits, perhaps after a plus sign, for a number of at most 64 bits. -/
def depth? (text : List Char) : Option Nat :=
  let digits := match text with
    | '+' :: more => more
    | other => other
  if digits.isEmpty || !digits.all Number.isDecimalDigit then none
  else
    let n := Number.ofDigits digits
    if n < Number.twoTo 64 then some n else none

def depthFlag : List Char := "--max-depth=".toList

def add (o : RunOptions) (argument : String) : Except Fault RunOptions :=
  let cs := argument.toList
  if depthFlag.isPrefixOf cs then
    let value := cs.drop depthFlag.length
    match depth? value with
    | some n => .ok ⟨some n, o.time, o.path⟩
    | none => .error (.invalidDepth (String.ofList value))
  else if argument = "--time" then .ok ⟨o.limit, true, o.path⟩
  else if argument = "-" || cs.head? ≠ some '-' then
    .ok ⟨o.limit, o.time, o.path.or (some argument)⟩
  else .error (.unknownOption argument)

/-- The options in a list of arguments: the last depth and the first path count. -/
def ofArguments (arguments : List String) : Except Fault RunOptions :=
  arguments.foldlM add default

end RunOptions

end ExprLang
