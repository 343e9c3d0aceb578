import ExprLang.Value

namespace ExprLang

inductive EvalFault where
  | undefinedVariable (name : String)
  /-- The left side of an assignment is an expression of this kind, not a variable. -/
  | invalidAssignTarget (kind : String)
  /-- An operator, method or builtin met a value of a wrong type. -/
  | typeError (context expected found : String)
  | divideByZero
  | unknownMethod (typeName method : String)
  | notCallable (typeName : String)
  | stackOverflow (limit : Nat)
deriving DecidableEq, Repr

def EvalFault.message : EvalFault → String
  | .undefinedVariable name => "undefined variable `" ++ name ++ "`"
  | .invalidAssignTarget kind =>
    "invalid assignment target: cannot assign to a " ++ kind ++ " expression"
  | .typeError context expected found =>
    "type error in `" ++ context ++ "`: expected " ++ expected ++ ", found " ++ found
  | .divideByZero => "division by zero"
  | .unknownMethod typeName method => "no method `" ++ method ++ "` on type " ++ typeName
  | .notCallable typeName => "value of type " ++ typeName ++ " is not callable"
  | .stackOverflow limit => "maximum call depth of " ++ toString limit ++ " exceeded"

/-- A function call under way: the function's name and the place of its body. -/
structure Activation where
  name : Option String
  position : Position
deriving DecidableEq, Repr

def Activation.describe (a : Activation) : String :=
  "in " ++ a.name.getD "<anonymous fn>" ++ " (" ++ a.position.render ++ ")"

/-- A failure with the place of the innermost expression that failed and the calls that were under
way, the innermost first. -/
structure EvalError where
  fault : EvalFault
  position : Option Position
  backtrace : List Activation
deriving DecidableEq, Repr

namespace EvalError

def message (e : EvalError) : String := e.fault.message

def ofFault (fault : EvalFault) : EvalError := ⟨fault, none, []⟩

def locate (e : EvalError) (p : Option Position) : EvalError :=
  ⟨e.fault, e.position <|> p, e.backtrace⟩

def leave (e : EvalError) (call : Activation) : EvalError :=
  ⟨e.fault, e.position, e.backtrace ++ [call]⟩

end EvalError

end ExprLang
