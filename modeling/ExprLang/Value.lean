import ExprLang.Expr

namespace ExprLang

abbrev FrameId := Nat

/-- A function expression without its place. -/
structure Lambda where
  name : Option String
  params : List String
  body : Expr

/-- Functions that every program starts with. -/
inductive Builtin where
  | print
  | println
  | time
  | fib
deriving DecidableEq, Repr

namespace Builtin

def all : List Builtin := [print, println, time, fib]

def name : Builtin → String
  | print => "print"
  | println => "println"
  | time => "time"
  | fib => "fib"

end Builtin

inductive Value where
  | number (x : Float)
  | string (text : String)
  | boolean (b : Bool)
  | array (id : Nat) (items : List Value)
  | closure (id : Nat) (fn : Lambda) (frame : FrameId)
  | builtin (b : Builtin)

namespace Value

instance : Inhabited Value := ⟨.boolean false⟩

def absent : Value := .boolean false

def typeName : Value → String
  | number _ => "number"
  | string _ => "string"
  | boolean _ => "bool"
  | array .. => "array"
  | closure .. | builtin _ => "function"

def isTruthy : Value → Bool
  | boolean b => b
  | _ => true

def toNumber? : Value → Option Float
  | number x => some x
  | _ => none

/-- Strict equality, `===`: arrays and functions are equal only to themselves. -/
def identical : Value → Value → Bool
  | number a, number b => a == b
  | string a, string b => a == b
  | boolean a, boolean b => a == b
  | array a _, array b _ => a == b
  | closure a _ _, closure b _ _ => a == b
  | builtin a, builtin b => a == b
  | _, _ => false

mutual

/-- Loose equality, `==`: an array is equal to itself and to arrays with equal items. -/
def equal : Value → Value → Bool
  | array a as, array b bs => a == b || equalAll as bs
  | v, w => v.identical w

def equalAll : List Value → List Value → Bool
  | [], [] => true
  | a :: as, b :: bs => equal a b && equalAll as bs
  | _, _ => false

end

end Value

end ExprLang
