import ExprLang.Operator
import ExprLang.Position

namespace ExprLang

/-- One binding of a `let` list: a name and perhaps its initial value. -/
structure Binding (α : Type) where
  name : String
  init : Option α

inductive Expr where
  | number (position : Position) (value : Float)
  | string (position : Position) (text : String)
  | boolean (position : Position) (value : Bool)
  | array (position : Position) (items : List Expr)
  | var (position : Position) (name : String)
  /-- `let name` or `let name = init` in the current scope. -/
  | define (position : Position) (name : String) (init : Option Expr)
  /-- `let (a = 1, b) body`: each binding is seen by the following ones and by the body. -/
  | scope (position : Position) (bindings : List (Binding Expr)) (body : Expr)
  | assign (position : Position) (target value : Expr)
  | binary (position : Position) (op : Operator) (left right : Expr)
  /-- A function; its name is bound to itself inside its body. -/
  | lambda (position : Position) (name : Option String) (params : List String) (body : Expr)
  | call (position : Position) (callee : Expr) (args : List Expr)
  /-- `receiver.method(args)`; the result is stored back into the receiver. -/
  | method (position : Position) (receiver method : String) (args : List Expr)
  /-- A conditional with the `if` that stands right after `else`, or another expression there. -/
  | branch (position : Position) (condition consequent : Expr)
      (chained alternative : Option Expr)
  | block (position : Position) (statements : List Expr)

namespace Expr

instance : Inhabited Expr := ⟨.boolean .start false⟩

def position : Expr → Position
  | number p _ | string p _ | boolean p _ | array p _ | var p _ | define p _ _ | scope p _ _
  | assign p _ _ | binary p _ _ _ | lambda p _ _ _ | call p _ _ | method p _ _ _
  | branch p _ _ _ _ | block p _ => p

def kind : Expr → String
  | number .. => "number"
  | string .. => "string"
  | boolean .. => "bool"
  | array .. => "array"
  | var .. => "var"
  | define .. => "let"
  | scope .. => "let-in"
  | assign .. => "assign"
  | binary .. => "binary"
  | lambda .. => "lambda"
  | call .. => "call"
  | method .. => "method-call"
  | branch .. => "if"
  | block .. => "block"

mutual

/-- Whether two trees are the same apart from places. Numbers compare as numbers, so zero has one
value and a NaN differs from itself. -/
def same : Expr → Expr → Bool
  | number _ a, number _ b => a == b
  | string _ a, string _ b => a == b
  | boolean _ a, boolean _ b => a == b
  | array _ as, array _ bs => sameAll as bs
  | var _ a, var _ b => a == b
  | define _ a ia, define _ b ib => a == b && sameOption ia ib
  | scope _ as a, scope _ bs b => sameBindings as bs && same a b
  | assign _ ta va, assign _ tb vb => same ta tb && same va vb
  | binary _ oa la ra, binary _ ob lb rb => oa == ob && same la lb && same ra rb
  | lambda _ na pa a, lambda _ nb pb b => na == nb && pa == pb && same a b
  | call _ ca as, call _ cb bs => same ca cb && sameAll as bs
  | method _ ra ma as, method _ rb mb bs => ra == rb && ma == mb && sameAll as bs
  | branch _ ca ta xa ea, branch _ cb tb xb eb =>
    same ca cb && same ta tb && sameOption xa xb && sameOption ea eb
  | block _ as, block _ bs => sameAll as bs
  | _, _ => false

def sameAll : List Expr → List Expr → Bool
  | [], [] => true
  | a :: as, b :: bs => same a b && sameAll as bs
  | _, _ => false

def sameOption : Option Expr → Option Expr → Bool
  | none, none => true
  | some a, some b => same a b
  | _, _ => false

def sameBinding : Binding Expr → Binding Expr → Bool
  | ⟨a, ia⟩, ⟨b, ib⟩ => a == b && sameOption ia ib

def sameBindings : List (Binding Expr) → List (Binding Expr) → Bool
  | [], [] => true
  | a :: as, b :: bs => sameBinding a b && sameBindings as bs
  | _, _ => false

end

/-- Gives a function without a name that name; any other expression stays as it is. -/
def nameLambda (name : String) : Expr → Expr
  | lambda p none params body => lambda p (some name) params body
  | e => e

/-- Joins two operands. The result stands where the left operand does. -/
def join (c : Connective) (left right : Expr) : Expr :=
  match c with
  | .assign => assign left.position left right
  | .binary op => binary left.position op left right

end Expr

end ExprLang
