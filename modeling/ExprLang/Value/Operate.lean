import ExprLang.Value.Fault
import ExprLang.Number.Remainder

namespace ExprLang.Value

/-- Two numbers, or the fault of the first operand that is none. -/
def numbers (op : Operator) : Value → Value → Except EvalFault (Float × Float)
  | number a, number b => .ok (a, b)
  | number _, other => .error (.typeError op.symbol "number" other.typeName)
  | other, _ => .error (.typeError op.symbol "number" other.typeName)

def arithmetic (op : Operator) (v w : Value) (f : Float → Float → Float) :
    Except EvalFault Value := do
  let (a, b) ← numbers op v w
  return .number (f a b)

def division (op : Operator) (v w : Value) (f : Float → Float → Float) :
    Except EvalFault Value := do
  let (a, b) ← numbers op v w
  if b == 0 then throw .divideByZero
  return .number (f a b)

def compare (op : Operator) (v w : Value) (f : Float → Float → Bool) :
    Except EvalFault Value := do
  let (a, b) ← numbers op v w
  return .boolean (f a b)

def operate (op : Operator) (v w : Value) : Except EvalFault Value :=
  match op with
  | .and => .ok (if v.isTruthy then w else .boolean false)
  | .or => .ok (if v.isTruthy then v else w)
  | .equal => .ok (.boolean (v.equal w))
  | .notEqual => .ok (.boolean (!v.equal w))
  | .identical => .ok (.boolean (v.identical w))
  | .notIdentical => .ok (.boolean (!v.identical w))
  | .less => compare op v w fun a b => a < b
  | .greater => compare op v w fun a b => b < a
  | .lessEqual => compare op v w fun a b => a ≤ b
  | .greaterEqual => compare op v w fun a b => b ≤ a
  | .add => arithmetic op v w (· + ·)
  | .subtract => arithmetic op v w (· - ·)
  | .multiply => arithmetic op v w (· * ·)
  | .divide => division op v w (· / ·)
  | .modulo => division op v w Number.remainder

end ExprLang.Value
