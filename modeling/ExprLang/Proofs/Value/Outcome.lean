import ExprLang.Value.Method
import ExprLang.Value.Operate

namespace ExprLang

namespace Value

/-- What an operator between two values can give. -/
inductive Operated (v w : Value) : Except EvalFault Value → Prop
  | left : Operated v w (.ok v)
  | right : Operated v w (.ok w)
  | number (x : Float) : Operated v w (.ok (.number x))
  | boolean (b : Bool) : Operated v w (.ok (.boolean b))
  | typeError (context expected found : String) :
    Operated v w (.error (.typeError context expected found))
  | divideByZero : Operated v w (.error .divideByZero)

theorem operated_of_numbers (op : Operator) (v w : Value)
    {f : Float × Float → Except EvalFault Value} (hf : ∀ p, Operated v w (f p)) :
    Operated v w (numbers op v w >>= f) := by
  cases v with
  | number a =>
    cases w with
    | number b => exact hf (a, b)
    | _ => exact .typeError ..
  | _ => exact .typeError ..

theorem operate_operated (op : Operator) (v w : Value) : Operated v w (operate op v w) := by
  cases op with
  | and =>
    unfold operate
    cases v.isTruthy with
    | true => exact .right
    | false => exact .boolean false
  | or =>
    unfold operate
    cases v.isTruthy with
    | true => exact .left
    | false => exact .right
  | equal | notEqual | identical | notIdentical => exact .boolean _
  | less | greater | lessEqual | greaterEqual => exact operated_of_numbers _ v w fun _ => .boolean _
  | add | subtract | multiply => exact operated_of_numbers _ v w fun _ => .number _
  | divide | modulo =>
    refine operated_of_numbers _ v w fun p => ?_
    dsimp only
    split
    · exact .divideByZero
    · exact .number _

end Value

/-- What a method can give. -/
inductive Invoked (receiver : Value) (args : List Value) : Except EvalFault Value → Prop
  | array (id : Nat) (items : List Value)
      (h : ∀ v ∈ items, v ∈ args ∨ ∃ id before, receiver = .array id before ∧ v ∈ before) :
    Invoked receiver args (.ok (.array id items))
  | string (text : String) : Invoked receiver args (.ok (.string text))
  | typeError (context expected found : String) :
    Invoked receiver args (.error (.typeError context expected found))
  | unknownMethod (typeName method : String) :
    Invoked receiver args (.error (.unknownMethod typeName method))

theorem Method.apply_invoked (id : Nat) (receiver : Value) (args : List Value) (m : Method) :
    Invoked receiver args (m.apply id receiver args) := by
  cases m with
  | add =>
    cases receiver with
    | array i before =>
      refine .array id _ fun v hv => ?_
      rcases List.mem_append.mp hv with hv | hv
      · exact .inr ⟨i, before, rfl, hv⟩
      · exact .inl hv
    | _ => exact .typeError ..
  | pop =>
    cases receiver with
    | array i before =>
      refine .array id _ fun v hv => .inr ⟨i, before, rfl, ?_⟩
      exact List.dropLast_subset before hv
    | _ => exact .typeError ..
  | append =>
    cases receiver with
    | string text => exact .string _
    | _ => exact .typeError ..

theorem MethodTable.invoke_invoked (t : MethodTable) (id : Nat) (receiver : Value) (name : String)
    (args : List Value) : Invoked receiver args (t.invoke id receiver name args) := by
  unfold invoke
  cases t.find? receiver.typeName name with
  | none => exact .unknownMethod ..
  | some m => exact m.apply_invoked id receiver args

end ExprLang
