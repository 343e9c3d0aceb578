import ExprLang.Value.Display
import ExprLang.Value.Fault

namespace ExprLang

/-- The methods there are. Those that a host registers besides are not among them, so a table can
have these three only, under any type and name. -/
inductive Method where
  /-- Arrays: the arguments after the items. -/
  | add
  /-- Arrays: all items but the last. -/
  | pop
  /-- Strings: the texts of the arguments after the string. -/
  | append
deriving DecidableEq, Repr

/-- Applies a method; `id` is the identity of the array it may make. -/
def Method.apply (id : Nat) (receiver : Value) (args : List Value) :
    Method → Except EvalFault Value
  | .add =>
    match receiver with
    | .array _ items => .ok (.array id (items ++ args))
    | other => .error (.typeError "add" "array" other.typeName)
  | .pop =>
    match receiver with
    | .array _ items => .ok (.array id items.dropLast)
    | other => .error (.typeError "pop" "array" other.typeName)
  | .append =>
    match receiver with
    | .string text => .ok (.string (args.foldl (fun s v => v.displayOnto false s) text))
    | other => .error (.typeError "append" "string" other.typeName)

structure MethodEntry where
  typeName : String
  name : String
  method : Method
deriving DecidableEq, Repr

/-- A method table has at most one entry for a type and a name. -/
structure MethodTable where
  entries : List MethodEntry
deriving DecidableEq, Repr

namespace MethodTable

def empty : MethodTable := ⟨[]⟩

def standard : MethodTable :=
  ⟨[⟨"array", "add", .add⟩, ⟨"array", "pop", .pop⟩, ⟨"string", "append", .append⟩]⟩

def find? (t : MethodTable) (typeName name : String) : Option Method :=
  (t.entries.find? fun e => e.typeName = typeName && e.name = name).map (·.method)

/-- Enters a method under a type and a name, in place of one that is there. -/
def insert (t : MethodTable) (typeName name : String) (method : Method) : MethodTable :=
  ⟨⟨typeName, name, method⟩ ::
    t.entries.filter fun e => !(e.typeName = typeName && e.name = name)⟩

def names (t : MethodTable) (typeName : String) : List String :=
  ((t.entries.filter (·.typeName = typeName)).map (·.name)).mergeSort fun a b => decide (a ≤ b)

def invoke (t : MethodTable) (id : Nat) (receiver : Value) (name : String) (args : List Value) :
    Except EvalFault Value :=
  match t.find? receiver.typeName name with
  | some method => method.apply id receiver args
  | none => .error (.unknownMethod receiver.typeName name)

end MethodTable

end ExprLang
