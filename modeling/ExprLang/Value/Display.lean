import ExprLang.Value
import ExprLang.Number.Numeral
import ExprLang.Text.Quoted

namespace ExprLang.Value

def closureText : Option String → String
  | some name => "<fn " ++ name ++ ">"
  | none => "<fn>"

mutual

/-- A value after the text before it; `nested` says that it stands in an array. -/
def displayOnto (nested : Bool) (before : String) : Value → String
  | number x => before ++ Number.Style.display.render x
  | string text => before ++ (if nested then Text.quoted text else text)
  | boolean b => before ++ (if b then "true" else "false")
  | array _ items => (displayItems (before.push '[') items).push ']'
  | closure _ fn _ => before ++ closureText fn.name
  | builtin b => before ++ "<builtin " ++ b.name ++ ">"

def displayItems (before : String) : List Value → String
  | [] => before
  | [v] => displayOnto true before v
  | v :: more => displayItems (displayOnto true before v ++ ", ") more

end

def display (v : Value) : String := v.displayOnto false ""

def quotedList (texts : List String) : String :=
  "[" ++ ", ".intercalate (texts.map Text.quoted) ++ "]"

def closureDetail (fn : Lambda) : String :=
  let name := match fn.name with
    | some name => "Some(" ++ Text.quoted name ++ ")"
    | none => "None"
  "Closure \x7b name: " ++ name ++ ", params: " ++ quotedList fn.params ++ ", .. \x7d"

mutual

def detailOnto (before : String) : Value → String
  | number x => before ++ "Number(" ++ Number.Style.detailed.render x ++ ")"
  | string text => before ++ "Str(" ++ Text.quoted text ++ ")"
  | boolean b => before ++ "Bool(" ++ (if b then "true" else "false") ++ ")"
  | array _ items => detailItems (before ++ "Array([") items ++ "])"
  | closure _ fn _ => before ++ closureDetail fn
  | builtin b => before ++ "Builtin(" ++ b.name ++ ")"

def detailItems (before : String) : List Value → String
  | [] => before
  | [v] => detailOnto before v
  | v :: more => detailItems (detailOnto before v ++ ", ") more

end

def detail (v : Value) : String := v.detailOnto ""

end ExprLang.Value
