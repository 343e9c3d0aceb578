import ExprLang.Number.Binary64

namespace ExprLang.Number

def isDecimalDigit (c : Char) : Bool := '0' ≤ c && c ≤ '9'

def ofDigits (digits : List Char) : Nat :=
  digits.foldl (fun n c => 10 * n + (c.toNat - '0'.toNat)) 0

def ofLiteral? (text : String) : Option Float :=
  let whole := text.toList.takeWhile isDecimalDigit
  let rest := text.toList.drop whole.length
  if whole.isEmpty then none
  else match rest with
    | [] => some (ofRatio false (ofDigits whole) 1)
    | c :: places =>
      if c = '.' && places.all isDecimalDigit then
        some (ofRatio false (ofDigits (whole ++ places)) (tenTo places.length))
      else none

end ExprLang.Number
