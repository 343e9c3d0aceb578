import ExprLang.Number.Shortest

namespace ExprLang.Number

structure Style where
  nan : String
  infinity : String
  /-- A whole number written with a point gets one zero after it. -/
  keepsPoint : Bool
  /-- The exponents of the leading digit for which no exponent is written. -/
  isPositional : Int → Bool

/-- Numbers in program text: always positional, whole numbers without a point. -/
def Style.source : Style := ⟨"NaN", "inf", false, fun _ => true⟩

def Style.display : Style := ⟨"NaN", "Infinity", false, fun _ => true⟩

/-- Numbers in the detailed form of a value: positional from `0.0001` up to below `10 ^ 16`. -/
def Style.detailed : Style := ⟨"NaN", "inf", true, fun p => -4 ≤ p && p < 16⟩

namespace Decimal

def digitText (d : Decimal) : List Char := Nat.toDigits 10 d.digits

def leading (d : Decimal) : Int := d.exponent + (d.digitText.length - 1 : Nat)

/-- The digits around a point, or alone when there are none after it. -/
def positional (keepsPoint : Bool) (d : Decimal) : List Char :=
  let text := d.digitText
  if 0 ≤ d.exponent then
    text ++ List.replicate d.exponent.toNat '0' ++ (if keepsPoint then ['.', '0'] else [])
  else
    let places := (-d.exponent).toNat
    if places < text.length then
      text.take (text.length - places) ++ '.' :: text.drop (text.length - places)
    else
      ['0', '.'] ++ List.replicate (places - text.length) '0' ++ text

/-- One digit, a point and the other digits if there are any, and the exponent. -/
def scientific (d : Decimal) : List Char :=
  let mantissa := match d.digitText with
    | first :: second :: more => first :: '.' :: second :: more
    | short => short
  mantissa ++ 'e' :: (toString d.leading).toList

end Decimal

namespace Style

def magnitude (s : Style) (m : Magnitude) : List Char :=
  let d := shortest m
  if d.digits = 0 || s.isPositional d.leading then d.positional s.keepsPoint else d.scientific

def render (s : Style) (x : Float) : String :=
  match parts x with
  | .nan => s.nan
  | .infinite negative => if negative then "-" ++ s.infinity else s.infinity
  | .finite negative m =>
    String.ofList (if negative then '-' :: s.magnitude m else s.magnitude m)

end Style

end ExprLang.Number
