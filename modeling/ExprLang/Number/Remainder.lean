import ExprLang.Number.Binary64

namespace ExprLang.Number

/-- `x` less the multiple of `y` nearest to it on the side of zero, with the sign of `x`. -/
def remainder (x y : Float) : Float :=
  match parts x, parts y with
  | .finite negative a, .finite _ b =>
    if b.units = 0 then 0.0 / 0.0
    else ofSignBits negative (nearestUnits (a.units % b.units) 1)
  | .finite _ _, .infinite _ => x
  | _, _ => 0.0 / 0.0

end ExprLang.Number
