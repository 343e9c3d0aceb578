import ExprLang.Number.Binary64

namespace ExprLang.Number

/-- The number `digits * 10 ^ exponent`. -/
structure Decimal where
  digits : Nat
  exponent : Int
deriving DecidableEq, Repr

/-- The reals that round to a double, in quarters of a unit. -/
structure Interval where
  low : Nat
  value : Nat
  high : Nat
  closed : Bool
deriving DecidableEq, Repr

def quartersPerOne : Nat := 4 * unitsPerOne

/-- Neighbours are one step away, but the lower neighbour of a power of two is half a step away. -/
def Magnitude.interval (m : Magnitude) : Interval :=
  let step := twoTo m.shift
  let value := 4 * m.units
  let below := if m.mantissa = twoTo 52 ∧ 0 < m.shift then step else 2 * step
  ⟨value - below, value, value + 2 * step, m.mantissa % 2 = 0⟩

namespace Interval

def contains (i : Interval) (d : Decimal) : Bool :=
  let point := d.digits * tenTo d.exponent.toNat * quartersPerOne
  let scale := tenTo (-d.exponent).toNat
  if i.closed then i.low * scale ≤ point && point ≤ i.high * scale
  else i.low * scale < point && point < i.high * scale

/-- The point that stands for the value on the grid of multiples of `10 ^ exponent`: of the two
neighbours of the value those in the interval, and of both the nearer. -/
def onGrid? (i : Interval) (exponent : Int) : Option Decimal :=
  let n := i.value * tenTo (-exponent).toNat
  let d := quartersPerOne * tenTo exponent.toNat
  let below : Decimal := ⟨n / d, exponent⟩
  let above : Decimal := ⟨n / d + 1, exponent⟩
  if i.contains below then
    if i.contains above && d ≤ 2 * (n % d) then some above else some below
  else if i.contains above then some above
  else none

end Interval

def digitCount (n : Nat) : Nat := (Nat.toDigits 10 n).length

/-- The exponent `p` with `10 ^ p ≤ value / quartersPerOne < 10 ^ (p + 1)`, for a positive value. -/
def leadingExponent (value : Nat) : Int :=
  if quartersPerOne ≤ value then digitCount (value / quartersPerOne) - 1
  else -digitCount ((quartersPerOne - 1) / value)

def Decimal.trim (d : Decimal) : Decimal :=
  if h : 0 < d.digits ∧ d.digits % 10 = 0 then trim ⟨d.digits / 10, d.exponent + 1⟩ else d
termination_by d.digits
decreasing_by omega

/-- Seventeen digits always reach a grid that meets the interval. -/
def shortest (m : Magnitude) : Decimal :=
  let i := m.interval
  if i.value = 0 then ⟨0, 0⟩
  else
    let p := leadingExponent i.value
    match (List.range 17).findSome? fun (k : Nat) => i.onGrid? (p - k) with
    | some d => d.trim
    | none => ⟨0, 0⟩

end ExprLang.Number
