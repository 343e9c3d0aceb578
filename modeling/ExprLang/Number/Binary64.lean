import ExprLang.Number.Power

namespace ExprLang.Number

/-- The number of units in one; a unit is the least positive double. -/
def unitsPerOne : Nat := twoTo 1074

/-- The bits of positive infinity. Bits below stand for finite numbers. -/
def infinityBits : Nat := 2047 * twoTo 52

structure Magnitude where
  mantissa : Nat
  shift : Nat
deriving DecidableEq, Repr

namespace Magnitude

def ofBits (bits : Nat) : Magnitude :=
  if bits < twoTo 52 then ⟨bits, 0⟩ else ⟨bits % twoTo 52 + twoTo 52, bits / twoTo 52 - 1⟩

def toBits (m : Magnitude) : Nat := m.shift * twoTo 52 + m.mantissa

def units (m : Magnitude) : Nat := m.mantissa * twoTo m.shift

theorem toBits_ofBits (bits : Nat) : (ofBits bits).toBits = bits := by
  have h : twoTo 52 = 4503599627370496 := by decide
  unfold ofBits toBits
  rw [h]
  split <;> simp only <;> omega

end Magnitude

inductive Parts where
  | nan
  | infinite (negative : Bool)
  | finite (negative : Bool) (magnitude : Magnitude)
deriving DecidableEq, Repr

def parts (x : Float) : Parts :=
  let bits := x.toBits.toNat
  let negative : Bool := twoTo 63 ≤ bits
  let rest := bits % twoTo 63
  if rest < infinityBits then .finite negative (.ofBits rest)
  else if rest = infinityBits then .infinite negative
  else .nan

/-- The double with a sign and the bits of its absolute value. -/
def ofSignBits (negative : Bool) (bits : Nat) : Float :=
  Float.ofBits (UInt64.ofNat (if negative then twoTo 63 + bits else bits))

def roundDiv (n d : Nat) : Nat :=
  let q := n / d
  let r := n % d
  if 2 * r < d then q
  else if d < 2 * r then q + 1
  else if q % 2 = 0 then q else q + 1

/-- The bits of the double nearest to `n / d` units, infinity when that is too large. -/
def nearestUnits (n d : Nat) : Nat :=
  let shift := (n / d).log2 - 52
  min (Magnitude.toBits ⟨roundDiv n (d * twoTo shift), shift⟩) infinityBits

def ofRatio (negative : Bool) (n d : Nat) : Float :=
  ofSignBits negative (nearestUnits (n * unitsPerOne) d)

def ofInt (i : Int) : Float := ofRatio (i < 0) i.natAbs 1

end ExprLang.Number
