namespace ExprLang.Number

namespace Fibonacci

/-- What is left to do once a number has been found. -/
inductive Pending where
  /-- Find the number for `n` and add it. -/
  | second (n : Float)
  /-- Add to the number found first. -/
  | sum (first : Float)

end Fibonacci

/-- A computation under way: a number to find or a number found, and what is left to do. -/
structure Fibonacci where
  focus : Float
  found : Bool
  pending : List Fibonacci.Pending

namespace Fibonacci

def start (n : Float) : Fibonacci := ⟨n, false, []⟩

def step (f : Fibonacci) : Fibonacci ⊕ Float :=
  if f.found then
    match f.pending with
    | [] => .inr f.focus
    | .second n :: more => .inl ⟨n, false, .sum f.focus :: more⟩
    | .sum first :: more => .inl ⟨first + f.focus, true, more⟩
  else if f.focus < 2 then .inl ⟨f.focus, true, f.pending⟩
  else .inl ⟨f.focus - 1, false, .second (f.focus - 2) :: f.pending⟩

end Fibonacci

end ExprLang.Number
