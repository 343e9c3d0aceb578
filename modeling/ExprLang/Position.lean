namespace ExprLang

/-- A place in a text. Lines and columns count from one, and columns count characters. A line feed,
a carriage return and line feed, and a lone carriage return each end one line. -/
structure Position where
  line : Nat
  column : Nat
deriving DecidableEq, Repr, Inhabited

namespace Position

def start : Position := ⟨1, 1⟩

def render (p : Position) : String := s!"{p.line}:{p.column}"

/-- The count after `n`. Lines and columns are counted with 32 bits, and the last count is followed
by zero. -/
def increment (n : Nat) : Nat := (n + 1) % UInt32.size

def newLine (p : Position) : Position := ⟨increment p.line, 1⟩

/-- The place after the character `c` at `p`, when `rest` follows `c`. -/
def step (p : Position) (c : Char) (rest : List Char) : Position :=
  if c = '\n' then p.newLine
  else if c = '\r' then
    if rest.head? = some '\n' then p else p.newLine
  else ⟨p.line, increment p.column⟩

/-- The place after the first `n` characters of a text that starts at `p`. -/
def advance (p : Position) : List Char → Nat → Position
  | c :: rest, n + 1 => (p.step c rest).advance rest n
  | _, _ => p

@[simp] theorem advance_zero (p : Position) (cs : List Char) : p.advance cs 0 = p := by
  cases cs <;> rfl

@[simp] theorem advance_nil (p : Position) (n : Nat) : p.advance [] n = p := by
  cases n <;> rfl

@[simp] theorem advance_cons_succ (p : Position) (c : Char) (cs : List Char) (n : Nat) :
    p.advance (c :: cs) (n + 1) = (p.step c cs).advance cs n := rfl

theorem advance_add (p : Position) (cs : List Char) (m n : Nat) :
    p.advance cs (m + n) = (p.advance cs m).advance (cs.drop m) n := by
  induction m generalizing p cs with
  | zero => simp
  | succ m ih =>
    cases cs with
    | nil => simp
    | cons c cs => simp [Nat.succ_add, ih]

end Position

end ExprLang
