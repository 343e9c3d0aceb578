import ExprLang.Token

namespace ExprLang

/-- Why no lexeme starts at a character. -/
inductive LexFault where
  | unexpectedChar (c : Char)
  | unterminatedString
deriving DecidableEq, Repr

/-- The lexeme at the head of a text: its kind, the text it stands for, its number of characters. -/
structure Lexeme where
  kind : Token.Kind
  text : String
  length : Nat
deriving DecidableEq, Repr

namespace Lexeme

def isBlank (c : Char) : Bool := c = ' ' || c = '\t' || c = '\n' || c = '\r'

def isLineBreak (c : Char) : Bool := c = '\n' || c = '\r'

def isDigit (c : Char) : Bool := '0' ≤ c && c ≤ '9'

def isNameStart (c : Char) : Bool :=
  ('a' ≤ c && c ≤ 'z') || ('A' ≤ c && c ≤ 'Z') || c = '_' || c = 'λ'

def isNamePart (c : Char) : Bool :=
  isNameStart c || isDigit c || c = '?' || c = '!' || c = '-' || c = '<' || c = '>' || c = '='

def isQuote (c : Char) : Bool := c = '"' || c = '\''

def isMark (c : Char) : Bool := [',', '.', ';', '(', ')', '[', ']', '{', '}'].contains c

def isOperatorChar (c : Char) : Bool :=
  ['+', '-', '*', '/', '%', '=', '&', '|', '<', '>', '!'].contains c

def keywords : List String := ["let", "fn", "if", "else", "then", "lambda", "λ"]

/-- All operators, longer ones first, so that the first match is the longest. -/
def operators : List String :=
  ["===", "!==", "==", "!=", "<=", ">=", "&&", "||", "=", "<", ">", "+", "-", "*", "/", "%",
    "&", "|", "!"]

/-- How many characters ahead are blanks and comments, added to `n`. A comment runs from `#` up to
the next line break; `comment` says that the text starts inside one. -/
def trivia (comment : Bool) (n : Nat) : List Char → Nat
  | [] => n
  | c :: cs =>
    if isLineBreak c then trivia false (n + 1) cs
    else if comment || c = '#' then trivia true (n + 1) cs
    else if isBlank c then trivia false (n + 1) cs
    else n

theorem trivia_add (comment : Bool) (n : Nat) (cs : List Char) :
    trivia comment n cs = n + trivia comment 0 cs := by
  induction cs generalizing comment n with
  | nil => rfl
  | cons c cs ih =>
    simp only [trivia]
    split
    · rw [ih _ (n + 1), ih _ (0 + 1)]
      omega
    · split
      · rw [ih _ (n + 1), ih _ (0 + 1)]
        omega
      · split
        · rw [ih _ (n + 1), ih _ (0 + 1)]
          omega
        · rfl

/-- The rest of a string literal: what it stands for, its number of characters, and whether its
closing quote was found. -/
structure StringBody where
  text : String
  length : Nat
  closed : Bool
deriving DecidableEq, Repr

/-- Reads a string literal up to its closing quote. A backslash makes the next character literal;
`escaped` says that one has just been read. -/
def stringBody (quote : Char) (escaped : Bool) (text : String) (n : Nat) : List Char → StringBody
  | [] => ⟨text, n, false⟩
  | c :: cs =>
    if escaped then stringBody quote false (text.push c) (n + 1) cs
    else if c = '\\' then stringBody quote true text (n + 1) cs
    else if c = quote then ⟨text, n + 1, true⟩
    else stringBody quote false (text.push c) (n + 1) cs

/-- The number at the head of a text: digits with at most one point, which may be last. -/
def numberText (cs : List Char) : List Char :=
  let whole := cs.takeWhile isDigit
  match cs.drop whole.length with
  | '.' :: rest => whole ++ '.' :: rest.takeWhile isDigit
  | _ => whole

def wordKind (word : String) : Token.Kind :=
  if word = "true" || word = "false" then .boolean
  else if keywords.contains word then .keyword
  else .name

/-- The lexeme that starts with `c` when `cs` follows. In `strict` reading a string literal has to
be closed; otherwise it may end with the text. -/
def read (strict : Bool) (c : Char) (cs : List Char) : Except LexFault Lexeme :=
  if isQuote c then
    let body := stringBody c false "" 0 cs
    if strict && !body.closed then .error .unterminatedString
    else .ok ⟨.string, body.text, body.length + 1⟩
  else if isDigit c then
    let text := numberText (c :: cs)
    .ok ⟨.number, String.ofList text, text.length⟩
  else if isNameStart c then
    let word := (c :: cs).takeWhile isNamePart
    .ok ⟨wordKind (String.ofList word), String.ofList word, word.length⟩
  else if isMark c then .ok ⟨.punctuation, String.singleton c, 1⟩
  else if isOperatorChar c then
    match operators.find? fun op => op.toList.isPrefixOf (c :: cs) with
    | some op => .ok ⟨.operator, op, op.length⟩
    | none => .error (.unexpectedChar c)
  else .error (.unexpectedChar c)

theorem length_numberText_pos {c : Char} (cs : List Char) (h : isDigit c = true) :
    0 < (numberText (c :: cs)).length := by
  simp only [numberText, List.takeWhile_cons, h, if_true]
  split <;> simp

theorem length_operators_pos : ∀ op ∈ operators, 0 < op.length := by decide

theorem length_pos_of_read {strict : Bool} {c : Char} {cs : List Char} {l : Lexeme}
    (h : read strict c cs = .ok l) : 0 < l.length := by
  unfold read at h
  split at h
  · dsimp only at h
    split at h
    · cases h
    · cases h; simp
  · split at h
    · rename_i hd
      cases h
      exact length_numberText_pos cs hd
    · split at h
      · rename_i hn
        cases h
        simp [isNamePart, hn]
      · split at h
        · cases h; simp
        · split at h
          · split at h
            · rename_i op hop
              cases h
              exact length_operators_pos op (List.mem_of_find?_eq_some hop)
            · cases h
          · cases h

end Lexeme

end ExprLang
