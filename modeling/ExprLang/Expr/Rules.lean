import ExprLang.Expr
import ExprLang.Expr.ParseError
import ExprLang.Number.Literal

namespace ExprLang

/-- What a rule has made of the tokens it took, and what is left to read. -/
structure Taken {σ : Type} (unread : σ → Nat) (bound : Nat) (α : Type) where
  value : α
  rest : σ
  fewer : unread rest < bound

/-- The next token with what keeps it and what is left when it is taken, or the end mark. -/
inductive Look {σ : Type} (unread : σ → Nat) (s : σ) where
  | ended (mark : Token) (kept : σ) (hkept : unread kept ≤ unread s)
  | next (t : Token) (kept after : σ) (hkept : unread kept ≤ unread s)
    (hafter : unread after < unread s)

def Look.token {σ : Type} {unread : σ → Nat} {s : σ} : Look unread s → Token
  | ended mark _ _ => mark
  | next t _ _ _ _ => t

inductive Offered {σ : Type} (unread : σ → Nat) (s : σ) where
  | taken (t : Taken unread (unread s) Token)
  | kept (s' : σ) (hkept : unread s' ≤ unread s)

/-- Where the rules find tokens, and how they report errors. -/
structure Source {σ : Type} (unread : σ → Nat) (ε : Type) where
  peek (s : σ) : Except ε (Look unread s)
  /-- The error for the next token in the place of what was expected. -/
  unexpected (expected : Expected) (s : σ) : ε
  fault (e : ParseError) : ε

namespace Source

variable {σ ε : Type} {unread : σ → Nat} (S : Source unread ε)

/-- Takes the next token if it passes a test. The end mark passes none. -/
def accept (test : Token → Bool) (s : σ) : Except ε (Offered unread s) := do
  match ← S.peek s with
  | .ended _ kept hkept => .ok (.kept kept hkept)
  | .next t kept after hkept hafter =>
    .ok (if test t then .taken ⟨t, after, hafter⟩ else .kept kept hkept)

def skipIf (test : Token → Bool) (s : σ) : Except ε { s' : σ // unread s' ≤ unread s } := do
  match ← S.accept test s with
  | .taken t => .ok ⟨t.rest, Nat.le_of_lt t.fewer⟩
  | .kept s' hkept => .ok ⟨s', hkept⟩

def expect (expected : Expected) (test : Token → Bool) (s : σ) :
    Except ε (Taken unread (unread s) Token) := do
  match ← S.accept test s with
  | .taken t => .ok t
  | .kept s' _ => .error (S.unexpected expected s')

def expectMark (c : Char) (s : σ) : Except ε (Taken unread (unread s) Token) :=
  S.expect (.mark c) (·.isMark c) s

def expectName (s : σ) : Except ε (Taken unread (unread s) Token) :=
  S.expect .identifier (·.isName) s

def paramName (s : σ) : Except ε (Taken unread (unread s) String) := do
  let t ← S.expectName s
  .ok ⟨t.value.text, t.rest, t.fewer⟩

variable {α : Type}

/-- Reads the rest of a list after an item, with the closing mark: a separator, perhaps an item and
the rest after that. The items before it come last one first. -/
def moreItems (sep close : Char) (before : List α) (s : σ)
    (item : (t : σ) → unread t < unread s → Except ε (Taken unread (unread t) α))
    (more : List α → (t : σ) → unread t < unread s →
      Except ε (Taken unread (unread t) (List α))) :
    Except ε (Taken unread (unread s) (List α)) := do
  match ← S.accept (·.isMark close) s with
  | .taken t => .ok ⟨before.reverse, t.rest, t.fewer⟩
  | .kept kept hkept =>
    let comma ← S.expectMark sep kept
    have := comma.fewer
    match ← S.accept (·.isMark close) comma.rest with
    | .taken t => .ok ⟨before.reverse, t.rest, by have := t.fewer; omega⟩
    | .kept kept' hkept' =>
      let a ← item kept' (by omega)
      have := a.fewer
      let list ← more (a.value :: before) a.rest (by omega)
      .ok ⟨list.value, list.rest, by have := list.fewer; omega⟩

def items (close : Char) (s : σ)
    (item : (t : σ) → unread t ≤ unread s → Except ε (Taken unread (unread t) α))
    (more : List α → (t : σ) → unread t < unread s →
      Except ε (Taken unread (unread t) (List α))) :
    Except ε (Taken unread (unread s) (List α)) := do
  match ← S.accept (·.isMark close) s with
  | .taken t => .ok ⟨[], t.rest, t.fewer⟩
  | .kept kept hkept =>
    let a ← item kept hkept
    have := a.fewer
    let list ← more [a.value] a.rest (by omega)
    .ok ⟨list.value, list.rest, by have := list.fewer; omega⟩

end Source

namespace Parser

/-- Braces around nothing are `false`, around one expression that expression. -/
def blockOf (p : Position) : List Expr → Expr
  | [] => .boolean p false
  | [e] => e
  | statements => .block p statements

def definitionOf (p : Position) (name : String) (params : List (Binding Expr)) (body : Expr) :
    Expr :=
  .define p name (some (.lambda p (some name) (params.map (·.name)) body))

/-- `let name(a = 1, b) body` calls a function at once; a missing initial value is `false`. -/
def loopOf (p : Position) (name : String) (bindings : List (Binding Expr)) (body : Expr) : Expr :=
  .call p (.lambda p (some name) (bindings.map (·.name)) body)
    (bindings.map fun b => b.init.getD (.boolean p false))

def isLambdaWord (t : Token) : Bool :=
  t.isKeyword "fn" || t.isKeyword "lambda" || t.isKeyword "λ"

end Parser

inductive Call (σ : Type) where
  | expression (s : σ)
  | climb (left : Expr) (bound : Nat) (s : σ)
  | operand (s : σ)
  | arguments (callee : Expr) (s : σ)
  | atom (s : σ)
  | binding (s : σ)
  | letForm (p : Position) (s : σ)
  | letParams (p : Position) (name : String) (params : List (Binding Expr)) (s : σ)
  | condition (s : σ)
  | ifForm (p : Position) (s : σ)
  | lambdaForm (p : Position) (s : σ)
  | lambdaRest (p : Position) (name : Option String) (s : σ)
  | moreExpressions (sep close : Char) (before : List Expr) (s : σ)
  | moreBindings (before : List (Binding Expr)) (s : σ)
  | moreNames (before : List String) (s : σ)
  | statements (before : List Expr) (s : σ)

namespace Call

variable {σ : Type} (unread : σ → Nat)

/-- What a rule makes. It takes at least one token, unless it goes on from something. -/
abbrev Answer : Call σ → Type
  | expression s | operand s | atom s | letForm _ s | letParams _ _ _ s | condition s | ifForm _ s
  | lambdaForm _ s | lambdaRest _ _ s => Taken unread (unread s) Expr
  | climb _ _ s | arguments _ s => Taken unread (unread s + 1) Expr
  | binding s => Taken unread (unread s) (Binding Expr)
  | moreExpressions _ _ _ s => Taken unread (unread s) (List Expr)
  | moreBindings _ s => Taken unread (unread s) (List (Binding Expr))
  | moreNames _ s => Taken unread (unread s) (List String)
  | statements _ _ => List Expr

/-- Rules call only rules of less weight. -/
def weight : Call σ → Nat
  | climb _ _ s | arguments _ s | atom s | binding s | letForm _ s | lambdaRest _ _ s
  | moreExpressions _ _ _ s | moreBindings _ s | moreNames _ s => 8 * unread s
  | operand s | lambdaForm _ s => 8 * unread s + 1
  | expression s => 8 * unread s + 2
  | letParams _ _ _ s | condition s | statements _ s => 8 * unread s + 3
  | ifForm _ s => 8 * unread s + 4

end Call

/-- The answers of all rules of less weight than a bound. -/
abbrev Callees {σ : Type} (unread : σ → Nat) (ε : Type) (bound : Nat) :=
  (c : Call σ) → c.weight unread < bound → Except ε (c.Answer unread)

namespace Rules

variable {σ ε : Type} {unread : σ → Nat} (S : Source unread ε) {w : Nat} (ask : Callees unread ε w)

def expressions (sep close : Char) (s : σ) (hs : 8 * unread s + 2 < w) :
    Except ε (Taken unread (unread s) (List Expr)) :=
  S.items close s (fun t _ => ask (.expression t) (by simp only [Call.weight]; omega))
    fun before t _ => ask (.moreExpressions sep close before t) (by simp only [Call.weight]; omega)

def bindings (s : σ) (hs : 8 * unread s + 2 < w) :
    Except ε (Taken unread (unread s) (List (Binding Expr))) :=
  S.items ')' s (fun t _ => ask (.binding t) (by simp only [Call.weight]; omega))
    fun before t _ => ask (.moreBindings before t) (by simp only [Call.weight]; omega)

def names (s : σ) (hs : 8 * unread s + 2 < w) :
    Except ε (Taken unread (unread s) (List String)) :=
  S.items ')' s (fun t _ => S.paramName t)
    fun before t _ => ask (.moreNames before t) (by simp only [Call.weight]; omega)

def expression (s : σ) (hs : 8 * unread s + 2 ≤ w) : Except ε (Taken unread (unread s) Expr) := do
  let first ← ask (.operand s) (by simp only [Call.weight]; omega)
  have := first.fewer
  let joined ← ask (.climb first.value 0 first.rest) (by simp only [Call.weight]; omega)
  have := joined.fewer
  let called ← ask (.arguments joined.value joined.rest) (by simp only [Call.weight]; omega)
  .ok ⟨called.value, called.rest, by have := called.fewer; omega⟩

/-- Goes on from a left operand with the operators that bind tighter than `bound`. -/
def climb (left : Expr) (bound : Nat) (s : σ) (hs : 8 * unread s ≤ w) :
    Except ε (Taken unread (unread s + 1) Expr) := do
  match ← S.peek s with
  | .ended _ kept hkept => .ok ⟨left, kept, Nat.lt_succ_of_le hkept⟩
  | .next t kept after hkept hafter =>
    if t.kind = .operator then
      match Connective.ofSymbol? t.text with
      | none => .error (S.fault ⟨.unknownOperator t.text, t.position⟩)
      | some c =>
        if c.precedence ≤ bound then .ok ⟨left, kept, Nat.lt_succ_of_le hkept⟩
        else
          let first ← ask (.operand after) (by simp only [Call.weight]; omega)
          have := first.fewer
          let right ← ask (.climb first.value c.rightBound first.rest)
            (by simp only [Call.weight]; omega)
          have := right.fewer
          let whole ← ask (.climb (.join c left right.value) bound right.rest)
            (by simp only [Call.weight]; omega)
          .ok ⟨whole.value, whole.rest, by have := whole.fewer; omega⟩
    else .ok ⟨left, kept, Nat.lt_succ_of_le hkept⟩

def operand (s : σ) (hs : 8 * unread s + 1 ≤ w) : Except ε (Taken unread (unread s) Expr) := do
  let a ← ask (.atom s) (by simp only [Call.weight]; omega)
  have := a.fewer
  let called ← ask (.arguments a.value a.rest) (by simp only [Call.weight]; omega)
  .ok ⟨called.value, called.rest, by have := called.fewer; omega⟩

def arguments (callee : Expr) (s : σ) (hs : 8 * unread s ≤ w) :
    Except ε (Taken unread (unread s + 1) Expr) := do
  match ← S.accept (·.isMark '(') s with
  | .kept kept hkept => .ok ⟨callee, kept, Nat.lt_succ_of_le hkept⟩
  | .taken opening =>
    have := opening.fewer
    let args ← expressions S ask ',' ')' opening.rest (by omega)
    have := args.fewer
    let called ← ask (.arguments (.call callee.position callee args.value) args.rest)
      (by simp only [Call.weight]; omega)
    .ok ⟨called.value, called.rest, by have := called.fewer; omega⟩

def bracketed {s : σ} (t : Token) (kept after : σ) (hafter : unread after < unread s)
    (hs : 8 * unread s ≤ w) : Except ε (Taken unread (unread s) Expr) :=
  if t.text = "(" then do
    let e ← ask (.expression after) (by simp only [Call.weight]; omega)
    let closing ← S.expectMark ')' e.rest
    .ok ⟨e.value, closing.rest, by have := e.fewer; have := closing.fewer; omega⟩
  else if t.text = "\x7b" then do
    let body ← expressions S ask ';' '}' after (by omega)
    .ok ⟨Parser.blockOf t.position body.value, body.rest, Nat.lt_trans body.fewer hafter⟩
  else if t.text = "[" then do
    let list ← expressions S ask ',' ']' after (by omega)
    .ok ⟨.array t.position list.value, list.rest, Nat.lt_trans list.fewer hafter⟩
  else .error (S.unexpected .expression kept)

def worded {s : σ} (t : Token) (kept after : σ) (hafter : unread after < unread s)
    (hs : 8 * unread s ≤ w) : Except ε (Taken unread (unread s) Expr) :=
  if t.text = "let" then do
    let e ← ask (.letForm t.position after) (by simp only [Call.weight]; omega)
    .ok ⟨e.value, e.rest, Nat.lt_trans e.fewer hafter⟩
  else if t.text = "if" then do
    let e ← ask (.ifForm t.position after) (by simp only [Call.weight]; omega)
    .ok ⟨e.value, e.rest, Nat.lt_trans e.fewer hafter⟩
  else if Parser.isLambdaWord t then do
    let e ← ask (.lambdaForm t.position after) (by simp only [Call.weight]; omega)
    .ok ⟨e.value, e.rest, Nat.lt_trans e.fewer hafter⟩
  else .error (S.unexpected .expression kept)

def named {s : σ} (t : Token) (after : σ) (hafter : unread after < unread s)
    (hs : 8 * unread s ≤ w) : Except ε (Taken unread (unread s) Expr) := do
  match ← S.accept (·.isMark '.') after with
  | .kept kept hkept => .ok ⟨.var t.position t.text, kept, Nat.lt_of_le_of_lt hkept hafter⟩
  | .taken dot =>
    let method ← S.expectName dot.rest
    let opening ← S.expectMark '(' method.rest
    have := dot.fewer
    have := method.fewer
    have := opening.fewer
    let args ← expressions S ask ',' ')' opening.rest (by omega)
    .ok ⟨.method t.position t.text method.value.text args.value, args.rest,
      by have := args.fewer; omega⟩

def atom (s : σ) (hs : 8 * unread s ≤ w) : Except ε (Taken unread (unread s) Expr) := do
  match ← S.peek s with
  | .ended _ kept _ => .error (S.unexpected .expression kept)
  | .next t kept after _ hafter =>
    match t.kind with
    | .punctuation => bracketed S ask t kept after hafter hs
    | .keyword => worded S ask t kept after hafter hs
    | .name => named S ask t after hafter hs
    | .boolean => .ok ⟨.boolean t.position (t.text = "true"), after, hafter⟩
    | .number =>
      match Number.ofLiteral? t.text with
      | some value => .ok ⟨.number t.position value, after, hafter⟩
      | none => .error (S.fault ⟨.invalidNumber t.text, t.position⟩)
    | .string => .ok ⟨.string t.position t.text, after, hafter⟩
    | .operator | .endOfInput => .error (S.unexpected .expression kept)

def binding (s : σ) (hs : 8 * unread s ≤ w) :
    Except ε (Taken unread (unread s) (Binding Expr)) := do
  let name ← S.expectName s
  have := name.fewer
  match ← S.accept (·.isOperator "=") name.rest with
  | .kept kept hkept => .ok ⟨⟨name.value.text, none⟩, kept, by omega⟩
  | .taken eq =>
    have := eq.fewer
    let init ← ask (.expression eq.rest) (by simp only [Call.weight]; omega)
    .ok ⟨⟨name.value.text, some init.value⟩, init.rest, by have := init.fewer; omega⟩

def letForm (p : Position) (s : σ) (hs : 8 * unread s ≤ w) :
    Except ε (Taken unread (unread s) Expr) := do
  match ← S.accept (·.isMark '(') s with
  | .taken opening =>
    have := opening.fewer
    let list ← bindings S ask opening.rest (by omega)
    have := list.fewer
    let body ← ask (.expression list.rest) (by simp only [Call.weight]; omega)
    .ok ⟨.scope p list.value body.value, body.rest, by have := body.fewer; omega⟩
  | .kept kept hkept =>
    let name ← S.expectName kept
    have := name.fewer
    match ← S.accept (·.isOperator "=") name.rest with
    | .taken eq =>
      have := eq.fewer
      let init ← ask (.expression eq.rest) (by simp only [Call.weight]; omega)
      .ok ⟨.define p name.value.text (some (init.value.nameLambda name.value.text)), init.rest,
        by have := init.fewer; omega⟩
    | .kept kept' hkept' =>
      match ← S.accept (·.isMark '(') kept' with
      | .kept kept'' hkept'' => .ok ⟨.define p name.value.text none, kept'', by omega⟩
      | .taken opening =>
        have := opening.fewer
        let params ← bindings S ask opening.rest (by omega)
        have := params.fewer
        let e ← ask (.letParams p name.value.text params.value params.rest)
          (by simp only [Call.weight]; omega)
        .ok ⟨e.value, e.rest, by have := e.fewer; omega⟩

/-- The forms of `let` with a name and a list in parentheses, after that list: the definition of a
function when `=` follows, else a loop. -/
def letParams (p : Position) (name : String) (params : List (Binding Expr)) (s : σ)
    (hs : 8 * unread s + 3 ≤ w) : Except ε (Taken unread (unread s) Expr) := do
  match ← S.accept (·.isOperator "=") s with
  | .taken eq =>
    match params.find? (·.init.isSome) with
    | some param => .error (S.fault ⟨.initializerInDefinition param.name, p⟩)
    | none =>
      have := eq.fewer
      let body ← ask (.expression eq.rest) (by simp only [Call.weight]; omega)
      .ok ⟨Parser.definitionOf p name params body.value, body.rest,
        Nat.lt_trans body.fewer eq.fewer⟩
  | .kept kept hkept =>
    let body ← ask (.expression kept) (by simp only [Call.weight]; omega)
    .ok ⟨Parser.loopOf p name params body.value, body.rest, Nat.lt_of_lt_of_le body.fewer hkept⟩

/-- A condition: a list in parentheses, of which the first expression counts, or an expression. -/
def condition (s : σ) (hs : 8 * unread s + 3 ≤ w) : Except ε (Taken unread (unread s) Expr) := do
  match ← S.accept (·.isMark '(') s with
  | .kept kept hkept =>
    let e ← ask (.expression kept) (by simp only [Call.weight]; omega)
    .ok ⟨e.value, e.rest, Nat.lt_of_lt_of_le e.fewer hkept⟩
  | .taken opening =>
    have := opening.fewer
    let list ← expressions S ask ',' ')' opening.rest (by omega)
    match list.value with
    | [] => .error (S.fault ⟨.emptyCondition, opening.value.position⟩)
    | e :: _ => .ok ⟨e, list.rest, Nat.lt_trans list.fewer opening.fewer⟩

def ifForm (p : Position) (s : σ) (hs : 8 * unread s + 4 ≤ w) :
    Except ε (Taken unread (unread s) Expr) := do
  let cond ← ask (.condition s) (by simp only [Call.weight]; omega)
  have := cond.fewer
  let body ← S.skipIf (·.isKeyword "then") cond.rest
  have := body.property
  let consequent ← ask (.expression body.val) (by simp only [Call.weight]; omega)
  have := consequent.fewer
  match ← S.accept (·.isKeyword "else") consequent.rest with
  | .kept kept hkept =>
    .ok ⟨.branch p cond.value consequent.value none none, kept, by omega⟩
  | .taken els =>
    have := els.fewer
    match ← S.accept (·.isKeyword "if") els.rest with
    | .taken word =>
      have := word.fewer
      let chained ← ask (.ifForm word.value.position word.rest) (by simp only [Call.weight]; omega)
      .ok ⟨.branch p cond.value consequent.value (some chained.value) none, chained.rest,
        by have := chained.fewer; omega⟩
    | .kept kept hkept =>
      let alternative ← ask (.expression kept) (by simp only [Call.weight]; omega)
      .ok ⟨.branch p cond.value consequent.value none (some alternative.value), alternative.rest,
        by have := alternative.fewer; omega⟩

def lambdaForm (p : Position) (s : σ) (hs : 8 * unread s + 1 ≤ w) :
    Except ε (Taken unread (unread s) Expr) := do
  match ← S.accept (·.isName) s with
  | .taken name =>
    have := name.fewer
    let e ← ask (.lambdaRest p (some name.value.text) name.rest)
      (by simp only [Call.weight]; omega)
    .ok ⟨e.value, e.rest, Nat.lt_trans e.fewer name.fewer⟩
  | .kept kept hkept =>
    let e ← ask (.lambdaRest p none kept) (by simp only [Call.weight]; omega)
    .ok ⟨e.value, e.rest, Nat.lt_of_lt_of_le e.fewer hkept⟩

def lambdaRest (p : Position) (name : Option String) (s : σ) (hs : 8 * unread s ≤ w) :
    Except ε (Taken unread (unread s) Expr) := do
  let opening ← S.expectMark '(' s
  have := opening.fewer
  let params ← names S ask opening.rest (by omega)
  have := params.fewer
  let body ← ask (.expression params.rest) (by simp only [Call.weight]; omega)
  .ok ⟨.lambda p name params.value body.value, body.rest, by have := body.fewer; omega⟩

def moreExpressions (sep close : Char) (before : List Expr) (s : σ) (hs : 8 * unread s ≤ w) :
    Except ε (Taken unread (unread s) (List Expr)) :=
  S.moreItems sep close before s
    (fun t _ => ask (.expression t) (by simp only [Call.weight]; omega))
    fun before t _ => ask (.moreExpressions sep close before t) (by simp only [Call.weight]; omega)

def moreBindings (before : List (Binding Expr)) (s : σ) (hs : 8 * unread s ≤ w) :
    Except ε (Taken unread (unread s) (List (Binding Expr))) :=
  S.moreItems ',' ')' before s
    (fun t _ => ask (.binding t) (by simp only [Call.weight]; omega))
    fun before t _ => ask (.moreBindings before t) (by simp only [Call.weight]; omega)

def moreNames (before : List String) (s : σ) (hs : 8 * unread s ≤ w) :
    Except ε (Taken unread (unread s) (List String)) :=
  S.moreItems ',' ')' before s (fun t _ => S.paramName t)
    fun before t _ => ask (.moreNames before t) (by simp only [Call.weight]; omega)

/-- Reads statements to the end of the text; `before` holds those read so far, the last one
first. A statement ends with a semicolon or with the text. -/
def statements (before : List Expr) (s : σ) (hs : 8 * unread s + 3 ≤ w) :
    Except ε (List Expr) := do
  match ← S.peek s with
  | .ended .. => .ok before.reverse
  | .next _ kept _ hkept _ =>
    let e ← ask (.expression kept) (by simp only [Call.weight]; omega)
    have := e.fewer
    match ← S.accept (·.isMark ';') e.rest with
    | .taken semicolon =>
      have := semicolon.fewer
      ask (.statements (e.value :: before) semicolon.rest) (by simp only [Call.weight]; omega)
    | .kept kept' _ =>
      match ← S.peek kept' with
      | .ended .. => .ok (e.value :: before).reverse
      | .next _ kept'' _ _ _ => .error (S.unexpected .statementEnd kept'')

/-- What a rule does, given what the rules of less weight answer. -/
def step : (c : Call σ) → Callees unread ε (c.weight unread) → Except ε (c.Answer unread)
  | .expression s, ask => expression ask s (Nat.le_refl _)
  | .climb left bound s, ask => climb S ask left bound s (Nat.le_refl _)
  | .operand s, ask => operand ask s (Nat.le_refl _)
  | .arguments callee s, ask => arguments S ask callee s (Nat.le_refl _)
  | .atom s, ask => atom S ask s (Nat.le_refl _)
  | .binding s, ask => binding S ask s (Nat.le_refl _)
  | .letForm p s, ask => letForm S ask p s (Nat.le_refl _)
  | .letParams p name params s, ask => letParams S ask p name params s (Nat.le_refl _)
  | .condition s, ask => condition S ask s (Nat.le_refl _)
  | .ifForm p s, ask => ifForm S ask p s (Nat.le_refl _)
  | .lambdaForm p s, ask => lambdaForm S ask p s (Nat.le_refl _)
  | .lambdaRest p name s, ask => lambdaRest S ask p name s (Nat.le_refl _)
  | .moreExpressions sep close before s, ask =>
    moreExpressions S ask sep close before s (Nat.le_refl _)
  | .moreBindings before s, ask => moreBindings S ask before s (Nat.le_refl _)
  | .moreNames before s, ask => moreNames S ask before s (Nat.le_refl _)
  | .statements before s, ask => statements S ask before s (Nat.le_refl _)

end Rules

namespace Source

variable {σ ε : Type} {unread : σ → Nat} (S : Source unread ε)

def answer (c : Call σ) : Except ε (c.Answer unread) := Rules.step S c fun d _ => answer d
termination_by c.weight unread

theorem answer_eq (c : Call σ) : S.answer c = Rules.step S c fun d _ => S.answer d := by
  rw [answer]

def parse (s : σ) : Except ε Expr := (S.answer (.statements [] s)).map (.block .start)

/-- A source whose errors are about the tokens that it shows. -/
def reporting (peek : (s : σ) → Except ParseError (Look unread s)) : Source unread ParseError where
  peek := peek
  unexpected expected s :=
    match peek s with
    | .ok look => .unexpected expected look.token
    | .error e => e
  fault e := e

end Source

end ExprLang
