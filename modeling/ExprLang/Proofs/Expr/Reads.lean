import ExprLang.Expr.Parser
import ExprLang.Proofs.Expr.Tree
import Mathlib.Data.List.Forall2

namespace ExprLang

abbrev Link := Connective × Expr

theorem Connective.precedence_pos (c : Connective) : 0 < c.precedence := by
  cases c with
  | assign => decide
  | binary op => cases op <;> decide

namespace Expr

/-- The links that an operand takes in before one that binds no tighter than `bound`, and the
links left over. -/
def climb (left : Expr) (bound : Nat) (links : List Link) :
    Expr × { more : List Link // more.length ≤ links.length } :=
  match links with
  | [] => (left, ⟨[], Nat.le_refl _⟩)
  | (c, first) :: more =>
    if c.precedence ≤ bound then (left, ⟨(c, first) :: more, Nat.le_refl _⟩)
    else
      match climb first c.rightBound more with
      | (right, ⟨outer, houter⟩) =>
        match climb (join c left right) bound outer with
        | (e, ⟨rest, hrest⟩) => (e, ⟨rest, Nat.le_succ_of_le (Nat.le_trans hrest houter)⟩)
termination_by links.length
decreasing_by
  · exact Nat.lt_succ_self _
  · exact Nat.lt_succ_of_le houter

def taken (left : Expr) (bound : Nat) (links : List Link) : Expr := (climb left bound links).1

/-- The links that an operand does not take in. -/
def untaken (left : Expr) (bound : Nat) (links : List Link) : List Link :=
  (climb left bound links).2.val

section Climb

variable (left first : Expr) {bound : Nat} {c : Connective} (more : List Link)

@[simp] theorem taken_nil : taken left bound [] = left := by rw [taken, climb]

@[simp] theorem untaken_nil : untaken left bound [] = [] := by rw [untaken, climb]

theorem taken_stop (h : c.precedence ≤ bound) : taken left bound ((c, first) :: more) = left := by
  rw [taken, climb, if_pos h]

theorem untaken_stop (h : c.precedence ≤ bound) :
    untaken left bound ((c, first) :: more) = (c, first) :: more := by
  rw [untaken, climb, if_pos h]

/-- An operator that binds tighter takes the links of its right side, and the left side goes on
with what that leaves. -/
theorem taken_join (h : bound < c.precedence) :
    taken left bound ((c, first) :: more) =
      taken (join c left (taken first c.rightBound more)) bound
        (untaken first c.rightBound more) := by
  rw [taken, climb, if_neg (Nat.not_le.mpr h)]
  rfl

theorem untaken_join (h : bound < c.precedence) :
    untaken left bound ((c, first) :: more) =
      untaken (join c left (taken first c.rightBound more)) bound
        (untaken first c.rightBound more) := by
  rw [untaken, climb, if_neg (Nat.not_le.mpr h)]
  rfl

end Climb

theorem length_untaken_le (left : Expr) (bound : Nat) (links : List Link) :
    (untaken left bound links).length ≤ links.length :=
  (climb left bound links).2.property

@[simp] theorem untaken_zero (left : Expr) (links : List Link) : untaken left 0 links = [] := by
  match links with
  | [] => exact untaken_nil left
  | (c, first) :: more =>
    have hmore := length_untaken_le first c.rightBound more
    rw [untaken_join _ _ _ c.precedence_pos]
    exact untaken_zero _ _
termination_by links.length
decreasing_by simp only [List.length_cons]; omega

/-- The tree of operands with operators between them. -/
def chain (left : Expr) (links : List Link) : Expr := taken left 0 links

@[simp] theorem chain_nil (left : Expr) : left.chain [] = left := taken_nil left

@[simp] theorem chain_singleton (left right : Expr) (c : Connective) :
    left.chain [(c, right)] = join c left right := by
  rw [chain, taken_join _ _ _ (Connective.precedence_pos c), taken_nil, untaken_nil, taken_nil]

/-- A callee with its argument lists, the first one first. -/
def applied (callee : Expr) : List (List Expr) → Expr
  | [] => callee
  | args :: more => applied (.call callee.position callee args) more

theorem erase_taken (left : Expr) (bound : Nat) (links : List Link) :
    taken left.erase bound (links.map (Prod.map id erase)) = (taken left bound links).erase ∧
      untaken left.erase bound (links.map (Prod.map id erase)) =
        (untaken left bound links).map (Prod.map id erase) := by
  match links with
  | [] => simp
  | (c, first) :: more =>
    rw [List.map_cons, Prod.map_apply, id_eq]
    by_cases h : c.precedence ≤ bound
    · simp [taken_stop _ _ _ h, untaken_stop _ _ _ h]
    · have h := Nat.lt_of_not_le h
      have hmore := length_untaken_le first c.rightBound more
      rw [taken_join _ _ _ h, untaken_join _ _ _ h, taken_join _ _ _ h, untaken_join _ _ _ h,
        (erase_taken first c.rightBound more).1, (erase_taken first c.rightBound more).2,
        ← erase_join]
      exact erase_taken _ bound _
termination_by links.length
decreasing_by all_goals (simp only [List.length_cons]; omega)

theorem erase_chain (left : Expr) (links : List Link) :
    (left.chain links).erase = left.erase.chain (links.map (Prod.map id erase)) :=
  (erase_taken left 0 links).1.symm

theorem erase_applied (callee : Expr) (args : List (List Expr)) :
    (callee.applied args).erase = callee.erase.applied (args.map (·.map erase)) := by
  induction args generalizing callee with
  | nil => rfl
  | cons as args ih => simp [applied, ih, erase]

end Expr

namespace Parser

/-- The marks of a list: what stands between the items, and what ends them. -/
inductive Bracket where
  | round
  | square
  | curly

namespace Bracket

def separator : Bracket → Char
  | round | square => ','
  | curly => ';'

def close : Bracket → Char
  | round => ')'
  | square => ']'
  | curly => '}'

theorem separator_ne_close (b : Bracket) : b.separator ≠ b.close := by
  cases b <;> decide

end Bracket

/-- What can be read from tokens. -/
inductive Rule where
  | expression
  | links
  | operand
  | arguments
  | atom
  | conditional
  | condition
  | binding
  | param
  | list (b : Bracket) (item : Rule)
  | more (b : Bracket) (item : Rule)

abbrev Rule.Tree : Rule → Type
  | expression | operand | atom | conditional | condition => Expr
  | links => List Link
  | arguments => List (List Expr)
  | binding => Binding Expr
  | param => String
  | list _ item | more _ item => List item.Tree

/-- The next token does not pass a test. The end of the text passes none; a lexical fault is no
answer. -/
def Lacks (fin : TokenStream.Ending) (test : Token → Bool) : List Token → Prop
  | t :: _ => test t = false
  | [] => ∃ p, fin = .eof p

/-- A token that is taken if it is there. -/
inductive Maybe (fin : TokenStream.Ending) (test : Token → Bool) :
    List Token → Option Token → List Token → Prop
  | taken {t : Token} {ts : List Token} (h : test t = true) : Maybe fin test (t :: ts) (some t) ts
  | absent {ts : List Token} (h : Lacks fin test ts) : Maybe fin test ts none ts

variable (fin : TokenStream.Ending)

inductive Reads : (r : Rule) → List Token → r.Tree → List Token → Prop
  | expression {ts ts₁ rest left links} (hleft : Reads .operand ts left ts₁)
      (hlinks : Reads .links ts₁ links rest) (hend : Lacks fin (·.kind = .operator) rest) :
      Reads .expression ts (left.chain links) rest
  | links_nil {ts} : Reads .links ts [] ts
  | links_cons {t ts ts₁ rest c first links} (ht : t.kind = .operator)
      (hc : Connective.ofSymbol? t.text = some c) (hfirst : Reads .operand ts first ts₁)
      (hmore : Reads .links ts₁ links rest) : Reads .links (t :: ts) ((c, first) :: links) rest
  | operand {ts ts₁ rest a args} (ha : Reads .atom ts a ts₁)
      (hargs : Reads .arguments ts₁ args rest) : Reads .operand ts (a.applied args) rest
  | arguments_nil {ts} (hend : Lacks fin (·.isMark '(') ts) : Reads .arguments ts [] ts
  | arguments_cons {t ts ts₁ rest args more} (ht : t.isMark '(' = true)
      (hargs : Reads (.list .round .expression) ts args ts₁)
      (hmore : Reads .arguments ts₁ more rest) : Reads .arguments (t :: ts) (args :: more) rest
  | number {t rest x} (ht : t.kind = .number) (hx : Number.ofLiteral? t.text = some x) :
      Reads .atom (t :: rest) (.number t.position x) rest
  | string {t rest} (ht : t.kind = .string) :
      Reads .atom (t :: rest) (.string t.position t.text) rest
  | boolean {t rest} (ht : t.kind = .boolean) :
      Reads .atom (t :: rest) (.boolean t.position (t.text = "true")) rest
  | var {t rest} (ht : t.isName = true) (hend : Lacks fin (·.isMark '.') rest) :
      Reads .atom (t :: rest) (.var t.position t.text) rest
  | method {t dot name o ts rest args} (ht : t.isName = true) (hdot : dot.isMark '.' = true)
      (hname : name.isName = true) (ho : o.isMark '(' = true)
      (hargs : Reads (.list .round .expression) ts args rest) :
      Reads .atom (t :: dot :: name :: o :: ts) (.method t.position t.text name.text args) rest
  | group {t u ts rest e} (ht : t.isMark '(' = true) (he : Reads .expression ts e (u :: rest))
      (hu : u.isMark ')' = true) : Reads .atom (t :: ts) e rest
  | array {t ts rest items} (ht : t.isMark '[' = true)
      (hitems : Reads (.list .square .expression) ts items rest) :
      Reads .atom (t :: ts) (.array t.position items) rest
  | block {t ts rest items} (ht : t.isMark '{' = true)
      (hitems : Reads (.list .curly .expression) ts items rest) :
      Reads .atom (t :: ts) (blockOf t.position items) rest
  | lambda {t o ts ts₁ ts₂ rest name params body} (ht : isLambdaWord t = true)
      (hname : Maybe fin (·.isName) ts name (o :: ts₁)) (ho : o.isMark '(' = true)
      (hparams : Reads (.list .round .param) ts₁ params ts₂)
      (hbody : Reads .expression ts₂ body rest) :
      Reads .atom (t :: ts) (.lambda t.position (name.map (·.text)) params body) rest
  | scope {t o ts ts₁ rest bindings body} (ht : t.isKeyword "let" = true)
      (ho : o.isMark '(' = true) (hbindings : Reads (.list .round .binding) ts bindings ts₁)
      (hbody : Reads .expression ts₁ body rest) :
      Reads .atom (t :: o :: ts) (.scope t.position bindings body) rest
  | define {t name rest} (ht : t.isKeyword "let" = true) (hname : name.isName = true)
      (heq : Lacks fin (·.isOperator "=") rest) (ho : Lacks fin (·.isMark '(') rest) :
      Reads .atom (t :: name :: rest) (.define t.position name.text none) rest
  | define_init {t name eq ts rest init} (ht : t.isKeyword "let" = true)
      (hname : name.isName = true) (heq : eq.isOperator "=" = true)
      (hinit : Reads .expression ts init rest) :
      Reads .atom (t :: name :: eq :: ts)
        (.define t.position name.text (some (init.nameLambda name.text))) rest
  | definition {t name o eq ts ts₁ rest params body} (ht : t.isKeyword "let" = true)
      (hname : name.isName = true) (ho : o.isMark '(' = true)
      (hparams : Reads (.list .round .binding) ts params (eq :: ts₁))
      (heq : eq.isOperator "=" = true) (hnone : params.find? (·.init.isSome) = none)
      (hbody : Reads .expression ts₁ body rest) :
      Reads .atom (t :: name :: o :: ts) (definitionOf t.position name.text params body) rest
  | loop {t name o ts ts₁ rest bindings body} (ht : t.isKeyword "let" = true)
      (hname : name.isName = true) (ho : o.isMark '(' = true)
      (hbindings : Reads (.list .round .binding) ts bindings ts₁)
      (heq : Lacks fin (·.isOperator "=") ts₁) (hbody : Reads .expression ts₁ body rest) :
      Reads .atom (t :: name :: o :: ts) (loopOf t.position name.text bindings body) rest
  | branch {ts rest e} (he : Reads .conditional ts e rest) : Reads .atom ts e rest
  | only_then {t ts ts₁ ts₂ rest cond word e} (ht : t.isKeyword "if" = true)
      (hcond : Reads .condition ts cond ts₁) (hword : Maybe fin (·.isKeyword "then") ts₁ word ts₂)
      (he : Reads .expression ts₂ e rest) (hend : Lacks fin (·.isKeyword "else") rest) :
      Reads .conditional (t :: ts) (.branch t.position cond e none none) rest
  | else_if {t els ts ts₁ ts₂ ts₃ rest cond word e chained} (ht : t.isKeyword "if" = true)
      (hcond : Reads .condition ts cond ts₁) (hword : Maybe fin (·.isKeyword "then") ts₁ word ts₂)
      (he : Reads .expression ts₂ e (els :: ts₃)) (hels : els.isKeyword "else" = true)
      (hchained : Reads .conditional ts₃ chained rest) :
      Reads .conditional (t :: ts) (.branch t.position cond e (some chained) none) rest
  | or_else {t els ts ts₁ ts₂ ts₃ rest cond word e other} (ht : t.isKeyword "if" = true)
      (hcond : Reads .condition ts cond ts₁) (hword : Maybe fin (·.isKeyword "then") ts₁ word ts₂)
      (he : Reads .expression ts₂ e (els :: ts₃)) (hels : els.isKeyword "else" = true)
      (hif : Lacks fin (·.isKeyword "if") ts₃) (hother : Reads .expression ts₃ other rest) :
      Reads .conditional (t :: ts) (.branch t.position cond e none (some other)) rest
  | bare {ts rest e} (ho : Lacks fin (·.isMark '(') ts) (he : Reads .expression ts e rest) :
      Reads .condition ts e rest
  | listed {t ts rest e more} (ht : t.isMark '(' = true)
      (hlist : Reads (.list .round .expression) ts (e :: more) rest) :
      Reads .condition (t :: ts) e rest
  | binding {name rest} (hname : name.isName = true) (heq : Lacks fin (·.isOperator "=") rest) :
      Reads .binding (name :: rest) ⟨name.text, none⟩ rest
  | binding_init {name eq ts rest init} (hname : name.isName = true)
      (heq : eq.isOperator "=" = true) (hinit : Reads .expression ts init rest) :
      Reads .binding (name :: eq :: ts) ⟨name.text, some init⟩ rest
  | param {name rest} (hname : name.isName = true) : Reads .param (name :: rest) name.text rest
  | list_nil {b item t rest} (ht : t.isMark b.close = true) :
      Reads (.list b item) (t :: rest) [] rest
  | list_cons {b item ts ts₁ rest x xs} (hopen : Lacks fin (·.isMark b.close) ts)
      (hitem : Reads item ts x ts₁) (hmore : Reads (.more b item) ts₁ xs rest) :
      Reads (.list b item) ts (x :: xs) rest
  | more_nil {b item t rest} (ht : t.isMark b.close = true) :
      Reads (.more b item) (t :: rest) [] rest
  | more_last {b item s t rest} (hs : s.isMark b.separator = true) (ht : t.isMark b.close = true) :
      Reads (.more b item) (s :: t :: rest) [] rest
  | more_cons {b item s ts ts₁ rest x xs} (hs : s.isMark b.separator = true)
      (hopen : Lacks fin (·.isMark b.close) ts) (hitem : Reads item ts x ts₁)
      (hmore : Reads (.more b item) ts₁ xs rest) : Reads (.more b item) (s :: ts) (x :: xs) rest

/-- The statements of a program, with a semicolon after each of them but perhaps the last. -/
inductive ReadsAll : List Token → List Expr → Prop
  | nil (hend : ∃ p, fin = .eof p) : ReadsAll [] []
  | last {ts e} (he : Reads fin .expression ts e []) (hend : ∃ p, fin = .eof p) : ReadsAll ts [e]
  | cons {t ts rest e es} (he : Reads fin .expression ts e (t :: rest))
      (ht : t.isMark ';' = true) (hmore : ReadsAll rest es) : ReadsAll ts (e :: es)

section First

/-- Whether an expression can start with a token. -/
def startsExpression (t : Token) : Bool :=
  match t.kind with
  | .number | .string | .boolean | .name => true
  | .punctuation => ["(", "[", "\x7b"].contains t.text
  | .keyword => ["let", "if", "fn", "lambda", "λ"].contains t.text
  | .operator | .endOfInput => false

def Rule.isExpression : Rule → Bool
  | expression | operand | atom | conditional | condition => true
  | _ => false

variable {fin} {r : Rule} {ts rest : List Token} {x : r.Tree}

theorem isMark_iff {t : Token} {c : Char} :
    t.isMark c = true ↔ t.kind = .punctuation ∧ t.text = String.singleton c := by
  simp [Token.isMark, ← String.toList_inj]

theorem isKeyword_iff {t : Token} {word : String} :
    t.isKeyword word = true ↔ t.kind = .keyword ∧ t.text = word := by
  simp [Token.isKeyword]

theorem isName_token_iff {t : Token} : t.isName = true ↔ t.kind = .name := by
  simp [Token.isName]

theorem isLambdaWord_iff {t : Token} : isLambdaWord t = true ↔
    t.kind = .keyword ∧ (t.text = "fn" ∨ t.text = "lambda" ∨ t.text = "λ") := by
  simp only [isLambdaWord, Bool.or_eq_true, isKeyword_iff, ← and_or_left, or_assoc]

theorem startsExpression_mark {t : Token} {c : Char} (hc : c ∈ ['(', '[', '{'])
    (ht : t.isMark c = true) : startsExpression t = true := by
  obtain ⟨hkind, htext⟩ := isMark_iff.mp ht
  have hcontains : ["(", "[", "\x7b"].contains (String.singleton c) = true := by
    simp only [List.mem_cons, List.not_mem_nil, or_false] at hc
    rcases hc with rfl | rfl | rfl <;> decide
  simp only [startsExpression, hkind, htext, hcontains]

theorem startsExpression_keyword {t : Token} {word : String} (hword : word ∈ ["let", "if"])
    (ht : t.isKeyword word = true) : startsExpression t = true := by
  obtain ⟨hkind, htext⟩ := isKeyword_iff.mp ht
  have hall : ∀ word ∈ ["let", "if"],
      ["let", "if", "fn", "lambda", "λ"].contains word = true := by decide
  simp only [startsExpression, hkind, htext, hall word hword]

theorem startsExpression_lambda {t : Token} (ht : isLambdaWord t = true) :
    startsExpression t = true := by
  obtain ⟨hkind, htext⟩ := isLambdaWord_iff.mp ht
  rcases htext with htext | htext | htext <;> simp [startsExpression, hkind, htext]

theorem startsExpression_name {t : Token} (ht : t.isName = true) :
    startsExpression t = true := by
  simp [startsExpression, isName_token_iff.mp ht]

theorem not_close_of_starts (b : Bracket) {t : Token} (ht : startsExpression t = true) :
    t.isMark b.close = false := by
  have hclass : ["(", "[", "\x7b"].contains (String.singleton b.close) = false := by
    cases b <;> decide
  rw [← Bool.not_eq_true]
  intro h
  obtain ⟨hkind, htext⟩ := isMark_iff.mp h
  simp only [startsExpression, hkind, htext, hclass, Bool.false_eq_true] at ht

theorem not_isKeyword_of_starts {t : Token} {word : String} (hword : word ∈ ["then", "else"])
    (ht : startsExpression t = true) : t.isKeyword word = false := by
  have hclass : ∀ word ∈ ["then", "else"],
      ["let", "if", "fn", "lambda", "λ"].contains word = false := by decide
  rw [← Bool.not_eq_true]
  intro h
  obtain ⟨hkind, htext⟩ := isKeyword_iff.mp h
  simp only [startsExpression, hkind, htext, hclass word hword, Bool.false_eq_true] at ht

theorem not_equals_of_starts {t : Token} (ht : startsExpression t = true) :
    t.isOperator "=" = false := by
  rw [← Bool.not_eq_true]
  intro h
  simp only [Token.isOperator, Bool.and_eq_true, decide_eq_true_eq] at h
  simp [startsExpression, h.1] at ht

theorem Reads.first (h : Reads fin r ts x rest) (hr : r.isExpression = true) :
    ∃ t us, ts = t :: us ∧ startsExpression t = true := by
  induction h with
  | expression _ _ _ ih => exact ih rfl
  | operand _ _ ih => exact ih rfl
  | branch _ ih => exact ih rfl
  | bare _ _ ih => exact ih rfl
  | number ht => exact ⟨_, _, rfl, by simp [startsExpression, ht]⟩
  | string ht => exact ⟨_, _, rfl, by simp [startsExpression, ht]⟩
  | boolean ht => exact ⟨_, _, rfl, by simp [startsExpression, ht]⟩
  | var ht => exact ⟨_, _, rfl, startsExpression_name ht⟩
  | method ht => exact ⟨_, _, rfl, startsExpression_name ht⟩
  | group ht => exact ⟨_, _, rfl, startsExpression_mark (by decide) ht⟩
  | array ht => exact ⟨_, _, rfl, startsExpression_mark (by decide) ht⟩
  | block ht => exact ⟨_, _, rfl, startsExpression_mark (by decide) ht⟩
  | listed ht => exact ⟨_, _, rfl, startsExpression_mark (by decide) ht⟩
  | lambda ht => exact ⟨_, _, rfl, startsExpression_lambda ht⟩
  | scope ht => exact ⟨_, _, rfl, startsExpression_keyword (by decide) ht⟩
  | define ht => exact ⟨_, _, rfl, startsExpression_keyword (by decide) ht⟩
  | define_init ht => exact ⟨_, _, rfl, startsExpression_keyword (by decide) ht⟩
  | definition ht => exact ⟨_, _, rfl, startsExpression_keyword (by decide) ht⟩
  | loop ht => exact ⟨_, _, rfl, startsExpression_keyword (by decide) ht⟩
  | only_then ht => exact ⟨_, _, rfl, startsExpression_keyword (by decide) ht⟩
  | else_if ht => exact ⟨_, _, rfl, startsExpression_keyword (by decide) ht⟩
  | or_else ht => exact ⟨_, _, rfl, startsExpression_keyword (by decide) ht⟩
  | _ => exact absurd hr (by simp [Rule.isExpression])

theorem Maybe.suffix {test : Token → Bool} {word : Option Token}
    (h : Maybe fin test ts word rest) : rest <:+ ts := by
  cases h with
  | taken _ => exact List.suffix_cons _ _
  | absent _ => exact List.suffix_refl _

theorem Maybe.subset {test : Token → Bool} {word : Option Token}
    (h : Maybe fin test ts word rest) : rest ⊆ ts := h.suffix.subset

theorem suffix_of_cons {us : List Token} {t : Token} (h : t :: ts <:+ us) : ts <:+ us :=
  (List.suffix_cons t ts).trans h

theorem Reads.suffix (h : Reads fin r ts x rest) : rest <:+ ts := by
  -- Each rule only drops tokens from the front, so this is transitivity case by case.
  have hmaybe {test : Token → Bool} {ts us : List Token} {word : Option Token}
      (h : Maybe fin test ts word us) : us <:+ ts := h.suffix
  induction h <;> grind [List.IsSuffix.trans, List.suffix_cons, suffix_of_cons, List.suffix_refl]

theorem Reads.subset (h : Reads fin r ts x rest) : rest ⊆ ts := h.suffix.subset

theorem Reads.lacks (h : Reads fin r ts x rest) (hr : r.isExpression = true) {test : Token → Bool}
    (htest : ∀ t, startsExpression t = true → test t = false) : Lacks fin test ts := by
  obtain ⟨t, us, rfl, ht⟩ := h.first hr
  exact htest t ht

/-- After an operand there is no further argument list, and after an expression or a conditional
no operator either. -/
theorem Reads.maximal (h : Reads fin r ts x rest) :
    match r with
    | .expression | .conditional =>
      Lacks fin (·.isMark '(') rest ∧ Lacks fin (·.kind = .operator) rest
    | .links => Lacks fin (·.isMark '(') ts → Lacks fin (·.isMark '(') rest
    | .operand | .arguments => Lacks fin (·.isMark '(') rest
    | _ => True := by
  induction h with
  | expression _ _ hend ihleft ihlinks => exact ⟨ihlinks ihleft, hend⟩
  | links_nil => exact id
  | links_cons _ _ _ _ ihfirst ihmore => exact fun _ => ihmore ihfirst
  | operand _ _ _ ihargs => exact ihargs
  | arguments_nil hend => exact hend
  | arguments_cons _ _ _ _ ihmore => exact ihmore
  | only_then _ _ _ _ _ _ ihe => exact ihe
  | else_if _ _ _ _ _ _ _ _ ihchained => exact ihchained
  | or_else _ _ _ _ _ _ _ _ _ ihother => exact ihother
  | _ => trivial

end First

section Alike

/-- Tokens that say the same. They may stand at different places, and it may be different words that
start a function. -/
structure Alike (t u : Token) : Prop where
  kind : u.kind = t.kind
  text : u.text = t.text ∨ isLambdaWord t = true ∧ isLambdaWord u = true

instance (t u : Token) : Decidable (Alike t u) :=
  decidable_of_iff
    (u.kind = t.kind ∧ (u.text = t.text ∨ isLambdaWord t = true ∧ isLambdaWord u = true))
    ⟨fun h => ⟨h.1, h.2⟩, fun h => ⟨h.kind, h.text⟩⟩

/-- A test that tokens which say the same pass alike. -/
def Blind (test : Token → Bool) : Prop := ∀ {t u : Token}, Alike t u → test u = test t

section Words

variable {t u : Token}

theorem isMark_of_lambda (h : isLambdaWord t = true) (c : Char) : t.isMark c = false := by
  simp [Token.isMark, (isLambdaWord_iff.mp h).1]

theorem isName_of_lambda (h : isLambdaWord t = true) : t.isName = false := by
  simp [Token.isName, (isLambdaWord_iff.mp h).1]

theorem isOperator_of_lambda (h : isLambdaWord t = true) (symbol : String) :
    t.isOperator symbol = false := by
  simp [Token.isOperator, (isLambdaWord_iff.mp h).1]

theorem isKeyword_of_lambda {word : String} (hword : word ∉ ["fn", "lambda", "λ"])
    (h : isLambdaWord t = true) : t.isKeyword word = false := by
  obtain ⟨-, htext⟩ := isLambdaWord_iff.mp h
  rw [← Bool.not_eq_true]
  intro hkeyword
  rw [(isKeyword_iff.mp hkeyword).2] at htext
  exact hword (by simpa using htext)

theorem not_lambda_of_kind {kind : Token.Kind} (h : t.kind = kind) (hne : kind ≠ .keyword) :
    isLambdaWord t = false := by
  rw [← Bool.not_eq_true]
  intro hlambda
  exact hne (h.symm.trans (isLambdaWord_iff.mp hlambda).1)

theorem Alike.text_eq (h : Alike t u) (ht : isLambdaWord t = false) : u.text = t.text := by
  rcases h.text with htext | ⟨hword, -⟩
  · exact htext
  · rw [ht] at hword
    cases hword

theorem Alike.text_of_kind {kind : Token.Kind} (h : Alike t u) (ht : t.kind = kind)
    (hne : kind ≠ .keyword) : u.text = t.text :=
  h.text_eq (not_lambda_of_kind ht hne)

theorem Alike.text_of_name (h : Alike t u) (ht : t.isName = true) : u.text = t.text :=
  h.text_of_kind (isName_token_iff.mp ht) (by decide)

theorem blind_of {test : Token → Bool} (hword : ∀ t, isLambdaWord t = true → test t = false)
    (hplace : ∀ kind text p q, test ⟨kind, text, p⟩ = test ⟨kind, text, q⟩) : Blind test := by
  rintro ⟨kind, text, p⟩ ⟨kind', text', q⟩ ⟨hkind, htext⟩
  obtain rfl : kind' = kind := hkind
  rcases htext with htext | ⟨ht, hu⟩
  · obtain rfl : text' = text := htext
    exact hplace _ _ _ _
  · rw [hword _ ht, hword _ hu]

theorem blind_mark (c : Char) : Blind (·.isMark c) :=
  blind_of (fun _ h => isMark_of_lambda h c) fun _ _ _ _ => rfl

theorem blind_name : Blind (·.isName) := blind_of (fun _ => isName_of_lambda) fun _ _ _ _ => rfl

theorem blind_symbol (symbol : String) : Blind (·.isOperator symbol) :=
  blind_of (fun _ h => isOperator_of_lambda h symbol) fun _ _ _ _ => rfl

theorem blind_keyword {word : String} (h : word ∉ ["fn", "lambda", "λ"]) :
    Blind (·.isKeyword word) :=
  blind_of (fun _ => isKeyword_of_lambda h) fun _ _ _ _ => rfl

theorem blind_operator : Blind (·.kind = .operator) := fun h =>
  congrArg (fun kind => decide (kind = .operator)) h.kind

theorem blind_lambda : Blind isLambdaWord := by
  intro t u h
  rcases h.text with htext | ⟨ht, hu⟩
  · simp only [isLambdaWord, Token.isKeyword, h.kind, htext]
  · rw [ht, hu]

end Words

def Rule.erase : (r : Rule) → r.Tree → r.Tree
  | .expression | .operand | .atom | .conditional | .condition => Expr.erase
  | .links => List.map (Prod.map id Expr.erase)
  | .arguments => List.map (List.map Expr.erase)
  | .binding => Expr.eraseBinding
  | .param => id
  | .list _ item | .more _ item => List.map item.erase

theorem erase_blockOf (p : Position) (es : List Expr) :
    (blockOf p es).erase = blockOf .start (es.map Expr.erase) := by
  match es with
  | [] | [_] => rfl
  | _ :: _ :: _ => simp only [blockOf, Expr.erase, Expr.eraseAll_eq_map, List.map_cons]

theorem map_name_eraseBinding (bs : List (Binding Expr)) :
    (bs.map Expr.eraseBinding).map (·.name) = bs.map (·.name) := by
  rw [List.map_map]
  exact List.map_congr_left fun b _ => Expr.name_eraseBinding b

theorem erase_definitionOf (p : Position) (name : String) (bs : List (Binding Expr))
    (body : Expr) : (definitionOf p name bs body).erase =
      definitionOf .start name (bs.map Expr.eraseBinding) body.erase := by
  simp only [definitionOf, Expr.erase, Expr.eraseOption, map_name_eraseBinding]

theorem erase_loopOf (p : Position) (name : String) (bs : List (Binding Expr))
    (body : Expr) : (loopOf p name bs body).erase =
      loopOf .start name (bs.map Expr.eraseBinding) body.erase := by
  have hargs : (bs.map fun b => b.init.getD (.boolean p false)).map Expr.erase =
      (bs.map Expr.eraseBinding).map fun b => b.init.getD (.boolean .start false) := by
    rw [List.map_map, List.map_map]
    refine List.map_congr_left fun b _ => ?_
    rw [Function.comp_apply, Function.comp_apply, Expr.init_eraseBinding]
    cases b.init <;> rfl
  simp only [loopOf, Expr.erase, Expr.eraseAll_eq_map, map_name_eraseBinding, hargs]

theorem find?_init_of_erase {bs bs' : List (Binding Expr)}
    (h : bs.map Expr.eraseBinding = bs'.map Expr.eraseBinding)
    (hnone : bs'.find? (·.init.isSome) = none) : bs.find? (·.init.isSome) = none := by
  have hsome (b : Binding Expr) : b.init.isSome = (Expr.eraseBinding b).init.isSome := by
    rw [Expr.init_eraseBinding, Option.isSome_map]
  simp only [List.find?_eq_none, Bool.not_eq_true] at hnone ⊢
  intro b hb
  obtain ⟨b', hb', heq⟩ := List.mem_map.mp (h ▸ List.mem_map_of_mem hb)
  rw [hsome, ← heq, ← hsome]
  exact hnone b' hb'

variable {fin} {r : Rule} {t : Token} {ts us rest : List Token} {x : r.Tree}

theorem Lacks.alike {test : Token → Bool} {p : Position} (h : Lacks fin test ts)
    (hts : List.Forall₂ Alike ts us) (htest : Blind test) : Lacks (.eof p) test us := by
  cases hts with
  | nil => exact ⟨p, rfl⟩
  | cons hu _ => exact (htest hu).trans h

theorem Maybe.alike {test : Token → Bool} {word : Option Token} {p : Position}
    (h : Maybe fin test ts word rest) (hts : List.Forall₂ Alike ts us) (htest : Blind test) :
    ∃ word' rest', Maybe (.eof p) test us word' rest' ∧ List.Forall₂ Alike rest rest' := by
  cases h with
  | taken h =>
    obtain ⟨u, vs, hu, hvs, rfl⟩ := List.forall₂_cons_left_iff.mp hts
    exact ⟨_, _, .taken ((htest hu).trans h), hvs⟩
  | absent h => exact ⟨_, _, .absent (h.alike hts htest), hts⟩

theorem Maybe.name {name : Option Token} {p : Position} (h : Maybe fin (·.isName) ts name rest)
    (hts : List.Forall₂ Alike ts us) :
    ∃ name' rest', Maybe (.eof p) (·.isName) us name' rest' ∧
      name'.map (·.text) = name.map (·.text) ∧ List.Forall₂ Alike rest rest' := by
  cases h with
  | taken h =>
    obtain ⟨u, vs, hu, hvs, rfl⟩ := List.forall₂_cons_left_iff.mp hts
    exact ⟨_, _, .taken ((blind_name hu).trans h), congrArg some (hu.text_of_name h), hvs⟩
  | absent h => exact ⟨_, _, .absent (h.alike hts blind_name), rfl, hts⟩

/-- Places, and which word starts a function, play no part in what the rules read. -/
theorem Reads.alike {p : Position} (h : Reads fin r ts x rest) (hts : List.Forall₂ Alike ts us) :
    ∃ y rest', Reads (.eof p) r us y rest' ∧ r.erase y = r.erase x ∧
      List.Forall₂ Alike rest rest' := by
  have hlet : "let" ∉ ["fn", "lambda", "λ"] := by decide
  have hif : "if" ∉ ["fn", "lambda", "λ"] := by decide
  have hthen : "then" ∉ ["fn", "lambda", "λ"] := by decide
  have helse : "else" ∉ ["fn", "lambda", "λ"] := by decide
  induction h generalizing us with
  | expression _ _ hend ihleft ihlinks =>
    obtain ⟨left, us₁, hleft, hl, hus₁⟩ := ihleft hts
    obtain ⟨links, rest', hlinks, hls, hrest⟩ := ihlinks hus₁
    refine ⟨_, _, .expression hleft hlinks (hend.alike hrest blind_operator), ?_, hrest⟩
    simp only [Rule.erase] at hl hls ⊢
    rw [Expr.erase_chain, Expr.erase_chain, hl, hls]
  | links_nil => exact ⟨_, _, .links_nil, rfl, hts⟩
  | links_cons ht hc _ _ ihfirst ihmore =>
    obtain ⟨u, vs, hu, hvs, rfl⟩ := List.forall₂_cons_left_iff.mp hts
    obtain ⟨first, us₁, hfirst, hf, hus₁⟩ := ihfirst hvs
    obtain ⟨links, rest', hlinks, hls, hrest⟩ := ihmore hus₁
    have hc : Connective.ofSymbol? u.text = some _ := hu.text_of_kind ht (by decide) ▸ hc
    refine ⟨_, _, .links_cons (hu.kind.trans ht) hc hfirst hlinks, ?_, hrest⟩
    simp only [Rule.erase, List.map_cons, Prod.map_apply] at hf hls ⊢
    rw [hf, hls]
  | operand _ _ iha ihargs =>
    obtain ⟨a, us₁, ha, hae, hus₁⟩ := iha hts
    obtain ⟨args, rest', hargs, has, hrest⟩ := ihargs hus₁
    refine ⟨_, _, .operand ha hargs, ?_, hrest⟩
    simp only [Rule.erase] at hae has ⊢
    rw [Expr.erase_applied, Expr.erase_applied, hae, has]
  | arguments_nil hend =>
    exact ⟨_, _, .arguments_nil (hend.alike hts (blind_mark _)), rfl, hts⟩
  | arguments_cons ht _ _ ihargs ihmore =>
    obtain ⟨u, vs, hu, hvs, rfl⟩ := List.forall₂_cons_left_iff.mp hts
    obtain ⟨args, us₁, hargs, has, hus₁⟩ := ihargs hvs
    obtain ⟨more, rest', hmore, hms, hrest⟩ := ihmore hus₁
    refine ⟨_, _, .arguments_cons ((blind_mark _ hu).trans ht) hargs hmore, ?_, hrest⟩
    simp only [Rule.erase, List.map_cons] at has hms ⊢
    rw [has, hms]
  | number ht hx =>
    obtain ⟨u, vs, hu, hvs, rfl⟩ := List.forall₂_cons_left_iff.mp hts
    have hx : Number.ofLiteral? u.text = some _ := hu.text_of_kind ht (by decide) ▸ hx
    exact ⟨_, _, .number (hu.kind.trans ht) hx, rfl, hvs⟩
  | string ht =>
    obtain ⟨u, vs, hu, hvs, rfl⟩ := List.forall₂_cons_left_iff.mp hts
    refine ⟨_, _, .string (hu.kind.trans ht), ?_, hvs⟩
    simp only [Rule.erase, Expr.erase, hu.text_of_kind ht (by decide)]
  | boolean ht =>
    obtain ⟨u, vs, hu, hvs, rfl⟩ := List.forall₂_cons_left_iff.mp hts
    refine ⟨_, _, .boolean (hu.kind.trans ht), ?_, hvs⟩
    simp only [Rule.erase, Expr.erase, hu.text_of_kind ht (by decide)]
  | var ht hend =>
    obtain ⟨u, vs, hu, hvs, rfl⟩ := List.forall₂_cons_left_iff.mp hts
    refine ⟨_, _, .var ((blind_name hu).trans ht) (hend.alike hvs (blind_mark _)), ?_, hvs⟩
    simp only [Rule.erase, Expr.erase, hu.text_of_name ht]
  | method ht hdot hname ho _ ih =>
    obtain ⟨u₁, vs₁, hu₁, hvs₁, rfl⟩ := List.forall₂_cons_left_iff.mp hts
    obtain ⟨u₂, vs₂, hu₂, hvs₂, rfl⟩ := List.forall₂_cons_left_iff.mp hvs₁
    obtain ⟨u₃, vs₃, hu₃, hvs₃, rfl⟩ := List.forall₂_cons_left_iff.mp hvs₂
    obtain ⟨u₄, vs₄, hu₄, hvs₄, rfl⟩ := List.forall₂_cons_left_iff.mp hvs₃
    obtain ⟨args, rest', hargs, has, hrest⟩ := ih hvs₄
    refine ⟨_, _, .method ((blind_name hu₁).trans ht) ((blind_mark _ hu₂).trans hdot)
      ((blind_name hu₃).trans hname) ((blind_mark _ hu₄).trans ho) hargs, ?_, hrest⟩
    simp only [Rule.erase, Expr.erase, Expr.eraseAll_eq_map] at has ⊢
    rw [has, hu₁.text_of_name ht, hu₃.text_of_name hname]
  | group ht _ hclose ih =>
    obtain ⟨u, vs, hu, hvs, rfl⟩ := List.forall₂_cons_left_iff.mp hts
    obtain ⟨e, us₁, he, hee, hus₁⟩ := ih hvs
    obtain ⟨u', rest', hu', hrest, rfl⟩ := List.forall₂_cons_left_iff.mp hus₁
    exact ⟨_, _, .group ((blind_mark _ hu).trans ht) he ((blind_mark _ hu').trans hclose), hee,
      hrest⟩
  | array ht _ ih =>
    obtain ⟨u, vs, hu, hvs, rfl⟩ := List.forall₂_cons_left_iff.mp hts
    obtain ⟨items, rest', hitems, his, hrest⟩ := ih hvs
    refine ⟨_, _, .array ((blind_mark _ hu).trans ht) hitems, ?_, hrest⟩
    simp only [Rule.erase, Expr.erase, Expr.eraseAll_eq_map] at his ⊢
    rw [his]
  | block ht _ ih =>
    obtain ⟨u, vs, hu, hvs, rfl⟩ := List.forall₂_cons_left_iff.mp hts
    obtain ⟨items, rest', hitems, his, hrest⟩ := ih hvs
    refine ⟨_, _, .block ((blind_mark _ hu).trans ht) hitems, ?_, hrest⟩
    simp only [Rule.erase] at his ⊢
    rw [erase_blockOf, erase_blockOf, his]
  | lambda ht hname ho _ _ ihparams ihbody =>
    obtain ⟨u, vs, hu, hvs, rfl⟩ := List.forall₂_cons_left_iff.mp hts
    obtain ⟨name, us₁, hname', hn, hus₁⟩ := hname.name hvs
    obtain ⟨u', us₂, hu', hus₂, rfl⟩ := List.forall₂_cons_left_iff.mp hus₁
    obtain ⟨params, us₃, hparams, hps, hus₃⟩ := ihparams hus₂
    obtain ⟨body, rest', hbody, hb, hrest⟩ := ihbody hus₃
    refine ⟨_, _, .lambda ((blind_lambda hu).trans ht) hname' ((blind_mark _ hu').trans ho)
      hparams hbody, ?_, hrest⟩
    simp only [Rule.erase, Expr.erase, List.map_id] at hps hb ⊢
    rw [hn, hps, hb]
  | scope ht ho _ _ ihbindings ihbody =>
    obtain ⟨u₁, vs₁, hu₁, hvs₁, rfl⟩ := List.forall₂_cons_left_iff.mp hts
    obtain ⟨u₂, vs₂, hu₂, hvs₂, rfl⟩ := List.forall₂_cons_left_iff.mp hvs₁
    obtain ⟨bindings, us₁, hbindings, hbs, hus₁⟩ := ihbindings hvs₂
    obtain ⟨body, rest', hbody, hb, hrest⟩ := ihbody hus₁
    refine ⟨_, _, .scope ((blind_keyword hlet hu₁).trans ht) ((blind_mark _ hu₂).trans ho) hbindings
      hbody, ?_, hrest⟩
    simp only [Rule.erase, Expr.erase, Expr.eraseBindings_eq_map] at hbs hb ⊢
    rw [hbs, hb]
  | define ht hname heq ho =>
    obtain ⟨u₁, vs₁, hu₁, hvs₁, rfl⟩ := List.forall₂_cons_left_iff.mp hts
    obtain ⟨u₂, vs₂, hu₂, hvs₂, rfl⟩ := List.forall₂_cons_left_iff.mp hvs₁
    refine ⟨_, _, .define ((blind_keyword hlet hu₁).trans ht) ((blind_name hu₂).trans hname)
      (heq.alike hvs₂ (blind_symbol _)) (ho.alike hvs₂ (blind_mark _)), ?_, hvs₂⟩
    simp only [Rule.erase, Expr.erase, hu₂.text_of_name hname]
  | define_init ht hname heq _ ih =>
    obtain ⟨u₁, vs₁, hu₁, hvs₁, rfl⟩ := List.forall₂_cons_left_iff.mp hts
    obtain ⟨u₂, vs₂, hu₂, hvs₂, rfl⟩ := List.forall₂_cons_left_iff.mp hvs₁
    obtain ⟨u₃, vs₃, hu₃, hvs₃, rfl⟩ := List.forall₂_cons_left_iff.mp hvs₂
    obtain ⟨init, rest', hinit, hi, hrest⟩ := ih hvs₃
    refine ⟨_, _, .define_init ((blind_keyword hlet hu₁).trans ht) ((blind_name hu₂).trans hname)
      ((blind_symbol _ hu₃).trans heq) hinit, ?_, hrest⟩
    simp only [Rule.erase, Expr.erase, Expr.eraseOption, Expr.erase_nameLambda] at hi ⊢
    rw [hi, hu₂.text_of_name hname]
  | definition ht hname ho _ heq hnone _ ihparams ihbody =>
    obtain ⟨u₁, vs₁, hu₁, hvs₁, rfl⟩ := List.forall₂_cons_left_iff.mp hts
    obtain ⟨u₂, vs₂, hu₂, hvs₂, rfl⟩ := List.forall₂_cons_left_iff.mp hvs₁
    obtain ⟨u₃, vs₃, hu₃, hvs₃, rfl⟩ := List.forall₂_cons_left_iff.mp hvs₂
    obtain ⟨params, us₁, hparams, hps, hus₁⟩ := ihparams hvs₃
    obtain ⟨u₄, us₂, hu₄, hus₂, rfl⟩ := List.forall₂_cons_left_iff.mp hus₁
    obtain ⟨body, rest', hbody, hb, hrest⟩ := ihbody hus₂
    refine ⟨_, _, .definition ((blind_keyword hlet hu₁).trans ht) ((blind_name hu₂).trans hname)
      ((blind_mark _ hu₃).trans ho) hparams ((blind_symbol _ hu₄).trans heq)
      (find?_init_of_erase hps hnone) hbody, ?_, hrest⟩
    simp only [Rule.erase] at hps hb ⊢
    rw [erase_definitionOf, erase_definitionOf, hps, hb, hu₂.text_of_name hname]
  | loop ht hname ho _ heq _ ihbindings ihbody =>
    obtain ⟨u₁, vs₁, hu₁, hvs₁, rfl⟩ := List.forall₂_cons_left_iff.mp hts
    obtain ⟨u₂, vs₂, hu₂, hvs₂, rfl⟩ := List.forall₂_cons_left_iff.mp hvs₁
    obtain ⟨u₃, vs₃, hu₃, hvs₃, rfl⟩ := List.forall₂_cons_left_iff.mp hvs₂
    obtain ⟨bindings, us₁, hbindings, hbs, hus₁⟩ := ihbindings hvs₃
    obtain ⟨body, rest', hbody, hb, hrest⟩ := ihbody hus₁
    refine ⟨_, _, .loop ((blind_keyword hlet hu₁).trans ht) ((blind_name hu₂).trans hname)
      ((blind_mark _ hu₃).trans ho) hbindings (heq.alike hus₁ (blind_symbol _)) hbody, ?_, hrest⟩
    simp only [Rule.erase] at hbs hb ⊢
    rw [erase_loopOf, erase_loopOf, hbs, hb, hu₂.text_of_name hname]
  | branch _ ih =>
    obtain ⟨e, rest', he, hee, hrest⟩ := ih hts
    exact ⟨e, rest', .branch he, hee, hrest⟩
  | only_then ht _ hword _ hend ihcond ihe =>
    obtain ⟨u, vs, hu, hvs, rfl⟩ := List.forall₂_cons_left_iff.mp hts
    obtain ⟨cond, us₁, hcond, hc, hus₁⟩ := ihcond hvs
    obtain ⟨word, us₂, hword', hus₂⟩ := hword.alike hus₁ (blind_keyword hthen)
    obtain ⟨e, rest', he, hee, hrest⟩ := ihe hus₂
    refine ⟨_, _, .only_then ((blind_keyword hif hu).trans ht) hcond hword' he
      (hend.alike hrest (blind_keyword helse)), ?_, hrest⟩
    simp only [Rule.erase, Expr.erase, Expr.eraseOption] at hc hee ⊢
    rw [hc, hee]
  | else_if ht _ hword _ hels _ ihcond ihe ihchained =>
    obtain ⟨u, vs, hu, hvs, rfl⟩ := List.forall₂_cons_left_iff.mp hts
    obtain ⟨cond, us₁, hcond, hc, hus₁⟩ := ihcond hvs
    obtain ⟨word, us₂, hword', hus₂⟩ := hword.alike hus₁ (blind_keyword hthen)
    obtain ⟨e, us₃, he, hee, hus₃⟩ := ihe hus₂
    obtain ⟨u', us₄, hu', hus₄, rfl⟩ := List.forall₂_cons_left_iff.mp hus₃
    obtain ⟨chained, rest', hchained, hch, hrest⟩ := ihchained hus₄
    refine ⟨_, _, .else_if ((blind_keyword hif hu).trans ht) hcond hword' he
      ((blind_keyword helse hu').trans hels) hchained, ?_, hrest⟩
    simp only [Rule.erase, Expr.erase, Expr.eraseOption] at hc hee hch ⊢
    rw [hc, hee, hch]
  | or_else ht _ hword _ hels hlast _ ihcond ihe ihother =>
    obtain ⟨u, vs, hu, hvs, rfl⟩ := List.forall₂_cons_left_iff.mp hts
    obtain ⟨cond, us₁, hcond, hc, hus₁⟩ := ihcond hvs
    obtain ⟨word, us₂, hword', hus₂⟩ := hword.alike hus₁ (blind_keyword hthen)
    obtain ⟨e, us₃, he, hee, hus₃⟩ := ihe hus₂
    obtain ⟨u', us₄, hu', hus₄, rfl⟩ := List.forall₂_cons_left_iff.mp hus₃
    obtain ⟨other, rest', hother, ho, hrest⟩ := ihother hus₄
    refine ⟨_, _, .or_else ((blind_keyword hif hu).trans ht) hcond hword' he
      ((blind_keyword helse hu').trans hels) (hlast.alike hus₄ (blind_keyword hif)) hother,
      ?_, hrest⟩
    simp only [Rule.erase, Expr.erase, Expr.eraseOption] at hc hee ho ⊢
    rw [hc, hee, ho]
  | bare ho _ ih =>
    obtain ⟨e, rest', he, hee, hrest⟩ := ih hts
    exact ⟨e, rest', .bare (ho.alike hts (blind_mark _)) he, hee, hrest⟩
  | listed ht _ ih =>
    obtain ⟨u, vs, hu, hvs, rfl⟩ := List.forall₂_cons_left_iff.mp hts
    obtain ⟨es, rest', hlist, hes, hrest⟩ := ih hvs
    obtain ⟨e, more, rfl, he, -⟩ := List.map_eq_cons_iff.mp hes
    exact ⟨e, rest', .listed ((blind_mark _ hu).trans ht) hlist, he, hrest⟩
  | binding hname heq =>
    obtain ⟨u, vs, hu, hvs, rfl⟩ := List.forall₂_cons_left_iff.mp hts
    refine ⟨_, _, .binding ((blind_name hu).trans hname) (heq.alike hvs (blind_symbol _)), ?_, hvs⟩
    simp only [Rule.erase, Expr.eraseBinding, Expr.eraseOption, hu.text_of_name hname]
  | binding_init hname heq _ ih =>
    obtain ⟨u₁, vs₁, hu₁, hvs₁, rfl⟩ := List.forall₂_cons_left_iff.mp hts
    obtain ⟨u₂, vs₂, hu₂, hvs₂, rfl⟩ := List.forall₂_cons_left_iff.mp hvs₁
    obtain ⟨init, rest', hinit, hi, hrest⟩ := ih hvs₂
    refine ⟨_, _, .binding_init ((blind_name hu₁).trans hname)
      ((blind_symbol _ hu₂).trans heq) hinit, ?_, hrest⟩
    simp only [Rule.erase, Expr.eraseBinding, Expr.eraseOption] at hi ⊢
    rw [hi, hu₁.text_of_name hname]
  | param hname =>
    obtain ⟨u, vs, hu, hvs, rfl⟩ := List.forall₂_cons_left_iff.mp hts
    exact ⟨_, _, .param ((blind_name hu).trans hname), hu.text_of_name hname, hvs⟩
  | list_nil ht =>
    obtain ⟨u, vs, hu, hvs, rfl⟩ := List.forall₂_cons_left_iff.mp hts
    exact ⟨_, _, .list_nil ((blind_mark _ hu).trans ht), rfl, hvs⟩
  | list_cons hopen _ _ ihitem ihmore =>
    obtain ⟨y, us₁, hitem, hy, hus₁⟩ := ihitem hts
    obtain ⟨ys, rest', hmore, hys, hrest⟩ := ihmore hus₁
    refine ⟨_, _, .list_cons (hopen.alike hts (blind_mark _)) hitem hmore, ?_, hrest⟩
    simp only [Rule.erase, List.map_cons] at hys ⊢
    rw [hy, hys]
  | more_nil ht =>
    obtain ⟨u, vs, hu, hvs, rfl⟩ := List.forall₂_cons_left_iff.mp hts
    exact ⟨_, _, .more_nil ((blind_mark _ hu).trans ht), rfl, hvs⟩
  | more_last hs ht =>
    obtain ⟨u₁, vs₁, hu₁, hvs₁, rfl⟩ := List.forall₂_cons_left_iff.mp hts
    obtain ⟨u₂, vs₂, hu₂, hvs₂, rfl⟩ := List.forall₂_cons_left_iff.mp hvs₁
    exact ⟨_, _, .more_last ((blind_mark _ hu₁).trans hs) ((blind_mark _ hu₂).trans ht), rfl, hvs₂⟩
  | more_cons hs hopen _ _ ihitem ihmore =>
    obtain ⟨u, vs, hu, hvs, rfl⟩ := List.forall₂_cons_left_iff.mp hts
    obtain ⟨y, us₁, hitem, hy, hus₁⟩ := ihitem hvs
    obtain ⟨ys, rest', hmore, hys, hrest⟩ := ihmore hus₁
    refine ⟨_, _, .more_cons ((blind_mark _ hu).trans hs) (hopen.alike hvs (blind_mark _))
      hitem hmore, ?_, hrest⟩
    simp only [Rule.erase, List.map_cons] at hys ⊢
    rw [hy, hys]

theorem ReadsAll.alike {p : Position} {es : List Expr} (h : ReadsAll fin ts es)
    (hts : List.Forall₂ Alike ts us) :
    ∃ es', ReadsAll (.eof p) us es' ∧ es'.map Expr.erase = es.map Expr.erase := by
  induction h generalizing us with
  | nil _ =>
    cases hts
    exact ⟨[], .nil ⟨p, rfl⟩, rfl⟩
  | last he _ =>
    obtain ⟨e', rest', he', heq, hrest⟩ := he.alike (p := p) hts
    cases hrest
    exact ⟨[e'], .last he' ⟨p, rfl⟩, congrArg (fun e => [e]) heq⟩
  | cons he ht _ ih =>
    obtain ⟨e', rest', he', heq, hrest⟩ := he.alike (p := p) hts
    obtain ⟨u, rest'', hu, hrest', rfl⟩ := List.forall₂_cons_left_iff.mp hrest
    obtain ⟨es', hes', heqs⟩ := ih hrest'
    refine ⟨e' :: es', .cons he' ((blind_mark _ hu).trans ht) hes', ?_⟩
    rw [List.map_cons, List.map_cons, heqs]
    exact congrArg (· :: _) heq

end Alike

end Parser

end ExprLang
