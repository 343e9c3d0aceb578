import ExprLang.Proofs.Expr.Completeness
import ExprLang.Proofs.Token.Spelling

namespace ExprLang

namespace Grammar

/-- What stands between two operands: assignment and the binary operators. -/
def infixes : List String :=
  ["=", "||", "&&", "<", ">", "<=", ">=", "==", "!=", "===", "!==", "+", "-", "*", "/", "%"]

def isInfix (t : Token) : Bool := t.kind = .operator && infixes.contains t.text

/-- The next token, if there is one, does not pass a test. -/
def NotNext (test : Token → Bool) (ts : List Token) : Prop := ∀ t ∈ ts.head?, test t = false

inductive Phrase where
  | expr
  /-- `{infix operand}` -/
  | tail
  | operand
  /-- `{'(' list(expr, ',') ')'}` -/
  | suffixes
  | atom
  | conditional
  | condition
  | binding
  | var
  /-- nothing or items -/
  | list (separator : Char) (item : Phrase)
  /-- `item {separator item} [separator]` -/
  | items (separator : Char) (item : Phrase)
  /-- `{separator item} [separator]` -/
  | more (separator : Char) (item : Phrase)

/-- `[then]` -/
inductive Then : List Token → List Token → Prop
  | taken {t ts} (ht : t.isKeyword "then" = true) : Then (t :: ts) ts
  | absent {ts} (h : NotNext (·.isKeyword "then") ts) : Then ts ts

/-- `Derives x ts rest`: the tokens of `ts` before `rest` are a phrase `x`. -/
inductive Derives : Phrase → List Token → List Token → Prop
  | expr {ts ts₁ rest} (ho : Derives .operand ts ts₁) (ht : Derives .tail ts₁ rest) :
      Derives .expr ts rest
  | tail_nil {ts} (hend : NotNext isInfix ts) : Derives .tail ts ts
  | tail_cons {t ts ts₁ rest} (ht : isInfix t = true) (ho : Derives .operand ts ts₁)
      (hmore : Derives .tail ts₁ rest) : Derives .tail (t :: ts) rest
  | operand {ts ts₁ rest} (ha : Derives .atom ts ts₁) (hs : Derives .suffixes ts₁ rest) :
      Derives .operand ts rest
  | suffixes_nil {ts} (hend : NotNext (·.isMark '(') ts) : Derives .suffixes ts ts
  | suffixes_cons {o c ts ts₁ rest} (ho : o.isMark '(' = true)
      (hargs : Derives (.list ',' .expr) ts (c :: ts₁)) (hc : c.isMark ')' = true)
      (hmore : Derives .suffixes ts₁ rest) : Derives .suffixes (o :: ts) rest
  | num {t rest} (ht : t.kind = .number) : Derives .atom (t :: rest) rest
  | str {t rest} (ht : t.kind = .string) : Derives .atom (t :: rest) rest
  | bool {t rest} (ht : t.kind = .boolean) : Derives .atom (t :: rest) rest
  | name {t rest} (ht : t.isName = true) (hend : NotNext (·.isMark '.') rest) :
      Derives .atom (t :: rest) rest
  | method {t dot m o c ts rest} (ht : t.isName = true) (hdot : dot.isMark '.' = true)
      (hm : m.isName = true) (ho : o.isMark '(' = true)
      (hargs : Derives (.list ',' .expr) ts (c :: rest)) (hc : c.isMark ')' = true) :
      Derives .atom (t :: dot :: m :: o :: ts) rest
  | group {o c ts rest} (ho : o.isMark '(' = true) (he : Derives .expr ts (c :: rest))
      (hc : c.isMark ')' = true) : Derives .atom (o :: ts) rest
  | array {o c ts rest} (ho : o.isMark '[' = true)
      (hitems : Derives (.list ',' .expr) ts (c :: rest)) (hc : c.isMark ']' = true) :
      Derives .atom (o :: ts) rest
  | block {o c ts rest} (ho : o.isMark '{' = true)
      (hitems : Derives (.list ';' .expr) ts (c :: rest)) (hc : c.isMark '}' = true) :
      Derives .atom (o :: ts) rest
  | lambda {t o c ts ts₁ rest} (ht : Parser.isLambdaWord t = true) (ho : o.isMark '(' = true)
      (hparams : Derives (.list ',' .var) ts (c :: ts₁)) (hc : c.isMark ')' = true)
      (hbody : Derives .expr ts₁ rest) : Derives .atom (t :: o :: ts) rest
  | named_lambda {t n o c ts ts₁ rest} (ht : Parser.isLambdaWord t = true)
      (hn : n.isName = true) (ho : o.isMark '(' = true)
      (hparams : Derives (.list ',' .var) ts (c :: ts₁)) (hc : c.isMark ')' = true)
      (hbody : Derives .expr ts₁ rest) : Derives .atom (t :: n :: o :: ts) rest
  | scope {t o c ts ts₁ rest} (ht : t.isKeyword "let" = true) (ho : o.isMark '(' = true)
      (hbindings : Derives (.list ',' .binding) ts (c :: ts₁)) (hc : c.isMark ')' = true)
      (hbody : Derives .expr ts₁ rest) : Derives .atom (t :: o :: ts) rest
  | declare {t n rest} (ht : t.isKeyword "let" = true) (hn : n.isName = true)
      (heq : NotNext (·.isOperator "=") rest) (ho : NotNext (·.isMark '(') rest) :
      Derives .atom (t :: n :: rest) rest
  | define {t n q ts rest} (ht : t.isKeyword "let" = true) (hn : n.isName = true)
      (hq : q.isOperator "=" = true) (he : Derives .expr ts rest) :
      Derives .atom (t :: n :: q :: ts) rest
  | function {t n o c q ts ts₁ rest} (ht : t.isKeyword "let" = true) (hn : n.isName = true)
      (ho : o.isMark '(' = true) (hparams : Derives (.list ',' .var) ts (c :: q :: ts₁))
      (hc : c.isMark ')' = true) (hq : q.isOperator "=" = true) (hbody : Derives .expr ts₁ rest) :
      Derives .atom (t :: n :: o :: ts) rest
  | loop {t n o c ts ts₁ rest} (ht : t.isKeyword "let" = true) (hn : n.isName = true)
      (ho : o.isMark '(' = true) (hbindings : Derives (.list ',' .binding) ts (c :: ts₁))
      (hc : c.isMark ')' = true) (hbody : Derives .expr ts₁ rest) :
      Derives .atom (t :: n :: o :: ts) rest
  | branch {ts rest} (h : Derives .conditional ts rest) : Derives .atom ts rest
  | only_then {t ts ts₁ ts₂ rest} (ht : t.isKeyword "if" = true)
      (hcond : Derives .condition ts ts₁) (hthen : Then ts₁ ts₂) (he : Derives .expr ts₂ rest)
      (hend : NotNext (·.isKeyword "else") rest) : Derives .conditional (t :: ts) rest
  | else_if {t els ts ts₁ ts₂ ts₃ rest} (ht : t.isKeyword "if" = true)
      (hcond : Derives .condition ts ts₁) (hthen : Then ts₁ ts₂)
      (he : Derives .expr ts₂ (els :: ts₃)) (hels : els.isKeyword "else" = true)
      (hother : Derives .conditional ts₃ rest) : Derives .conditional (t :: ts) rest
  | or_else {t els ts ts₁ ts₂ ts₃ rest} (ht : t.isKeyword "if" = true)
      (hcond : Derives .condition ts ts₁) (hthen : Then ts₁ ts₂)
      (he : Derives .expr ts₂ (els :: ts₃)) (hels : els.isKeyword "else" = true)
      (hother : Derives .expr ts₃ rest) : Derives .conditional (t :: ts) rest
  | bare {ts rest} (ho : NotNext (·.isMark '(') ts) (he : Derives .expr ts rest) :
      Derives .condition ts rest
  | listed {o c ts rest} (ho : o.isMark '(' = true)
      (hitems : Derives (.items ',' .expr) ts (c :: rest)) (hc : c.isMark ')' = true) :
      Derives .condition (o :: ts) rest
  | binding {n rest} (hn : n.isName = true) (heq : NotNext (·.isOperator "=") rest) :
      Derives .binding (n :: rest) rest
  | binding_init {n q ts rest} (hn : n.isName = true) (hq : q.isOperator "=" = true)
      (he : Derives .expr ts rest) : Derives .binding (n :: q :: ts) rest
  | var {n rest} (hn : n.isName = true) : Derives .var (n :: rest) rest
  | list_nil {s x ts} : Derives (.list s x) ts ts
  | list {s x ts rest} (h : Derives (.items s x) ts rest) : Derives (.list s x) ts rest
  | items {s x ts ts₁ rest} (hx : Derives x ts ts₁) (hmore : Derives (.more s x) ts₁ rest) :
      Derives (.items s x) ts rest
  | more_nil {s x ts} : Derives (.more s x) ts ts
  | more_last {s x t ts} (ht : t.isMark s = true) : Derives (.more s x) (t :: ts) ts
  | more_cons {s x t ts ts₁ rest} (ht : t.isMark s = true) (hx : Derives x ts ts₁)
      (hmore : Derives (.more s x) ts₁ rest) : Derives (.more s x) (t :: ts) rest

/-- `[expr {';' expr} [';']]` -/
def Program (ts : List Token) : Prop := Derives (.list ';' .expr) ts []

section Sound
open ExprLang.Parser

variable {fin : TokenStream.Ending}

theorem mem_infixes_iff (text : String) :
    text ∈ infixes ↔ ∃ c, Connective.ofSymbol? text = some c := by
  have hinfixes : infixes = "=" :: Operator.all.map Operator.symbol := rfl
  rw [hinfixes, List.mem_cons, List.mem_map, Connective.ofSymbol?]
  by_cases h : text = "="
  · simp [h]
  · simp [h, ← Option.isSome_iff_exists, Operator.ofSymbol?, List.find?_isSome]

theorem notNext_of_lacks {test : Token → Bool} {ts : List Token} (h : Lacks fin test ts) :
    NotNext test ts := by
  cases ts with
  | nil => exact fun t ht => nomatch ht
  | cons t ts =>
    intro u hu
    cases hu
    exact h

theorem isInfix_of_ofSymbol? {t : Token} {c : Connective} (ht : t.kind = .operator)
    (hc : Connective.ofSymbol? t.text = some c) : isInfix t = true := by
  have hmem := (mem_infixes_iff t.text).mpr ⟨c, hc⟩
  simp [isInfix, ht, hmem]

theorem notNext_isInfix {ts : List Token} (h : Lacks fin (·.kind = .operator) ts) :
    NotNext isInfix ts := by
  intro t ht
  have hkind := notNext_of_lacks h t ht
  simp only [isInfix, hkind, Bool.false_and]

theorem then_of_maybe {ts rest : List Token} {word : Option Token}
    (h : Maybe fin (·.isKeyword "then") ts word rest) : Then ts rest := by
  cases h with
  | taken h => exact .taken h
  | absent h => exact .absent (notNext_of_lacks h)

def phrase : Rule → Phrase
  | .expression => .expr
  | .links => .tail
  | .operand => .operand
  | .arguments => .suffixes
  | .atom => .atom
  | .conditional => .conditional
  | .condition => .condition
  | .binding => .binding
  | .param => .var
  | .list b item => .list b.separator (phrase item)
  | .more b item => .more b.separator (phrase item)

def isItem : Rule → Bool
  | .expression | .binding | .param => true
  | _ => false

theorem Derives.list_of_ite {s : Char} {x : Phrase} {empty : Bool} {ts rest : List Token}
    (h : Derives (if empty then .list s x else .items s x) ts rest) :
    Derives (.list s x) ts rest := by
  cases empty with
  | true => exact h
  | false => exact .list h

theorem derives_moreParams {ts rest : List Token} {bs : List (Binding Expr)}
    (h : Reads fin (.more .round .binding) ts bs rest) (hnone : ∀ b ∈ bs, b.init = none) :
    ∃ c, c.isMark ')' = true ∧ Derives (.more ',' .var) ts (c :: rest) := by
  induction bs generalizing ts with
  | nil =>
    cases h with
    | more_nil ht => exact ⟨_, ht, .more_nil⟩
    | more_last hs ht => exact ⟨_, ht, .more_last hs⟩
  | cons b bs ih =>
    cases h with
    | more_cons hs _ hitem hmore =>
      obtain ⟨c, hc, hrest⟩ := ih hmore fun b hb => hnone b (List.mem_cons_of_mem _ hb)
      cases hitem with
      | binding hname _ => exact ⟨c, hc, .more_cons hs (.var hname) hrest⟩
      | binding_init => cases hnone _ List.mem_cons_self

theorem derives_params {ts rest : List Token} {bs : List (Binding Expr)}
    (h : Reads fin (.list .round .binding) ts bs rest)
    (hnone : bs.find? (·.init.isSome) = none) :
    ∃ c, c.isMark ')' = true ∧ Derives (.list ',' .var) ts (c :: rest) := by
  have hnone : ∀ b ∈ bs, b.init = none := by simpa using hnone
  cases h with
  | list_nil ht => exact ⟨_, ht, .list_nil⟩
  | list_cons _ hitem hmore =>
    obtain ⟨c, hc, hrest⟩ := derives_moreParams hmore
      fun b hb => hnone b (List.mem_cons_of_mem _ hb)
    cases hitem with
    | binding hname _ => exact ⟨c, hc, .list (.items (.var hname) hrest)⟩
    | binding_init => cases hnone _ List.mem_cons_self

/-- What a rule reads is a phrase. A list is followed by its closing mark. -/
theorem derives_of_reads {r : Rule} {ts rest : List Token} {x : r.Tree}
    (h : Reads fin r ts x rest) :
    match r, x with
    | .links, _ => NotNext isInfix rest → Derives .tail ts rest
    | .list b item, xs => isItem item = true → ∃ c, c.isMark b.close = true ∧
        Derives (if xs.isEmpty then .list b.separator (phrase item)
          else .items b.separator (phrase item)) ts (c :: rest)
    | .more b item, _ => isItem item = true → ∃ c, c.isMark b.close = true ∧
        Derives (.more b.separator (phrase item)) ts (c :: rest)
    | r, _ => Derives (phrase r) ts rest := by
  induction h with
  | expression _ _ hend ihleft ihlinks => exact .expr ihleft (ihlinks (notNext_isInfix hend))
  | links_nil => exact .tail_nil
  | links_cons ht hc _ _ ihfirst ihmore =>
    exact fun hend => .tail_cons (isInfix_of_ofSymbol? ht hc) ihfirst (ihmore hend)
  | operand _ _ iha ihargs => exact .operand iha ihargs
  | arguments_nil hend => exact .suffixes_nil (notNext_of_lacks hend)
  | arguments_cons ht _ _ ihargs ihmore =>
    obtain ⟨c, hc, hargs⟩ := ihargs rfl
    exact .suffixes_cons ht hargs.list_of_ite hc ihmore
  | number ht => exact .num ht
  | string ht => exact .str ht
  | boolean ht => exact .bool ht
  | var ht hend => exact .name ht (notNext_of_lacks hend)
  | method ht hdot hname ho _ ihargs =>
    obtain ⟨c, hc, hargs⟩ := ihargs rfl
    exact .method ht hdot hname ho hargs.list_of_ite hc
  | group ht _ hu ihe => exact .group ht ihe hu
  | array ht _ ihitems =>
    obtain ⟨c, hc, hitems⟩ := ihitems rfl
    exact .array ht hitems.list_of_ite hc
  | block ht _ ihitems =>
    obtain ⟨c, hc, hitems⟩ := ihitems rfl
    exact .block ht hitems.list_of_ite hc
  | lambda ht hname ho _ _ ihparams ihbody =>
    obtain ⟨c, hc, hparams⟩ := ihparams rfl
    cases hname with
    | taken hn => exact .named_lambda ht hn ho hparams.list_of_ite hc ihbody
    | absent _ => exact .lambda ht ho hparams.list_of_ite hc ihbody
  | scope ht ho _ _ ihbindings ihbody =>
    obtain ⟨c, hc, hbindings⟩ := ihbindings rfl
    exact .scope ht ho hbindings.list_of_ite hc ihbody
  | define ht hname heq ho =>
    exact .declare ht hname (notNext_of_lacks heq) (notNext_of_lacks ho)
  | define_init ht hname heq _ ihinit => exact .define ht hname heq ihinit
  | definition ht hname ho hparams heq hnone _ _ ihbody =>
    obtain ⟨c, hc, hparams⟩ := derives_params hparams hnone
    exact .function ht hname ho hparams hc heq ihbody
  | loop ht hname ho _ _ _ ihbindings ihbody =>
    obtain ⟨c, hc, hbindings⟩ := ihbindings rfl
    exact .loop ht hname ho hbindings.list_of_ite hc ihbody
  | branch _ ihe => exact .branch ihe
  | only_then ht _ hword _ hend ihcond ihe =>
    exact .only_then ht ihcond (then_of_maybe hword) ihe (notNext_of_lacks hend)
  | else_if ht _ hword _ hels _ ihcond ihe ihchained =>
    exact .else_if ht ihcond (then_of_maybe hword) ihe hels ihchained
  | or_else ht _ hword _ hels _ _ ihcond ihe ihother =>
    exact .or_else ht ihcond (then_of_maybe hword) ihe hels ihother
  | bare ho _ ihe => exact .bare (notNext_of_lacks ho) ihe
  | listed ht _ ihlist =>
    obtain ⟨c, hc, hlist⟩ := ihlist rfl
    exact .listed ht hlist hc
  | binding hname heq => exact .binding hname (notNext_of_lacks heq)
  | binding_init hname heq _ ihinit => exact .binding_init hname heq ihinit
  | param hname => exact .var hname
  | list_nil ht => exact fun _ => ⟨_, ht, .list_nil⟩
  | @list_cons b item _ _ _ _ _ _ _ _ ihitem ihmore =>
    intro h
    obtain ⟨c, hc, hmore⟩ := ihmore h
    cases item with
    | expression | binding | param => exact ⟨c, hc, .items ihitem hmore⟩
    | _ => cases h
  | more_nil ht => exact fun _ => ⟨_, ht, .more_nil⟩
  | more_last hs ht => exact fun _ => ⟨_, ht, .more_last hs⟩
  | @more_cons b item _ _ _ _ _ _ hs _ _ _ ihitem ihmore =>
    intro h
    obtain ⟨c, hc, hmore⟩ := ihmore h
    cases item with
    | expression | binding | param => exact ⟨c, hc, .more_cons hs ihitem hmore⟩
    | _ => cases h

theorem program_of_readsAll {ts : List Token} {es : List Expr} (h : ReadsAll fin ts es) :
    Program ts := by
  have hitems : ts = [] ∨ Derives (.items ';' .expr) ts [] := by
    induction h with
    | nil _ => exact .inl rfl
    | last he _ => exact .inr (.items (derives_of_reads he) .more_nil)
    | cons he ht _ ih =>
      refine .inr (.items (derives_of_reads he) ?_)
      rcases ih with rfl | hitems
      · exact .more_last ht
      · cases hitems with
        | items hx hmore => exact .more_cons ht hx hmore
  rcases hitems with rfl | hitems
  · exact .list_nil
  · exact .list hitems

end Sound

section Complete
open ExprLang.Parser

variable {p : Position} {ts rest : List Token}

def Legible (ts : List Token) : Prop :=
  ∀ t ∈ ts, t.kind = .number → ∃ x, Number.ofLiteral? t.text = some x

/-- The next token is no operator without a meaning. -/
def Clean (ts : List Token) : Prop := ∀ t ∈ ts.head?, t.kind = .operator → t.text ∈ infixes

def NextMark (ts : List Token) : Prop := ∃ t us, ts = t :: us ∧ t.kind = .punctuation

theorem NextMark.clean (h : NextMark ts) : Clean ts := by
  obtain ⟨t, us, rfl, hkind⟩ := h
  intro u hu hop
  cases hu
  rw [hkind] at hop
  cases hop

theorem nextMark_of_isMark {t : Token} {c : Char} (h : t.isMark c = true) : NextMark (t :: ts) :=
  ⟨t, ts, rfl, (isMark_iff.mp h).1⟩

theorem lacks_of_notNext {test : Token → Bool} (h : NotNext test ts) : Lacks (.eof p) test ts := by
  cases ts with
  | nil => exact ⟨p, rfl⟩
  | cons t ts => exact h t rfl

theorem lacks_operator (h : NotNext isInfix ts) (hclean : Clean ts) :
    Lacks (.eof p) (·.kind = .operator) ts := by
  refine lacks_of_notNext fun t ht => ?_
  have hinfix := h t ht
  rw [decide_eq_false_iff_not]
  intro hop
  simp [isInfix, hop, hclean t ht hop] at hinfix

theorem Then.subset {ts₁ : List Token} (h : Then ts ts₁) : ts₁ ⊆ ts := by
  cases h with
  | taken _ => exact List.subset_cons_self _ _
  | absent _ => exact List.Subset.refl _

theorem Derives.subset {x : Phrase} (h : Derives x ts rest) : rest ⊆ ts := by
  have hthen {ts us : List Token} (h : Then ts us) : us ⊆ ts := h.subset
  induction h <;> simp only [List.subset_def, List.mem_cons] at * <;> grind

/-- Separators with items between them, and perhaps one more separator. -/
inductive Row (s : Char) (R : List Token → List Token → Prop) : List Token → List Token → Prop
  | nil {us : List Token} : Row s R us us
  | last {t : Token} {us : List Token} (ht : t.isMark s = true) : Row s R (t :: us) us
  | cons {t : Token} {us us₁ vs : List Token} (ht : t.isMark s = true) (hx : R us us₁)
      (hmore : Row s R us₁ vs) : Row s R (t :: us) vs

section Lists

variable {b : Bracket} {r : Rule} {R : List Token → List Token → Prop} {Q : r.Tree → Prop}
  {c : Token}

theorem reads_of_row (hitem : ∀ ts ts₁, R ts ts₁ → NextMark ts₁ →
      ∃ x, Reads (.eof p) r ts x ts₁ ∧ Lacks (.eof p) (·.isMark b.close) ts ∧ Q x)
    (hc : c.isMark b.close = true) (h : Row b.separator R ts (c :: rest)) :
    ∃ xs, Reads (.eof p) (.more b r) ts xs rest ∧ NextMark ts ∧ ∀ x ∈ xs, Q x := by
  generalize hus : c :: rest = us at h
  induction h with
  | nil =>
    subst hus
    exact ⟨[], .more_nil hc, nextMark_of_isMark hc, by simp⟩
  | last ht =>
    subst hus
    exact ⟨[], .more_last ht hc, nextMark_of_isMark ht, by simp⟩
  | cons ht hx _ ih =>
    obtain ⟨xs, hxs, hmark, hQs⟩ := ih hus
    obtain ⟨x, hread, hopen, hQ⟩ := hitem _ _ hx hmark
    exact ⟨x :: xs, .more_cons ht hopen hread hxs, nextMark_of_isMark ht,
      List.forall_mem_cons.mpr ⟨hQ, hQs⟩⟩

theorem reads_of_items (hitem : ∀ ts ts₁, R ts ts₁ → NextMark ts₁ →
      ∃ x, Reads (.eof p) r ts x ts₁ ∧ Lacks (.eof p) (·.isMark b.close) ts ∧ Q x)
    (hc : c.isMark b.close = true) {ts₁ : List Token} (hx : R ts ts₁)
    (h : Row b.separator R ts₁ (c :: rest)) :
    ∃ x xs, Reads (.eof p) (.list b r) ts (x :: xs) rest ∧ ∀ y ∈ x :: xs, Q y := by
  obtain ⟨xs, hxs, hmark, hQs⟩ := reads_of_row hitem hc h
  obtain ⟨x, hread, hopen, hQ⟩ := hitem _ _ hx hmark
  exact ⟨x, xs, .list_cons hopen hread hxs, List.forall_mem_cons.mpr ⟨hQ, hQs⟩⟩

theorem reads_of_list (hitem : ∀ ts ts₁, R ts ts₁ → NextMark ts₁ →
      ∃ x, Reads (.eof p) r ts x ts₁ ∧ Lacks (.eof p) (·.isMark b.close) ts ∧ Q x)
    (hc : c.isMark b.close = true)
    (h : ts = c :: rest ∨ ∃ ts₁, R ts ts₁ ∧ Row b.separator R ts₁ (c :: rest)) :
    ∃ xs, Reads (.eof p) (.list b r) ts xs rest ∧ ∀ x ∈ xs, Q x := by
  rcases h with rfl | ⟨ts₁, hx, hrow⟩
  · exact ⟨[], .list_nil hc, by simp⟩
  · obtain ⟨x, xs, hread, hQ⟩ := reads_of_items hitem hc hx hrow
    exact ⟨x :: xs, hread, hQ⟩

end Lists

/-- What the tokens of a phrase can be read as, if no meaningless operator follows them. -/
def Readable (p : Position) : Phrase → List Token → List Token → Prop
  | .expr, ts, rest => Clean rest → ∃ e, Reads (.eof p) .expression ts e rest
  | .tail, ts, rest => Clean rest → ∃ links, Reads (.eof p) .links ts links rest ∧
      Lacks (.eof p) (·.kind = .operator) rest
  | .operand, ts, rest => Clean rest → ∃ e, Reads (.eof p) .operand ts e rest
  | .suffixes, ts, rest => ∃ args, Reads (.eof p) .arguments ts args rest
  | .atom, ts, rest => Clean rest → ∃ e, Reads (.eof p) .atom ts e rest
  | .conditional, ts, rest => Clean rest → ∃ e, Reads (.eof p) .conditional ts e rest
  | .condition, ts, rest => Clean rest → ∃ e, Reads (.eof p) .condition ts e rest
  | .binding, ts, rest => Clean rest → ∃ b, Reads (.eof p) .binding ts b rest
  | .var, ts, rest => ∃ n, ts = n :: rest ∧ n.isName = true
  | .list s x, ts, rest => ts = rest ∨ ∃ us, Readable p x ts us ∧ Row s (Readable p x) us rest
  | .items s x, ts, rest => ∃ us, Readable p x ts us ∧ Row s (Readable p x) us rest
  | .more s x, ts, rest => Row s (Readable p x) ts rest

theorem expression_item (b : Bracket) (ts ts₁ : List Token) (h : Readable p .expr ts ts₁)
    (hmark : NextMark ts₁) : ∃ e, Reads (.eof p) .expression ts e ts₁ ∧
      Lacks (.eof p) (·.isMark b.close) ts ∧ True := by
  obtain ⟨e, he⟩ := h hmark.clean
  exact ⟨e, he, he.lacks rfl fun t ht => not_close_of_starts b ht, trivial⟩

theorem binding_item (ts ts₁ : List Token) (h : Readable p .binding ts ts₁)
    (hmark : NextMark ts₁) : ∃ b, Reads (.eof p) .binding ts b ts₁ ∧
      Lacks (.eof p) (·.isMark Bracket.round.close) ts ∧ True := by
  obtain ⟨b, hb⟩ := h hmark.clean
  refine ⟨b, hb, ?_, trivial⟩
  cases hb with
  | binding hname _ => exact lacks_mark_of_name hname
  | binding_init hname _ _ => exact lacks_mark_of_name hname

theorem param_item (ts ts₁ : List Token) (h : Readable p .var ts ts₁) (_ : NextMark ts₁) :
    ∃ n, Reads (.eof p) .param ts n ts₁ ∧
      Lacks (.eof p) (·.isMark Bracket.round.close) ts ∧ True := by
  obtain ⟨n, rfl, hn⟩ := h
  exact ⟨_, .param hn, lacks_mark_of_name hn, trivial⟩

theorem name_item (ts ts₁ : List Token) (h : Readable p .var ts ts₁) (hmark : NextMark ts₁) :
    ∃ b, Reads (.eof p) .binding ts b ts₁ ∧
      Lacks (.eof p) (·.isMark Bracket.round.close) ts ∧ b.init = none := by
  obtain ⟨n, rfl, hn⟩ := h
  obtain ⟨t, us, rfl, hkind⟩ := hmark
  refine ⟨_, .binding hn ?_, lacks_mark_of_name hn, rfl⟩
  simp [Lacks, Token.isOperator, hkind]

theorem conditional_of_expression {t : Token} {e : Expr} (ht : t.isKeyword "if" = true)
    (h : Reads (.eof p) .expression (t :: ts) e rest) :
    Reads (.eof p) .conditional (t :: ts) e rest := by
  obtain ⟨hkind, htext⟩ := isKeyword_iff.mp ht
  cases h with
  | expression hleft hlinks _ =>
    cases hleft with
    | operand ha hargs =>
      cases ha with
      | branch hcond =>
        -- nothing can follow a conditional, so there are neither arguments nor links
        obtain ⟨hopen, hop⟩ := hcond.maximal
        cases hargs with
        | arguments_nil _ =>
          cases hlinks with
          | links_nil => simpa [Expr.applied] using hcond
          | links_cons hkind' => simp [Lacks, hkind'] at hop
        | arguments_cons hmark => simp [Lacks, hmark] at hopen
      | number h => simp [hkind] at h
      | string h => simp [hkind] at h
      | boolean h => simp [hkind] at h
      | var h => simp [isName_token_iff, hkind] at h
      | method h => simp [isName_token_iff, hkind] at h
      | group h => simp [isMark_iff, hkind] at h
      | array h => simp [isMark_iff, hkind] at h
      | block h => simp [isMark_iff, hkind] at h
      | lambda h => simp [isLambdaWord_iff, htext] at h
      | scope h => simp [isKeyword_iff, htext] at h
      | define h => simp [isKeyword_iff, htext] at h
      | define_init h => simp [isKeyword_iff, htext] at h
      | definition h => simp [isKeyword_iff, htext] at h
      | loop h => simp [isKeyword_iff, htext] at h

theorem Legible.of_subset {us : List Token} (h : Legible ts) (hus : us ⊆ ts) : Legible us :=
  fun t ht => h t (hus ht)

theorem Legible.tail {t : Token} (h : Legible (t :: ts)) : Legible ts :=
  h.of_subset (List.subset_cons_self _ _)

theorem clean_of_kind {t : Token} (h : t.kind ≠ .operator) : Clean (t :: ts) := by
  intro u hu hop
  cases hu
  exact absurd hop h

theorem clean_of_tail (h : Derives .tail ts rest) (hrest : Clean rest) : Clean ts := by
  cases h with
  | tail_nil _ => exact hrest
  | tail_cons ht _ _ =>
    intro u hu _
    cases hu
    simpa [isInfix] using (Bool.and_eq_true_iff.mp ht).2

theorem clean_of_suffixes (h : Derives .suffixes ts rest) (hrest : Clean rest) : Clean ts := by
  cases h with
  | suffixes_nil _ => exact hrest
  | suffixes_cons ho _ _ _ => exact (nextMark_of_isMark ho).clean

theorem lacks_name_of_mark {t : Token} {c : Char} (h : t.isMark c = true) :
    Lacks (.eof p) (·.isName) (t :: ts) := by
  simp [Lacks, Token.isName, (isMark_iff.mp h).1]

theorem clean_of_keyword {t : Token} {word : String} (h : t.isKeyword word = true) :
    Clean (t :: ts) :=
  clean_of_kind (by simp [(isKeyword_iff.mp h).1])

theorem maybe_of_then {ts₁ : List Token} {e : Expr} (h : Then ts ts₁)
    (he : Reads (.eof p) .expression ts₁ e rest) :
    Clean ts ∧ ∃ word, Maybe (.eof p) (·.isKeyword "then") ts word ts₁ := by
  cases h with
  | taken ht => exact ⟨clean_of_keyword ht, _, .taken ht⟩
  | absent hnot =>
    obtain ⟨t, us, rfl, ht⟩ := he.first rfl
    refine ⟨clean_of_kind fun hop => ?_, _, .absent (lacks_of_notNext hnot)⟩
    simp [startsExpression, hop] at ht

theorem readable_of_derives {x : Phrase} (h : Derives x ts rest) (hlegible : Legible ts) :
    Readable p x ts rest := by
  induction h with
  | expr ho ht iho iht =>
    intro hclean
    obtain ⟨left, hleft⟩ := iho hlegible (clean_of_tail ht hclean)
    obtain ⟨links, hlinks, hend⟩ := iht (hlegible.of_subset ho.subset) hclean
    exact ⟨_, .expression hleft hlinks hend⟩
  | tail_nil hend => exact fun hclean => ⟨[], .links_nil, lacks_operator hend hclean⟩
  | tail_cons ht ho hmore iho ihmore =>
    intro hclean
    simp only [isInfix, Bool.and_eq_true, decide_eq_true_eq, List.contains_iff_mem] at ht
    obtain ⟨c, hc⟩ := (mem_infixes_iff _).mp ht.2
    obtain ⟨first, hfirst⟩ := iho hlegible.tail (clean_of_tail hmore hclean)
    obtain ⟨links, hlinks, hend⟩ := ihmore (hlegible.tail.of_subset ho.subset) hclean
    exact ⟨_, .links_cons ht.1 hc hfirst hlinks, hend⟩
  | operand ha hs iha ihs =>
    intro hclean
    obtain ⟨a, ha'⟩ := iha hlegible (clean_of_suffixes hs hclean)
    obtain ⟨args, hargs⟩ := ihs (hlegible.of_subset ha.subset)
    exact ⟨_, .operand ha' hargs⟩
  | suffixes_nil hend => exact ⟨[], .arguments_nil (lacks_of_notNext hend)⟩
  | suffixes_cons ho hargs hc _ ihargs ihmore =>
    obtain ⟨args, hargs', -⟩ := reads_of_list (b := .round) (expression_item .round) hc
      (ihargs hlegible.tail)
    obtain ⟨more, hmore⟩ := ihmore (hlegible.tail.of_subset hargs.subset).tail
    exact ⟨_, .arguments_cons ho hargs' hmore⟩
  | num ht =>
    intro _
    obtain ⟨x, hx⟩ := hlegible _ List.mem_cons_self ht
    exact ⟨_, .number ht hx⟩
  | str ht => exact fun _ => ⟨_, .string ht⟩
  | bool ht => exact fun _ => ⟨_, .boolean ht⟩
  | name ht hend => exact fun _ => ⟨_, .var ht (lacks_of_notNext hend)⟩
  | method ht hdot hm ho _ hc ihargs =>
    intro _
    obtain ⟨args, hargs, -⟩ := reads_of_list (b := .round) (expression_item .round) hc
      (ihargs hlegible.tail.tail.tail.tail)
    exact ⟨_, .method ht hdot hm ho hargs⟩
  | group ho _ hc ihe =>
    intro _
    obtain ⟨e, he⟩ := ihe hlegible.tail (nextMark_of_isMark hc).clean
    exact ⟨_, .group ho he hc⟩
  | array ho _ hc ihitems =>
    intro _
    obtain ⟨items, hitems, -⟩ := reads_of_list (b := .square) (expression_item .square) hc
      (ihitems hlegible.tail)
    exact ⟨_, .array ho hitems⟩
  | block ho _ hc ihitems =>
    intro _
    obtain ⟨items, hitems, -⟩ := reads_of_list (b := .curly) (expression_item .curly) hc
      (ihitems hlegible.tail)
    exact ⟨_, .block ho hitems⟩
  | lambda ht ho hparams hc _ ihparams ihbody =>
    intro hclean
    obtain ⟨params, hparams', -⟩ := reads_of_list (b := .round) param_item hc
      (ihparams hlegible.tail.tail)
    obtain ⟨body, hbody⟩ := ihbody (hlegible.tail.tail.of_subset hparams.subset).tail hclean
    exact ⟨_, .lambda ht (.absent (lacks_name_of_mark ho)) ho hparams' hbody⟩
  | named_lambda ht hn ho hparams hc _ ihparams ihbody =>
    intro hclean
    have hlegible := hlegible.tail.tail.tail
    obtain ⟨params, hparams', -⟩ := reads_of_list (b := .round) param_item hc (ihparams hlegible)
    obtain ⟨body, hbody⟩ := ihbody (hlegible.of_subset hparams.subset).tail hclean
    exact ⟨_, .lambda ht (.taken hn) ho hparams' hbody⟩
  | scope ht ho hbindings hc _ ihbindings ihbody =>
    intro hclean
    have hlegible := hlegible.tail.tail
    obtain ⟨bindings, hbindings', -⟩ := reads_of_list (b := .round) binding_item hc
      (ihbindings hlegible)
    obtain ⟨body, hbody⟩ := ihbody (hlegible.of_subset hbindings.subset).tail hclean
    exact ⟨_, .scope ht ho hbindings' hbody⟩
  | declare ht hn heq ho =>
    exact fun _ => ⟨_, .define ht hn (lacks_of_notNext heq) (lacks_of_notNext ho)⟩
  | define ht hn hq _ ihe =>
    intro hclean
    obtain ⟨init, hinit⟩ := ihe hlegible.tail.tail.tail hclean
    exact ⟨_, .define_init ht hn hq hinit⟩
  | function ht hn ho hparams hc hq _ ihparams ihbody =>
    intro hclean
    have hlegible := hlegible.tail.tail.tail
    obtain ⟨params, hparams', hnone⟩ := reads_of_list (b := .round) name_item hc
      (ihparams hlegible)
    obtain ⟨body, hbody⟩ := ihbody (hlegible.of_subset hparams.subset).tail.tail hclean
    exact ⟨_, .definition ht hn ho hparams' hq (by simpa using hnone) hbody⟩
  | loop ht hn ho hbindings hc _ ihbindings ihbody =>
    intro hclean
    have hlegible := hlegible.tail.tail.tail
    obtain ⟨bindings, hbindings', -⟩ := reads_of_list (b := .round) binding_item hc
      (ihbindings hlegible)
    obtain ⟨body, hbody⟩ := ihbody (hlegible.of_subset hbindings.subset).tail hclean
    exact ⟨_, .loop ht hn ho hbindings' (hbody.lacks rfl fun _ => not_equals_of_starts) hbody⟩
  | branch _ ih =>
    intro hclean
    obtain ⟨e, he⟩ := ih hlegible hclean
    exact ⟨e, .branch he⟩
  | only_then ht hcond hthen _ hend ihcond ihe =>
    intro hclean
    have hlegible₁ := hlegible.tail.of_subset hcond.subset
    obtain ⟨e, he⟩ := ihe (hlegible₁.of_subset hthen.subset) hclean
    obtain ⟨hclean₁, word, hword⟩ := maybe_of_then hthen he
    obtain ⟨cond, hcond'⟩ := ihcond hlegible.tail hclean₁
    exact ⟨_, .only_then ht hcond' hword he (lacks_of_notNext hend)⟩
  | else_if ht hcond hthen he hels _ ihcond ihe ihother =>
    intro hclean
    have hlegible₁ := hlegible.tail.of_subset hcond.subset
    have hlegible₂ := hlegible₁.of_subset hthen.subset
    obtain ⟨e, he'⟩ := ihe hlegible₂ (clean_of_keyword hels)
    obtain ⟨hclean₁, word, hword⟩ := maybe_of_then hthen he'
    obtain ⟨cond, hcond'⟩ := ihcond hlegible.tail hclean₁
    obtain ⟨other, hother⟩ := ihother (hlegible₂.of_subset he.subset).tail hclean
    exact ⟨_, .else_if ht hcond' hword he' hels hother⟩
  | or_else ht hcond hthen he hels _ ihcond ihe ihother =>
    intro hclean
    have hlegible₁ := hlegible.tail.of_subset hcond.subset
    have hlegible₂ := hlegible₁.of_subset hthen.subset
    obtain ⟨e, he'⟩ := ihe hlegible₂ (clean_of_keyword hels)
    obtain ⟨hclean₁, word, hword⟩ := maybe_of_then hthen he'
    obtain ⟨cond, hcond'⟩ := ihcond hlegible.tail hclean₁
    obtain ⟨other, hother⟩ := ihother (hlegible₂.of_subset he.subset).tail hclean
    obtain ⟨t, us, rfl, -⟩ := hother.first rfl
    cases hif : t.isKeyword "if" with
    | true => exact ⟨_, .else_if ht hcond' hword he' hels (conditional_of_expression hif hother)⟩
    | false => exact ⟨_, .or_else ht hcond' hword he' hels hif hother⟩
  | bare ho _ ihe =>
    intro hclean
    obtain ⟨e, he⟩ := ihe hlegible hclean
    exact ⟨_, .bare (lacks_of_notNext ho) he⟩
  | listed ho _ hc ihitems =>
    intro _
    obtain ⟨us, hx, hrow⟩ := ihitems hlegible.tail
    obtain ⟨e, more, hlist, -⟩ := reads_of_items (b := .round) (expression_item .round) hc hx hrow
    exact ⟨_, .listed ho hlist⟩
  | binding hn heq => exact fun _ => ⟨_, .binding hn (lacks_of_notNext heq)⟩
  | binding_init hn hq _ ihe =>
    intro hclean
    obtain ⟨init, hinit⟩ := ihe hlegible.tail.tail hclean
    exact ⟨_, .binding_init hn hq hinit⟩
  | var hn => exact ⟨_, rfl, hn⟩
  | list_nil => exact .inl rfl
  | list _ ih => exact .inr (ih hlegible)
  | items hx _ ihx ihmore => exact ⟨_, ihx hlegible, ihmore (hlegible.of_subset hx.subset)⟩
  | more_nil => exact .nil
  | more_last ht => exact .last ht
  | more_cons ht hx _ ihx ihmore =>
    exact .cons ht (ihx hlegible.tail) (ihmore (hlegible.tail.of_subset hx.subset))

theorem readsAll_of_row {us : List Token} (hx : Readable p .expr ts us)
    (h : Row ';' (Readable p .expr) us []) : ∃ es, ReadsAll (.eof p) ts es := by
  generalize hend : ([] : List Token) = end_ at h
  induction h generalizing ts with
  | nil =>
    subst hend
    obtain ⟨e, he⟩ := hx (fun _ h => nomatch h)
    exact ⟨[e], .last he ⟨p, rfl⟩⟩
  | last ht =>
    subst hend
    obtain ⟨e, he⟩ := hx (nextMark_of_isMark ht).clean
    exact ⟨[e], .cons he ht (.nil ⟨p, rfl⟩)⟩
  | cons ht hx' _ ih =>
    obtain ⟨e, he⟩ := hx (nextMark_of_isMark ht).clean
    obtain ⟨es, hes⟩ := ih hx' hend
    exact ⟨e :: es, .cons he ht hes⟩

theorem readsAll_of_program (h : Program ts) (hlegible : Legible ts) :
    ∃ es, ReadsAll (.eof p) ts es := by
  rcases readable_of_derives h hlegible with rfl | ⟨us, hx, hrow⟩
  · exact ⟨[], .nil ⟨p, rfl⟩⟩
  · exact readsAll_of_row hx hrow

end Complete

end Grammar

theorem ofSource_of_tokenize {source : String} {ts : List Token} (h : tokenize source = .ok ts) :
    ∃ p, TokenStream.ofSource source false = ⟨ts, .eof p⟩ := by
  unfold tokenize TokenStream.toExcept at h
  rcases hstream : TokenStream.ofSource source false with ⟨tokens, p | e⟩
  · rw [hstream] at h
    cases h
    exact ⟨p, rfl⟩
  · rw [hstream] at h
    cases h

/-- The parser accepts exactly the grammar. -/
theorem parse_ok_iff_program {source : String} {ts : List Token} (h : tokenize source = .ok ts) :
    (∃ e, parse source = .ok e) ↔ Grammar.Program ts := by
  obtain ⟨p, hstream⟩ := ofSource_of_tokenize h
  have hmem : ∀ t ∈ ts, t ∈ (TokenStream.collect false [] (.ofSource source)).tokens := by
    intro t ht
    rw [show TokenStream.collect false [] (.ofSource source) = ⟨ts, .eof p⟩ from hstream]
    exact ht
  have hlegible : Grammar.Legible ts := by
    intro t ht hkind
    obtain ⟨c, cs, l, hl, hk, htext⟩ := TokenStream.lexeme_of_mem _ _ t (hmem t ht)
    rw [htext]
    exact Lexeme.ofLiteral?_of_number hl (hk ▸ hkind)
  have hparse : parse source = (⟨ts, .eof p⟩ : TokenStream).parse := by
    rw [parse, parseWith, hstream]
  rw [hparse]
  constructor
  · rintro ⟨e, he⟩
    obtain ⟨es, -, hreads⟩ := Parser.readsAll_of_parse he
    exact Grammar.program_of_readsAll hreads
  · intro hprogram
    obtain ⟨es, hes⟩ := Grammar.readsAll_of_program (p := p) hprogram hlegible
    exact ⟨_, Parser.parse_of_readsAll hes⟩

theorem parse_ok_iff_program_else_if :
    tokenize "if a 1 else if b \x7b\x7d" = .ok
        [⟨.keyword, "if", ⟨1, 1⟩⟩, ⟨.name, "a", ⟨1, 4⟩⟩, ⟨.number, "1", ⟨1, 6⟩⟩,
          ⟨.keyword, "else", ⟨1, 8⟩⟩, ⟨.keyword, "if", ⟨1, 13⟩⟩, ⟨.name, "b", ⟨1, 16⟩⟩,
          ⟨.punctuation, "\x7b", ⟨1, 18⟩⟩, ⟨.punctuation, "\x7d", ⟨1, 19⟩⟩] ∧
      ((∃ e, parse "if a 1 else if b \x7b\x7d" = .ok e) ↔ Grammar.Program
        [⟨.keyword, "if", ⟨1, 1⟩⟩, ⟨.name, "a", ⟨1, 4⟩⟩, ⟨.number, "1", ⟨1, 6⟩⟩,
          ⟨.keyword, "else", ⟨1, 8⟩⟩, ⟨.keyword, "if", ⟨1, 13⟩⟩, ⟨.name, "b", ⟨1, 16⟩⟩,
          ⟨.punctuation, "\x7b", ⟨1, 18⟩⟩, ⟨.punctuation, "\x7d", ⟨1, 19⟩⟩]) :=
  ⟨by decide +kernel, parse_ok_iff_program (by decide +kernel)⟩

end ExprLang
