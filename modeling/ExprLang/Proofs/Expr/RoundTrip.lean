import ExprLang.Proofs.Expr.Completeness
import ExprLang.Proofs.Token.Spelling

namespace ExprLang

namespace Expr

def WellFormed : Expr → Prop
  | number _ x => x.toBits.toNat < Number.infinityBits
  | var _ name => IsName name
  | define _ name init => IsName name ∧
      ∀ e ∈ init, ∀ p params body, e ≠ lambda p none params body
  | scope _ bindings _ => ∀ b ∈ bindings, IsName b.name
  | lambda _ name params _ => (∀ n ∈ name, IsName n) ∧ ∀ n ∈ params, IsName n
  | method _ receiver name _ => IsName receiver ∧ IsName name
  | branch _ _ _ chained alternative =>
    (chained = none ∨ alternative = none) ∧ ∀ e ∈ chained, e.isBranch = true
  | block _ statements => 2 ≤ statements.length
  | string .. | boolean .. | array .. | assign .. | binary .. | call .. => True

/-- Names are names, numbers are finite and not negative, and shapes that no text has do not
occur. -/
def Canonical : Expr → Prop := Everywhere WellFormed

theorem isBranch_erase (e : Expr) : e.erase.isBranch = e.isBranch := by
  cases e <;> rfl

end Expr

namespace Printer
open ExprLang.Parser ExprLang.Lexeme

variable {p : Position}

/-- A text with its tokens that no word or number before it can run into. -/
def Goes (rest : List Char) (ts : List Token) : Prop :=
  Spells rest ts ∧ ∀ c, rest.head? = some c → isNamePart c = false ∧ c ≠ '.'

/-- The next token does not go on with an operand. -/
def Closes (p : Position) (ts : List Token) : Prop :=
  Lacks (.eof p) (·.isMark '.') ts ∧ Lacks (.eof p) (·.isMark '(') ts ∧
    Lacks (.eof p) (·.kind = .operator) ts

/-- The next token does not go on with an expression. -/
def Ends (p : Position) (ts : List Token) : Prop :=
  Closes p ts ∧ Lacks (.eof p) (·.isKeyword "else") ts

def AsAtom (p : Position) (written : List Char → List Char) (e : Expr) : Prop :=
  ∀ rest ts, Goes rest ts → Lacks (.eof p) (·.isMark '.') ts →
    ∃ us, Spells (written rest) us ∧ Reads (.eof p) .atom us e ts ∧
      Lacks (.eof p) (·.isKeyword "if") us

/-- What is written stands for an operand, which takes in the argument lists after it. -/
def AsOperand (p : Position) (written : List Char → List Char) (e : Expr) : Prop :=
  ∀ rest ts args ts', Goes rest ts → Lacks (.eof p) (·.isMark '.') ts →
    Reads (.eof p) .arguments ts args ts' →
    ∃ us, Spells (written rest) us ∧ Reads (.eof p) .operand us (e.applied args) ts' ∧
      Lacks (.eof p) (·.isKeyword "if") us

/-- What is written stands for an expression when nothing goes on with it. -/
def AsExpression (p : Position) (written : List Char → List Char) (e : Expr) : Prop :=
  ∀ rest ts, Goes rest ts → Ends p ts →
    ∃ us, Spells (written rest) us ∧ Reads (.eof p) .expression us e ts ∧
      (e.isBranch = false → Lacks (.eof p) (·.isKeyword "if") us)

section Shapes

variable {written : List Char → List Char} {e : Expr} {rest : List Char} {ts us : List Token}

theorem AsAtom.operand (h : AsAtom p written e) : AsOperand p written e := by
  intro rest ts args ts' hgoes hdot hargs
  obtain ⟨us, hspells, hread, hif⟩ := h rest ts hgoes hdot
  exact ⟨us, hspells, .operand hread hargs, hif⟩

theorem AsOperand.closed (h : AsOperand p written e) (hgoes : Goes rest ts) (hts : Closes p ts) :
    ∃ us, Spells (written rest) us ∧ Reads (.eof p) .expression us e ts ∧
      Lacks (.eof p) (·.isKeyword "if") us := by
  obtain ⟨us, hspells, hread, hif⟩ := h rest ts [] ts hgoes hts.1 (.arguments_nil hts.2.1)
  have hexpr := Reads.expression hread .links_nil hts.2.2
  rw [Expr.chain_nil] at hexpr
  exact ⟨us, hspells, hexpr, hif⟩

theorem AsOperand.expression (h : AsOperand p written e) : AsExpression p written e := by
  intro rest ts hgoes hts
  obtain ⟨us, hspells, hread, hif⟩ := h.closed hgoes hts.1
  exact ⟨us, hspells, hread, fun _ => hif⟩

theorem expression_of_atom (h : Reads (.eof p) .atom us e ts) (hts : Ends p ts) :
    Reads (.eof p) .expression us e ts := by
  have hexpr := Reads.expression (.operand h (.arguments_nil hts.1.2.1)) .links_nil hts.1.2.2
  rw [Expr.chain_nil] at hexpr
  exact hexpr

theorem goes_blank (h : Spells rest ts) : Goes (' ' :: rest) ts := by
  refine ⟨.blank (by decide) h, ?_⟩
  intro c hc
  cases hc
  decide

theorem goes_mark {c : Char} (hc : isMark c = true) (hdot : c ≠ '.') (h : Spells rest ts) :
    Goes (c :: rest) (⟨.punctuation, String.singleton c, .start⟩ :: ts) := by
  have hmem : c ∈ [',', '.', ';', '(', ')', '[', ']', '{', '}'] := by
    simpa [isMark] using hc
  have hclass : ∀ c ∈ [',', '.', ';', '(', ')', '[', ']', '{', '}'], isNamePart c = false :=
    forall_mem_of_all (by decide)
  refine ⟨.mark hc h, ?_⟩
  intro d hd
  cases hd
  exact ⟨hclass c hmem, hdot⟩

def closers : List Char := [')', ']', '}', ',', ';']

theorem goes_closer {c : Char} (hc : c ∈ closers) (h : Spells rest ts) :
    Goes (c :: rest) (⟨.punctuation, String.singleton c, .start⟩ :: ts) := by
  have hclass : ∀ c ∈ closers, isMark c = true ∧ c ≠ '.' := forall_mem_of_all (by decide)
  exact goes_mark (hclass c hc).1 (hclass c hc).2 h

theorem ends_closer {c : Char} (hc : c ∈ closers) (ts : List Token) :
    Ends p (⟨.punctuation, String.singleton c, .start⟩ :: ts) := by
  have hclass : ∀ c ∈ closers, Token.isMark ⟨.punctuation, String.singleton c, .start⟩ '.' = false ∧
      Token.isMark ⟨.punctuation, String.singleton c, .start⟩ '(' = false :=
    forall_mem_of_all (by decide)
  exact ⟨⟨(hclass c hc).1, (hclass c hc).2, rfl⟩, rfl⟩

theorem AsExpression.group (h : AsExpression p written e) :
    AsAtom p (fun rest => '(' :: written (')' :: rest)) e := by
  intro rest ts hgoes _
  obtain ⟨us, hspells, hread, -⟩ := h (')' :: rest) _ (goes_closer (by decide) hgoes.1)
    (ends_closer (by decide) ts)
  exact ⟨_, .mark (by decide) hspells, .group rfl hread rfl, rfl⟩

theorem asOperand_parenthesize {needed : Bool} (hopen : AsExpression p written e)
    (hclosed : needed = false → AsOperand p written e) :
    AsOperand p (parenthesize needed written) e := by
  cases needed with
  | false => exact hclosed rfl
  | true => exact hopen.group.operand

theorem asAtom_join {writtenLeft writtenRight : List Char → List Char} {left right : Expr}
    {symbol : String} {c : Connective}
    (hsymbol : symbol = "=" ∨ ∃ o : Operator, symbol = o.symbol)
    (hc : Connective.ofSymbol? symbol = some c) (hleft : AsOperand p writtenLeft left)
    (hright : AsOperand p writtenRight right) :
    AsAtom p (fun rest => '(' :: writtenLeft
      (' ' :: (symbol.toList ++ ' ' :: writtenRight (')' :: rest)))) (.join c left right) := by
  intro rest ts hgoes _
  have hend := ends_closer (p := p) (c := ')') (by decide) ts
  obtain ⟨us, hspells, hread, -⟩ := hright (')' :: rest) _ [] _
    (goes_closer (by decide) hgoes.1) hend.1.1 (.arguments_nil hend.1.2.1)
  obtain ⟨vs, hspells', hread', -⟩ := hleft _ _ [] _ (goes_blank (.connective hsymbol hspells))
    rfl (.arguments_nil rfl)
  have hexpr := Reads.expression hread'
    (.links_cons rfl hc hread .links_nil) hend.1.2.2
  rw [Expr.chain_singleton] at hexpr
  exact ⟨_, .mark (by decide) hspells', .group rfl hexpr rfl, rfl⟩

end Shapes

section Lists

variable {α : Type}

def following (separator : List Char) (writeItem : α → List Char → List Char) :
    List α → List Char → List Char
  | [], rest => rest
  | x :: xs, rest => separator ++ writeItem x (following separator writeItem xs rest)

def separated (separator : List Char) (writeItem : α → List Char → List Char) :
    List α → List Char → List Char
  | [], rest => rest
  | x :: xs, rest => writeItem x (following separator writeItem xs rest)

theorem writeList_eq (depth : Nat) (es : List Expr) (rest : List Char) :
    writeList depth es rest = separated ", ".toList (write depth) es rest := by
  match es with
  | [] => rw [writeList, separated]
  | [e] => rw [writeList, separated, following]
  | e :: e' :: es =>
    rw [writeList, writeList_eq depth (e' :: es) rest]
    · rfl
    · simp

theorem writeBindings_eq (depth : Nat) (bs : List (Binding Expr)) (rest : List Char) :
    writeBindings depth bs rest = separated ", ".toList (writeBinding depth) bs rest := by
  match bs with
  | [] => rw [writeBindings, separated]
  | [b] => rw [writeBindings, separated, following]
  | b :: b' :: bs =>
    rw [writeBindings, writeBindings_eq depth (b' :: bs) rest]
    · rfl
    · simp

theorem joined_eq (names : List String) (rest : List Char) :
    joined names ++ rest = separated ", ".toList (fun s rest => s.toList ++ rest) names rest := by
  match names with
  | [] => rfl
  | [s] => rfl
  | s :: s' :: names =>
    rw [joined, List.append_assoc, List.append_assoc, joined_eq (s' :: names) rest]
    · rfl
    · simp

theorem writeStatements_eq (depth : Nat) (es : List Expr) (hne : es ≠ []) (rest : List Char) :
    writeStatements depth es rest =
      separated ";\n".toList (fun e rest => indent depth ++ write depth e rest) es
        ('\n' :: rest) := by
  match es with
  | [e] => rw [writeStatements, separated, following]
  | e :: e' :: es =>
    rw [writeStatements, writeStatements_eq depth (e' :: es) (by simp) rest]
    · rfl
    · simp

/-- What is written stands for an item of a list. -/
def AsItem (p : Position) (b : Bracket) (item : Rule) (written : List Char → List Char)
    (x : item.Tree) : Prop :=
  ∀ rest ts, Goes rest ts → Ends p ts →
    ∃ us, Spells (written rest) us ∧ Reads (.eof p) item us x ts ∧
      Lacks (.eof p) (·.isMark b.close) us

variable {b : Bracket} {item : Rule} {writeItem : α → List Char → List Char}
  {tree : α → item.Tree} {blank : Char} {rest : List Char} {ts : List Token}

theorem reads_following (hblank : isBlank blank = true)
    (hrest : Goes rest (⟨.punctuation, String.singleton b.close, .start⟩ :: ts)) (xs : List α)
    (hxs : ∀ x ∈ xs, AsItem p b item (writeItem x) (tree x)) :
    ∃ us, Goes (following [b.separator, blank] writeItem xs rest) us ∧ Ends p us ∧
      Reads (.eof p) (.more b item) us (xs.map tree) ts := by
  have hsep : b.separator ∈ closers := by cases b <;> decide
  have hclose : b.close ∈ closers := by cases b <;> decide
  induction xs with
  | nil => exact ⟨_, hrest, ends_closer hclose ts, .more_nil (isMark_iff.mpr ⟨rfl, rfl⟩)⟩
  | cons x xs ih =>
    obtain ⟨us, hgoes, hends, hmore⟩ := ih fun x hx => hxs x (List.mem_cons_of_mem _ hx)
    obtain ⟨vs, hspells, hread, hopen⟩ := hxs x List.mem_cons_self _ us hgoes hends
    refine ⟨_, goes_closer hsep (.blank hblank hspells), ends_closer hsep vs, ?_⟩
    exact .more_cons (isMark_iff.mpr ⟨rfl, rfl⟩) hopen hread hmore

theorem reads_separated (hblank : isBlank blank = true)
    (hrest : Goes rest (⟨.punctuation, String.singleton b.close, .start⟩ :: ts)) (xs : List α)
    (hxs : ∀ x ∈ xs, AsItem p b item (writeItem x) (tree x)) :
    ∃ us, Spells (separated [b.separator, blank] writeItem xs rest) us ∧
      Reads (.eof p) (.list b item) us (xs.map tree) ts := by
  cases xs with
  | nil => exact ⟨_, hrest.1, .list_nil (isMark_iff.mpr ⟨rfl, rfl⟩)⟩
  | cons x xs =>
    obtain ⟨us, hgoes, hends, hmore⟩ :=
      reads_following hblank hrest xs fun x hx => hxs x (List.mem_cons_of_mem _ hx)
    obtain ⟨vs, hspells, hread, hopen⟩ := hxs x List.mem_cons_self _ us hgoes hends
    exact ⟨vs, hspells, .list_cons hopen hread hmore⟩

end Lists

section Nodes

variable {rest : List Char} {ts : List Token} {e : Expr} {name : String}

theorem Goes.namePart (h : Goes rest ts) (c : Char) (hc : rest.head? = some c) :
    isNamePart c = false :=
  (h.2 c hc).1

theorem spells_name (hname : IsName name) (hrest : ∀ c, rest.head? = some c → isNamePart c = false)
    (h : Spells rest ts) : Spells (name.toList ++ rest) (⟨.name, name, .start⟩ :: ts) := by
  obtain ⟨hword, hkind⟩ := (isName_iff name).mp hname
  have hspells := Spells.word hword hrest h
  rw [hkind] at hspells
  exact hspells

theorem spells_keyword (word : String) (hword : word ∈ keywords)
    (hrest : ∀ c, rest.head? = some c → isNamePart c = false) (h : Spells rest ts) :
    Spells (word.toList ++ rest) (⟨.keyword, word, .start⟩ :: ts) := by
  have hclass : ∀ word ∈ keywords, isWord word = true ∧ wordKind word = .keyword := by decide
  obtain ⟨hisWord, hkind⟩ := hclass word hword
  have hspells := Spells.word hisWord hrest h
  rw [hkind] at hspells
  exact hspells

theorem asAtom_number {x : Float} (hx : x.toBits.toNat < Number.infinityBits) :
    AsAtom p (fun rest => (Number.Style.source.render x).toList ++ rest) (.number .start x) := by
  intro rest ts hgoes _
  obtain ⟨hnumeral, hread⟩ := Number.render_readsBack hx
  refine ⟨_, .number hnumeral ?_ hgoes.1, .number rfl hread, rfl⟩
  intro c hc
  obtain ⟨hpart, hdot⟩ := hgoes.2 c hc
  simp only [isNamePart, Bool.or_eq_false_iff] at hpart
  exact ⟨by simp [hpart], hdot⟩

theorem asAtom_string (s : String) : AsAtom p (fun rest => literal s ++ rest) (.string .start s) :=
  fun _ _ hgoes _ => ⟨_, .literal s hgoes.1, .string rfl, rfl⟩

theorem asAtom_boolean (b : Bool) :
    AsAtom p (fun rest => (if b then "true" else "false").toList ++ rest) (.boolean .start b) := by
  intro rest ts hgoes _
  cases b with
  | true => exact ⟨_, .word (s := "true") (by decide) hgoes.namePart hgoes.1, .boolean rfl, rfl⟩
  | false => exact ⟨_, .word (s := "false") (by decide) hgoes.namePart hgoes.1, .boolean rfl, rfl⟩

theorem asAtom_var (hname : IsName name) :
    AsAtom p (fun rest => name.toList ++ rest) (.var .start name) :=
  fun _ _ hgoes hdot => ⟨_, spells_name hname hgoes.namePart hgoes.1, .var rfl hdot, rfl⟩

theorem AsExpression.item {written : List Char → List Char} (b : Bracket)
    (h : AsExpression p written e) : AsItem p b .expression written e := by
  intro rest ts hgoes hends
  obtain ⟨us, hspells, hread, -⟩ := h rest ts hgoes hends
  exact ⟨us, hspells, hread, hread.lacks rfl fun t ht => not_close_of_starts b ht⟩

theorem reads_writeList {b : Bracket} (hb : b.separator = ',') {depth : Nat} {es : List Expr}
    (hes : ∀ e ∈ es, AsExpression p (write depth e) e.erase) (h : Spells rest ts) :
    ∃ us, Spells (writeList depth es (b.close :: rest)) us ∧
      Reads (.eof p) (.list b .expression) us (es.map Expr.erase) ts := by
  have hclose : b.close ∈ closers := by cases b <;> decide
  have hsep : ", ".toList = [b.separator, ' '] := by rw [hb]; rfl
  rw [writeList_eq, hsep]
  exact reads_separated (by decide) (goes_closer hclose h) es fun e he => (hes e he).item b

theorem asAtom_array {depth : Nat} {items : List Expr}
    (hitems : ∀ e ∈ items, AsExpression p (write depth e) e.erase) :
    AsAtom p (fun rest => '[' :: writeList depth items (']' :: rest))
      (.array .start (items.map Expr.erase)) := by
  intro rest ts hgoes _
  obtain ⟨us, hspells, hread⟩ := reads_writeList (b := .square) rfl hitems hgoes.1
  exact ⟨_, .mark (by decide) hspells, .array rfl hread, rfl⟩

theorem asAtom_method {method : String} {depth : Nat} {args : List Expr} (hname : IsName name)
    (hmethod : IsName method) (hargs : ∀ e ∈ args, AsExpression p (write depth e) e.erase) :
    AsAtom p (fun rest => name.toList ++ '.' :: method.toList ++
        '(' :: writeList depth args (')' :: rest))
      (.method .start name method (args.map Expr.erase)) := by
  intro rest ts hgoes _
  obtain ⟨us, hspells, hread⟩ := reads_writeList (b := .round) rfl hargs hgoes.1
  have hopen := goes_mark (c := '(') (by decide) (by decide) hspells
  have hdot := Spells.mark (c := '.') (by decide) (spells_name hmethod hopen.namePart hopen.1)
  have hwhole := spells_name hname (by simp [isNamePart, isNameStart, isDigit]) hdot
  rw [← List.cons_append, ← List.append_assoc] at hwhole
  exact ⟨_, hwhole, .method rfl rfl rfl rfl hread, rfl⟩

theorem asOperand_call {callee : Expr} {written : List Char → List Char} {depth : Nat}
    {args : List Expr} (hcallee : AsOperand p written callee.erase)
    (hargs : ∀ e ∈ args, AsExpression p (write depth e) e.erase) :
    AsOperand p (fun rest => written ('(' :: writeList depth args (')' :: rest)))
      (.call .start callee.erase (args.map Expr.erase)) := by
  intro rest ts more ts' hgoes _ hmore
  obtain ⟨us, hspells, hread⟩ := reads_writeList (b := .round) rfl hargs hgoes.1
  have hopen := goes_mark (c := '(') (by decide) (by decide) hspells
  have happlied := hcallee _ _ _ _ hopen rfl (.arguments_cons rfl hread hmore)
  rw [Expr.applied, Expr.position_erase] at happlied
  exact happlied

theorem asAtom_block {depth : Nat} {statements : List Expr} (hlength : 2 ≤ statements.length)
    (hstatements : ∀ e ∈ statements, AsExpression p (write (depth + 1) e) e.erase) :
    AsAtom p (fun rest => "\x7b\n".toList ++
        writeStatements (depth + 1) statements (indent depth ++ '}' :: rest))
      (.block .start (statements.map Expr.erase)) := by
  intro rest ts hgoes _
  have hne : statements ≠ [] := by
    rintro rfl
    cases hlength
  have hclose : Goes ('\n' :: (indent depth ++ '}' :: rest))
      (⟨.punctuation, String.singleton Bracket.curly.close, .start⟩ :: ts) := by
    refine ⟨.blank (by decide) (.blanks (.mark (by decide) hgoes.1)), ?_⟩
    intro c hc
    cases hc
    decide
  have hitems : ∀ e ∈ statements, AsItem p .curly .expression
      (fun rest => indent (depth + 1) ++ write (depth + 1) e rest) e.erase := by
    intro e he rest ts hgoes hends
    obtain ⟨us, hspells, hread, hopen⟩ := (hstatements e he).item .curly rest ts hgoes hends
    exact ⟨us, .blanks hspells, hread, hopen⟩
  -- The line break before the closing brace is a blank, so the last statement goes into it.
  obtain ⟨us, hspells, hread⟩ := reads_separated (b := .curly)
    (show isBlank '\n' = true by decide) hclose statements hitems
  have hblock : blockOf .start (statements.map Expr.erase) =
      .block .start (statements.map Expr.erase) := by
    match statements, hlength with
    | _ :: _ :: _, _ => rfl
  rw [← hblock]
  refine ⟨_, ?_, .block (t := ⟨.punctuation, "\x7b", .start⟩) rfl hread, rfl⟩
  dsimp only
  rw [writeStatements_eq _ _ hne]
  exact .mark (by decide) (.blank (by decide) hspells)

theorem spells_let (h : Spells rest ts) :
    Spells ("let ".toList ++ rest) (⟨.keyword, "let", .start⟩ :: ts) := by
  have hgoes := goes_blank h
  exact spells_keyword "let" (by decide) hgoes.namePart hgoes.1

theorem spells_equals (h : Spells rest ts) :
    Goes (" = ".toList ++ rest) (⟨.operator, "=", .start⟩ :: ts) :=
  goes_blank (.connective (.inl rfl) h)

theorem Ends.equals (h : Ends p ts) : Lacks (.eof p) (·.isOperator "=") ts := by
  have hop := h.1.2.2
  cases ts with
  | nil => exact ⟨p, rfl⟩
  | cons t ts =>
    simp only [Lacks, decide_eq_false_iff_not] at hop
    simp [Lacks, Token.isOperator, hop]

theorem asExpression_declare (hname : IsName name) :
    AsExpression p (fun rest => "let ".toList ++ name.toList ++ rest)
      (.define .start name none) := by
  intro rest ts hgoes hends
  have hspells := spells_let (spells_name hname hgoes.namePart hgoes.1)
  rw [← List.append_assoc] at hspells
  exact ⟨_, hspells, expression_of_atom (.define rfl rfl hends.equals hends.1.2.1) hends,
    fun _ => rfl⟩

theorem asExpression_define {written : List Char → List Char} (hname : IsName name)
    (he : AsExpression p written e) (hlambda : e.nameLambda name = e) :
    AsExpression p (fun rest => "let ".toList ++ name.toList ++ (" = ".toList ++ written rest))
      (.define .start name (some e)) := by
  intro rest ts hgoes hends
  obtain ⟨us, hspells, hread, -⟩ := he rest ts hgoes hends
  have hequals := spells_equals hspells
  have hwhole := spells_let (spells_name hname hequals.namePart hequals.1)
  rw [← List.append_assoc] at hwhole
  rw [← hlambda]
  exact ⟨_, hwhole, expression_of_atom (.define_init rfl rfl rfl hread) hends, fun _ => rfl⟩

theorem asItem_binding {b : Binding Expr} {depth : Nat} (hname : IsName b.name)
    (hinit : ∀ e ∈ b.init, AsExpression p (write depth e) e.erase) :
    AsItem p .round .binding (writeBinding depth b) (Expr.eraseBinding b) := by
  intro rest ts hgoes hends
  obtain ⟨name, init⟩ := b
  cases init with
  | none =>
    exact ⟨_, spells_name hname hgoes.namePart hgoes.1, .binding rfl hends.equals, rfl⟩
  | some e =>
    obtain ⟨us, hspells, hread, -⟩ := hinit e rfl rest ts hgoes hends
    have hequals := spells_equals hspells
    exact ⟨_, spells_name hname hequals.namePart hequals.1, .binding_init rfl rfl hread, rfl⟩

theorem asExpression_scope {bindings : List (Binding Expr)} {depth : Nat}
    (hbindings : ∀ b ∈ bindings,
      AsItem p .round .binding (writeBinding depth b) (Expr.eraseBinding b))
    (hbody : AsExpression p (write depth e) e.erase) :
    AsExpression p (fun rest => "let (".toList ++
        writeBindings depth bindings (") ".toList ++ write depth e rest))
      (.scope .start (bindings.map Expr.eraseBinding) e.erase) := by
  intro rest ts hgoes hends
  obtain ⟨us, hspells, hread, -⟩ := hbody rest ts hgoes hends
  have hclose := goes_closer (c := ')') (by decide) (.blank (c := ' ') (by decide) hspells)
  obtain ⟨vs, hspells', hread'⟩ := reads_separated (b := .round)
    (show isBlank ' ' = true by decide) hclose bindings hbindings
  have hwhole := spells_let (.mark (c := '(') (by decide) hspells')
  have htext : "let (".toList ++ writeBindings depth bindings (") ".toList ++ write depth e rest) =
      "let ".toList ++ '(' :: separated [',', ' '] (writeBinding depth) bindings
        (')' :: ' ' :: write depth e rest) := by
    rw [writeBindings_eq]
    rfl
  dsimp only
  rw [htext]
  exact ⟨_, hwhole, expression_of_atom (.scope rfl rfl hread' hread) hends, fun _ => rfl⟩

theorem asExpression_lambda {name : Option String} {params : List String} {depth : Nat}
    (hname : ∀ n ∈ name, IsName n) (hparams : ∀ n ∈ params, IsName n)
    (hbody : AsExpression p (write depth e) e.erase) :
    AsExpression p (fun rest => "fn".toList ++ lambdaName name ++ '(' :: joined params ++
        ") ".toList ++ write depth e rest)
      (.lambda .start name params e.erase) := by
  intro rest ts hgoes hends
  obtain ⟨us, hspells, hread, -⟩ := hbody rest ts hgoes hends
  have hclose := goes_closer (c := ')') (by decide) (.blank (c := ' ') (by decide) hspells)
  have hitems : ∀ n ∈ params, AsItem p .round .param (fun rest => n.toList ++ rest) n :=
    fun n hn _ _ hgoes _ => ⟨_, spells_name (hparams n hn) hgoes.namePart hgoes.1, .param rfl, rfl⟩
  obtain ⟨vs, hspells', hread'⟩ := reads_separated (b := .round)
    (show isBlank ' ' = true by decide) hclose params hitems
  rw [List.map_id'' (fun _ => rfl)] at hread'
  have hopen := goes_mark (c := '(') (by decide) (by decide) hspells'
  have htext : "fn".toList ++ lambdaName name ++ '(' :: joined params ++ ") ".toList ++
        write depth e rest =
      "fn".toList ++ (lambdaName name ++ '(' ::
        separated [',', ' '] (fun s rest => s.toList ++ rest) params
          (')' :: ' ' :: write depth e rest)) := by
    have hjoined := joined_eq params (')' :: ' ' :: write depth e rest)
    rw [show ", ".toList = [',', ' '] from rfl] at hjoined
    rw [← hjoined]
    simp
  dsimp only
  rw [htext]
  cases name with
  | none =>
    have hwhole := spells_keyword "fn" (by decide) hopen.namePart hopen.1
    have hname : Maybe (.eof p) (·.isName) (⟨.punctuation, "(", .start⟩ :: vs) none _ := .absent rfl
    exact ⟨_, hwhole, expression_of_atom (.lambda rfl hname rfl hread' hread) hends, fun _ => rfl⟩
  | some n =>
    have hspaced := goes_blank (spells_name (hname n rfl) hopen.namePart hopen.1)
    have hwhole := spells_keyword "fn" (by decide) hspaced.namePart hspaced.1
    exact ⟨_, hwhole, expression_of_atom (.lambda rfl (.taken rfl) rfl hread' hread) hends,
      fun _ => rfl⟩

/-- What is written stands for a conditional when nothing goes on with it. -/
def AsConditional (p : Position) (written : List Char → List Char) (e : Expr) : Prop :=
  ∀ rest ts, Goes rest ts → Ends p ts →
    ∃ us, Spells (written rest) us ∧ Reads (.eof p) .conditional us e ts

theorem AsConditional.expression {written : List Char → List Char}
    (h : AsConditional p written e) (he : e.isBranch = true) : AsExpression p written e := by
  intro rest ts hgoes hends
  obtain ⟨us, hspells, hread⟩ := h rest ts hgoes hends
  refine ⟨us, hspells, expression_of_atom (.branch hread) hends, ?_⟩
  intro hnot
  rw [he] at hnot
  cases hnot

theorem spells_if (h : Spells rest ts) :
    Spells ("if (".toList ++ rest)
      (⟨.keyword, "if", .start⟩ :: ⟨.punctuation, "(", .start⟩ :: ts) := by
  have hgoes := goes_blank (.mark (c := '(') (by decide) h)
  exact spells_keyword "if" (by decide) hgoes.namePart hgoes.1

theorem spells_else (h : Spells rest ts) :
    Goes (" else ".toList ++ rest) (⟨.keyword, "else", .start⟩ :: ts) := by
  have hgoes := goes_blank h
  exact goes_blank (spells_keyword "else" (by decide) hgoes.namePart hgoes.1)

theorem reads_condition {cond : Expr} {depth : Nat} {ts' : List Token}
    (hcond : AsExpression p (write depth cond) cond.erase) (h : Spells rest ts)
    (hts : Reads (.eof p) .expression ts e ts') :
    ∃ us, Spells (write depth cond (") ".toList ++ rest)) us ∧
      Reads (.eof p) .condition (⟨.punctuation, "(", .start⟩ :: us) cond.erase ts ∧
      Maybe (.eof p) (·.isKeyword "then") ts none ts := by
  have hclose := goes_closer (c := ')') (by decide) (.blank (c := ' ') (by decide) h)
  obtain ⟨us, hspells, hread, hopen⟩ :=
    hcond.item .round _ _ hclose (ends_closer (c := ')') (by decide) ts)
  refine ⟨us, hspells, .listed rfl (.list_cons hopen hread (.more_nil rfl)), .absent ?_⟩
  exact hts.lacks rfl fun t ht => not_isKeyword_of_starts (by decide) ht

section Conditional

variable {depth : Nat} {cond other : Expr} {written writtenOther : List Char → List Char}

theorem asConditional_then (hcond : AsExpression p (write depth cond) cond.erase)
    (he : AsExpression p written e) :
    AsConditional p
      (fun rest => "if (".toList ++ write depth cond (") ".toList ++ written rest))
      (.branch .start cond.erase e none none) := by
  intro rest ts hgoes hends
  obtain ⟨us, hspells, hread, -⟩ := he rest ts hgoes hends
  obtain ⟨vs, hspells', hread', hthen⟩ := reads_condition hcond hspells hread
  exact ⟨_, spells_if hspells', .only_then rfl hread' hthen hread hends.2⟩

theorem asConditional_chained (hcond : AsExpression p (write depth cond) cond.erase)
    (he : AsOperand p written e) (hother : AsConditional p writtenOther other) :
    AsConditional p
      (fun rest => "if (".toList ++ write depth cond (") ".toList ++ written
        (" else ".toList ++ writtenOther rest)))
      (.branch .start cond.erase e (some other) none) := by
  intro rest ts hgoes hends
  obtain ⟨os, hspells₁, hread₁⟩ := hother rest ts hgoes hends
  obtain ⟨us, hspells, hread, -⟩ := he.closed (spells_else hspells₁) ⟨rfl, rfl, rfl⟩
  obtain ⟨vs, hspells', hread', hthen⟩ := reads_condition hcond hspells hread
  exact ⟨_, spells_if hspells', .else_if rfl hread' hthen hread rfl hread₁⟩

theorem asConditional_else (hcond : AsExpression p (write depth cond) cond.erase)
    (he : AsOperand p written e)
    (hother : ∀ rest ts, Goes rest ts → Ends p ts → ∃ us, Spells (writtenOther rest) us ∧
      Reads (.eof p) .expression us other ts ∧ Lacks (.eof p) (·.isKeyword "if") us) :
    AsConditional p
      (fun rest => "if (".toList ++ write depth cond (") ".toList ++ written
        (" else ".toList ++ writtenOther rest)))
      (.branch .start cond.erase e none (some other)) := by
  intro rest ts hgoes hends
  obtain ⟨os, hspells₁, hread₁, hif⟩ := hother rest ts hgoes hends
  obtain ⟨us, hspells, hread, -⟩ := he.closed (spells_else hspells₁) ⟨rfl, rfl, rfl⟩
  obtain ⟨vs, hspells', hread', hthen⟩ := reads_condition hcond hspells hread
  exact ⟨_, spells_if hspells', .or_else rfl hread' hthen hread rfl hif hread₁⟩

end Conditional

end Nodes

/-- An expression is read back from what is written for it. -/
structure ReadsBack (p : Position) (e : Expr) : Prop where
  expression : ∀ depth, AsExpression p (write depth e) e.erase
  operand : e.isOpenEnded = false → ∀ depth, AsOperand p (write depth e) e.erase
  conditional : e.isBranch = true → ∀ depth, AsConditional p (write depth e) e.erase

namespace ReadsBack

variable {e : Expr}

theorem of_operand (hbranch : e.isBranch = false)
    (h : ∀ depth, AsOperand p (write depth e) e.erase) : ReadsBack p e where
  expression depth := (h depth).expression
  operand _ := h
  conditional hcond := by rw [hbranch] at hcond; cases hcond

theorem of_expression (hopen : e.isOpenEnded = true) (hbranch : e.isBranch = false)
    (h : ∀ depth, AsExpression p (write depth e) e.erase) : ReadsBack p e where
  expression := h
  operand hclosed := by rw [hopen] at hclosed; cases hclosed
  conditional hcond := by rw [hbranch] at hcond; cases hcond

theorem of_conditional (hbranch : e.isBranch = true)
    (h : ∀ depth, AsConditional p (write depth e) e.erase) : ReadsBack p e where
  expression depth := (h depth).expression (by rw [Expr.isBranch_erase, hbranch])
  operand hclosed := by cases e <;> simp [Expr.isBranch, Expr.isOpenEnded] at hbranch hclosed
  conditional _ := h

theorem enclosed (h : ReadsBack p e) (depth : Nat) :
    AsOperand p (parenthesize e.isOpenEnded (write depth e)) e.erase :=
  asOperand_parenthesize (h.expression depth) fun hclosed => h.operand hclosed depth

theorem alternative (h : ReadsBack p e) (depth : Nat) (rest : List Char) (ts : List Token)
    (hgoes : Goes rest ts) (hends : Ends p ts) :
    ∃ us, Spells (parenthesize e.isBranch (write depth e) rest) us ∧
      Reads (.eof p) .expression us e.erase ts ∧ Lacks (.eof p) (·.isKeyword "if") us := by
  cases hbranch : e.isBranch with
  | true => exact (h.expression depth).group.operand.closed hgoes hends.1
  | false =>
    obtain ⟨us, hspells, hread, hif⟩ := h.expression depth rest ts hgoes hends
    exact ⟨us, hspells, hread, hif (by rw [Expr.isBranch_erase, hbranch])⟩

end ReadsBack

theorem nameLambda_erase {e : Expr} (name : String)
    (h : ∀ q params body, e ≠ .lambda q none params body) : e.erase.nameLambda name = e.erase := by
  cases e with
  | lambda q inner params body =>
    cases inner with
    | none => exact absurd rfl (h q params body)
    | some inner => rfl
  | _ => rfl

theorem readsBack_branch {q : Position} {cond e : Expr} {chained alternative : Option Expr}
    (hshape : (chained = none ∨ alternative = none) ∧ ∀ x ∈ chained, x.isBranch = true)
    (hcond : ReadsBack p cond) (he : ReadsBack p e) (hchained : ∀ x ∈ chained, ReadsBack p x)
    (halternative : ∀ x ∈ alternative, ReadsBack p x) :
    ReadsBack p (.branch q cond e chained alternative) := by
  refine .of_conditional rfl fun depth => ?_
  cases chained with
  | some x =>
    -- A conditional with both parts after `else` has no text.
    obtain rfl : alternative = none := hshape.1.resolve_left (by simp)
    have hwritten := asConditional_chained (hcond.expression depth) (he.enclosed depth)
      ((hchained x rfl).conditional (hshape.2 x rfl) depth)
    rw [← Bool.and_true e.isOpenEnded] at hwritten
    exact hwritten
  | none =>
    cases alternative with
    | none =>
      have hwritten := asConditional_then (hcond.expression depth) (he.expression depth)
      -- Nothing stands after the consequent, so even an open end needs no parentheses.
      have hneeded : write depth e = parenthesize (e.isOpenEnded && false) (write depth e) := by
        rw [Bool.and_false]
        rfl
      rw [hneeded] at hwritten
      exact hwritten
    | some x =>
      have hwritten := asConditional_else (hcond.expression depth) (he.enclosed depth)
        ((halternative x rfl).alternative depth)
      rw [← Bool.and_true e.isOpenEnded] at hwritten
      exact hwritten

/-- Every canonical tree is read back from what is written for it. -/
theorem readsBack_of_canonical {e : Expr} (h : e.Canonical) : ReadsBack p e := by
  induction h with
  | @node e here _ ih =>
    cases e with
    | number q x => exact .of_operand rfl fun _ => (asAtom_number here).operand
    | string q s => exact .of_operand rfl fun _ => (asAtom_string s).operand
    | boolean q b => exact .of_operand rfl fun _ => (asAtom_boolean b).operand
    | array q items =>
      refine .of_operand rfl fun depth => ?_
      rw [Expr.erase, Expr.eraseAll_eq_map]
      exact (asAtom_array fun e he => (ih e he).expression depth).operand
    | var q name => exact .of_operand rfl fun _ => (asAtom_var here).operand
    | define q name init =>
      refine .of_expression rfl rfl fun depth => ?_
      rw [Expr.erase]
      cases init with
      | none => exact asExpression_declare here.1
      | some e =>
        exact asExpression_define here.1 ((ih e (by simp [Expr.children])).expression depth)
          (nameLambda_erase name (here.2 e rfl))
    | scope q bindings body =>
      refine .of_expression rfl rfl fun depth => ?_
      rw [Expr.erase, Expr.eraseBindings_eq_map]
      refine asExpression_scope ?_ ((ih body (by simp [Expr.children])).expression depth)
      intro b hb
      refine asItem_binding (here b hb) fun e he => (ih e ?_).expression depth
      simp only [Expr.children, List.mem_append, List.mem_filterMap]
      exact .inl ⟨b, hb, he⟩
    | assign q target value =>
      refine .of_operand rfl fun depth => ?_
      have hwritten := asAtom_join (.inl rfl) rfl
        ((ih target (by simp [Expr.children])).enclosed depth)
        ((ih value (by simp [Expr.children])).enclosed depth)
      rw [Expr.join, Expr.position_erase] at hwritten
      exact hwritten.operand
    | binary q op left right =>
      refine .of_operand rfl fun depth => ?_
      have hsymbol : Connective.ofSymbol? op.symbol = some (.binary op) := by cases op <;> decide
      have hwritten := asAtom_join (.inr ⟨op, rfl⟩) hsymbol
        ((ih left (by simp [Expr.children])).enclosed depth)
        ((ih right (by simp [Expr.children])).enclosed depth)
      rw [Expr.join, Expr.position_erase] at hwritten
      exact hwritten.operand
    | lambda q name params body =>
      refine .of_expression rfl rfl fun depth => ?_
      rw [Expr.erase]
      exact asExpression_lambda here.1 here.2 ((ih body (by simp [Expr.children])).expression depth)
    | call q callee args =>
      refine .of_operand rfl fun depth => ?_
      rw [Expr.erase, Expr.eraseAll_eq_map]
      exact asOperand_call ((ih callee (by simp [Expr.children])).enclosed depth)
        fun e he => (ih e (List.mem_cons_of_mem _ he)).expression depth
    | method q receiver method args =>
      refine .of_operand rfl fun depth => ?_
      rw [Expr.erase, Expr.eraseAll_eq_map]
      exact (asAtom_method here.1 here.2 fun e he => (ih e he).expression depth).operand
    | branch q cond e chained alternative =>
      refine readsBack_branch here (ih cond (by simp [Expr.children]))
        (ih e (by simp [Expr.children])) (fun x hx => ih x ?_) (fun x hx => ih x ?_)
      · simp [Expr.children, Option.mem_def.mp hx]
      · simp [Expr.children, Option.mem_def.mp hx]
    | block q statements =>
      refine .of_operand rfl fun depth => ?_
      rw [Expr.erase, Expr.eraseAll_eq_map]
      rcases statements with _ | ⟨e, more⟩
      · cases here
      · exact (asAtom_block here fun e he => (ih e he).expression (depth + 1)).operand

theorem readsAll_writeProgram {statements : List Expr} (h : ∀ e ∈ statements, e.Canonical) :
    ∃ us, Spells (writeProgram statements) us ∧
      ReadsAll (.eof p) us (statements.map Expr.erase) := by
  induction statements with
  | nil => exact ⟨[], .nil, .nil ⟨p, rfl⟩⟩
  | cons e more ih =>
    obtain ⟨us, hspells, hread⟩ := ih fun e he => h e (List.mem_cons_of_mem _ he)
    have hsemicolon := goes_closer (c := ';') (by decide) (.blank (c := '\n') (by decide) hspells)
    obtain ⟨vs, hspells', hread', -⟩ := (readsBack_of_canonical (h e List.mem_cons_self)).expression
      0 _ _ hsemicolon (ends_closer (c := ';') (by decide) us)
    exact ⟨vs, hspells', .cons hread' rfl hread⟩

end Printer

namespace Parser

theorem alike_of_erase {ts us : List Token} (h : us.map Token.erase = ts) :
    List.Forall₂ Alike ts us := by
  induction us generalizing ts with
  | nil =>
    cases h
    exact .nil
  | cons u us ih =>
    cases h
    exact .cons ⟨rfl, .inl rfl⟩ (ih rfl)

end Parser

/-- What is printed for canonical statements is parsed as the same statements. -/
theorem parse_printProgram (p : Position) {statements : List Expr}
    (h : ∀ e ∈ statements, e.Canonical) :
    ∃ t, parse (Expr.block p statements).printProgram = .ok t ∧
      t.erase = (Expr.block p statements).erase := by
  obtain ⟨us, hspells, hread⟩ := Printer.readsAll_writeProgram (p := .start) h
  obtain ⟨q, hend, htokens⟩ := hspells false .start
  -- What is written spells tokens up to their places, and places play no part in reading.
  obtain ⟨es, hes, heq⟩ := hread.alike (p := q) (Parser.alike_of_erase htokens)
  rw [← hend] at hes
  refine ⟨.block .start es, ?_, ?_⟩
  · rw [parse, parseWith, TokenStream.ofSource, Cursor.ofSource, Expr.printProgram,
      String.toList_ofList]
    exact Parser.parse_of_readsAll hes
  · have herase : (Expr.erase ∘ Expr.erase) = Expr.erase := by
      funext e
      exact Expr.erase_erase e
    rw [Expr.erase, Expr.erase, Expr.eraseAll_eq_map, Expr.eraseAll_eq_map, heq, List.map_map,
      herase]

/-- Printing and parsing give back every canonical program, places aside. -/
theorem parse_printProgram_same (p : Position) {statements : List Expr}
    (h : ∀ e ∈ statements, e.Canonical) :
    ∃ t, parse (Expr.block p statements).printProgram = .ok t ∧
      t.same (.block p statements) = true := by
  obtain ⟨t, hparse, heq⟩ := parse_printProgram p h
  refine ⟨t, hparse, Expr.same_of_erase (.node trivial fun e he => ?_) heq⟩
  refine (h e he).imp fun e he => ?_
  cases e with
  | number q x => exact Number.beq_self (Nat.le_of_lt he)
  | _ => trivial

/-- `let (i = 1.5, s) if ((i < n)) (let k) else if (s) (fn(k) k)("\"") else {i; s.add()}` -/
def Expr.sample : Expr :=
  .scope .start
    [⟨"i", some (.number .start (Number.ofSignBits false 0x3FF8000000000000))⟩, ⟨"s", none⟩]
    (.branch .start (.binary .start .less (.var .start "i") (.var .start "n"))
      (.define .start "k" none)
      (some (.branch .start (.var .start "s")
        (.call .start (.lambda .start none ["k"] (.var .start "k")) [.string .start "\""]) none
        (some (.block .start [.var .start "i", .method .start "s" "add" []])))) none)

theorem Expr.canonical_sample : Expr.sample.Canonical := by
  have hname : ∀ name ∈ ["i", "s", "n", "k", "add"], IsName name := by
    intro name h
    have hword : ∀ name ∈ ["i", "s", "n", "k", "add"],
        Lexeme.isWord name = true ∧ Lexeme.wordKind name = .name := by decide
    exact (isName_iff name).mpr (hword name h)
  have hvar (name : String) (h : name ∈ ["i", "s", "n", "k", "add"]) :
      (Expr.var .start name).Canonical := .leaf (hname name h) rfl
  have hnumber : (Expr.number .start (Number.ofSignBits false 0x3FF8000000000000)).Canonical := by
    refine .leaf ?_ rfl
    simp only [WellFormed, Number.toBits_ofSignBits (show 0x3FF8000000000000 ≤ _ by decide)]
    decide
  have hcall : (Expr.call .start (.lambda .start none ["k"] (.var .start "k"))
      [.string .start "\""]).Canonical := by
    refine .node trivial (List.forall_mem_cons.mpr ⟨.node ⟨by simp, ?_⟩ ?_, ?_⟩)
    · exact List.forall_mem_singleton.mpr (hname "k" (by decide))
    · exact List.forall_mem_singleton.mpr (hvar "k" (by decide))
    · exact List.forall_mem_singleton.mpr (.leaf trivial rfl)
  have hblock : (Expr.block .start [.var .start "i", .method .start "s" "add" []]).Canonical := by
    refine .node (Nat.le_refl 2) (List.forall_mem_cons.mpr ⟨hvar "i" (by decide), ?_⟩)
    exact List.forall_mem_singleton.mpr
      (.leaf ⟨hname "s" (by decide), hname "add" (by decide)⟩ rfl)
  have hless : (Expr.binary .start .less (.var .start "i") (.var .start "n")).Canonical :=
    .node trivial (List.forall_mem_cons.mpr
      ⟨hvar "i" (by decide), List.forall_mem_singleton.mpr (hvar "n" (by decide))⟩)
  refine .node (by simp [sample, WellFormed, hname]) (List.forall_mem_cons.mpr ⟨hnumber, ?_⟩)
  refine List.forall_mem_singleton.mpr (.node ⟨.inr rfl, by simp [isBranch]⟩ ?_)
  refine List.forall_mem_cons.mpr ⟨hless, List.forall_mem_cons.mpr ⟨?_, ?_⟩⟩
  · exact .leaf ⟨hname "k" (by decide), by simp⟩ rfl
  · refine List.forall_mem_singleton.mpr (.node ⟨.inl rfl, by simp⟩ ?_)
    exact List.forall_mem_cons.mpr ⟨hvar "s" (by decide), List.forall_mem_cons.mpr
      ⟨hcall, List.forall_mem_singleton.mpr hblock⟩⟩

/-- A program with open ends in front of `else`, of an argument list and of other statements. -/
theorem parse_printProgram_sample : (∀ e ∈ [Expr.sample], e.Canonical) ∧
    ∃ t, parse (Expr.block .start [Expr.sample]).printProgram = .ok t ∧
      t.same (.block .start [Expr.sample]) = true := by
  have hcanonical : ∀ e ∈ [Expr.sample], e.Canonical := by
    simpa using Expr.canonical_sample
  exact ⟨hcanonical, parse_printProgram_same .start hcanonical⟩

end ExprLang
