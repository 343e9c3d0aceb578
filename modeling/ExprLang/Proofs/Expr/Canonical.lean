import ExprLang.Proofs.Expr.RoundTrip

namespace ExprLang

theorem Number.toBits_ofLiteral? {text : String} {x : Float} (h : ofLiteral? text = some x) :
    x.toBits.toNat ≤ infinityBits := by
  have hratio (n d : Nat) : (ofRatio false n d).toBits.toNat ≤ infinityBits := by
    have hle : nearestUnits (n * unitsPerOne) d ≤ infinityBits := Nat.min_le_right _ _
    rw [ofRatio, toBits_ofSignBits hle]
    exact hle
  unfold ofLiteral? at h
  dsimp only at h
  split at h
  · cases h
  · split at h
    · cases h
      exact hratio _ _
    · split at h
      · cases h
        exact hratio _ _
      · cases h

namespace Expr

def FiniteNumbers : Expr → Prop :=
  Everywhere fun
    | number _ x => x.toBits.toNat ≠ Number.infinityBits
    | _ => True

/-- What the parser can make a node of: a literal may stand for infinity. -/
def Legible : Expr → Prop
  | number _ x => x.toBits.toNat ≤ Number.infinityBits
  | e => e.WellFormed

theorem canonical_of_legible {e : Expr} (h : Everywhere Legible e) (hfinite : e.FiniteNumbers) :
    e.Canonical := by
  refine (h.and hfinite).imp fun e he => ?_
  cases e with
  | number p x => exact Nat.lt_of_le_of_ne he.1 he.2
  | _ => exact he.1

section Shapes

theorem legible_join {left right : Expr} (c : Connective) (hleft : Everywhere Legible left)
    (hright : Everywhere Legible right) : Everywhere Legible (join c left right) := by
  have hall : ∀ e ∈ [left, right], Everywhere Legible e :=
    List.forall_mem_cons.mpr ⟨hleft, List.forall_mem_singleton.mpr hright⟩
  cases c with
  | assign => exact .node trivial hall
  | binary op => exact .node trivial hall

theorem legible_taken {left : Expr} (bound : Nat) {links : List Link}
    (hleft : Everywhere Legible left) (hlinks : ∀ l ∈ links, Everywhere Legible l.2) :
    Everywhere Legible (taken left bound links) ∧
      ∀ l ∈ untaken left bound links, Everywhere Legible l.2 := by
  match links with
  | [] =>
    rw [taken_nil, untaken_nil]
    exact ⟨hleft, hlinks⟩
  | (c, first) :: more =>
    by_cases h : c.precedence ≤ bound
    · rw [taken_stop _ _ _ h, untaken_stop _ _ _ h]
      exact ⟨hleft, hlinks⟩
    · have h := Nat.lt_of_not_le h
      have hmore := length_untaken_le first c.rightBound more
      obtain ⟨hfirst, hlinks⟩ := List.forall_mem_cons.mp hlinks
      obtain ⟨hright, houter⟩ := legible_taken c.rightBound hfirst hlinks
      rw [taken_join _ _ _ h, untaken_join _ _ _ h]
      exact legible_taken bound (legible_join c hleft hright) houter
termination_by links.length
decreasing_by all_goals (simp only [List.length_cons]; omega)

theorem legible_applied {callee : Expr} {args : List (List Expr)}
    (hcallee : Everywhere Legible callee) (hargs : ∀ as ∈ args, ∀ e ∈ as, Everywhere Legible e) :
    Everywhere Legible (callee.applied args) := by
  induction args generalizing callee with
  | nil => exact hcallee
  | cons as args ih =>
    obtain ⟨has, hargs⟩ := List.forall_mem_cons.mp hargs
    exact ih (.node trivial (List.forall_mem_cons.mpr ⟨hcallee, has⟩)) hargs

theorem legible_nameLambda {e : Expr} {name : String} (hname : IsName name)
    (he : Everywhere Legible e) : Everywhere Legible (e.nameLambda name) := by
  cases e with
  | lambda p inner params body =>
    cases inner with
    | none =>
      refine .node ⟨?_, he.here.2⟩ fun c hc => he.child hc
      rintro n ⟨⟩
      exact hname
    | some inner => exact he
  | _ => exact he

theorem nameLambda_ne (name : String) (e : Expr) (p : Position) (params : List String)
    (body : Expr) : e.nameLambda name ≠ lambda p none params body := by
  cases e with
  | lambda q inner params body => cases inner <;> exact fun h => by cases h
  | _ => exact fun h => by cases h

end Shapes

end Expr

namespace Parser
open ExprLang.Expr

/-- All trees that a rule has made are legible, and their names are names. -/
def Rule.Legible : (r : Rule) → r.Tree → Prop
  | .expression | .operand | .atom | .conditional | .condition => Everywhere Expr.Legible
  | .links => fun links => ∀ l ∈ links, Everywhere Expr.Legible l.2
  | .arguments => fun args => ∀ as ∈ args, ∀ e ∈ as, Everywhere Expr.Legible e
  | .binding => fun b => IsName b.name ∧ ∀ e ∈ b.init, Everywhere Expr.Legible e
  | .param => IsName
  | .list _ item | .more _ item => fun xs => ∀ x ∈ xs, item.Legible x

/-- The lexer takes the names among the tokens for names. -/
abbrev Named (ts : List Token) : Prop := ∀ t ∈ ts, t.isName = true → IsName t.text

variable {fin : TokenStream.Ending} {r : Rule} {ts rest : List Token} {x : r.Tree}

theorem isBranch_of_reads {e : Expr} (h : Reads fin .conditional ts e rest) :
    e.isBranch = true := by
  cases h <;> rfl

theorem legible_blockOf (p : Position) {es : List Expr} (h : ∀ e ∈ es, Everywhere Expr.Legible e) :
    Everywhere Expr.Legible (blockOf p es) := by
  match es with
  | [] => exact .leaf trivial rfl
  | [e] => exact h e (List.mem_singleton_self e)
  | _ :: _ :: more => exact .node (Nat.le_add_left 2 more.length) h

theorem legible_definitionOf (p : Position) {name : String} {params : List (Binding Expr)}
    {body : Expr} (hname : IsName name) (hparams : ∀ b ∈ params, Rule.binding.Legible b)
    (hbody : Everywhere Expr.Legible body) :
    Everywhere Expr.Legible (definitionOf p name params body) := by
  refine .node ⟨hname, ?_⟩ (List.forall_mem_singleton.mpr (.node ⟨?_, ?_⟩ ?_))
  · rintro e ⟨⟩ q params body h
    cases h
  · rintro n ⟨⟩
    exact hname
  · exact List.forall_mem_map.mpr fun b hb => (hparams b hb).1
  · exact List.forall_mem_singleton.mpr hbody

theorem legible_loopOf (p : Position) {name : String} {bindings : List (Binding Expr)}
    {body : Expr} (hname : IsName name) (hbindings : ∀ b ∈ bindings, Rule.binding.Legible b)
    (hbody : Everywhere Expr.Legible body) :
    Everywhere Expr.Legible (loopOf p name bindings body) := by
  refine .node trivial (List.forall_mem_cons.mpr ⟨.node ⟨?_, ?_⟩ ?_, ?_⟩)
  · rintro n ⟨⟩
    exact hname
  · exact List.forall_mem_map.mpr fun b hb => (hbindings b hb).1
  · exact List.forall_mem_singleton.mpr hbody
  · refine List.forall_mem_map.mpr fun b hb => ?_
    cases hinit : b.init with
    | none => exact .leaf trivial rfl
    | some e => exact (hbindings b hb).2 e hinit

/-- The rules make legible trees of tokens that the lexer has read. The tokens left are among
these again, which the next part of a rule needs. -/
theorem Reads.legible (h : Reads fin r ts x rest) (hts : Named ts) :
    r.Legible x ∧ Named rest := by
  have hmaybe {test : Token → Bool} {ts rest : List Token} {word : Option Token}
      (h : Maybe fin test ts word rest) (hts : Named ts) : Named rest :=
    fun t ht => hts t (h.subset ht)
  induction h with
  | expression _ _ _ ihleft ihlinks =>
    obtain ⟨hleft, hts⟩ := ihleft hts
    obtain ⟨hlinks, hts⟩ := ihlinks hts
    exact ⟨(legible_taken 0 hleft hlinks).1, hts⟩
  | links_nil => exact ⟨List.forall_mem_nil _, hts⟩
  | links_cons _ _ _ _ ihfirst ihmore =>
    obtain ⟨hfirst, hts⟩ := ihfirst (List.forall_mem_cons.mp hts).2
    obtain ⟨hmore, hts⟩ := ihmore hts
    exact ⟨List.forall_mem_cons.mpr ⟨hfirst, hmore⟩, hts⟩
  | operand _ _ iha ihargs =>
    obtain ⟨ha, hts⟩ := iha hts
    obtain ⟨hargs, hts⟩ := ihargs hts
    exact ⟨legible_applied ha hargs, hts⟩
  | arguments_nil _ => exact ⟨List.forall_mem_nil _, hts⟩
  | arguments_cons _ _ _ ihargs ihmore =>
    obtain ⟨hargs, hts⟩ := ihargs (List.forall_mem_cons.mp hts).2
    obtain ⟨hmore, hts⟩ := ihmore hts
    exact ⟨List.forall_mem_cons.mpr ⟨hargs, hmore⟩, hts⟩
  | number _ hx => exact ⟨.leaf (Number.toBits_ofLiteral? hx) rfl, (List.forall_mem_cons.mp hts).2⟩
  | string _ => exact ⟨.leaf trivial rfl, (List.forall_mem_cons.mp hts).2⟩
  | boolean _ => exact ⟨.leaf trivial rfl, (List.forall_mem_cons.mp hts).2⟩
  | var ht _ =>
    obtain ⟨hname, hts⟩ := List.forall_mem_cons.mp hts
    exact ⟨.leaf (hname ht) rfl, hts⟩
  | method ht _ hname _ _ ih =>
    obtain ⟨hreceiver, hts⟩ := List.forall_mem_cons.mp hts
    obtain ⟨hmethod, hts⟩ := List.forall_mem_cons.mp (List.forall_mem_cons.mp hts).2
    obtain ⟨hargs, hts⟩ := ih (List.forall_mem_cons.mp hts).2
    exact ⟨.node ⟨hreceiver ht, hmethod hname⟩ hargs, hts⟩
  | group _ _ _ ih =>
    obtain ⟨he, hts⟩ := ih (List.forall_mem_cons.mp hts).2
    exact ⟨he, (List.forall_mem_cons.mp hts).2⟩
  | array _ _ ih =>
    obtain ⟨hitems, hts⟩ := ih (List.forall_mem_cons.mp hts).2
    exact ⟨.node trivial hitems, hts⟩
  | block _ _ ih =>
    obtain ⟨hitems, hts⟩ := ih (List.forall_mem_cons.mp hts).2
    exact ⟨legible_blockOf _ hitems, hts⟩
  | lambda _ hname _ _ _ ihparams ihbody =>
    have hts := (List.forall_mem_cons.mp hts).2
    obtain ⟨hparams, hrest⟩ := ihparams (List.forall_mem_cons.mp (hmaybe hname hts)).2
    obtain ⟨hbody, hrest⟩ := ihbody hrest
    refine ⟨.node ⟨?_, hparams⟩ (List.forall_mem_singleton.mpr hbody), hrest⟩
    cases hname with
    | absent _ => rintro n ⟨⟩
    | taken h =>
      rintro n ⟨⟩
      exact hts _ List.mem_cons_self h
  | scope _ _ _ _ ihbindings ihbody =>
    have hts := (List.forall_mem_cons.mp (List.forall_mem_cons.mp hts).2).2
    obtain ⟨hbindings, hts⟩ := ihbindings hts
    obtain ⟨hbody, hts⟩ := ihbody hts
    -- The nodes below are the initial values, where there are any, and the body.
    refine ⟨.node (fun b hb => (hbindings b hb).1) ?_, hts⟩
    intro c hc
    rcases List.mem_append.mp hc with hc | hc
    · obtain ⟨b, hb, hinit⟩ := List.mem_filterMap.mp hc
      exact (hbindings b hb).2 c hinit
    · rw [List.mem_singleton.mp hc]
      exact hbody
  | define _ hname _ _ =>
    obtain ⟨hn, hts⟩ := List.forall_mem_cons.mp (List.forall_mem_cons.mp hts).2
    refine ⟨.leaf ⟨hn hname, ?_⟩ rfl, hts⟩
    rintro e ⟨⟩
  | define_init _ hname _ _ ih =>
    obtain ⟨hn, hts⟩ := List.forall_mem_cons.mp (List.forall_mem_cons.mp hts).2
    obtain ⟨hinit, hts⟩ := ih (List.forall_mem_cons.mp hts).2
    refine ⟨.node ⟨hn hname, ?_⟩ ?_, hts⟩
    · rintro e ⟨⟩ q params body
      exact nameLambda_ne _ _ q params body
    · exact List.forall_mem_singleton.mpr (legible_nameLambda (hn hname) hinit)
  | definition _ hname _ _ _ _ _ ihparams ihbody =>
    obtain ⟨hn, hts⟩ := List.forall_mem_cons.mp (List.forall_mem_cons.mp hts).2
    obtain ⟨hparams, hts⟩ := ihparams (List.forall_mem_cons.mp hts).2
    obtain ⟨hbody, hts⟩ := ihbody (List.forall_mem_cons.mp hts).2
    exact ⟨legible_definitionOf _ (hn hname) hparams hbody, hts⟩
  | loop _ hname _ _ _ _ ihbindings ihbody =>
    obtain ⟨hn, hts⟩ := List.forall_mem_cons.mp (List.forall_mem_cons.mp hts).2
    obtain ⟨hbindings, hts⟩ := ihbindings (List.forall_mem_cons.mp hts).2
    obtain ⟨hbody, hts⟩ := ihbody hts
    exact ⟨legible_loopOf _ (hn hname) hbindings hbody, hts⟩
  | branch _ ih => exact ih hts
  | only_then _ _ hword _ _ ihcond ihe =>
    obtain ⟨hcond, hts⟩ := ihcond (List.forall_mem_cons.mp hts).2
    obtain ⟨he, hts⟩ := ihe (hmaybe hword hts)
    refine ⟨.node ⟨.inl rfl, ?_⟩ ?_, hts⟩
    · rintro e ⟨⟩
    · exact List.forall_mem_cons.mpr ⟨hcond, List.forall_mem_singleton.mpr he⟩
  | else_if _ _ hword _ _ hread ihcond ihe ihchained =>
    obtain ⟨hcond, hts⟩ := ihcond (List.forall_mem_cons.mp hts).2
    obtain ⟨he, hts⟩ := ihe (hmaybe hword hts)
    obtain ⟨hchained, hts⟩ := ihchained (List.forall_mem_cons.mp hts).2
    refine ⟨.node ⟨.inr rfl, ?_⟩ ?_, hts⟩
    · rintro e ⟨⟩
      -- What stands right after `else if` is a conditional.
      exact isBranch_of_reads hread
    · exact List.forall_mem_cons.mpr
        ⟨hcond, List.forall_mem_cons.mpr ⟨he, List.forall_mem_singleton.mpr hchained⟩⟩
  | or_else _ _ hword _ _ _ _ ihcond ihe ihother =>
    obtain ⟨hcond, hts⟩ := ihcond (List.forall_mem_cons.mp hts).2
    obtain ⟨he, hts⟩ := ihe (hmaybe hword hts)
    obtain ⟨hother, hts⟩ := ihother (List.forall_mem_cons.mp hts).2
    refine ⟨.node ⟨.inl rfl, ?_⟩ ?_, hts⟩
    · rintro e ⟨⟩
    · exact List.forall_mem_cons.mpr
        ⟨hcond, List.forall_mem_cons.mpr ⟨he, List.forall_mem_singleton.mpr hother⟩⟩
  | bare _ _ ih => exact ih hts
  | listed _ _ ih =>
    obtain ⟨hlist, hts⟩ := ih (List.forall_mem_cons.mp hts).2
    -- Only the first expression of the list counts, but all of them were read.
    exact ⟨(List.forall_mem_cons.mp hlist).1, hts⟩
  | binding hname _ =>
    obtain ⟨hn, hts⟩ := List.forall_mem_cons.mp hts
    refine ⟨⟨hn hname, ?_⟩, hts⟩
    rintro e ⟨⟩
  | binding_init hname _ _ ih =>
    obtain ⟨hn, hts⟩ := List.forall_mem_cons.mp hts
    obtain ⟨hinit, hts⟩ := ih (List.forall_mem_cons.mp hts).2
    refine ⟨⟨hn hname, ?_⟩, hts⟩
    rintro e ⟨⟩
    exact hinit
  | param hname =>
    obtain ⟨hn, hts⟩ := List.forall_mem_cons.mp hts
    exact ⟨hn hname, hts⟩
  | list_nil _ => exact ⟨List.forall_mem_nil _, (List.forall_mem_cons.mp hts).2⟩
  | list_cons _ _ _ ihitem ihmore =>
    obtain ⟨hitem, hts⟩ := ihitem hts
    obtain ⟨hmore, hts⟩ := ihmore hts
    exact ⟨List.forall_mem_cons.mpr ⟨hitem, hmore⟩, hts⟩
  | more_nil _ => exact ⟨List.forall_mem_nil _, (List.forall_mem_cons.mp hts).2⟩
  | more_last _ _ =>
    exact ⟨List.forall_mem_nil _, (List.forall_mem_cons.mp (List.forall_mem_cons.mp hts).2).2⟩
  | more_cons _ _ _ _ ihitem ihmore =>
    obtain ⟨hitem, hts⟩ := ihitem (List.forall_mem_cons.mp hts).2
    obtain ⟨hmore, hts⟩ := ihmore hts
    exact ⟨List.forall_mem_cons.mpr ⟨hitem, hmore⟩, hts⟩

theorem ReadsAll.legible {es : List Expr} (h : ReadsAll fin ts es) (hts : Named ts) :
    ∀ e ∈ es, Everywhere Expr.Legible e := by
  induction h with
  | nil _ => exact List.forall_mem_nil _
  | last he _ => exact List.forall_mem_singleton.mpr (he.legible hts).1
  | cons he _ _ ih =>
    obtain ⟨hexpr, hts⟩ := he.legible hts
    exact List.forall_mem_cons.mpr ⟨hexpr, ih (List.forall_mem_cons.mp hts).2⟩

end Parser

theorem TokenStream.named_collect (strict : Bool) (cur : Cursor) :
    Parser.Named (collect strict [] cur).tokens := by
  intro t ht hname
  obtain ⟨c, cs, l, hl, hkind, htext⟩ := lexeme_of_mem strict cur t ht
  rw [htext, isName_iff]
  exact Lexeme.isWord_of_name hl (hkind ▸ Parser.isName_token_iff.mp hname)

/-- A program is a block of statements that are canonical as far as their numbers are finite. -/
theorem legible_of_parseWith {strict : Bool} {source : String} {e : Expr}
    (h : parseWith strict source = .ok e) :
    ∃ statements, e = .block .start statements ∧
      ∀ s ∈ statements, Expr.Everywhere Expr.Legible s := by
  obtain ⟨statements, rfl, hreads⟩ := Parser.readsAll_of_parse h
  exact ⟨statements, rfl, hreads.legible (TokenStream.named_collect strict _)⟩

theorem same_of_parseWith {strict : Bool} {source : String} {e e' : Expr}
    (h : parseWith strict source = .ok e) (heq : e'.erase = e.erase) : e'.same e = true := by
  obtain ⟨statements, rfl, hlegible⟩ := legible_of_parseWith h
  refine Expr.same_of_erase (.node trivial fun s hs => (hlegible s hs).imp fun e he => ?_) heq
  cases e with
  | number p x => exact Number.beq_self he
  | _ => trivial

theorem parse_printProgram_of_parse {source : String} {e : Expr} (h : parse source = .ok e)
    (hfinite : e.FiniteNumbers) :
    ∃ e', parse e.printProgram = .ok e' ∧ e'.erase = e.erase := by
  obtain ⟨statements, rfl, hlegible⟩ := legible_of_parseWith h
  exact parse_printProgram .start fun s hs =>
    Expr.canonical_of_legible (hlegible s hs) (hfinite.child hs)

/-- A node that the parser has made: a number has no sign and is not a NaN, and other nodes are as
in a canonical tree. -/
def Expr.Built : Expr → Prop
  | number _ x => 0 ≤ x ∧ x.toBits.toNat < 2 ^ 63 ∧ x.isNaN = false
  | e => e.WellFormed

theorem Expr.built_of_legible {e : Expr} (h : e.Legible) : e.Built := by
  cases e with
  | number p x =>
    have hsign : x.toBits.toNat < 2 ^ 63 := Nat.lt_of_le_of_lt h (by decide)
    exact ⟨Number.zero_le h, hsign, Number.isNaN_eq_false h⟩
  | _ => exact h

theorem IsName.not_reserved {name : String} (h : IsName name) :
    name ∉ "true" :: "false" :: Lexeme.keywords := by
  have hreserved : ∀ word ∈ "true" :: "false" :: Lexeme.keywords, Lexeme.wordKind word ≠ .name := by
    decide
  exact fun hmem => hreserved name hmem ((isName_iff name).mp h).2

/-- The parser only makes programs whose statements are canonical up to infinite numbers. -/
theorem built_of_parseWith {strict : Bool} {source : String} {e : Expr}
    (h : parseWith strict source = .ok e) :
    (∃ statements, e = .block .start statements ∧
      ∀ s ∈ statements, Expr.Everywhere Expr.Built s) ∧
    ∀ name, IsName name → name ∉ "true" :: "false" :: Lexeme.keywords := by
  obtain ⟨statements, he, hlegible⟩ := legible_of_parseWith h
  exact ⟨⟨statements, he, fun s hs => (hlegible s hs).imp fun _ => Expr.built_of_legible⟩,
    fun _ => IsName.not_reserved⟩

/-- A function that reaches its `let` through parentheses and braces, and braces around nothing. -/
def Expr.braced : Expr :=
  .block .start [.define ⟨1, 1⟩ "f" (some (.lambda ⟨1, 11⟩ (some "f") ["x"]
    (.branch ⟨1, 17⟩ (.var ⟨1, 20⟩ "x") (.boolean ⟨1, 22⟩ false) none
      (some (.number ⟨1, 30⟩ (Number.ofRatio false 5 10))))))]

theorem built_of_parseWith_braced :
    parseWith true "let f = (\x7bfn(x) if x \x7b\x7d else 0.5\x7d)" = .ok Expr.braced ∧
    (∃ statements, Expr.braced = .block .start statements ∧
      ∀ s ∈ statements, Expr.Everywhere Expr.Built s) ∧
    ∀ name, IsName name → name ∉ "true" :: "false" :: Lexeme.keywords := by
  have hparse :
      parseWith true "let f = (\x7bfn(x) if x \x7b\x7d else 0.5\x7d)" = .ok Expr.braced := by
    with_unfolding_all rfl
  exact ⟨hparse, built_of_parseWith hparse⟩

end ExprLang
