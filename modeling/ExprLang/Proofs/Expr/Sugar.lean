import ExprLang.Proofs.Expr.Precedence
import ExprLang.Proofs.Expr.Respelling

namespace ExprLang

namespace Parser

def IsExpression (ts : List Token) (e : Expr) : Prop :=
  ∃ p, Yields ((source (.eof p)).answer (.expression ts)) e []

section Spelling

def word (text : String) : Token := ⟨.keyword, text, .start⟩

def nameToken (name : String) : Token := ⟨.name, name, .start⟩

def equals : Token := ⟨.operator, "=", .start⟩

/-- Items with a comma between them, in parentheses. -/
def inParens (items : List (List Token)) : List Token :=
  mark '(' :: ([mark ','].intercalate items ++ [mark ')'])

def parameters (names : List String) : List Token :=
  inParens (names.map fun name => [nameToken name])

/-- `name = value`, or the name alone. -/
def bindingTokens (b : Binding (List Token)) : List Token :=
  nameToken b.name :: b.init.elim [] (equals :: ·)

/-- The value, or `false` where there is none. -/
def argumentTokens (b : Binding (List Token)) : List Token :=
  b.init.getD [⟨.boolean, "false", .start⟩]

/-- `let name(bindings) …` -/
def letList (name : String) (bindings : List (Binding (List Token))) (rest : List Token) :
    List Token :=
  word "let" :: nameToken name :: (inParens (bindings.map bindingTokens) ++ rest)

/-- `let name(params) = body` -/
def letFunction (name : String) (params : List String) (body : List Token) : List Token :=
  letList name (params.map (⟨·, none⟩)) (equals :: body)

/-- `let name = fn(params) body` -/
def letLambda (name : String) (params : List String) (body : List Token) : List Token :=
  word "let" :: nameToken name :: equals :: word "fn" :: (parameters params ++ body)

/-- `(fn name(params) body)(values)` -/
def calledLambda (name : String) (bindings : List (Binding (List Token))) (body : List Token) :
    List Token :=
  mark '(' :: word "fn" :: nameToken name :: (parameters (bindings.map (·.name)) ++
    (body ++ mark ')' :: inParens (bindings.map argumentTokens)))

def closedTokens (statements : List (List Token)) : List Token :=
  statements.flatMap (· ++ [mark ';'])

/-- Statements with a semicolon after each, but perhaps not after the last. -/
def programTokens (closed : Bool) (statements : List (List Token)) : List Token :=
  [mark ';'].intercalate statements ++ if closed then [mark ';'] else []

end Spelling

section Reading

variable {fin : TokenStream.Ending} {p : Position} {ts us rest : List Token} {e : Expr}

theorem reads_of_isExpression (h : IsExpression ts e) :
    ∃ p, Reads (.eof p) .expression ts e [] := by
  obtain ⟨p, hlt, h⟩ := h
  exact ⟨p, sound h⟩

theorem Reads.expression_of_operand (h : Reads fin .operand ts e rest)
    (hop : Lacks fin (·.kind = .operator) rest) : Reads fin .expression ts e rest := by
  have hread := Reads.expression h .links_nil hop
  rwa [Expr.chain_nil] at hread

theorem Reads.expression_of_atom (h : Reads fin .atom ts e rest)
    (hend : Lacks fin (·.isMark '(') rest ∧ Lacks fin (·.kind = .operator) rest) :
    Reads fin .expression ts e rest :=
  Reads.expression_of_operand (.operand h (.arguments_nil hend.1)) hend.2

/-- The tokens are one item of a list in parentheses. -/
def IsItem (r : Rule) (ts : List Token) (x : r.Tree) : Prop :=
  (∃ t us, ts = t :: us ∧ t.isMark ')' = false) ∧ ∃ p, Reads (.eof p) r ts x []

section Items

variable {r : Rule} {x : r.Tree}

theorem IsItem.lacks (h : IsItem r ts x) : Lacks fin (·.isMark ')') (ts ++ us) := by
  obtain ⟨⟨t, vs, rfl, ht⟩, -⟩ := h
  exact ht

theorem IsItem.reads (h : IsItem r ts x) (hus : Lacks fin goesOn us) :
    Reads fin r (ts ++ us) x us := by
  obtain ⟨-, p, h⟩ := h
  exact h.before us fun _ => hus

theorem lacks_goesOn_mark {c : Char} (hc : c ∈ [';', ',', ')', ']', '}']) :
    Lacks fin goesOn (mark c :: us) :=
  EndsChain.lacks ⟨c, hc, isMark_mark c⟩

theorem intercalate_cons {α : Type} (sep : α) (x : List α) (xs : List (List α)) :
    [sep].intercalate (x :: xs) = x ++ xs.flatMap (sep :: ·) := by
  induction xs generalizing x with
  | nil => simp [List.intercalate]
  | cons y ys ih =>
    have hcons : [sep].intercalate (x :: y :: ys) = x ++ sep :: [sep].intercalate (y :: ys) := by
      simp [List.intercalate]
    rw [hcons, ih, List.flatMap_cons, List.cons_append]

theorem reads_more {items : List (List Token)} {xs : List r.Tree}
    (h : List.Forall₂ (IsItem r) items xs) (us : List Token) :
    Reads fin (.more .round r) (items.flatMap (mark ',' :: ·) ++ mark ')' :: us) xs us := by
  induction h with
  | nil => exact .more_nil (isMark_mark ')')
  | @cons item x items xs h _ ih =>
    rw [List.flatMap_cons, List.cons_append, List.cons_append, List.append_assoc]
    have hnext : Lacks fin goesOn (items.flatMap (mark ',' :: ·) ++ mark ')' :: us) := by
      cases items with
      | nil => exact lacks_goesOn_mark (by decide)
      | cons => exact lacks_goesOn_mark (by decide)
    exact .more_cons (isMark_mark ',') h.lacks (h.reads hnext) ih

variable (fin) in
theorem reads_list {items : List (List Token)} {xs : List r.Tree}
    (h : List.Forall₂ (IsItem r) items xs) (us : List Token) :
    Reads fin (.list .round r) ([mark ','].intercalate items ++ mark ')' :: us) xs us := by
  cases h with
  | nil => exact .list_nil (isMark_mark ')')
  | @cons item x items xs h hmore =>
    rw [intercalate_cons, List.append_assoc]
    have hnext : Lacks fin goesOn (items.flatMap (mark ',' :: ·) ++ mark ')' :: us) := by
      cases items with
      | nil => exact lacks_goesOn_mark (by decide)
      | cons => exact lacks_goesOn_mark (by decide)
    exact .list_cons h.lacks (h.reads hnext) (reads_more hmore us)

end Items

theorem isItem_of_expression (h : IsExpression ts e) : IsItem .expression ts e := by
  obtain ⟨p, h⟩ := reads_of_isExpression h
  obtain ⟨t, us, hts, ht⟩ := h.first rfl
  exact ⟨⟨t, us, hts, not_close_of_starts .round ht⟩, p, h⟩

theorem isItem_param (name : String) : IsItem .param [nameToken name] name :=
  ⟨⟨_, _, rfl, isMark_of_isName rfl ')'⟩, .start, .param rfl⟩

theorem forall₂_params (names : List String) :
    List.Forall₂ (IsItem .param) (names.map fun name => [nameToken name]) names :=
  List.forall₂_map_left_iff.mpr (List.forall₂_same.mpr fun name _ => isItem_param name)

/-- What is written for a binding, and the binding. -/
def IsBinding (b : Binding (List Token)) (x : Binding Expr) : Prop :=
  x.name = b.name ∧ Option.Rel IsExpression b.init x.init

section Bindings

variable {b : Binding (List Token)} {x : Binding Expr} {bs : List (Binding (List Token))}
  {xs : List (Binding Expr)}

theorem isItem_binding (h : IsBinding b x) : IsItem .binding (bindingTokens b) x := by
  obtain ⟨name, init⟩ := b
  obtain ⟨name', init'⟩ := x
  obtain ⟨rfl, hinit⟩ := h
  refine ⟨⟨_, _, rfl, isMark_of_isName rfl ')'⟩, ?_⟩
  cases hinit with
  | none => exact ⟨.start, .binding rfl ⟨_, rfl⟩⟩
  | some hinit =>
    obtain ⟨p, hinit⟩ := reads_of_isExpression hinit
    exact ⟨p, .binding_init rfl rfl hinit⟩

theorem isItem_argument (h : IsBinding b x) :
    IsItem .expression (argumentTokens b) (x.init.getD (.boolean .start false)) := by
  obtain ⟨name, init⟩ := b
  obtain ⟨name', init'⟩ := x
  obtain ⟨-, hinit⟩ := h
  cases hinit with
  | none =>
    have hend (test : Token → Bool) : Lacks (.eof .start) test [] := ⟨_, rfl⟩
    have hread :
        Reads (.eof .start) .atom [⟨.boolean, "false", .start⟩] (.boolean .start false) [] :=
      .boolean rfl
    exact ⟨⟨_, _, rfl, rfl⟩, .start, hread.expression_of_atom ⟨hend _, hend _⟩⟩
  | some hinit => exact isItem_of_expression hinit

theorem exists_bindings (h : ∀ b ∈ bs, ∀ ts ∈ b.init, ∃ e, IsExpression ts e) :
    ∃ xs, List.Forall₂ IsBinding bs xs := by
  induction bs with
  | nil => exact ⟨[], .nil⟩
  | cons b bs ih =>
    obtain ⟨xs, hxs⟩ := ih fun b hb => h b (List.mem_cons_of_mem _ hb)
    have hb := h b List.mem_cons_self
    obtain ⟨name, _ | init⟩ := b
    · exact ⟨⟨name, none⟩ :: xs, .cons ⟨rfl, .none⟩ hxs⟩
    · obtain ⟨e, he⟩ := hb init rfl
      exact ⟨⟨name, some e⟩ :: xs, .cons ⟨rfl, .some he⟩ hxs⟩

theorem names_eq (h : List.Forall₂ IsBinding bs xs) : xs.map (·.name) = bs.map (·.name) := by
  induction h with
  | nil => rfl
  | cons h _ ih => rw [List.map_cons, List.map_cons, h.1, ih]

theorem forall₂_bindings (h : List.Forall₂ IsBinding bs xs) :
    List.Forall₂ (IsItem .binding) (bs.map bindingTokens) xs :=
  List.forall₂_map_left_iff.mpr (h.imp fun _ _ => isItem_binding)

theorem forall₂_arguments (h : List.Forall₂ IsBinding bs xs) :
    List.Forall₂ (IsItem .expression) (bs.map argumentTokens)
      (xs.map fun x => x.init.getD (.boolean .start false)) :=
  List.forall₂_map_left_iff.mpr (List.forall₂_map_right_iff.mpr (h.imp fun _ _ => isItem_argument))

end Bindings

section Forms

variable (name : String) (params : List String) {body : Expr}
  (h : Reads fin .expression ts body rest)
include h

theorem reads_letFunction :
    Reads fin .expression (letFunction name params ts)
      (definitionOf .start name (params.map (⟨·, none⟩)) body) rest := by
  have hbindings : List.Forall₂ IsBinding
      (params.map (⟨·, none⟩)) (params.map (⟨·, none⟩)) := by
    refine List.forall₂_map_left_iff.mpr (List.forall₂_map_right_iff.mpr ?_)
    exact List.forall₂_same.mpr fun _ _ => ⟨rfl, .none⟩
  have hnone : (params.map (⟨·, none⟩ : String → Binding Expr)).find? (·.init.isSome) = none := by
    simp
  have hlist := reads_list fin (forall₂_bindings hbindings) (equals :: ts)
  refine Reads.expression_of_atom ?_ h.maximal
  rw [letFunction, letList, inParens, List.cons_append, List.append_assoc]
  exact .definition rfl rfl (isMark_mark '(') hlist rfl hnone h

theorem reads_lambda (inner : Option String) :
    Reads fin .expression (word "fn" :: (inner.toList.map nameToken ++ (parameters params ++ ts)))
      (.lambda .start inner params body) rest := by
  have hlist := reads_list fin (forall₂_params params) ts
  refine Reads.expression_of_atom ?_ h.maximal
  rw [parameters, inParens, List.cons_append, List.append_assoc]
  cases inner with
  | none =>
    have hname (us : List Token) : Lacks fin (·.isName) (mark '(' :: us) := rfl
    exact .lambda rfl (.absent (hname _)) (isMark_mark '(') hlist h
  | some inner => exact .lambda rfl (.taken rfl) (isMark_mark '(') hlist h

theorem reads_letLambda :
    Reads fin .expression (letLambda name params ts)
      (definitionOf .start name (params.map (⟨·, none⟩)) body) rest := by
  have hparams : (params.map (⟨·, none⟩ : String → Binding Expr)).map (·.name) = params := by
    rw [List.map_map]
    exact List.map_id params
  have hlambda := reads_lambda params h none
  refine Reads.expression_of_atom ?_ h.maximal
  rw [definitionOf, hparams]
  exact .define_init rfl rfl rfl hlambda

variable {bs : List (Binding (List Token))} {xs : List (Binding Expr)}
  (hbs : List.Forall₂ IsBinding bs xs)
include hbs

theorem reads_loop :
    Reads fin .expression (letList name bs ts) (loopOf .start name xs body) rest := by
  have hlist := reads_list fin (forall₂_bindings hbs) ts
  refine Reads.expression_of_atom ?_ h.maximal
  rw [letList, inParens, List.cons_append, List.append_assoc]
  exact .loop rfl rfl (isMark_mark '(') hlist (h.lacks rfl fun _ => not_equals_of_starts) h

end Forms

theorem reads_calledLambda (name : String) {body : Expr} (h : IsExpression ts body)
    {bs : List (Binding (List Token))} {xs : List (Binding Expr)}
    (hbs : List.Forall₂ IsBinding bs xs) :
    Reads (.eof p) .expression (calledLambda name bs ts) (loopOf .start name xs body) [] := by
  obtain ⟨q, h⟩ := reads_of_isExpression h
  have hend (test : Token → Bool) : Lacks (.eof p) test [] := ⟨p, rfl⟩
  have hbody : Reads (.eof p) .expression (ts ++ mark ')' :: inParens (bs.map argumentTokens)) body
      (mark ')' :: inParens (bs.map argumentTokens)) :=
    h.before _ fun _ => lacks_goesOn_mark (by decide)
  have hlambda := reads_lambda (bs.map (·.name)) hbody (some name)
  have hargs := reads_list (.eof p) (forall₂_arguments hbs) []
  rw [loopOf, names_eq hbs]
  refine Reads.expression_of_operand ?_ (hend _)
  exact .operand (.group (isMark_mark '(') hlambda (isMark_mark ')'))
    (.arguments_cons (isMark_mark '(') hargs (.arguments_nil (hend _)))

theorem isExpression_of_reads (h : Reads (.eof p) .expression ts e []) : IsExpression ts e :=
  ⟨p, parses_of_reads h⟩

end Reading

section Programs

variable {fin : TokenStream.Ending} {p : Position}

theorem readsAll_programTokens (closed : Bool) {statements : List (List Token)} {es : List Expr}
    (h : List.Forall₂ IsExpression statements es) (hne : statements ≠ []) :
    ReadsAll (.eof p) (programTokens closed statements) es := by
  have hnext (us : List Token) : Lacks (.eof p) goesOn (mark ';' :: us) :=
    lacks_goesOn_mark (by decide)
  induction h with
  | nil => exact absurd rfl hne
  | @cons ts e statements es h hmore ih =>
    obtain ⟨q, h⟩ := reads_of_isExpression h
    cases hmore with
    | nil =>
      rw [programTokens, intercalate_cons, List.flatMap_nil, List.append_nil]
      cases closed with
      | false => exact .last (h.before [] fun _ => ⟨p, rfl⟩) ⟨p, rfl⟩
      | true => exact .cons (h.before _ fun _ => hnext []) (isMark_mark ';') (.nil ⟨p, rfl⟩)
    | @cons us _ statements _ _ _ =>
      have htokens : programTokens closed (ts :: us :: statements) =
          ts ++ mark ';' :: programTokens closed (us :: statements) := by
        rw [programTokens, programTokens, intercalate_cons, intercalate_cons, List.flatMap_cons]
        simp only [List.append_assoc, List.cons_append]
      rw [htokens]
      exact .cons (h.before _ fun _ => hnext _) (isMark_mark ';') (ih (List.cons_ne_nil _ _))

theorem exists_trees {statements : List (List Token)}
    (h : ∀ ts ∈ statements, ∃ e, IsExpression ts e) :
    ∃ es, List.Forall₂ IsExpression statements es := by
  induction statements with
  | nil => exact ⟨[], .nil⟩
  | cons ts statements ih =>
    obtain ⟨e, he⟩ := h ts List.mem_cons_self
    obtain ⟨es, hes⟩ := ih fun us hus => h us (List.mem_cons_of_mem _ hus)
    exact ⟨e :: es, .cons he hes⟩

/-- Among any statements the tokens of one may be replaced by those of the other: all texts that say
the one program or the other are the same program. -/
def Interchangeable (ts us : List Token) : Prop :=
  ∀ before after closed, (∀ vs ∈ before ++ after, ∃ e, IsExpression vs e) →
    ∀ strict source strict' source',
      Says strict source (programTokens closed (before ++ ts :: after)) →
      Says strict' source' (programTokens closed (before ++ us :: after)) →
      SameProgram (parseWith strict source) (parseWith strict' source')

theorem interchangeable_of_reads {ts us : List Token} {e : Expr} (hts : IsExpression ts e)
    (hus : IsExpression us e) : Interchangeable ts us := by
  intro before after closed hothers strict source strict' source' hsource hsource'
  obtain ⟨before', hbefore⟩ := exists_trees fun vs hvs => hothers vs (List.mem_append_left _ hvs)
  obtain ⟨after', hafter⟩ := exists_trees fun vs hvs => hothers vs (List.mem_append_right _ hvs)
  have hread {vs : List Token} (hvs : IsExpression vs e) : ReadsAll (.eof .start)
      (programTokens closed (before ++ vs :: after)) (before' ++ e :: after') :=
    readsAll_programTokens closed (List.rel_append hbefore (.cons hvs hafter)) (by simp)
  exact sameProgram_of_readsAll hsource hsource' (hread hts) (hread hus)

end Programs

section Rejection

variable {fin : TokenStream.Ending} {ts us rest : List Token}

/-- The definition of a function fails at an initial value before its body is looked at. -/
theorem expression_of_initializer {t name o q : Token} {bs : List (Binding Expr)}
    {b : Binding Expr} (ht : t.isKeyword "let" = true) (hname : name.isName = true)
    (ho : o.isMark '(' = true) (hlist : Reads fin (.list .round .binding) ts bs (q :: rest))
    (hq : q.isOperator "=" = true) (hb : bs.find? (·.init.isSome) = some b) :
    (source fin).answer (.expression (t :: name :: o :: ts)) =
      .error ⟨.initializerInDefinition b.name, t.position⟩ := by
  obtain ⟨hkind, htext⟩ := isKeyword_iff.mp ht
  have hparams : (source fin).answer (.letParams t.position name.text bs (q :: rest)) =
      .error ⟨.initializerInDefinition b.name, t.position⟩ := by
    rw [Source.answer_eq]
    refine (bind_ok (accept_cons hq)).trans ?_
    simp only [hb]
    rfl
  have hform : (source fin).answer (.letForm t.position (name :: o :: ts)) =
      .error ⟨.initializerInDefinition b.name, t.position⟩ := by
    have hnolist : Lacks fin (·.isMark '(') (name :: o :: ts) := lacks_mark_of_name hname
    have hnovalue : Lacks fin (·.isOperator "=") (o :: ts) := lacks_equals_of_mark ho
    obtain ⟨_, hnolist⟩ := accept_of_lacks hnolist
    obtain ⟨_, hnovalue⟩ := accept_of_lacks hnovalue
    rw [Source.answer_eq]
    refine (bind_ok hnolist).trans ?_
    refine (bind_ok (expect_cons hname)).trans ?_
    refine (bind_ok hnovalue).trans ?_
    refine (bind_ok (accept_cons ho)).trans ?_
    obtain ⟨_, hbindings⟩ := (parses_of_reads hlist).bindings
    exact (bind_ok hbindings).trans (bind_error hparams)
  have hatom : (source fin).answer (.atom (t :: name :: o :: ts)) =
      .error ⟨.initializerInDefinition b.name, t.position⟩ := by
    rw [Source.answer_eq]
    refine (bind_ok (peek_cons t _)).trans ?_
    simp only [hkind, Rules.worded, if_pos htext]
    exact bind_error hform
  have hoperand : (source fin).answer (.operand (t :: name :: o :: ts)) =
      .error ⟨.initializerInDefinition b.name, t.position⟩ := by
    rw [Source.answer_eq]
    exact bind_error hatom
  rw [Source.answer_eq]
  exact bind_error hoperand

/-- Whatever its value, a binding has a name and may have a value. -/
def bindingShape {α : Type} (b : Binding α) : String × Bool := (b.name, b.init.isSome)

theorem find?_of_shapes {α β : Type} {as : List (Binding α)} {bs : List (Binding β)}
    (h : as.map bindingShape = bs.map bindingShape) :
    (as.find? (·.init.isSome)).map bindingShape = (bs.find? (·.init.isSome)).map bindingShape := by
  have hfind {γ : Type} (cs : List (Binding γ)) : (cs.find? (·.init.isSome)).map bindingShape =
      (cs.map bindingShape).find? (·.2) := by
    rw [List.find?_map]
    rfl
  rw [hfind, hfind, h]

theorem shape_of_binding {b : Binding (List Token)} {x : Binding Expr} (h : IsBinding b x) :
    bindingShape x = bindingShape b := by
  obtain ⟨name, init⟩ := b
  obtain ⟨name', init'⟩ := x
  obtain ⟨rfl, hinit⟩ := h
  cases hinit with
  | none => rfl
  | some _ => rfl

theorem shapes_of_bindings {bs : List (Binding (List Token))} {xs : List (Binding Expr)}
    (h : List.Forall₂ IsBinding bs xs) : xs.map bindingShape = bs.map bindingShape := by
  induction h with
  | nil => rfl
  | cons h _ ih => rw [List.map_cons, List.map_cons, ih, shape_of_binding h]

theorem shapes_of_erase {xs ys : List (Binding Expr)}
    (h : ys.map Expr.eraseBinding = xs.map Expr.eraseBinding) :
    ys.map bindingShape = xs.map bindingShape := by
  have hshape (x : Binding Expr) : bindingShape (Expr.eraseBinding x) = bindingShape x := by
    rw [bindingShape, bindingShape, Expr.name_eraseBinding, Expr.init_eraseBinding,
      Option.isSome_map]
  have hmap (zs : List (Binding Expr)) :
      (zs.map Expr.eraseBinding).map bindingShape = zs.map bindingShape := by
    rw [List.map_map]
    exact List.map_congr_left fun z _ => hshape z
  rw [← hmap, h, hmap]

theorem alike_append {vs : List Token} (h : List.Forall₂ Alike (ts ++ us) vs) :
    ∃ ts' us', vs = ts' ++ us' ∧ List.Forall₂ Alike ts ts' ∧ List.Forall₂ Alike us us' := by
  induction ts generalizing vs with
  | nil => exact ⟨[], vs, rfl, .nil, h⟩
  | cons t ts ih =>
    obtain ⟨u, ws, hu, hws, rfl⟩ := List.forall₂_cons_left_iff.mp h
    obtain ⟨ts', us', rfl, hts, hus⟩ := ih hws
    exact ⟨u :: ts', us', rfl, .cons hu hts, hus⟩

theorem alike_cons {test : Token → Bool} (htest : Blind test)
    (h : List.Forall₂ Alike (t :: ts) us) (ht : test t = true) :
    ∃ u vs, us = u :: vs ∧ test u = true ∧ List.Forall₂ Alike ts vs := by
  obtain ⟨u, vs, hu, hvs, rfl⟩ := List.forall₂_cons_left_iff.mp h
  exact ⟨u, vs, rfl, (htest hu).trans ht, hvs⟩

/-- Statements with a semicolon after each are read, and the parser goes on after them. -/
theorem statements_after (fin : TokenStream.Ending) {before : List (List Token)}
    (hbefore : ∀ vs ∈ before, ∃ e, IsExpression vs e)
    (h : List.Forall₂ Alike (closedTokens before ++ ts) us) (done : List Expr) :
    ∃ vs ws es, us = vs ++ ws ∧ vs.length = (closedTokens before).length ∧
      List.Forall₂ Alike ts ws ∧
      (source fin).answer (.statements done us) = (source fin).answer (.statements es ws) := by
  induction before generalizing us done with
  | nil => exact ⟨[], us, done, rfl, rfl, h, rfl⟩
  | cons first before ih =>
    rw [closedTokens, List.flatMap_cons, List.append_assoc, List.append_assoc] at h
    obtain ⟨e, he⟩ := hbefore first List.mem_cons_self
    obtain ⟨p, he⟩ := reads_of_isExpression he
    obtain ⟨vs₁, us₁, rfl, hvs₁, hus₁⟩ := alike_append h
    obtain ⟨c, us₂, rfl, hc, hus₂⟩ := alike_cons (blind_mark ';') hus₁ (isMark_mark ';')
    obtain ⟨e', rest, he', -, hrest⟩ := he.alike (p := p) hvs₁
    cases hrest
    obtain ⟨vs₂, ws, es, rfl, hlength, hws, heq⟩ :=
      ih (fun vs hvs => hbefore vs (List.mem_cons_of_mem _ hvs)) hus₂ (e' :: done)
    refine ⟨vs₁ ++ c :: vs₂, ws, es, by simp, ?_, hws, ?_⟩
    · have hfirst := hvs₁.length_eq
      simp only [closedTokens, List.flatMap_cons, List.length_append, List.length_cons,
        List.length_nil] at hlength ⊢
      omega
    · have hnext : Lacks fin goesOn (c :: (vs₂ ++ ws)) := EndsChain.lacks ⟨';', by decide, hc⟩
      rw [← heq]
      exact statements_semicolon done (he'.before _ fun _ => hnext) hc

/-- In a program whose statements up to here can be read, a statement fails where it starts,
whatever follows it. -/
def Rejected (ts : List Token) (fault : ParseFault) : Prop :=
  ∀ (before : List (List Token)) (after : List Token), (∀ vs ∈ before, ∃ e, IsExpression vs e) →
    ∀ strict source,
      List.Forall₂ Alike (closedTokens before ++ (ts ++ after))
        (TokenStream.ofSource source strict).tokens →
      ∃ t, (TokenStream.ofSource source strict).tokens[
          (closedTokens before).length]? = some t ∧
        parseWith strict source = .error ⟨fault, t.position⟩

theorem rejected_of_initializer (name : String) (bs : List (Binding (List Token)))
    {b : Binding (List Token)} (hbs : ∀ b ∈ bs, ∀ ts ∈ b.init, ∃ e, IsExpression ts e)
    (hb : bs.find? (·.init.isSome) = some b) (body : List Token) :
    Rejected (letList name bs (equals :: body)) (.initializerInDefinition b.name) := by
  intro before after hbefore strict source htokens
  obtain ⟨vs, ws, es, hsplit, hlength, hws, hstatements⟩ :=
    statements_after (TokenStream.ofSource source strict).ending hbefore htokens []
  obtain ⟨xs, hxs⟩ := exists_bindings hbs
  have hlist := reads_list (.eof .start) (forall₂_bindings hxs) []
  -- The tokens of the text, one by one up to the list, then the list as a whole.
  have hlet : "let" ∉ ["fn", "lambda", "λ"] := by decide
  simp only [letList, inParens, List.cons_append, List.append_assoc, List.nil_append] at hws
  obtain ⟨t, ws₁, rfl, ht, hws₁⟩ := alike_cons (blind_keyword hlet) hws rfl
  obtain ⟨n, ws₂, rfl, hn, hws₂⟩ := alike_cons blind_name hws₁ rfl
  obtain ⟨o, ws₃, rfl, ho, hws₃⟩ := alike_cons (blind_mark '(') hws₂ (isMark_mark '(')
  rw [List.append_cons] at hws₃
  obtain ⟨list, ws₄, rfl, hlist', hws₄⟩ := alike_append hws₃
  obtain ⟨q, ws₅, rfl, hq, -⟩ := alike_cons (blind_symbol "=") hws₄ rfl
  obtain ⟨ys, rest, hread, hys, hrest⟩ := hlist.alike (p := .start) hlist'
  cases hrest
  have hshapes := (shapes_of_erase hys).trans (shapes_of_bindings hxs)
  have hfind := find?_of_shapes hshapes
  rw [hb, Option.map_some] at hfind
  obtain ⟨y, hy, hshape⟩ := Option.map_eq_some_iff.mp hfind
  have hread' : Reads (TokenStream.ofSource source strict).ending (.list .round .binding)
      (list ++ q :: ws₅) ys (q :: ws₅) := hread.list_before _
  have herror := expression_of_initializer ht hn ho hread' hq hy
  obtain ⟨hname, -⟩ := Prod.mk.inj hshape
  refine ⟨t, ?_, ?_⟩
  · rw [hsplit, ← hlength, List.getElem?_append_right (Nat.le_refl _), Nat.sub_self]
    rfl
  · have hfails : (Parser.source (TokenStream.ofSource source strict).ending).answer
        (.statements es (t :: n :: o :: (list ++ q :: ws₅))) =
        .error ⟨.initializerInDefinition y.name, t.position⟩ := by
      rw [Source.answer_eq]
      exact (bind_ok (peek_cons t _)).trans (bind_error herror)
    rw [parseWith, TokenStream.parse, Source.parse, hstatements, hfails, hname]
    rfl

end Rejection

/-- What the short forms of `let` mean. The definition of a function is the definition of a name as
that function; a loop is a call of its function with the initial values; all words that start a
function are one; and the definition of a function has no initial values. -/
theorem let_forms (name : String) {body : List Token} {e : Expr} (hbody : IsExpression body e) :
    (∀ params, Interchangeable (letFunction name params body) (letLambda name params body)) ∧
    (∀ bs, (∀ b ∈ bs, ∀ ts ∈ b.init, ∃ e, IsExpression ts e) →
      Interchangeable (letList name bs body) (calledLambda name bs body)) ∧
    (∀ strict source strict' source' program, parseWith strict source = .ok program →
      Says strict' source' (TokenStream.ofSource source strict).tokens →
      SameProgram (parseWith strict source) (parseWith strict' source')) ∧
    ∀ bs b, (∀ b ∈ bs, ∀ ts ∈ b.init, ∃ e, IsExpression ts e) →
      bs.find? (·.init.isSome) = some b →
      Rejected (letList name bs (equals :: body)) (.initializerInDefinition b.name) := by
  obtain ⟨p, hread⟩ := reads_of_isExpression hbody
  refine ⟨fun params => ?_, fun bs hbs => ?_, fun _ _ _ _ _ => sameProgram_of_says,
    fun bs b hbs hb => rejected_of_initializer name bs hbs hb body⟩
  · exact interchangeable_of_reads (isExpression_of_reads (reads_letFunction name params hread))
      (isExpression_of_reads (reads_letLambda name params hread))
  · obtain ⟨xs, hxs⟩ := exists_bindings hbs
    exact interchangeable_of_reads (isExpression_of_reads (reads_loop name hread hxs))
      ⟨p, parses_of_reads (reads_calledLambda name hbody hxs)⟩

theorem isExpression_name (name : String) : IsExpression [nameToken name] (.var .start name) := by
  have hend (test : Token → Bool) : Lacks (.eof .start) test [] := ⟨_, rfl⟩
  have hread : Reads (.eof .start) .atom [nameToken name] (.var .start name) [] := .var rfl (hend _)
  exact isExpression_of_reads (hread.expression_of_atom ⟨hend _, hend _⟩)

theorem let_forms_spelled :
    SameProgram (parseWith false "b; let f(a) = a;") (parseWith true "b; let f = λ(a) a;") ∧
    SameProgram (parseWith false "let f(a = b, c) a")
      (parseWith false "(lambda f(a, c) a)(b, false)") ∧
    SameProgram (parseWith false "fn(a) a") (parseWith false "λ(a) a") ∧
    parseWith false "b; let f(a, c = b) = a" =
      .error ⟨.initializerInDefinition "c", ⟨1, 4⟩⟩ := by
  obtain ⟨hfunction, hloop, hwords, hinitializer⟩ := let_forms "f" (isExpression_name "a")
  have hb : ∃ e, IsExpression [nameToken "b"] e := ⟨_, isExpression_name "b"⟩
  refine ⟨?_, ?_, ?_, ?_⟩
  · exact hfunction ["a"] [[nameToken "b"]] [] true (by simpa using hb) _ _ _ _
      ⟨by decide +kernel, ⟨1, 17⟩, by decide +kernel⟩
      ⟨by decide +kernel, ⟨1, 19⟩, by decide +kernel⟩
  · refine hloop [⟨"a", some [nameToken "b"]⟩, ⟨"c", none⟩] (by simpa using hb) [] [] false
      (by simp) _ _ _ _ ?_ ?_
    · exact ⟨by decide +kernel, ⟨1, 18⟩, by decide +kernel⟩
    · exact ⟨by decide +kernel, ⟨1, 29⟩, by decide +kernel⟩
  · refine hwords _ _ _ _ (.block .start [.lambda ⟨1, 1⟩ none ["a"] (.var ⟨1, 7⟩ "a")]) ?_ ?_
    · with_unfolding_all rfl
    · exact ⟨by decide +kernel, ⟨1, 7⟩, by decide +kernel⟩
  · have hlist := hinitializer [⟨"a", none⟩, ⟨"c", some [nameToken "b"]⟩]
      ⟨"c", some [nameToken "b"]⟩ (by simpa using hb) rfl
    obtain ⟨t, ht, herror⟩ := hlist [[nameToken "b"]] [] (by simpa using hb) false
      "b; let f(a, c = b) = a" (by decide +kernel)
    have hlet : (TokenStream.ofSource "b; let f(a, c = b) = a" false).tokens[2]? =
      some ⟨.keyword, "let", ⟨1, 4⟩⟩ := by decide +kernel
    obtain rfl := Option.some.inj (ht.symm.trans hlet)
    exact herror

end Parser

end ExprLang
