import ExprLang.Proofs.Expr.Soundness

namespace ExprLang.Parser

variable {fin : TokenStream.Ending}

section Tokens

variable {test : Token → Bool} {ts : List Token}

theorem peek_cons (t : Token) (ts : List Token) : (source fin).peek (t :: ts) =
    .ok (.next t (t :: ts) ts (Nat.le_refl _) (Nat.lt_succ_self _)) := rfl

theorem accept_of_lacks (h : Lacks fin test ts) :
    ∃ hkept, (source fin).accept test ts = .ok (.kept ts hkept) := by
  refine ⟨Nat.le_refl _, ?_⟩
  cases ts with
  | nil =>
    obtain ⟨p, rfl⟩ := h
    rfl
  | cons t ts => exact Source.accept_kept (peek_cons t ts) h

theorem accept_cons {t : Token} (ht : test t = true) :
    (source fin).accept test (t :: ts) = .ok (.taken ⟨t, ts, Nat.lt_succ_self _⟩) :=
  Source.accept_taken (peek_cons t ts) ht

theorem expect_cons {ex : Expected} {t : Token} (ht : test t = true) :
    (source fin).expect ex test (t :: ts) = .ok ⟨t, ts, Nat.lt_succ_self _⟩ :=
  bind_ok (accept_cons ht)

theorem skipIf_of_maybe {word : Option Token} {us : List Token} (h : Maybe fin test ts word us) :
    ∃ hle, (source fin).skipIf test ts = .ok ⟨us, hle⟩ := by
  cases h with
  | taken h => exact ⟨Nat.le_succ _, bind_ok (accept_cons h)⟩
  | absent h =>
    obtain ⟨hkept, h⟩ := accept_of_lacks h
    exact ⟨hkept, bind_ok h⟩

end Tokens

section Complete

/-- A computation succeeds with a value and leaves given tokens. -/
def Yields {α : Type} {n : Nat} (x : Except ParseError (Taken (@List.length Token) n α))
    (value : α) (rest : List Token) : Prop :=
  ∃ h, x = .ok ⟨value, rest, h⟩

namespace Yields

variable {α β : Type} {m n : Nat} {value : α} {b : β} {t : Token} {ts rest us : List Token}
  {test : Token → Bool}

theorem bind {x : Except ParseError (Taken (@List.length Token) n α)}
    {f : Taken (@List.length Token) n α → Except ParseError (Taken (@List.length Token) m β)}
    (h : Yields x value rest) (hf : ∀ h, Yields (f ⟨value, rest, h⟩) b us) :
    Yields (x >>= f) b us := by
  obtain ⟨hs, h⟩ := h
  rw [bind_ok h]
  exact hf hs

theorem peek {f : Look (@List.length Token) (t :: ts) →
      Except ParseError (Taken (@List.length Token) m β)}
    (h : Yields (f (.next t (t :: ts) ts (Nat.le_refl _) (Nat.lt_succ_self _))) b us) :
    Yields ((source fin).peek (t :: ts) >>= f) b us :=
  h

theorem lacks
    {f : Offered (@List.length Token) ts → Except ParseError (Taken (@List.length Token) m β)}
    (h : Lacks fin test ts) (hf : ∀ h, Yields (f (.kept ts h)) b us) :
    Yields ((source fin).accept test ts >>= f) b us := by
  obtain ⟨hkept, h⟩ := accept_of_lacks h
  rw [bind_ok h]
  exact hf hkept

theorem accept {f : Offered (@List.length Token) (t :: ts) →
      Except ParseError (Taken (@List.length Token) m β)}
    (ht : test t = true) (hf : ∀ h, Yields (f (.taken ⟨t, ts, h⟩)) b us) :
    Yields ((source fin).accept test (t :: ts) >>= f) b us := by
  rw [bind_ok (accept_cons ht)]
  exact hf _

theorem expect {ex : Expected}
    {f : Parsed (t :: ts) Token → Except ParseError (Taken (@List.length Token) m β)}
    (ht : test t = true) (hf : ∀ h, Yields (f ⟨t, ts, h⟩) b us) :
    Yields ((source fin).expect ex test (t :: ts) >>= f) b us := by
  rw [bind_ok (expect_cons ht)]
  exact hf _

theorem skip {word : Option Token} {vs : List Token}
    {f : { vs : List Token // vs.length ≤ ts.length } →
      Except ParseError (Taken (@List.length Token) m β)}
    (h : Maybe fin test ts word vs) (hf : ∀ h, Yields (f ⟨vs, h⟩) b us) :
    Yields ((source fin).skipIf test ts >>= f) b us := by
  obtain ⟨hle, h⟩ := skipIf_of_maybe h
  rw [bind_ok h]
  exact hf hle

end Yields

/-- Operators with operands that the parser takes, one after another. -/
inductive Linked (fin : TokenStream.Ending) : List Token → List Link → List Token → Prop
  | nil {ts} : Linked fin ts [] ts
  | cons {t ts ts₁ rest c first links} (ht : t.kind = .operator)
      (hc : Connective.ofSymbol? t.text = some c)
      (hfirst : Yields ((source fin).answer (.operand ts)) first ts₁)
      (hmore : Linked fin ts₁ links rest) :
      Linked fin (t :: ts) ((c, first) :: links) rest

theorem climb_of_linked {rest : List Token} (hend : Lacks fin (·.kind = .operator) rest)
    (left : Expr) (bound : Nat) (ts : List Token) (links : List Link)
    (h : Linked fin ts links rest) :
    ∃ us, Yields ((source fin).answer (.climb left bound ts)) (left.taken bound links) us ∧
      Linked fin us (left.untaken bound links) rest := by
  match links with
  | [] =>
    cases h
    refine ⟨rest, ?_, ?_⟩
    · rw [Source.answer_eq, Expr.taken_nil]
      cases rest with
      | nil =>
        obtain ⟨p, rfl⟩ := hend
        exact ⟨_, rfl⟩
      | cons t ts =>
        have hkind : ¬ t.kind = .operator := by simpa [Lacks] using hend
        refine Yields.peek ?_
        dsimp only
        rw [if_neg hkind]
        exact ⟨_, rfl⟩
    · rw [Expr.untaken_nil]
      exact .nil
  | (c, first) :: links =>
    cases h with
    | @cons t ts ts₁ _ _ _ _ ht hc hfirst hmore =>
      rw [Source.answer_eq]
      by_cases hbound : c.precedence ≤ bound
      · refine ⟨t :: ts, ?_, ?_⟩
        · rw [Expr.taken_stop _ _ _ hbound]
          refine Yields.peek ?_
          simp only [if_pos ht, hc, if_pos hbound]
          exact ⟨_, rfl⟩
        · rw [Expr.untaken_stop _ _ _ hbound]
          exact .cons ht hc hfirst hmore
      · have hlt := Nat.lt_of_not_le hbound
        -- Both calls of the climb are covered: the links left over are no longer than these.
        obtain ⟨us, hright, hus⟩ := climb_of_linked hend first c.rightBound ts₁ links hmore
        have hle := Expr.length_untaken_le first c.rightBound links
        obtain ⟨vs, hwhole, hvs⟩ := climb_of_linked hend
          (.join c left (first.taken c.rightBound links)) bound us _ hus
        refine ⟨vs, ?_, ?_⟩
        · rw [Expr.taken_join _ _ _ hlt]
          refine Yields.peek ?_
          simp only [if_pos ht, hc, if_neg hbound]
          refine hfirst.bind fun _ => ?_
          refine hright.bind fun _ => ?_
          exact hwhole.bind fun _ => ⟨_, rfl⟩
        · rw [Expr.untaken_join _ _ _ hlt]
          exact hvs
termination_by links.length
decreasing_by all_goals (simp only [List.length_cons]; omega)

/-- The parser does what a rule says. A list is read by any two functions, one for an item and one
for the rest after an item, that do what the rules say. -/
def Parses (fin : TokenStream.Ending) :
    (r : Rule) → List Token → r.Tree → List Token → Prop
  | .expression, ts, e, rest => Yields ((source fin).answer (.expression ts)) e rest
  | .links, ts, links, rest => Linked fin ts links rest
  | .operand, ts, e, rest => Yields ((source fin).answer (.operand ts)) e rest
  | .arguments, ts, args, rest => ∀ callee,
      Yields ((source fin).answer (.arguments callee ts)) (callee.applied args) rest
  | .atom, ts, e, rest => Yields ((source fin).answer (.atom ts)) e rest
  | .conditional, ts, e, rest => ∃ t us, ts = t :: us ∧ t.isKeyword "if" = true ∧
      Yields ((source fin).answer (.ifForm t.position us)) e rest
  | .condition, ts, e, rest => Yields ((source fin).answer (.condition ts)) e rest
  | .binding, ts, b, rest => Yields ((source fin).answer (.binding ts)) b rest
  | .param, ts, name, rest => Yields ((source fin).paramName ts) name rest
  | .list b r, ts, xs, rest => ∀ (item : (us : List Token) → Except ParseError (Parsed us r.Tree))
      (more : List r.Tree → (us : List Token) → Except ParseError (Parsed us (List r.Tree))),
      (∀ us x us', Parses fin r us x us' → Yields (item us) x us') →
      (∀ before us, more before us = (source fin).moreItems b.separator b.close before us
        (fun vs _ => item vs) fun before vs _ => more before vs) →
      Yields ((source fin).items b.close ts (fun us _ => item us) fun before us _ => more before us)
        xs rest
  | .more b r, ts, xs, rest => ∀ (item : (us : List Token) → Except ParseError (Parsed us r.Tree))
      (more : List r.Tree → (us : List Token) → Except ParseError (Parsed us (List r.Tree))),
      (∀ us x us', Parses fin r us x us' → Yields (item us) x us') →
      (∀ before us, more before us = (source fin).moreItems b.separator b.close before us
        (fun vs _ => item vs) fun before vs _ => more before vs) →
      ∀ before, Yields (more before ts) (before.reverse ++ xs) rest

theorem lacks_close_of_separator {b : Bracket} {t : Token} {ts : List Token}
    (h : t.isMark b.separator = true) : Lacks fin (·.isMark b.close) (t :: ts) := by
  have hne := b.separator_ne_close
  simp only [Token.isMark, Bool.and_eq_true, decide_eq_true_eq] at h
  simp [Lacks, Token.isMark, h, hne]

theorem Parses.expressions {b : Bracket} {ts rest : List Token} {xs : List Expr}
    (h : Parses fin (.list b .expression) ts xs rest) {w : Nat} {hs : 8 * ts.length + 2 < w} :
    Yields (Rules.expressions (source fin) (fun d _ => (source fin).answer d) b.separator b.close
      ts hs) xs rest :=
  h (fun us => (source fin).answer (.expression us))
    (fun before us => (source fin).answer (.moreExpressions b.separator b.close before us))
    (fun _ _ _ hx => hx) fun _ _ => (source fin).answer_eq _

theorem Parses.bindings {ts rest : List Token} {xs : List (Binding Expr)}
    (h : Parses fin (.list .round .binding) ts xs rest) {w : Nat} {hs : 8 * ts.length + 2 < w} :
    Yields (Rules.bindings (source fin) (fun d _ => (source fin).answer d) ts hs) xs rest :=
  h (fun us => (source fin).answer (.binding us))
    (fun before us => (source fin).answer (.moreBindings before us))
    (fun _ _ _ hx => hx) fun _ _ => (source fin).answer_eq _

theorem Parses.names {ts rest : List Token} {xs : List String}
    (h : Parses fin (.list .round .param) ts xs rest) {w : Nat} {hs : 8 * ts.length + 2 < w} :
    Yields (Rules.names (source fin) (fun d _ => (source fin).answer d) ts hs) xs rest :=
  h (fun us => (source fin).paramName us)
    (fun before us => (source fin).answer (.moreNames before us))
    (fun _ _ _ hx => hx) fun _ _ => (source fin).answer_eq _

theorem lacks_mark_of_name {t : Token} {ts : List Token} {c : Char} (h : t.isName = true) :
    Lacks fin (·.isMark c) (t :: ts) := by
  simp [Lacks, Token.isMark, isName_token_iff.mp h]

theorem lacks_equals_of_mark {t : Token} {ts : List Token} {c : Char} (h : t.isMark c = true) :
    Lacks fin (·.isOperator "=") (t :: ts) := by
  simp [Lacks, Token.isOperator, (isMark_iff.mp h).1]

theorem atom_of_letForm {t : Token} {ts rest : List Token} {e : Expr}
    (ht : t.isKeyword "let" = true)
    (h : Yields ((source fin).answer (.letForm t.position ts)) e rest) :
    Yields ((source fin).answer (.atom (t :: ts))) e rest := by
  obtain ⟨hkind, htext⟩ := isKeyword_iff.mp ht
  rw [Source.answer_eq]
  refine Yields.peek ?_
  simp only [hkind, Rules.worded, if_pos htext]
  exact h.bind fun _ => ⟨_, rfl⟩

theorem atom_of_letParams {t name o : Token} {ts ts₁ rest : List Token}
    {params : List (Binding Expr)} {e : Expr} (ht : t.isKeyword "let" = true)
    (hname : name.isName = true) (ho : o.isMark '(' = true)
    (hparams : Parses fin (.list .round .binding) ts params ts₁)
    (h : Yields ((source fin).answer (.letParams t.position name.text params ts₁)) e rest) :
    Yields ((source fin).answer (.atom (t :: name :: o :: ts))) e rest := by
  refine atom_of_letForm ht ?_
  rw [Source.answer_eq]
  refine Yields.lacks (lacks_mark_of_name hname) fun _ => ?_
  refine Yields.expect hname fun _ => ?_
  refine Yields.lacks (lacks_equals_of_mark ho) fun _ => ?_
  refine Yields.accept ho fun _ => ?_
  refine hparams.bindings.bind fun _ => ?_
  exact h.bind fun _ => ⟨_, rfl⟩

theorem arguments_of_lacks (callee : Expr) {ts : List Token} (h : Lacks fin (·.isMark '(') ts) :
    Yields ((source fin).answer (.arguments callee ts)) callee ts := by
  rw [Source.answer_eq]
  exact Yields.lacks h fun _ => ⟨_, rfl⟩

theorem lambdaRest_of_parses {p : Position} {name : Option String} {o : Token}
    {ts ts₁ rest : List Token} {params : List String} {body : Expr} (ho : o.isMark '(' = true)
    (hparams : Parses fin (.list .round .param) ts params ts₁)
    (hbody : Parses fin .expression ts₁ body rest) :
    Yields ((source fin).answer (.lambdaRest p name (o :: ts))) (.lambda p name params body)
      rest := by
  rw [Source.answer_eq]
  refine Yields.expect ho fun _ => ?_
  refine hparams.names.bind fun _ => ?_
  exact Yields.bind hbody fun _ => ⟨_, rfl⟩

theorem lambdaForm_of_parses {p : Position} {name : Option Token} {o : Token}
    {ts ts₁ ts₂ rest : List Token} {params : List String} {body : Expr}
    (hname : Maybe fin (·.isName) ts name (o :: ts₁)) (ho : o.isMark '(' = true)
    (hparams : Parses fin (.list .round .param) ts₁ params ts₂)
    (hbody : Parses fin .expression ts₂ body rest) :
    Yields ((source fin).answer (.lambdaForm p ts)) (.lambda p (name.map (·.text)) params body)
      rest := by
  rw [Source.answer_eq]
  cases hname with
  | taken hname =>
    refine Yields.accept hname fun _ => ?_
    exact (lambdaRest_of_parses ho hparams hbody).bind fun _ => ⟨_, rfl⟩
  | absent hlacks =>
    refine Yields.lacks hlacks fun _ => ?_
    exact (lambdaRest_of_parses ho hparams hbody).bind fun _ => ⟨_, rfl⟩

theorem parses_of_reads {r : Rule} {ts rest : List Token} {x : r.Tree}
    (h : Reads fin r ts x rest) : Parses fin r ts x rest := by
  induction h with
  | expression hleft hlinks hend ihleft ihlinks =>
    rw [Parses, Source.answer_eq]
    refine Yields.bind ihleft fun _ => ?_
    -- From bound zero the climb takes in every link, so the tokens it leaves are those of the rule.
    obtain ⟨us, hclimb, hrest⟩ := climb_of_linked hend _ 0 _ _ ihlinks
    rw [Expr.untaken_zero] at hrest
    cases hrest
    refine hclimb.bind fun _ => ?_
    -- The last operand has taken all argument lists that follow it.
    have hcall := (Reads.expression hleft hlinks hend).maximal.1
    exact (arguments_of_lacks _ hcall).bind fun _ => ⟨_, rfl⟩
  | links_nil => exact .nil
  | links_cons ht hc _ _ ihfirst ihmore => exact .cons ht hc ihfirst ihmore
  | operand _ _ iha ihargs =>
    rw [Parses, Source.answer_eq]
    refine Yields.bind iha fun _ => ?_
    exact (ihargs _).bind fun _ => ⟨_, rfl⟩
  | arguments_nil hend => exact fun callee => arguments_of_lacks callee hend
  | arguments_cons ht _ _ ihargs ihmore =>
    intro callee
    rw [Source.answer_eq]
    refine Yields.accept ht fun _ => ?_
    refine ihargs.expressions.bind fun _ => ?_
    exact (ihmore _).bind fun _ => ⟨_, rfl⟩
  | number ht hx =>
    rw [Parses, Source.answer_eq]
    refine Yields.peek ?_
    simp only [ht, hx]
    exact ⟨_, rfl⟩
  | string ht =>
    rw [Parses, Source.answer_eq]
    refine Yields.peek ?_
    simp only [ht]
    exact ⟨_, rfl⟩
  | boolean ht =>
    rw [Parses, Source.answer_eq]
    refine Yields.peek ?_
    simp only [ht]
    exact ⟨_, rfl⟩
  | var ht hend =>
    rw [Parses, Source.answer_eq]
    refine Yields.peek ?_
    simp only [isName_token_iff.mp ht, Rules.named]
    exact Yields.lacks hend fun _ => ⟨_, rfl⟩
  | method ht hdot hname ho _ ihargs =>
    rw [Parses, Source.answer_eq]
    refine Yields.peek ?_
    simp only [isName_token_iff.mp ht, Rules.named]
    refine Yields.accept hdot fun _ => ?_
    refine Yields.expect hname fun _ => ?_
    refine Yields.expect ho fun _ => ?_
    exact ihargs.expressions.bind fun _ => ⟨_, rfl⟩
  | group ht _ hu ihe =>
    obtain ⟨hkind, htext⟩ := isMark_iff.mp ht
    rw [Parses, Source.answer_eq]
    refine Yields.peek ?_
    simp only [hkind, Rules.bracketed, if_pos (show _ = "(" from htext)]
    refine Yields.bind ihe fun _ => ?_
    exact Yields.expect hu fun _ => ⟨_, rfl⟩
  | array ht _ ihitems =>
    obtain ⟨hkind, htext⟩ := isMark_iff.mp ht
    rw [Parses, Source.answer_eq]
    refine Yields.peek ?_
    simp only [hkind, Rules.bracketed, htext]
    exact ihitems.expressions.bind fun _ => ⟨_, rfl⟩
  | block ht _ ihitems =>
    obtain ⟨hkind, htext⟩ := isMark_iff.mp ht
    rw [Parses, Source.answer_eq]
    refine Yields.peek ?_
    simp only [hkind, Rules.bracketed, htext]
    exact ihitems.expressions.bind fun _ => ⟨_, rfl⟩
  | @lambda t _ _ _ _ _ _ _ _ ht hname ho _ _ ihparams ihbody =>
    obtain ⟨hkind, htext⟩ := isLambdaWord_iff.mp ht
    have hlet : ¬ t.text = "let" := by rcases htext with h | h | h <;> rw [h] <;> decide
    have hif : ¬ t.text = "if" := by rcases htext with h | h | h <;> rw [h] <;> decide
    rw [Parses, Source.answer_eq]
    refine Yields.peek ?_
    simp only [hkind, Rules.worded, if_neg hlet, if_neg hif, if_pos ht]
    exact (lambdaForm_of_parses hname ho ihparams ihbody).bind fun _ => ⟨_, rfl⟩
  | scope ht ho _ _ ihbindings ihbody =>
    refine atom_of_letForm ht ?_
    rw [Source.answer_eq]
    refine Yields.accept ho fun _ => ?_
    refine ihbindings.bindings.bind fun _ => ?_
    exact Yields.bind ihbody fun _ => ⟨_, rfl⟩
  | define ht hname heq ho =>
    refine atom_of_letForm ht ?_
    rw [Source.answer_eq]
    refine Yields.lacks (lacks_mark_of_name hname) fun _ => ?_
    refine Yields.expect hname fun _ => ?_
    refine Yields.lacks heq fun _ => ?_
    exact Yields.lacks ho fun _ => ⟨_, rfl⟩
  | define_init ht hname heq _ ihinit =>
    refine atom_of_letForm ht ?_
    rw [Source.answer_eq]
    refine Yields.lacks (lacks_mark_of_name hname) fun _ => ?_
    refine Yields.expect hname fun _ => ?_
    refine Yields.accept heq fun _ => ?_
    exact Yields.bind ihinit fun _ => ⟨_, rfl⟩
  | definition ht hname ho _ heq hnone _ ihparams ihbody =>
    refine atom_of_letParams ht hname ho ihparams ?_
    rw [Source.answer_eq]
    refine Yields.accept heq fun _ => ?_
    simp only [hnone]
    exact Yields.bind ihbody fun _ => ⟨_, rfl⟩
  | loop ht hname ho _ heq _ ihbindings ihbody =>
    refine atom_of_letParams ht hname ho ihbindings ?_
    rw [Source.answer_eq]
    refine Yields.lacks heq fun _ => ?_
    exact Yields.bind ihbody fun _ => ⟨_, rfl⟩
  | branch _ ihe =>
    obtain ⟨t, us, rfl, ht, he⟩ := ihe
    obtain ⟨hkind, htext⟩ := isKeyword_iff.mp ht
    have hlet : ¬ t.text = "let" := by rw [htext]; decide
    rw [Parses, Source.answer_eq]
    refine Yields.peek ?_
    simp only [hkind, Rules.worded, if_neg hlet, if_pos htext]
    exact he.bind fun _ => ⟨_, rfl⟩
  | only_then ht _ hword _ hend ihcond ihe =>
    refine ⟨_, _, rfl, ht, ?_⟩
    rw [Source.answer_eq]
    refine Yields.bind ihcond fun _ => ?_
    refine Yields.skip hword fun _ => ?_
    refine Yields.bind ihe fun _ => ?_
    exact Yields.lacks hend fun _ => ⟨_, rfl⟩
  | else_if ht _ hword _ hels _ ihcond ihe ihchained =>
    obtain ⟨u, us, rfl, hu, hchained⟩ := ihchained
    refine ⟨_, _, rfl, ht, ?_⟩
    rw [Source.answer_eq]
    refine Yields.bind ihcond fun _ => ?_
    refine Yields.skip hword fun _ => ?_
    refine Yields.bind ihe fun _ => ?_
    refine Yields.accept hels fun _ => ?_
    refine Yields.accept hu fun _ => ?_
    exact hchained.bind fun _ => ⟨_, rfl⟩
  | or_else ht _ hword _ hels hif _ ihcond ihe ihother =>
    refine ⟨_, _, rfl, ht, ?_⟩
    rw [Source.answer_eq]
    refine Yields.bind ihcond fun _ => ?_
    refine Yields.skip hword fun _ => ?_
    refine Yields.bind ihe fun _ => ?_
    refine Yields.accept hels fun _ => ?_
    refine Yields.lacks hif fun _ => ?_
    exact Yields.bind ihother fun _ => ⟨_, rfl⟩
  | bare ho _ ihe =>
    rw [Parses, Source.answer_eq]
    refine Yields.lacks ho fun _ => ?_
    exact Yields.bind ihe fun _ => ⟨_, rfl⟩
  | listed ht _ ihlist =>
    rw [Parses, Source.answer_eq]
    refine Yields.accept ht fun _ => ?_
    exact ihlist.expressions.bind fun _ => ⟨_, rfl⟩
  | binding hname heq =>
    rw [Parses, Source.answer_eq]
    refine Yields.expect hname fun _ => ?_
    exact Yields.lacks heq fun _ => ⟨_, rfl⟩
  | binding_init hname heq _ ihinit =>
    rw [Parses, Source.answer_eq]
    refine Yields.expect hname fun _ => ?_
    refine Yields.accept heq fun _ => ?_
    exact Yields.bind ihinit fun _ => ⟨_, rfl⟩
  | param hname => exact Yields.expect hname fun _ => ⟨_, rfl⟩
  | list_nil ht =>
    intro item more hitem hmore
    exact Yields.accept ht fun _ => ⟨_, rfl⟩
  | list_cons hopen _ _ ihitem ihmore =>
    intro item more hitem hmore
    refine Yields.lacks hopen fun _ => ?_
    refine (hitem _ _ _ ihitem).bind fun _ => ?_
    exact (ihmore item more hitem hmore [_]).bind fun _ => ⟨_, rfl⟩
  | more_nil ht =>
    intro item more hitem hmore before
    rw [hmore, List.append_nil]
    exact Yields.accept ht fun _ => ⟨_, rfl⟩
  | more_last hs ht =>
    intro item more hitem hmore before
    rw [hmore, List.append_nil]
    refine Yields.lacks (lacks_close_of_separator hs) fun _ => ?_
    refine Yields.expect hs fun _ => ?_
    exact Yields.accept ht fun _ => ⟨_, rfl⟩
  | @more_cons b item s ts ts₁ rest x xs hs hopen _ _ ihitem ihmore =>
    intro item more hitem hmore before
    have hrest := ihmore item more hitem hmore (x :: before)
    rw [List.reverse_cons, List.append_assoc] at hrest
    rw [hmore]
    refine Yields.lacks (lacks_close_of_separator hs) fun _ => ?_
    refine Yields.expect hs fun _ => ?_
    refine Yields.lacks hopen fun _ => ?_
    refine (hitem _ _ _ ihitem).bind fun _ => ?_
    exact hrest.bind fun _ => ⟨_, rfl⟩

/-- The parser takes an expression exactly where the rules read one. -/
theorem expression_iff_reads {ts : List Token} (a : Parsed ts Expr) :
    (source fin).answer (.expression ts) = .ok a ↔
      Reads fin .expression ts a.value a.rest := by
  constructor
  · exact sound
  · intro h
    obtain ⟨_, h⟩ := parses_of_reads h
    exact h

end Complete

theorem statements_semicolon (before : List Expr) {s : Token} {ts rest : List Token} {e : Expr}
    (he : Reads fin .expression ts e (s :: rest)) (hs : s.isMark ';' = true) :
    (source fin).answer (.statements before ts) =
      (source fin).answer (.statements (e :: before) rest) := by
  obtain ⟨t, us, rfl, -⟩ := he.first rfl
  obtain ⟨_, he⟩ := parses_of_reads he
  rw [Source.answer_eq]
  refine (bind_ok (peek_cons t us)).trans ?_
  refine (bind_ok he).trans ?_
  exact bind_ok (accept_cons hs)

theorem statements_of_readsAll (before : List Expr) {ts : List Token} {es : List Expr}
    (h : ReadsAll fin ts es) :
    (source fin).answer (.statements before ts) = .ok (before.reverse ++ es) := by
  induction h generalizing before with
  | nil hend =>
    obtain ⟨p, rfl⟩ := hend
    rw [Source.answer_eq, List.append_nil]
    rfl
  | @last ts e he hend =>
    obtain ⟨p, rfl⟩ := hend
    obtain ⟨t, us, rfl, -⟩ := he.first rfl
    obtain ⟨hs, he⟩ := parses_of_reads he
    rw [Source.answer_eq]
    refine (bind_ok (peek_cons t us)).trans ?_
    refine (bind_ok he).trans ?_
    rw [← List.reverse_cons]
    rfl
  | @cons s ts rest e es he hsep _ ih =>
    rw [statements_semicolon before he hsep, ih (e :: before), List.reverse_cons,
      List.append_assoc]
    rfl

theorem parse_of_readsAll {s : TokenStream} {es : List Expr} (h : ReadsAll s.ending s.tokens es) :
    s.parse = .ok (.block .start es) := by
  rw [TokenStream.parse, Source.parse, statements_of_readsAll [] h]
  rfl

end ExprLang.Parser
