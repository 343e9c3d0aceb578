import ExprLang.Proofs.Expr.Reads
import ExprLang.Proofs.Expr.Rules

namespace ExprLang.Parser

variable {fin : TokenStream.Ending}

theorem Reads.of_eq {r : Rule} {ts us rest : List Token} {x : r.Tree} (hts : ts = us)
    (h : Reads fin r us x rest) : Reads fin r ts x rest :=
  hts ▸ h

section Tokens

variable {test : Token → Bool} {ts : List Token}

/-- What a test of the next token comes to. -/
inductive Tested (fin : TokenStream.Ending) (test : Token → Bool) (ts : List Token) :
    Offered List.length ts → Prop
  | taken {a : Parsed ts Token} (hts : ts = a.value :: a.rest) (htest : test a.value = true) :
      Tested fin test ts (.taken a)
  | kept {hkept} (hlacks : Lacks fin test ts) : Tested fin test ts (.kept ts hkept)

theorem tested_of_accept {o : Offered List.length ts} (h : (source fin).accept test ts = .ok o) :
    Tested fin test ts o := by
  cases ts with
  | nil =>
    cases fin with
    | eof p =>
      cases h
      exact .kept ⟨p, rfl⟩
    | failed e => cases h
  | cons t ts =>
    have ho : (if test t then .taken ⟨t, ts, Nat.lt_succ_self _⟩
      else .kept (t :: ts) (Nat.le_refl _)) = o := Except.ok.inj h
    subst ho
    cases ht : test t with
    | true => exact .taken rfl ht
    | false => exact .kept ht

theorem expect_ok {ex : Expected} {a : Parsed ts Token}
    (h : (source fin).expect ex test ts = .ok a) :
    ts = a.value :: a.rest ∧ test a.value = true := by
  obtain ⟨o, ho, h⟩ := ok_of_bind h
  cases tested_of_accept ho with
  | taken hts htest =>
    cases h
    exact ⟨hts, htest⟩
  | kept => cases h

theorem maybe_of_skipIf {us : { us : List Token // us.length ≤ ts.length }}
    (h : (source fin).skipIf test ts = .ok us) : ∃ word, Maybe fin test ts word us.val := by
  obtain ⟨o, ho, h⟩ := ok_of_bind h
  cases tested_of_accept ho with
  | @taken a hts htest =>
    cases h
    have htaken : Maybe fin test (a.value :: a.rest) (some a.value) a.rest := .taken htest
    rw [← hts] at htaken
    exact ⟨_, htaken⟩
  | kept hlacks =>
    cases h
    exact ⟨_, .absent hlacks⟩

end Tokens

section Lists

variable {b : Bracket} {r : Rule} {ts : List Token}
  {more : List r.Tree → (us : List Token) → us.length < ts.length →
    Except ParseError (Parsed us (List r.Tree))}
  (hmore : ∀ before us h xs, more before us h = .ok xs →
    ∃ list, xs.value = before.reverse ++ list ∧ Reads fin (.more b r) us list xs.rest)
include hmore

theorem reads_of_moreItems
    {item : (us : List Token) → us.length < ts.length → Except ParseError (Parsed us r.Tree)}
    (hitem : ∀ us h a, item us h = .ok a → Reads fin r us a.value a.rest)
    {before : List r.Tree} {xs : Parsed ts (List r.Tree)}
    (h : (source fin).moreItems b.separator b.close before ts item more = .ok xs) :
    ∃ list, xs.value = before.reverse ++ list ∧ Reads fin (.more b r) ts list xs.rest := by
  obtain ⟨o, ho, h⟩ := ok_of_bind h
  cases tested_of_accept ho with
  | taken hts htest =>
    cases h
    exact ⟨[], (List.append_nil _).symm, .of_eq hts (.more_nil htest)⟩
  | kept =>
    obtain ⟨s, hs, h⟩ := ok_of_bind h
    obtain ⟨hts, hstest⟩ := expect_ok hs
    obtain ⟨o, ho, h⟩ := ok_of_bind h
    cases tested_of_accept ho with
    | taken hts' htest =>
      cases h
      rw [hts'] at hts
      exact ⟨[], (List.append_nil _).symm, .of_eq hts (.more_last hstest htest)⟩
    | kept hopen =>
      obtain ⟨a, ha, h⟩ := ok_of_bind h
      obtain ⟨list, hlist, h⟩ := ok_of_bind h
      cases h
      obtain ⟨xs, hxs, hreads⟩ := hmore _ _ _ _ hlist
      exact ⟨a.value :: xs, by simp [hxs],
        .of_eq hts (.more_cons hstest hopen (hitem _ _ _ ha) hreads)⟩

theorem reads_of_items
    {item : (us : List Token) → us.length ≤ ts.length → Except ParseError (Parsed us r.Tree)}
    (hitem : ∀ us h a, item us h = .ok a → Reads fin r us a.value a.rest)
    {xs : Parsed ts (List r.Tree)} (h : (source fin).items b.close ts item more = .ok xs) :
    Reads fin (.list b r) ts xs.value xs.rest := by
  obtain ⟨o, ho, h⟩ := ok_of_bind h
  cases tested_of_accept ho with
  | taken hts htest =>
    cases h
    exact .of_eq hts (.list_nil htest)
  | kept hopen =>
    obtain ⟨a, ha, h⟩ := ok_of_bind h
    obtain ⟨list, hlist, h⟩ := ok_of_bind h
    cases h
    obtain ⟨xs, hxs, hreads⟩ := hmore _ _ _ _ hlist
    rw [hxs]
    exact .list_cons hopen (hitem _ _ _ ha) hreads

end Lists

theorem reads_param {ts : List Token} {a : Parsed ts String}
    (h : (source fin).paramName ts = .ok a) : Reads fin .param ts a.value a.rest := by
  obtain ⟨name, hname, h⟩ := ok_of_bind h
  cases h
  obtain ⟨hts, htest⟩ := expect_ok hname
  exact .of_eq hts (.param htest)

/-- No operator that binds tighter than a bound is next. -/
def Stops (fin : TokenStream.Ending) (bound : Nat) (ts : List Token) : Prop :=
  Lacks fin (·.kind = .operator) ts ∨ ∃ t us c, ts = t :: us ∧ t.kind = .operator ∧
    Connective.ofSymbol? t.text = some c ∧ c.precedence ≤ bound

theorem Stops.head {bound : Nat} {ts rest : List Token} {links : List Link}
    (h : Stops fin bound ts) (hlinks : Reads fin .links ts links rest) :
    ∀ l ∈ links.head?, l.1.precedence ≤ bound := by
  cases hlinks with
  | links_nil => simp
  | links_cons ht hc _ _ =>
    intro l hl
    cases hl
    rcases h with h | ⟨_, _, c, heq, -, hc', hbound⟩
    · simp [Lacks, ht] at h
    · cases heq
      rw [hc] at hc'
      cases hc'
      exact hbound

theorem le_rightBound {c : Connective} {bound : Nat} (h : bound < c.precedence) :
    bound ≤ c.rightBound := by
  cases c with
  | assign => exact Nat.le_of_lt_succ h
  | binary op => exact Nat.le_of_lt h

theorem Reads.links_append {ts ts₁ rest : List Token} {inner outer : List Link}
    (h : Reads fin .links ts inner ts₁) (h' : Reads fin .links ts₁ outer rest) :
    Reads fin .links ts (inner ++ outer) rest := by
  induction inner generalizing ts with
  | nil =>
    cases h
    exact h'
  | cons l inner ih =>
    cases h with
    | links_cons ht hc hfirst hmore => exact .links_cons ht hc hfirst (ih hmore)

theorem Reads.arguments_eq_nil {ts rest : List Token} {args : List (List Expr)}
    (h : Reads fin .arguments ts args rest) (hlacks : Lacks fin (·.isMark '(') ts) :
    args = [] ∧ rest = ts := by
  cases h with
  | arguments_nil => exact ⟨rfl, rfl⟩
  | arguments_cons ht => simp [Lacks, ht] at hlacks

/-- Links are those that a climb from a left operand takes in, whatever follows them that binds no
tighter than its bound. -/
def Climbs (left : Expr) (bound : Nat) (links : List Link) (e : Expr) : Prop :=
  ∀ more : List Link, (∀ l ∈ more.head?, l.1.precedence ≤ bound) →
    left.taken bound (links ++ more) = e ∧ left.untaken bound (links ++ more) = more

theorem climbs_nil (left : Expr) (bound : Nat) : Climbs left bound [] left := by
  intro more hmore
  cases more with
  | nil => simp
  | cons l more =>
    have hl := hmore l rfl
    exact ⟨Expr.taken_stop _ _ _ hl, Expr.untaken_stop _ _ _ hl⟩

/-- What a rule makes of tokens is read by the grammar, together with the tokens that other rules
have taken before it. -/
def Sound (fin : TokenStream.Ending) : (c : Call (List Token)) → c.Answer List.length → Prop
  | .expression ts, a => Reads fin .expression ts a.value a.rest
  | .climb left bound ts, a => ∃ links, Reads fin .links ts links a.rest ∧
      Stops fin bound a.rest ∧ Climbs left bound links a.value
  | .operand ts, a => Reads fin .operand ts a.value a.rest
  | .arguments callee ts, a => ∃ args, a.value = callee.applied args ∧
      Reads fin .arguments ts args a.rest
  | .atom ts, a => Reads fin .atom ts a.value a.rest
  | .binding ts, a => Reads fin .binding ts a.value a.rest
  | .letForm p ts, a => ∀ t : Token, t.isKeyword "let" = true → t.position = p →
      Reads fin .atom (t :: ts) a.value a.rest
  | .letParams p name params ts, a => ∀ t u o us, t.isKeyword "let" = true → t.position = p →
      u.isName = true → u.text = name → o.isMark '(' = true →
      Reads fin (.list .round .binding) us params ts →
      Reads fin .atom (t :: u :: o :: us) a.value a.rest
  | .condition ts, a => Reads fin .condition ts a.value a.rest
  | .ifForm p ts, a => ∀ t : Token, t.isKeyword "if" = true → t.position = p →
      Reads fin .conditional (t :: ts) a.value a.rest
  | .lambdaForm p ts, a => ∀ t : Token, isLambdaWord t = true → t.position = p →
      Reads fin .atom (t :: ts) a.value a.rest
  | .lambdaRest p name ts, a => ∀ t us word, isLambdaWord t = true → t.position = p →
      Maybe fin (·.isName) us word ts → word.map (·.text) = name →
      Reads fin .atom (t :: us) a.value a.rest
  | .moreExpressions sep close before ts, a => ∀ b : Bracket, b.separator = sep → b.close = close →
      ∃ list, a.value = before.reverse ++ list ∧ Reads fin (.more b .expression) ts list a.rest
  | .moreBindings before ts, a => ∃ list, a.value = before.reverse ++ list ∧
      Reads fin (.more .round .binding) ts list a.rest
  | .moreNames before ts, a => ∃ list, a.value = before.reverse ++ list ∧
      Reads fin (.more .round .param) ts list a.rest
  | .statements before ts, es => ∃ more, es = before.reverse ++ more ∧ ReadsAll fin ts more

namespace Sound

theorem joined_operand {ts : List Token} {first : Parsed ts Expr}
    {joined : Taken List.length (first.rest.length + 1) Expr}
    (hfirst : Sound fin (.operand ts) first)
    (hjoined : Sound fin (.climb first.value 0 first.rest) joined) :
    Reads fin .expression ts joined.value joined.rest := by
  obtain ⟨links, hlinks, hstop, htaken⟩ := hjoined
  have hvalue := (htaken [] (by simp)).1
  rw [List.append_nil] at hvalue
  have hend : Lacks fin (·.kind = .operator) joined.rest := by
    rcases hstop with hstop | ⟨_, _, c, -, -, -, hzero⟩
    · exact hstop
    · exact absurd c.precedence_pos (by omega)
  rw [← hvalue]
  exact .expression hfirst hlinks hend

variable {w : Nat} {ask : Callees List.length ParseError w} {ts : List Token} {p : Position}
  (hask : ∀ d hd a, ask d hd = .ok a → Sound fin d a)
include hask

theorem expressions (b : Bracket) {hs} {xs : Parsed ts (List Expr)}
    (h : Rules.expressions (source fin) ask b.separator b.close ts hs = .ok xs) :
    Reads fin (.list b .expression) ts xs.value xs.rest :=
  reads_of_items (r := .expression) (fun _ _ _ _ h => hask (.moreExpressions ..) _ _ h b rfl rfl)
    (fun _ _ _ h => hask (.expression _) _ _ h) h

theorem bindings {hs} {xs : Parsed ts (List (Binding Expr))}
    (h : Rules.bindings (source fin) ask ts hs = .ok xs) :
    Reads fin (.list .round .binding) ts xs.value xs.rest :=
  reads_of_items (b := .round) (r := .binding) (fun _ _ _ _ h => hask (.moreBindings ..) _ _ h)
    (fun _ _ _ h => hask (.binding _) _ _ h) h

theorem names {hs} {xs : Parsed ts (List String)}
    (h : Rules.names (source fin) ask ts hs = .ok xs) :
    Reads fin (.list .round .param) ts xs.value xs.rest :=
  reads_of_items (b := .round) (r := .param) (fun _ _ _ _ h => hask (.moreNames ..) _ _ h)
    (fun _ _ _ h => reads_param h) h

theorem binding {hs a} (h : Rules.binding (source fin) ask ts hs = .ok a) :
    Sound fin (.binding ts) a := by
  obtain ⟨name, hname, h⟩ := ok_of_bind h
  obtain ⟨hts, htest⟩ := expect_ok hname
  obtain ⟨o, ho, h⟩ := ok_of_bind h
  cases tested_of_accept ho with
  | kept heq =>
    cases h
    exact .of_eq hts (.binding htest heq)
  | taken hts' heq =>
    obtain ⟨init, hinit, h⟩ := ok_of_bind h
    cases h
    rw [hts'] at hts
    exact .of_eq hts (.binding_init htest heq (hask _ _ _ hinit))

theorem condition {hs a} (h : Rules.condition (source fin) ask ts hs = .ok a) :
    Sound fin (.condition ts) a := by
  obtain ⟨o, ho, h⟩ := ok_of_bind h
  cases tested_of_accept ho with
  | kept hlacks =>
    obtain ⟨e, he, h⟩ := ok_of_bind h
    cases h
    exact .bare hlacks (hask _ _ _ he)
  | taken hts htest =>
    obtain ⟨list, hlist, h⟩ := ok_of_bind h
    have hreads := expressions hask .round hlist
    split at h
    · cases h
    · rename_i e more hvalue
      cases h
      rw [hvalue] at hreads
      exact .of_eq hts (.listed htest hreads)

theorem ifForm {hs a} (h : Rules.ifForm (source fin) ask p ts hs = .ok a) :
    Sound fin (.ifForm p ts) a := by
  rintro t ht rfl
  obtain ⟨cond, hcond, h⟩ := ok_of_bind h
  obtain ⟨body, hbody, h⟩ := ok_of_bind h
  obtain ⟨word, hword⟩ := maybe_of_skipIf hbody
  obtain ⟨consequent, hconsequent, h⟩ := ok_of_bind h
  have hcond : Reads fin .condition ts cond.value cond.rest := hask _ _ _ hcond
  have hconsequent : Reads fin .expression body.val consequent.value consequent.rest :=
    hask _ _ _ hconsequent
  obtain ⟨o, ho, h⟩ := ok_of_bind h
  cases tested_of_accept ho with
  | kept helse =>
    cases h
    exact .only_then ht hcond hword hconsequent helse
  | taken hts helse =>
    rw [hts] at hconsequent
    obtain ⟨o, ho, h⟩ := ok_of_bind h
    cases tested_of_accept ho with
    | kept hif =>
      obtain ⟨other, hother, h⟩ := ok_of_bind h
      cases h
      exact .or_else ht hcond hword hconsequent helse hif (hask _ _ _ hother)
    | taken hts' hif =>
      obtain ⟨chained, hchained, h⟩ := ok_of_bind h
      cases h
      have hchained := hask _ _ _ hchained _ hif rfl
      exact .else_if ht hcond hword hconsequent helse (.of_eq hts' hchained)

theorem lambdaRest {name : Option String} {hs a}
    (h : Rules.lambdaRest (source fin) ask p name ts hs = .ok a) :
    Sound fin (.lambdaRest p name ts) a := by
  rintro t us word ht rfl hmaybe rfl
  obtain ⟨o, ho, h⟩ := ok_of_bind h
  obtain ⟨params, hparams, h⟩ := ok_of_bind h
  obtain ⟨body, hbody, h⟩ := ok_of_bind h
  cases h
  obtain ⟨hts, htest⟩ := expect_ok ho
  rw [hts] at hmaybe
  exact .lambda ht hmaybe htest (names hask hparams) (hask _ _ _ hbody)

theorem lambdaForm {hs a} (h : Rules.lambdaForm (source fin) ask p ts hs = .ok a) :
    Sound fin (.lambdaForm p ts) a := by
  rintro t ht rfl
  obtain ⟨o, ho, h⟩ := ok_of_bind h
  cases tested_of_accept ho with
  | taken hts htest =>
    obtain ⟨e, he, h⟩ := ok_of_bind h
    cases h
    exact .of_eq (congrArg (t :: ·) hts) (hask _ _ _ he t _ _ ht rfl (.taken htest) rfl)
  | kept hlacks =>
    obtain ⟨e, he, h⟩ := ok_of_bind h
    cases h
    exact hask _ _ _ he t ts _ ht rfl (.absent hlacks) rfl

theorem letParams {name : String} {params : List (Binding Expr)} {hs a}
    (h : Rules.letParams (source fin) ask p name params ts hs = .ok a) :
    Sound fin (.letParams p name params ts) a := by
  rintro t u o us ht rfl hname rfl hopening hparams
  obtain ⟨o, ho, h⟩ := ok_of_bind h
  cases tested_of_accept ho with
  | taken hts heq =>
    rw [hts] at hparams
    dsimp only at h
    split at h
    · cases h
    · rename_i hnone
      obtain ⟨body, hbody, h⟩ := ok_of_bind h
      cases h
      exact .definition ht hname hopening hparams heq hnone (hask _ _ _ hbody)
  | kept heq =>
    obtain ⟨body, hbody, h⟩ := ok_of_bind h
    cases h
    exact .loop ht hname hopening hparams heq (hask _ _ _ hbody)

theorem letForm {hs a} (h : Rules.letForm (source fin) ask p ts hs = .ok a) :
    Sound fin (.letForm p ts) a := by
  rintro t ht rfl
  obtain ⟨o, ho, h⟩ := ok_of_bind h
  cases tested_of_accept ho with
  | taken hts htest =>
    obtain ⟨list, hlist, h⟩ := ok_of_bind h
    obtain ⟨body, hbody, h⟩ := ok_of_bind h
    cases h
    exact .of_eq (congrArg _ hts) (.scope ht htest (bindings hask hlist) (hask _ _ _ hbody))
  | kept =>
    obtain ⟨name, hname, h⟩ := ok_of_bind h
    obtain ⟨hts, hname⟩ := expect_ok hname
    refine .of_eq (congrArg _ hts) ?_
    obtain ⟨o, ho, h⟩ := ok_of_bind h
    cases tested_of_accept ho with
    | taken hts' heq =>
      obtain ⟨init, hinit, h⟩ := ok_of_bind h
      cases h
      exact .of_eq (congrArg (t :: name.value :: ·) hts')
        (.define_init ht hname heq (hask _ _ _ hinit))
    | kept heq =>
      obtain ⟨o, ho, h⟩ := ok_of_bind h
      cases tested_of_accept ho with
      | kept hlacks =>
        cases h
        exact .define ht hname heq hlacks
      | taken hts' htest =>
        obtain ⟨params, hparams, h⟩ := ok_of_bind h
        obtain ⟨e, he, h⟩ := ok_of_bind h
        cases h
        exact .of_eq (congrArg (t :: name.value :: ·) hts')
          (hask _ _ _ he _ _ _ _ ht rfl hname rfl htest (bindings hask hparams))

section Atoms

variable {t : Token} {kept : List Token} {hafter : ts.length < (t :: ts).length} {hs}
  {a : Parsed (t :: ts) Expr}

theorem bracketed (hkind : t.kind = .punctuation)
    (h : Rules.bracketed (source fin) ask t kept ts hafter hs = .ok a) :
    Reads fin .atom (t :: ts) a.value a.rest := by
  unfold Rules.bracketed at h
  split at h
  · rename_i htext
    obtain ⟨e, he, h⟩ := ok_of_bind h
    obtain ⟨u, hu, h⟩ := ok_of_bind h
    cases h
    obtain ⟨hts, htest⟩ := expect_ok hu
    have hread : Reads fin .expression ts e.value e.rest := hask _ _ _ he
    rw [hts] at hread
    exact .group (isMark_iff.mpr ⟨hkind, htext⟩) hread htest
  split at h
  · rename_i htext
    obtain ⟨body, hbody, h⟩ := ok_of_bind h
    cases h
    exact .block (isMark_iff.mpr ⟨hkind, htext⟩) (expressions hask .curly hbody)
  split at h
  · rename_i htext
    obtain ⟨list, hlist, h⟩ := ok_of_bind h
    cases h
    exact .array (isMark_iff.mpr ⟨hkind, htext⟩) (expressions hask .square hlist)
  · cases h

theorem worded (hkind : t.kind = .keyword)
    (h : Rules.worded (source fin) ask t kept ts hafter hs = .ok a) :
    Reads fin .atom (t :: ts) a.value a.rest := by
  unfold Rules.worded at h
  split at h
  · rename_i htext
    obtain ⟨e, he, h⟩ := ok_of_bind h
    cases h
    exact hask _ _ _ he t (isKeyword_iff.mpr ⟨hkind, htext⟩) rfl
  split at h
  · rename_i htext
    obtain ⟨e, he, h⟩ := ok_of_bind h
    cases h
    exact .branch (hask _ _ _ he t (isKeyword_iff.mpr ⟨hkind, htext⟩) rfl)
  split at h
  · rename_i hword
    obtain ⟨e, he, h⟩ := ok_of_bind h
    cases h
    exact hask _ _ _ he t hword rfl
  · cases h

theorem named (hname : t.isName = true)
    (h : Rules.named (source fin) ask t ts hafter hs = .ok a) :
    Reads fin .atom (t :: ts) a.value a.rest := by
  obtain ⟨o, ho, h⟩ := ok_of_bind h
  cases tested_of_accept ho with
  | kept hdot =>
    cases h
    exact .var hname hdot
  | taken hts hdot =>
    obtain ⟨method, hmethod, h⟩ := ok_of_bind h
    obtain ⟨o, ho, h⟩ := ok_of_bind h
    obtain ⟨args, hargs, h⟩ := ok_of_bind h
    cases h
    obtain ⟨hts₁, hmethod⟩ := expect_ok hmethod
    obtain ⟨hts₂, ho⟩ := expect_ok ho
    rw [hts₂] at hts₁
    rw [hts₁] at hts
    exact .of_eq (congrArg _ hts) (.method hname hdot hmethod ho (expressions hask .round hargs))

end Atoms

theorem atom {hs a} (h : Rules.atom (source fin) ask ts hs = .ok a) : Sound fin (.atom ts) a := by
  obtain ⟨look, hlook, h⟩ := ok_of_bind h
  cases ts with
  | nil =>
    cases fin with
    | eof p =>
      cases hlook
      cases h
    | failed e => cases hlook
  | cons t ts =>
    cases hlook
    dsimp only at h
    cases hkind : t.kind with
    | punctuation =>
      simp only [hkind] at h
      exact bracketed hask hkind h
    | keyword =>
      simp only [hkind] at h
      exact worded hask hkind h
    | name =>
      simp only [hkind] at h
      exact named hask (isName_token_iff.mpr hkind) h
    | boolean =>
      simp only [hkind] at h
      cases h
      exact .boolean hkind
    | number =>
      simp only [hkind] at h
      split at h
      · rename_i x hx
        cases h
        exact .number hkind hx
      · cases h
    | string =>
      simp only [hkind] at h
      cases h
      exact .string hkind
    | operator | endOfInput =>
      simp only [hkind] at h
      cases h

theorem arguments {callee : Expr} {hs a}
    (h : Rules.arguments (source fin) ask callee ts hs = .ok a) :
    Sound fin (.arguments callee ts) a := by
  obtain ⟨o, ho, h⟩ := ok_of_bind h
  cases tested_of_accept ho with
  | kept hlacks =>
    cases h
    exact ⟨[], rfl, .arguments_nil hlacks⟩
  | taken hts htest =>
    obtain ⟨args, hargs, h⟩ := ok_of_bind h
    obtain ⟨called, hcalled, h⟩ := ok_of_bind h
    cases h
    obtain ⟨more, hvalue, hmore⟩ := hask _ _ _ hcalled
    exact ⟨args.value :: more, hvalue,
      .of_eq hts (.arguments_cons htest (expressions hask .round hargs) hmore)⟩

theorem operand {hs a} (h : Rules.operand ask ts hs = .ok a) : Sound fin (.operand ts) a := by
  obtain ⟨e, he, h⟩ := ok_of_bind h
  obtain ⟨called, hcalled, h⟩ := ok_of_bind h
  cases h
  obtain ⟨args, hvalue, hargs⟩ := hask _ _ _ hcalled
  change Reads fin .operand ts called.value called.rest
  rw [hvalue]
  exact .operand (hask _ _ _ he) hargs

/-- From a left operand on, the links up to the next operator that binds no tighter than the bound
are taken in. -/
theorem climb {left : Expr} {bound : Nat} {hs a}
    (h : Rules.climb (source fin) ask left bound ts hs = .ok a) :
    Sound fin (.climb left bound ts) a := by
  obtain ⟨look, hlook, h⟩ := ok_of_bind h
  cases ts with
  | nil =>
    cases fin with
    | eof p =>
      cases hlook
      cases h
      exact ⟨[], .links_nil, .inl ⟨p, rfl⟩, climbs_nil _ _⟩
    | failed e => cases hlook
  | cons t ts =>
    cases hlook
    dsimp only at h
    split at h
    · rename_i hkind
      split at h
      · cases h
      · rename_i c hc
        split at h
        · rename_i hbound
          cases h
          exact ⟨[], .links_nil, .inr ⟨t, ts, c, rfl, hkind, hc, hbound⟩, climbs_nil _ _⟩
        · rename_i hbound
          have hbound := Nat.lt_of_not_le hbound
          obtain ⟨first, hfirst, h⟩ := ok_of_bind h
          obtain ⟨right, hright, h⟩ := ok_of_bind h
          obtain ⟨whole, hwhole, h⟩ := ok_of_bind h
          cases h
          -- The right side climbs first; the left side goes on with what it leaves.
          obtain ⟨inner, hinner, hstop, htaken⟩ := hask _ _ _ hright
          obtain ⟨outer, houter, hstop', htaken'⟩ := hask _ _ _ hwhole
          refine ⟨(c, first.value) :: (inner ++ outer), ?_, hstop', ?_⟩
          · exact .links_cons hkind hc (hask _ _ _ hfirst) (hinner.links_append houter)
          · intro more hmore
            -- The right side stopped in front of `outer`, or else in front of `more`, which binds
            -- less tightly than `bound`.
            have hhead : ∀ l ∈ (outer ++ more).head?, l.1.precedence ≤ c.rightBound := by
              intro l hl
              cases outer with
              | nil => exact Nat.le_trans (hmore l hl) (le_rightBound hbound)
              | cons l' outer => exact hstop.head houter l hl
            have h₁ := htaken (outer ++ more) hhead
            have h₂ := htaken' more hmore
            rw [List.cons_append, List.append_assoc, Expr.taken_join _ _ _ hbound,
              Expr.untaken_join _ _ _ hbound, h₁.1, h₁.2]
            exact h₂
    · rename_i hkind
      cases h
      exact ⟨[], .links_nil, .inl (by simpa [Lacks] using hkind), climbs_nil _ _⟩

theorem expression {hs a} (h : Rules.expression ask ts hs = .ok a) :
    Sound fin (.expression ts) a := by
  obtain ⟨first, hfirst, h⟩ := ok_of_bind h
  obtain ⟨joined, hjoined, h⟩ := ok_of_bind h
  obtain ⟨called, hcalled, h⟩ := ok_of_bind h
  cases h
  have hread : Reads fin .expression ts joined.value joined.rest :=
    joined_operand (hask _ _ _ hfirst) (hask _ _ _ hjoined)
  -- The last operand has taken all argument lists, so none is left for a call of the whole.
  obtain ⟨args, hargs, hrest⟩ := hask _ _ _ hcalled
  change Reads fin .expression ts called.value called.rest
  rw [hargs]
  obtain ⟨rfl, heq⟩ := hrest.arguments_eq_nil hread.maximal.1
  rw [heq]
  exact hread

theorem moreExpressions {sep close : Char} {before : List Expr} {hs a}
    (h : Rules.moreExpressions (source fin) ask sep close before ts hs = .ok a) :
    Sound fin (.moreExpressions sep close before ts) a := by
  rintro b rfl rfl
  exact reads_of_moreItems (r := .expression)
    (fun _ _ _ _ h => hask (.moreExpressions ..) _ _ h b rfl rfl)
    (fun _ _ _ h => hask (.expression _) _ _ h) h

theorem moreBindings {before : List (Binding Expr)} {hs a}
    (h : Rules.moreBindings (source fin) ask before ts hs = .ok a) :
    Sound fin (.moreBindings before ts) a :=
  reads_of_moreItems (b := .round) (r := .binding)
    (fun _ _ _ _ h => hask (.moreBindings ..) _ _ h) (fun _ _ _ h => hask (.binding _) _ _ h) h

theorem moreNames {before : List String} {hs a}
    (h : Rules.moreNames (source fin) ask before ts hs = .ok a) :
    Sound fin (.moreNames before ts) a :=
  reads_of_moreItems (b := .round) (r := .param)
    (fun _ _ _ _ h => hask (.moreNames ..) _ _ h) (fun _ _ _ h => reads_param h) h

theorem statements {before es : List Expr} {hs}
    (h : Rules.statements (source fin) ask before ts hs = .ok es) :
    Sound fin (.statements before ts) es := by
  obtain ⟨look, hlook, h⟩ := ok_of_bind h
  cases ts with
  | nil =>
    cases fin with
    | eof p =>
      cases hlook
      cases h
      exact ⟨[], (List.append_nil _).symm, .nil ⟨p, rfl⟩⟩
    | failed e => cases hlook
  | cons t ts =>
    cases hlook
    obtain ⟨e, he, h⟩ := ok_of_bind h
    have hread : Reads fin .expression (t :: ts) e.value e.rest := hask _ _ _ he
    obtain ⟨o, ho, h⟩ := ok_of_bind h
    cases tested_of_accept ho with
    | taken hts htest =>
      rw [hts] at hread
      obtain ⟨more, hmore, hreads⟩ := hask _ _ _ h
      exact ⟨e.value :: more, by simp [hmore], .cons hread htest hreads⟩
    | kept =>
      obtain ⟨look, hlook, h⟩ := ok_of_bind h
      obtain ⟨value, rest, hrest⟩ := e
      cases rest with
      | nil =>
        cases fin with
        | eof p =>
          cases hlook
          cases h
          exact ⟨[value], by simp, .last hread ⟨p, rfl⟩⟩
        | failed e => cases hlook
      | cons u us =>
        cases hlook
        cases h

end Sound

theorem sound_step (c : Call (List Token))
    (ask : Callees List.length ParseError (c.weight List.length))
    (hask : ∀ d hd a, ask d hd = .ok a → Sound fin d a) (a : c.Answer List.length)
    (h : Rules.step (source fin) c ask = .ok a) : Sound fin c a := by
  cases c <;> rw [Rules.step] at h
  case expression => exact Sound.expression hask h
  case climb => exact Sound.climb hask h
  case operand => exact Sound.operand hask h
  case arguments => exact Sound.arguments hask h
  case atom => exact Sound.atom hask h
  case binding => exact Sound.binding hask h
  case letForm => exact Sound.letForm hask h
  case letParams => exact Sound.letParams hask h
  case condition => exact Sound.condition hask h
  case ifForm => exact Sound.ifForm hask h
  case lambdaForm => exact Sound.lambdaForm hask h
  case lambdaRest => exact Sound.lambdaRest hask h
  case moreExpressions => exact Sound.moreExpressions hask h
  case moreBindings => exact Sound.moreBindings hask h
  case moreNames => exact Sound.moreNames hask h
  case statements => exact Sound.statements hask h

/-- What the parser makes of tokens is what the grammar says. -/
theorem sound {c : Call (List Token)} {a : c.Answer List.length}
    (h : (source fin).answer c = .ok a) : Sound fin c a :=
  Source.of_answer _ sound_step c a h

theorem readsAll_of_parse {s : TokenStream} {e : Expr} (h : s.parse = .ok e) :
    ∃ es, e = .block .start es ∧ ReadsAll s.ending s.tokens es := by
  rw [TokenStream.parse, Source.parse] at h
  cases hstatements : (source s.ending).answer (.statements [] s.tokens) with
  | error fault =>
    rw [hstatements] at h
    cases h
  | ok es =>
    rw [hstatements] at h
    cases h
    obtain ⟨more, hmore, hreads⟩ := sound hstatements
    exact ⟨more, congrArg (Expr.block .start) hmore, hreads⟩

end ExprLang.Parser
