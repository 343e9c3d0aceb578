import ExprLang.Proofs.Expr.OnDemand

namespace ExprLang.OnDemand

variable {lx after : Lexer} {t : Token} {test : Token → Bool}

/-- A token has been looked at, and no argument list can start with it. -/
def Uncalled (lx : Lexer) : Prop := ∃ t, lx.peek = (.ok t, lx) ∧ t.isMark '(' = false

/-- A token has been looked at, and an expression cannot go on with it. -/
def Finished (lx : Lexer) : Prop :=
  ∃ t, lx.peek = (.ok t, lx) ∧ t.isMark '(' = false ∧ t.kind ≠ .operator

theorem Finished.uncalled (h : Finished lx) : Uncalled lx := by
  obtain ⟨t, ht, hmark, -⟩ := h
  exact ⟨t, ht, hmark⟩

section Looking

theorem lexer_peek_of_kept (h : lx.peeked = some t) : lx.peek = (.ok t, lx) := by
  obtain ⟨cursor, peeked, strict⟩ := lx
  cases h
  rfl

theorem peek_kept {look : Look Lexer.unread lx} (h : source.peek lx = .ok look) :
    look.kept.peek = (.ok look.token, look.kept) := by
  have hshown := shown lx
  rw [show peek lx = _ from h] at hshown
  generalize lx.stream = stream at hshown
  cases hshown with
  | ended _ hpeeked | next _ hpeeked => exact lexer_peek_of_kept hpeeked

theorem endOfInput_of_ended {kept : Lexer} {hkept}
    (h : source.peek lx = .ok (.ended t kept hkept)) : t.kind = .endOfInput := by
  have hshown := shown lx
  rw [show peek lx = _ from h] at hshown
  generalize lx.stream = stream at hshown
  cases hshown with
  | ended hmark _ => exact of_decide_eq_true hmark

theorem peek_again (h : lx.peek = (.ok t, lx)) :
    ∃ look, source.peek lx = .ok look ∧ look.token = t ∧ look.kept = lx := by
  cases ht : t.isEof with
  | true => exact ⟨_, peek_of_ended h ht, rfl, rfl⟩
  | false =>
    obtain ⟨_, _, hpeek⟩ := peek_of_next h ht
    exact ⟨_, hpeek, rfl, rfl⟩

theorem accept_kept {hle} (h : source.accept test lx = .ok (.kept after hle)) :
    ∃ t, after.peek = (.ok t, after) ∧ (t.kind ≠ .endOfInput → test t = false) := by
  obtain ⟨look, hlook, h⟩ := ok_of_bind h
  have hkept := peek_kept hlook
  cases look with
  | ended mark kept _ =>
    cases h
    exact ⟨mark, hkept, absurd (endOfInput_of_ended hlook)⟩
  | next t kept _ _ _ =>
    dsimp only at h
    split at h
    · cases h
    · rename_i hfails
      cases h
      exact ⟨t, hkept, fun _ => Bool.eq_false_iff.mpr hfails⟩

theorem accept_of_not (h : lx.peek = (.ok t, lx)) (htest : test t = false) :
    ∃ hle, source.accept test lx = .ok (.kept lx hle) := by
  obtain ⟨look, hlook, rfl, hkept⟩ := peek_again h
  cases look with
  | ended mark kept hle =>
    have hkept : kept = lx := hkept
    subst hkept
    exact ⟨hle, Source.accept_ended hlook⟩
  | next t kept rest hle hrest =>
    have hkept : kept = lx := hkept
    subst hkept
    exact ⟨hle, Source.accept_kept hlook htest⟩

theorem eq_of_accept_kept {hle} (hnext : lx.peek = (.ok t, lx))
    (h : source.accept test lx = .ok (.kept after hle)) : after = lx := by
  obtain ⟨look, hlook, -, hkept⟩ := peek_again hnext
  rw [Source.accept, bind_ok hlook] at h
  cases look with
  | ended mark kept _ =>
    cases h
    exact hkept
  | next t kept _ _ _ =>
    dsimp only at h
    split at h <;> cases h
    exact hkept

theorem uncalled_of_kept {hle} (h : source.accept (·.isMark '(') lx = .ok (.kept after hle)) :
    Uncalled after := by
  obtain ⟨t, ht, hfails⟩ := accept_kept h
  refine ⟨t, ht, ?_⟩
  by_cases hkind : t.kind = .endOfInput
  · simp [Token.isMark, hkind]
  · exact hfails hkind

theorem Finished.of_kept {hle} (hlx : Finished lx)
    (h : source.accept test lx = .ok (.kept after hle)) : Finished after := by
  obtain ⟨t, ht, -⟩ := id hlx
  rwa [eq_of_accept_kept ht h]

end Looking

section Rules

/-- Where a rule stops. -/
def Settled : (c : Call Lexer) → c.Answer Lexer.unread → Prop
  | .operand _, a => Uncalled a.rest
  | .arguments _ lx, a => Uncalled a.rest ∧ (Uncalled lx → a.rest = lx)
  | .climb _ bound lx, a => ∃ t, a.rest.peek = (.ok t, a.rest) ∧
      (t.kind = .operator → ∃ c, Connective.ofSymbol? t.text = some c ∧ c.precedence ≤ bound) ∧
      (Uncalled lx → t.isMark '(' = false)
  | .expression _, a | .ifForm _ _, a | .lambdaForm _ _, a | .lambdaRest _ _ _, a
  | .letParams _ _ _ _, a => Finished a.rest
  | .letForm p _, a => (∀ name, a.value ≠ .define p name none) → Finished a.rest
  | _, _ => True

namespace Settled

variable {w : Nat} {ask : Callees Lexer.unread ParseError w} {p : Position}
  (hask : ∀ d hd a, ask d hd = .ok a → Settled d a)
include hask

theorem arguments {callee : Expr} {hs a} (h : Rules.arguments source ask callee lx hs = .ok a) :
    Settled (.arguments callee lx) a := by
  obtain ⟨offered, hoffered, h⟩ := ok_of_bind h
  cases offered with
  | kept kept hle =>
    cases h
    refine ⟨uncalled_of_kept hoffered, ?_⟩
    rintro ⟨t, ht, -⟩
    exact eq_of_accept_kept ht hoffered
  | taken opening =>
    obtain ⟨args, -, h⟩ := ok_of_bind h
    obtain ⟨called, hcalled, h⟩ := ok_of_bind h
    cases h
    refine ⟨(hask _ _ _ hcalled).1, ?_⟩
    rintro ⟨t, ht, hmark⟩
    obtain ⟨_, hkept⟩ : ∃ hle, source.accept (·.isMark '(') lx = .ok (.kept lx hle) :=
      accept_of_not ht hmark
    cases hoffered.symm.trans hkept

theorem operand {hs a} (h : Rules.operand ask lx hs = .ok a) : Settled (.operand lx) a := by
  obtain ⟨atom, -, h⟩ := ok_of_bind h
  obtain ⟨called, hcalled, h⟩ := ok_of_bind h
  cases h
  exact (hask _ _ _ hcalled).1

/-- Operators are taken as long as one binds tighter than the bound. Between them are operands, so
that no argument list comes to stand after the last. -/
theorem climb {left : Expr} {bound : Nat} {hs a}
    (h : Rules.climb source ask left bound lx hs = .ok a) : Settled (.climb left bound lx) a := by
  obtain ⟨look, hlook, h⟩ := ok_of_bind h
  have hnext := peek_kept hlook
  have hmark (hlx : Uncalled lx) : look.token.isMark '(' = false := by
    obtain ⟨t, ht, hmark⟩ := hlx
    obtain ⟨look', hlook', rfl, -⟩ := peek_again ht
    cases hlook.symm.trans hlook'
    exact hmark
  cases look with
  | ended mark kept _ =>
    cases h
    refine ⟨mark, hnext, fun hkind => ?_, hmark⟩
    have hend := endOfInput_of_ended hlook
    simp [hend] at hkind
  | next t kept rest _ _ =>
    dsimp only at h
    split at h
    · split at h
      · cases h
      · rename_i c hc
        split at h
        · rename_i hbound
          cases h
          exact ⟨t, hnext, fun _ => ⟨c, hc, hbound⟩, hmark⟩
        · obtain ⟨first, hfirst, h⟩ := ok_of_bind h
          obtain ⟨right, hright, h⟩ := ok_of_bind h
          obtain ⟨whole, hwhole, h⟩ := ok_of_bind h
          cases h
          obtain ⟨u, hu, -, hcalled⟩ := hask _ _ _ hright
          obtain ⟨t, ht, hbound, hwhole⟩ := hask _ _ _ hwhole
          exact ⟨t, ht, hbound, fun _ => hwhole ⟨u, hu, hcalled (hask _ _ _ hfirst)⟩⟩
    · rename_i hkind
      cases h
      exact ⟨t, hnext, fun hoperator => absurd hoperator hkind, hmark⟩

omit hask in
theorem climb_zero {left : Expr} {a : Call.Answer Lexer.unread (.climb left 0 lx)}
    (h : Settled (.climb left 0 lx) a) :
    ∃ t, a.rest.peek = (.ok t, a.rest) ∧ t.kind ≠ .operator ∧
      (Uncalled lx → t.isMark '(' = false) := by
  obtain ⟨t, ht, hbound, hmark⟩ := h
  refine ⟨t, ht, fun hkind => ?_, hmark⟩
  obtain ⟨c, -, hc⟩ := hbound hkind
  have := c.precedence_pos
  omega

omit hask in
theorem finished {first : Taken Lexer.unread lx.unread Expr}
    {joined : Call.Answer Lexer.unread (.climb first.value 0 first.rest)}
    (hfirst : Settled (.operand lx) first)
    (hjoined : Settled (.climb first.value 0 first.rest) joined) : Finished joined.rest := by
  obtain ⟨t, ht, hkind, hmark⟩ := hjoined.climb_zero
  exact ⟨t, ht, hmark hfirst, hkind⟩

theorem expression {hs a} (h : Rules.expression ask lx hs = .ok a) :
    Settled (.expression lx) a := by
  obtain ⟨first, hfirst, h⟩ := ok_of_bind h
  obtain ⟨joined, hjoined, h⟩ := ok_of_bind h
  obtain ⟨called, hcalled, h⟩ := ok_of_bind h
  cases h
  -- The operand before has taken all argument lists, so the call at the end takes nothing.
  have hfinished := finished (hask _ _ _ hfirst) (hask _ _ _ hjoined)
  have hrest : called.rest = joined.rest := (hask _ _ _ hcalled).2 hfinished.uncalled
  rw [← hrest] at hfinished
  exact hfinished

/-- A conditional ends in its last branch, and `else` does not follow a branch that is the last. -/
theorem ifForm {hs a} (h : Rules.ifForm source ask p lx hs = .ok a) : Settled (.ifForm p lx) a := by
  obtain ⟨cond, -, h⟩ := ok_of_bind h
  obtain ⟨body, -, h⟩ := ok_of_bind h
  obtain ⟨consequent, hconsequent, h⟩ := ok_of_bind h
  obtain ⟨offered, hoffered, h⟩ := ok_of_bind h
  cases offered with
  | kept kept hle =>
    cases h
    exact Finished.of_kept (hask _ _ _ hconsequent) hoffered
  | taken els =>
    obtain ⟨offered', -, h⟩ := ok_of_bind h
    cases offered' with
    | taken word =>
      obtain ⟨chained, hchained, h⟩ := ok_of_bind h
      cases h
      exact (hask _ _ _ hchained :)
    | kept kept hle =>
      obtain ⟨alternative, halternative, h⟩ := ok_of_bind h
      cases h
      exact (hask _ _ _ halternative :)

theorem lambdaRest {name : Option String} {hs a}
    (h : Rules.lambdaRest source ask p name lx hs = .ok a) : Settled (.lambdaRest p name lx) a := by
  obtain ⟨opening, -, h⟩ := ok_of_bind h
  obtain ⟨params, -, h⟩ := ok_of_bind h
  obtain ⟨body, hbody, h⟩ := ok_of_bind h
  cases h
  exact (hask _ _ _ hbody :)

theorem lambdaForm {hs a} (h : Rules.lambdaForm source ask p lx hs = .ok a) :
    Settled (.lambdaForm p lx) a := by
  obtain ⟨offered, -, h⟩ := ok_of_bind h
  cases offered with
  | taken name | kept kept hle =>
    obtain ⟨e, he, h⟩ := ok_of_bind h
    cases h
    exact (hask _ _ _ he :)

theorem letParams {name : String} {params : List (Binding Expr)} {hs a}
    (h : Rules.letParams source ask p name params lx hs = .ok a) :
    Settled (.letParams p name params lx) a := by
  obtain ⟨offered, -, h⟩ := ok_of_bind h
  cases offered with
  | taken eq =>
    dsimp only at h
    split at h
    · cases h
    · obtain ⟨body, hbody, h⟩ := ok_of_bind h
      cases h
      exact (hask _ _ _ hbody :)
  | kept kept hle =>
    obtain ⟨body, hbody, h⟩ := ok_of_bind h
    cases h
    exact (hask _ _ _ hbody :)

/-- A `let` that is more than a name ends in an expression. -/
theorem letForm {hs a} (h : Rules.letForm source ask p lx hs = .ok a) :
    Settled (.letForm p lx) a := by
  intro hmore
  obtain ⟨offered, -, h⟩ := ok_of_bind h
  cases offered with
  | taken opening =>
    obtain ⟨bindings, -, h⟩ := ok_of_bind h
    obtain ⟨body, hbody, h⟩ := ok_of_bind h
    cases h
    exact (hask _ _ _ hbody :)
  | kept kept hle =>
    obtain ⟨name, -, h⟩ := ok_of_bind h
    obtain ⟨offered', -, h⟩ := ok_of_bind h
    cases offered' with
    | taken eq =>
      obtain ⟨init, hinit, h⟩ := ok_of_bind h
      cases h
      exact (hask _ _ _ hinit :)
    | kept kept' hle' =>
      obtain ⟨offered'', -, h⟩ := ok_of_bind h
      cases offered'' with
      | kept kept'' hle'' =>
        cases h
        exact absurd rfl (hmore _)
      | taken opening =>
        obtain ⟨params, -, h⟩ := ok_of_bind h
        obtain ⟨e, he, h⟩ := ok_of_bind h
        cases h
        exact (hask _ _ _ he :)

end Settled

theorem settled_step (c : Call Lexer)
    (ask : Callees Lexer.unread ParseError (c.weight Lexer.unread))
    (hask : ∀ d hd a, ask d hd = .ok a → Settled d a) (a : c.Answer Lexer.unread)
    (h : Rules.step source c ask = .ok a) : Settled c a := by
  cases c <;> rw [Rules.step] at h
  case operand => exact Settled.operand hask h
  case arguments => exact Settled.arguments hask h
  case climb => exact Settled.climb hask h
  case expression => exact Settled.expression hask h
  case ifForm => exact Settled.ifForm hask h
  case lambdaForm => exact Settled.lambdaForm hask h
  case lambdaRest => exact Settled.lambdaRest hask h
  case letParams => exact Settled.letParams hask h
  case letForm => exact Settled.letForm hask h
  all_goals trivial

theorem settled {c : Call Lexer} {a : c.Answer Lexer.unread} (h : source.answer c = .ok a) :
    Settled c a :=
  Source.of_answer _ settled_step c a h

theorem arguments_of_uncalled (callee : Expr) (h : Uncalled lx) :
    ∃ hfewer, source.answer (.arguments callee lx) = .ok ⟨callee, lx, hfewer⟩ := by
  obtain ⟨t, ht, hmark⟩ := h
  obtain ⟨hle, hkept⟩ : ∃ hle, source.accept (·.isMark '(') lx = .ok (.kept lx hle) :=
    accept_of_not ht hmark
  refine ⟨Nat.lt_succ_of_le hle, ?_⟩
  rw [Source.answer_eq]
  exact bind_ok hkept

/-- After an operand no argument list follows, and after an expression, a conditional, a function or
a `let` that is more than a name no operator either, whatever the lexer was before. So there is no
call to take after the operators of an expression, and the operators of any left operand are taken
to the last. -/
theorem rules_stop (lx : Lexer) :
    (∀ a, source.answer (.operand lx) = .ok a → Uncalled a.rest) ∧
    (∀ a, source.answer (.expression lx) = .ok a → Finished a.rest) ∧
    (∀ p a, source.answer (.ifForm p lx) = .ok a → Finished a.rest) ∧
    (∀ p a, source.answer (.lambdaForm p lx) = .ok a → Finished a.rest) ∧
    (∀ p a, source.answer (.letForm p lx) = .ok a → (∀ name, a.value ≠ .define p name none) →
      Finished a.rest) ∧
    (∀ first joined, source.answer (.operand lx) = .ok first →
      source.answer (.climb first.value 0 first.rest) = .ok joined →
      ∃ hfewer, source.answer (.arguments joined.value joined.rest) =
        .ok ⟨joined.value, joined.rest, hfewer⟩) ∧
    ∀ left a, source.answer (.climb left 0 lx) = .ok a →
      ∃ t, a.rest.peek = (.ok t, a.rest) ∧ t.kind ≠ .operator := by
  refine ⟨fun _ => settled, fun _ => settled, fun _ _ => settled, fun _ _ => settled,
    fun _ _ => settled, fun first joined hfirst hjoined => ?_, fun left a h => ?_⟩
  · exact arguments_of_uncalled _ (Settled.finished (settled hfirst) (settled hjoined)).uncalled
  · obtain ⟨t, ht, hkind, -⟩ := (settled h).climb_zero
    exact ⟨t, ht, hkind⟩

/-- `f(x)` before an operator, `f(x) + y` before a semicolon, and a `let` that ends in a
function. -/
theorem rules_stop_let :
    ∃ first joined named,
      source.answer (.operand (.ofSource "f(x) + y; g" false)) = .ok first ∧ Uncalled first.rest ∧
      source.answer (.climb first.value 0 first.rest) = .ok joined ∧
      (∃ h, source.answer (.arguments joined.value joined.rest) =
        .ok ⟨joined.value, joined.rest, h⟩) ∧
      source.answer (.letForm .start (.ofSource "x = fn(c) c, d" false)) = .ok named ∧
      Finished named.rest := by
  obtain ⟨hoperand, -, -, -, -, harguments, -⟩ := rules_stop (.ofSource "f(x) + y; g" false)
  obtain ⟨-, -, -, -, hlet, -, -⟩ := rules_stop (.ofSource "x = fn(c) c, d" false)
  have hfirst : source.answer (.operand (.ofSource "f(x) + y; g" false)) =
      .ok ⟨.call ⟨1, 1⟩ (.var ⟨1, 1⟩ "f") [.var ⟨1, 3⟩ "x"],
        ⟨⟨" y; g".toList, ⟨1, 7⟩⟩, some ⟨.operator, "+", ⟨1, 6⟩⟩, false⟩, by decide⟩ := by
    with_unfolding_all rfl
  have hjoined : source.answer (.climb (.call ⟨1, 1⟩ (.var ⟨1, 1⟩ "f") [.var ⟨1, 3⟩ "x"]) 0
        ⟨⟨" y; g".toList, ⟨1, 7⟩⟩, some ⟨.operator, "+", ⟨1, 6⟩⟩, false⟩) =
      .ok ⟨.binary ⟨1, 1⟩ .add (.call ⟨1, 1⟩ (.var ⟨1, 1⟩ "f") [.var ⟨1, 3⟩ "x"])
          (.var ⟨1, 8⟩ "y"),
        ⟨⟨" g".toList, ⟨1, 10⟩⟩, some ⟨.punctuation, ";", ⟨1, 9⟩⟩, false⟩, by decide⟩ := by
    with_unfolding_all rfl
  have hnamed : source.answer (.letForm .start (.ofSource "x = fn(c) c, d" false)) =
      .ok ⟨.define .start "x" (some (.lambda ⟨1, 5⟩ (some "x") ["c"] (.var ⟨1, 11⟩ "c"))),
        ⟨⟨" d".toList, ⟨1, 13⟩⟩, some ⟨.punctuation, ",", ⟨1, 12⟩⟩, false⟩, by decide⟩ := by
    with_unfolding_all rfl
  exact ⟨_, _, _, hfirst, hoperand _ hfirst, hjoined, harguments _ _ hfirst hjoined, hnamed,
    hlet _ _ hnamed fun _ h => by cases h⟩

end Rules

end ExprLang.OnDemand
