import ExprLang.Expr.Rules

namespace ExprLang

theorem ok_of_bind {ε α β : Type} {x : Except ε α} {f : α → Except ε β} {b : β}
    (h : x >>= f = .ok b) : ∃ a, x = .ok a ∧ f a = .ok b := by
  cases x with
  | error e => cases h
  | ok a => exact ⟨a, rfl, h⟩

theorem bind_ok {ε α β : Type} {x : Except ε α} {f : α → Except ε β} {a : α} (h : x = .ok a) :
    x >>= f = f a := by
  rw [h]
  rfl

theorem bind_error {ε α β : Type} {x : Except ε α} {f : α → Except ε β} {e : ε}
    (h : x = .error e) : x >>= f = .error e := by
  rw [h]
  rfl

namespace Source

variable {σ ε : Type} {unread : σ → Nat} {S : Source unread ε}

section Accept

variable {s : σ} {test : Token → Bool}

theorem accept_ended {mark : Token} {kept : σ} {hkept}
    (h : S.peek s = .ok (.ended mark kept hkept)) : S.accept test s = .ok (.kept kept hkept) :=
  bind_ok h

variable {t : Token} {kept after : σ} {hkept hafter}

theorem accept_taken (h : S.peek s = .ok (.next t kept after hkept hafter)) (ht : test t = true) :
    S.accept test s = .ok (.taken ⟨t, after, hafter⟩) := by
  rw [accept, bind_ok h]
  exact congrArg _ (if_pos ht)

theorem accept_kept (h : S.peek s = .ok (.next t kept after hkept hafter)) (ht : test t = false) :
    S.accept test s = .ok (.kept kept hkept) := by
  rw [accept, bind_ok h]
  exact congrArg _ (if_neg (Bool.eq_false_iff.mp ht))

end Accept

variable (S)

/-- What a step of a rule keeps, all rules have. -/
theorem answer_induction {P : (c : Call σ) → Except ε (c.Answer unread) → Prop}
    (hstep : ∀ c (ask : Callees unread ε (c.weight unread)),
      (∀ d hd, P d (ask d hd)) → P c (Rules.step S c ask)) (c : Call σ) : P c (S.answer c) := by
  rw [answer_eq]
  exact hstep c _ fun d _ => answer_induction hstep d
termination_by c.weight unread

/-- What a step of a rule makes of answers with a property, all rules make. -/
theorem of_answer {P : (c : Call σ) → c.Answer unread → Prop}
    (hstep : ∀ c (ask : Callees unread ε (c.weight unread)),
      (∀ d hd a, ask d hd = .ok a → P d a) → ∀ a, Rules.step S c ask = .ok a → P c a)
    (c : Call σ) (a : c.Answer unread) (h : S.answer c = .ok a) : P c a :=
  S.answer_induction (P := fun c r => ∀ a, r = .ok a → P c a) hstep c a h

/-- The answer of a rule when no more than `n` calls may nest; `deep` is the answer for more. -/
def answerWithin (deep : ε) : Nat → (c : Call σ) → Except ε (c.Answer unread)
  | 0, _ => .error deep
  | n + 1, c => Rules.step S c fun d _ => answerWithin deep n d

/-- Calls nest no deeper than their weight. -/
theorem answerWithin_eq (deep : ε) {n : Nat} {c : Call σ} (hc : c.weight unread < n) :
    S.answerWithin deep n c = S.answer c := by
  induction n generalizing c with
  | zero => cases hc
  | succ n ih =>
    rw [answerWithin, answer_eq]
    refine congrArg (Rules.step S c) (funext fun d => funext fun hd => ?_)
    exact ih (Nat.lt_of_lt_of_le hd (Nat.le_of_lt_succ hc))

/-- The program that is left to read, when no more than `n` calls may nest. -/
def parseWithin (deep : ε) (n : Nat) (s : σ) : Except ε Expr :=
  (S.answerWithin deep n (.statements [] s)).map (.block .start)

theorem parseWithin_eq (deep : ε) {n : Nat} {s : σ} (hn : 8 * unread s + 3 < n) :
    S.parseWithin deep n s = S.parse s := by
  rw [parseWithin, parse, S.answerWithin_eq deep hn]

end Source

end ExprLang
