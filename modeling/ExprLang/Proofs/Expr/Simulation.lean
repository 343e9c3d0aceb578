import Mathlib.Data.List.Forall2
import ExprLang.Proofs.Expr.Places
import ExprLang.Proofs.Expr.Rules

namespace ExprLang

namespace Parser

/-- Whether a token goes on with an expression in front of it. -/
def goesOn (t : Token) : Bool :=
  t.isMark '.' || t.isMark '(' || t.kind = .operator || t.isKeyword "else"

variable {t : Token}

theorem goesOn_of_point (h : t.isMark '.' = true) : goesOn t = true := by
  simp [goesOn, h]

theorem goesOn_of_mark (h : t.isMark '(' = true) : goesOn t = true := by
  simp [goesOn, h]

theorem goesOn_of_operator (h : decide (t.kind = .operator) = true) : goesOn t = true := by
  simp_all [goesOn]

theorem goesOn_of_equals (h : t.isOperator "=" = true) : goesOn t = true := by
  simp only [Token.isOperator, Bool.and_eq_true] at h
  exact goesOn_of_operator h.1

theorem goesOn_of_else (h : t.isKeyword "else" = true) : goesOn t = true := by
  simp [goesOn, h]

end Parser

def Look.kept {σ : Type} {unread : σ → Nat} {s : σ} : Look unread s → σ
  | ended _ kept _ => kept
  | next _ kept _ _ _ => kept

/-- What a rule can find wrong at a token, apart from the token being another than expected. -/
inductive Raised (t : Token) : ParseFault → Prop
  | condition : Raised t .emptyCondition
  | operator : Raised t (.unknownOperator t.text)
  | initializer (name : String) : Raised t (.initializerInDefinition name)
  | number (ht : t.kind = .number) (h : Number.ofLiteral? t.text = none) :
      Raised t (.invalidNumber t.text)

/-- How two sources go together, of which the second may have more tokens. -/
structure Pairing (σ τ ε δ : Type) where
  /-- What the second source shows goes on from what the first one shows. -/
  State : σ → τ → Prop
  /-- What a token of the first source can be in the second. -/
  Same : Token → Token → Prop
  Error : ε → δ → Prop
  /-- No token is left in the first source, and the second may have more. -/
  Done : σ → Prop
  /-- Errors that are for want of tokens. -/
  Want : ε → Prop
  /-- The tokens that the second has more may go on with an expression. -/
  Loose : Prop
  /-- Tokens are the same up to their places. -/
  Exact : Prop
  place : Position → Position

namespace Pairing

variable {σ τ ε δ : Type} {unread : σ → Nat} {unread' : τ → Nat} (x : Pairing σ τ ε δ)

/-- Looks at the ends of both sources, or at tokens that go together. -/
inductive Looks (A : Source unread ε) (B : Source unread' δ) {s : σ} {s' : τ} :
    Look unread s → Look unread' s' → Prop
  | ended {mark mark' kept kept' h h'} (hkept : x.State kept kept')
      (hunexpected : ∀ expected,
        x.Error (A.unexpected expected kept) (B.unexpected expected kept')) :
      Looks A B (.ended mark kept h) (.ended mark' kept' h')
  | next {t t' kept kept' after after' h h' h₁ h₁'} (hsame : x.Same t t')
      (hkept : x.State kept kept') (hafter : x.State after after')
      (hunexpected : ∀ expected,
        x.Error (A.unexpected expected kept) (B.unexpected expected kept')) :
      Looks A B (.next t kept after h h₁) (.next t' kept' after' h' h₁')

/-- What it can come to that both sources look at the next token. -/
inductive Sees (A : Source unread ε) (B : Source unread' δ) {s : σ} {s' : τ} :
    Except ε (Look unread s) → Except δ (Look unread' s') → Prop
  | error {e e'} (h : x.Error e e') : Sees A B (.error e) (.error e')
  | both {look look'} (h : x.Looks A B look look') : Sees A B (.ok look) (.ok look')
  | want {e r} (h : x.Want e) : Sees A B (.error e) r
  | done {mark kept h r} (hkept : x.Done kept)
      (hnext : ¬ x.Loose →
        ∃ look, r = .ok look ∧ x.State kept look.kept ∧ Parser.goesOn look.token = false) :
      Sees A B (.ok (.ended mark kept h)) r

/-- The sources show tokens that go together, as long as the first one has any. -/
structure Simulation (A : Source unread ε) (B : Source unread' δ) : Prop where
  kind_eq {t u : Token} : x.Same t u → u.kind = t.kind
  text_eq {t u : Token} : x.Same t u → t.kind ≠ .string → u.text = t.text
  eq_moved {t u : Token} : x.Exact → x.Same t u → u = t.moved x.place
  raised {t u : Token} {fault : ParseFault} : x.Same t u → Raised t fault →
    x.Error (A.fault ⟨fault, t.position⟩) (B.fault ⟨fault, u.position⟩)
  look {s : σ} {s' : τ} : x.State s s' → x.Sees A B (A.peek s) (B.peek s')
  alone {s : σ} : x.Done s → (∃ e, A.peek s = .error e ∧ x.Want e) ∨
    ∃ mark kept h, A.peek s = .ok (.ended mark kept h) ∧ x.Done kept
  want {s : σ} (expected : Expected) : x.Done s → x.Want (A.unexpected expected s)

/-- A run has looked past the tokens of the first source. It fails for want of tokens, or what it
comes to may be another with more of them. -/
def Past {α : Type} (P : α → Prop) (r : Except ε α) : Prop :=
  (∃ e, r = .error e ∧ x.Want e) ∨ ∃ a, r = .ok a ∧ P a

/-- A run fails for want of tokens. -/
abbrev Wants {α : Type} (r : Except ε α) : Prop := x.Past (fun _ => False) r

/-- The second run does what the first does, or the first has looked past its tokens. -/
inductive Follows {α β : Type} (P : α → Prop) (R : α → β → Prop) :
    Except ε α → Except δ β → Prop
  | ok {a b} (h : R a b) : Follows P R (.ok a) (.ok b)
  | error {e e'} (h : x.Error e e') : Follows P R (.error e) (.error e')
  | past {r r'} (h : x.Past P r) : Follows P R r r'

structure Both {α β : Type} {m n : Nat} (V : α → β → Prop) (a : Taken unread m α)
    (b : Taken unread' n β) : Prop where
  value : V a.value b.value
  rest : x.State a.rest b.rest

/-- No token is left, and that may matter. -/
def Left {α : Type} {m : Nat} (loose : Prop) (a : Taken unread m α) : Prop := loose ∧ x.Done a.rest

def Tree (a b : Expr) : Prop := x.Exact → b = a.moved x.place

structure Binds (a b : Binding Expr) : Prop where
  name : b.name = a.name
  init : b.init.isSome = a.init.isSome
  eq_moved : x.Exact → b = Expr.movedBinding x.place a

/-- Places of one token. -/
def Place (p q : Position) : Prop := ∃ t u, x.Same t u ∧ t.position = p ∧ u.position = q

def Respects (test : Token → Bool) : Prop := ∀ t u, x.Same t u → test u = test t

/-- What a rule comes to when no token is left. -/
def Alone : (c : Call σ) → Except ε (c.Answer unread) → Prop
  | .expression s, r | .operand s, r | .atom s, r | .binding s, r | .lambdaRest _ _ s, r
  | .moreExpressions _ _ _ s, r | .moreBindings _ s, r | .moreNames _ s, r => x.Done s → x.Wants r
  | .climb _ _ s, r | .arguments _ s, r => x.Loose → x.Done s → x.Past (x.Left x.Loose) r
  | _, _ => True

/-- What a rule comes to beside the same rule on the second source. -/
def Matches (B : Source unread' δ) : (c : Call σ) → Except ε (c.Answer unread) → Prop
  | .expression s, r => ∀ s', x.State s s' →
      x.Follows (x.Left x.Loose) (x.Both x.Tree) r (B.answer (.expression s'))
  | .climb left bound s, r => ∀ left' s', x.Tree left left' → x.State s s' →
      x.Follows (x.Left x.Loose) (x.Both x.Tree) r (B.answer (.climb left' bound s'))
  | .operand s, r => ∀ s', x.State s s' →
      x.Follows (x.Left x.Loose) (x.Both x.Tree) r (B.answer (.operand s'))
  | .arguments callee s, r => ∀ callee' s', x.Tree callee callee' → x.State s s' →
      x.Follows (x.Left x.Loose) (x.Both x.Tree) r (B.answer (.arguments callee' s'))
  | .atom s, r => ∀ s', x.State s s' →
      x.Follows (x.Left x.Loose) (x.Both x.Tree) r (B.answer (.atom s'))
  | .binding s, r => ∀ s', x.State s s' →
      x.Follows (x.Left x.Loose) (x.Both x.Binds) r (B.answer (.binding s'))
  | .letForm p s, r => ∀ p' s', x.Place p p' → x.State s s' →
      x.Follows (x.Left x.Loose) (x.Both x.Tree) r (B.answer (.letForm p' s'))
  | .letParams p name params s, r => ∀ p' params' s', x.Place p p' →
      List.Forall₂ x.Binds params params' → x.State s s' →
      x.Follows (x.Left x.Loose) (x.Both x.Tree) r (B.answer (.letParams p' name params' s'))
  | .condition s, r => ∀ s', x.State s s' →
      x.Follows (x.Left x.Loose) (x.Both x.Tree) r (B.answer (.condition s'))
  | .ifForm p s, r => ∀ p' s', x.Place p p' → x.State s s' →
      x.Follows (x.Left x.Loose) (x.Both x.Tree) r (B.answer (.ifForm p' s'))
  | .lambdaForm p s, r => ∀ p' s', x.Place p p' → x.State s s' →
      x.Follows (x.Left x.Loose) (x.Both x.Tree) r (B.answer (.lambdaForm p' s'))
  | .lambdaRest p name s, r => ∀ p' s', x.Place p p' → x.State s s' →
      x.Follows (x.Left x.Loose) (x.Both x.Tree) r (B.answer (.lambdaRest p' name s'))
  | .moreExpressions sep close before s, r => ∀ before' s', List.Forall₂ x.Tree before before' →
      x.State s s' → x.Follows (x.Left False) (x.Both (List.Forall₂ x.Tree)) r
        (B.answer (.moreExpressions sep close before' s'))
  | .moreBindings before s, r => ∀ before' s', List.Forall₂ x.Binds before before' →
      x.State s s' → x.Follows (x.Left False) (x.Both (List.Forall₂ x.Binds)) r
        (B.answer (.moreBindings before' s'))
  | .moreNames before s, r => ∀ before' s', List.Forall₂ Eq before before' →
      x.State s s' → x.Follows (x.Left False) (x.Both (List.Forall₂ Eq)) r
        (B.answer (.moreNames before' s'))
  | .statements before s, r => ∀ before' s', List.Forall₂ x.Tree before before' → x.State s s' →
      x.Follows (fun _ => ∃ s, x.Done s) (List.Forall₂ x.Tree) r
        (B.answer (.statements before' s'))

variable {x} {A : Source unread ε} {B : Source unread' δ} {α β γ ζ : Type} {m n m' n' : Nat}
  {P : α → Prop} {Q : γ → Prop} {R : α → β → Prop} {S : γ → ζ → Prop}
  {loose loose' : Prop} {test : Token → Bool}

theorem Past.bind {r : Except ε α} {f : α → Except ε γ} (h : x.Past P r)
    (hf : ∀ a, P a → x.Past Q (f a)) : x.Past Q (r >>= f) := by
  rcases h with ⟨e, rfl, he⟩ | ⟨a, rfl, ha⟩
  · exact .inl ⟨e, rfl, he⟩
  · exact hf a ha

theorem Past.finish {r : Except ε (Taken unread m α)} {g : Taken unread m α → γ}
    {hg : ∀ a : Taken unread m α, unread a.rest < n} (h : x.Past (x.Left loose) r) :
    x.Past (x.Left loose) (r >>= fun a => .ok ⟨g a, a.rest, hg a⟩) :=
  h.bind fun _ ha => .inr ⟨_, rfl, ha⟩

theorem Wants.bind {r : Except ε α} (h : x.Wants r) (f : α → Except ε γ) :
    x.Past Q (r >>= f) :=
  Past.bind h fun _ hfalse => hfalse.elim

namespace Follows

/-- One run after another. If the first has looked past the tokens, so does the second, which has
none left. -/
theorem bind {r : Except ε α} {r' : Except δ β} {f : α → Except ε γ} {f' : β → Except δ ζ}
    (h : x.Follows P R r r') (hf : ∀ a b, R a b → x.Follows Q S (f a) (f' b))
    (hpast : ∀ a, P a → x.Past Q (f a)) : x.Follows Q S (r >>= f) (r' >>= f') := by
  cases h with
  | ok h => exact hf _ _ h
  | error h => exact .error h
  | past h => exact .past (h.bind hpast)

theorem mono {P' : α → Prop} {r : Except ε α} {r' : Except δ β} (h : x.Follows P R r r')
    (hP : ∀ a, P a → P' a) : x.Follows P' R r r' := by
  cases h with
  | ok h => exact .ok h
  | error h => exact .error h
  | past h => exact .past (h.imp id fun ⟨a, hr, ha⟩ => ⟨a, hr, hP a ha⟩)

theorem finish {V : α → β → Prop} {W : γ → ζ → Prop} {r : Except ε (Taken unread m α)}
    {r' : Except δ (Taken unread' n β)} {g : Taken unread m α → γ} {g' : Taken unread' n β → ζ}
    {hg : ∀ a : Taken unread m α, unread a.rest < m'}
    {hg' : ∀ b : Taken unread' n β, unread' b.rest < n'}
    (h : x.Follows (x.Left loose) (x.Both V) r r') (hloose : loose → loose')
    (hV : ∀ a b, V a.value b.value → W (g a) (g' b)) :
    x.Follows (x.Left loose') (x.Both W) (r >>= fun a => .ok ⟨g a, a.rest, hg a⟩)
      (r' >>= fun b => .ok ⟨g' b, b.rest, hg' b⟩) :=
  h.bind (fun a b hab => .ok ⟨hV a b hab.value, hab.rest⟩)
    fun _ ha => .inr ⟨_, rfl, hloose ha.1, ha.2⟩

end Follows

namespace Simulation

variable (hx : x.Simulation A B)
include hx

section Tests

variable {t u : Token}

theorem respects_kind {kind : Token.Kind} (hkind : kind ≠ .string) (f : String → Bool) :
    x.Respects fun t => decide (t.kind = kind) && f t.text := by
  intro t u h
  simp only [hx.kind_eq h]
  by_cases ht : t.kind = kind
  · rw [hx.text_eq h (ht ▸ hkind)]
  · simp [ht]

theorem respects_isMark (c : Char) : x.Respects (·.isMark c) :=
  hx.respects_kind (by decide) fun s => decide (s.toList = [c])

theorem respects_isKeyword (word : String) : x.Respects (·.isKeyword word) :=
  hx.respects_kind (by decide) fun s => decide (s = word)

theorem respects_isOperator (symbol : String) : x.Respects (·.isOperator symbol) :=
  hx.respects_kind (by decide) fun s => decide (s = symbol)

theorem respects_isName : x.Respects (·.isName) := by
  intro t u h
  simp only [Token.isName, hx.kind_eq h]

theorem text_of_isName (h : x.Same t u) (ht : t.isName = true) : u.text = t.text := by
  have hkind : t.kind = .name := of_decide_eq_true ht
  exact hx.text_eq h (by simp [hkind])

theorem place_eq {p q : Position} (h : x.Place p q) (hexact : x.Exact) : q = x.place p := by
  obtain ⟨t, u, hsame, rfl, rfl⟩ := h
  rw [hx.eq_moved hexact hsame]
  rfl

end Tests

section Done

variable {s : σ} (hs : x.Done s)
include hs

theorem past_peek {f : Look unread s → Except ε α}
    (hf : ∀ mark kept h, x.Done kept → x.Past P (f (.ended mark kept h))) :
    x.Past P (A.peek s >>= f) := by
  rcases hx.alone hs with ⟨e, he, hwant⟩ | ⟨mark, kept, h, hpeek, hkept⟩
  · rw [he]
    exact .inl ⟨e, rfl, hwant⟩
  · rw [bind_ok hpeek]
    exact hf mark kept h hkept

theorem past_accept {f : Offered unread s → Except ε α}
    (hf : ∀ kept h, x.Done kept → x.Past P (f (.kept kept h))) :
    x.Past P (A.accept test s >>= f) := by
  rw [Source.accept, bind_assoc]
  exact hx.past_peek hs fun _ kept h hkept => hf kept h hkept

theorem wants_expect (expected : Expected) : x.Wants (A.expect expected test s) :=
  hx.past_accept hs fun _ _ hkept => .inl ⟨_, rfl, hx.want expected hkept⟩

theorem past_skip {f : { u : σ // unread u ≤ unread s } → Except ε α}
    (hf : ∀ u, x.Done u.val → x.Past P (f u)) : x.Past P (A.skipIf test s >>= f) := by
  rw [Source.skipIf, bind_assoc]
  exact hx.past_accept hs fun kept h hkept => hf ⟨kept, h⟩ hkept

end Done

section Steps

variable {s : σ} {s' : τ} (hs : x.State s s')
include hs

theorem peek {f : Look unread s → Except ε γ} {f' : Look unread' s' → Except δ ζ}
    (hboth : ∀ look look', x.Looks A B look look' → x.Follows Q S (f look) (f' look'))
    (hdone : ∀ mark kept h, x.Done kept → (¬ x.Loose → ∃ look, B.peek s' = .ok look ∧
        x.State kept look.kept ∧ Parser.goesOn look.token = false) →
      x.Follows Q S (f (.ended mark kept h)) (B.peek s' >>= f')) :
    x.Follows Q S (A.peek s >>= f) (B.peek s' >>= f') := by
  have hlook := hx.look hs
  generalize A.peek s = r at hlook ⊢
  generalize B.peek s' = r' at hlook hdone ⊢
  cases hlook with
  | error h => exact .error h
  | both h => exact hboth _ _ h
  | want h => exact .past (.inl ⟨_, rfl, h⟩)
  | done hkept hnext => exact hdone _ _ _ hkept hnext

theorem accept (htest : x.Respects test) {f : Offered unread s → Except ε γ}
    {f' : Offered unread' s' → Except δ ζ}
    (htaken : ∀ t t', x.Same t.value t'.value → test t.value = true → x.State t.rest t'.rest →
      x.Follows Q S (f (.taken t)) (f' (.taken t')))
    (hkept : ∀ kept h kept' h', x.State kept kept' →
      x.Follows Q S (f (.kept kept h)) (f' (.kept kept' h')))
    (hpast : ∀ kept h, x.Done kept →
      ((∀ t, test t = true → Parser.goesOn t = true) → x.Loose) → x.Past Q (f (.kept kept h))) :
    x.Follows Q S (A.accept test s >>= f) (B.accept test s' >>= f') := by
  rw [Source.accept, Source.accept, bind_assoc, bind_assoc]
  refine hx.peek hs ?_ ?_
  · intro look look' hlook
    cases hlook with
    | ended h _ => exact hkept _ _ _ _ h
    | @next t t' _ _ _ _ _ _ _ _ hsame h hafter _ =>
      have ht' : test t' = test t := htest t t' hsame
      show x.Follows Q S (f (if test t then _ else _)) (f' (if test t' then _ else _))
      rw [ht']
      cases ht : test t with
      | true => exact htaken _ _ hsame ht hafter
      | false => exact hkept _ _ _ _ h
  · intro mark kept h hend hnext
    by_cases hloose : (∀ t, test t = true → Parser.goesOn t = true) → x.Loose
    · exact .past (hpast kept h hend hloose)
    · -- The next token of the second source fails all tests that an expression goes on with.
      obtain ⟨hgoes, hloose⟩ := Classical.not_imp.mp hloose
      obtain ⟨look, hlook, hstate, hnot⟩ := hnext hloose
      rw [bind_ok hlook]
      cases look with
      | ended mark' kept' h' => exact hkept _ _ _ _ hstate
      | next t kept' after' h' h₁ =>
        have ht : ¬ test t = true := fun ht => by simp [Look.token, hgoes t ht] at hnot
        show x.Follows Q S _ (f' (if test t then _ else _))
        rw [if_neg ht]
        exact hkept _ _ _ _ hstate

theorem expect (htest : x.Respects test) (expected : Expected) :
    x.Follows (x.Left False) (x.Both fun t u => x.Same t u ∧ test t = true)
      (A.expect expected test s) (B.expect expected test s') := by
  rw [Source.expect, Source.expect, Source.accept, Source.accept, bind_assoc, bind_assoc]
  refine hx.peek hs ?_ ?_
  · intro look look' hlook
    cases hlook with
    | ended _ hunexpected => exact .error (hunexpected expected)
    | @next t t' _ _ _ _ _ _ _ _ hsame _ hafter hunexpected =>
      have ht' : test t' = test t := htest t t' hsame
      simp only [bind, Except.bind, ht']
      cases ht : test t with
      | true => exact .ok ⟨⟨hsame, ht⟩, hafter⟩
      | false => exact .error (hunexpected expected)
  · intro mark kept h hend _
    exact .past (.inl ⟨_, rfl, hx.want expected hend⟩)

theorem skip (htest : x.Respects test) {f : { u : σ // unread u ≤ unread s } → Except ε γ}
    {f' : { u : τ // unread' u ≤ unread' s' } → Except δ ζ}
    (hf : ∀ u u', x.State u.val u'.val → x.Follows Q S (f u) (f' u'))
    (hpast : ∀ u, x.Done u.val → x.Past Q (f u)) :
    x.Follows Q S (A.skipIf test s >>= f) (B.skipIf test s' >>= f') := by
  rw [Source.skipIf, Source.skipIf, bind_assoc, bind_assoc]
  exact hx.accept hs htest (fun _ _ _ _ hrest => hf _ _ hrest) (fun _ _ _ _ hkept => hf _ _ hkept)
    fun _ _ hkept _ => hpast _ hkept

theorem paramName :
    x.Follows (x.Left False) (x.Both Eq) (A.paramName s) (B.paramName s') :=
  (hx.expect hs hx.respects_isName _).finish id
    fun _ _ h => (hx.text_of_isName h.1 h.2).symm

end Steps

section Lists

variable {sep close : Char} {s : σ} {s' : τ} {V : α → β → Prop}

theorem wants_moreItems (hs : x.Done s) {before : List α}
    {item : (t : σ) → unread t < unread s → Except ε (Taken unread (unread t) α)}
    {more : List α → (t : σ) → unread t < unread s → Except ε (Taken unread (unread t) (List α))} :
    x.Wants (A.moreItems sep close before s item more) :=
  hx.past_accept hs fun _ _ hkept => (hx.wants_expect hkept _).bind _

variable {more : List α → (t : σ) → unread t < unread s →
    Except ε (Taken unread (unread t) (List α))}
  {more' : List β → (t : τ) → unread' t < unread' s' →
    Except δ (Taken unread' (unread' t) (List β))}
  (hmore : ∀ before before' t h t' h', List.Forall₂ V before before' → x.State t t' →
    x.Follows (x.Left False) (x.Both (List.Forall₂ V)) (more before t h) (more' before' t' h'))
  (hmore_done : ∀ before t h, x.Done t → x.Wants (more before t h)) (hs : x.State s s')
include hmore hmore_done hs

theorem moreItems {item : (t : σ) → unread t < unread s → Except ε (Taken unread (unread t) α)}
    {item' : (t : τ) → unread' t < unread' s' → Except δ (Taken unread' (unread' t) β)}
    (hitem : ∀ t h t' h', x.State t t' →
      x.Follows (x.Left x.Loose) (x.Both V) (item t h) (item' t' h'))
    (hitem_done : ∀ t h, x.Done t → x.Wants (item t h)) {before : List α} {before' : List β}
    (hbefore : List.Forall₂ V before before') :
    x.Follows (x.Left False) (x.Both (List.Forall₂ V)) (A.moreItems sep close before s item more)
      (B.moreItems sep close before' s' item' more') := by
  refine hx.accept hs (hx.respects_isMark close) ?_ ?_ ?_
  · intro t t' _ _ hrest
    exact .ok ⟨List.rel_reverse hbefore, hrest⟩
  · intro kept _ kept' _ hkept
    refine (hx.expect hkept (hx.respects_isMark sep) _).bind ?_ fun _ h => h.1.elim
    intro comma comma' hcomma
    refine hx.accept hcomma.rest (hx.respects_isMark close) ?_ ?_ ?_
    · intro t t' _ _ hrest
      exact .ok ⟨List.rel_reverse hbefore, hrest⟩
    · intro kept _ kept' _ hkept
      refine (hitem _ _ _ _ hkept).bind ?_ ?_
      · intro a b hab
        exact (hmore _ _ _ _ _ _ (.cons hab.value hbefore) hab.rest).finish id fun _ _ h => h
      · intro a ha
        exact (hmore_done _ _ _ ha.2).bind _
    · intro kept _ hkept _
      exact (hitem_done _ _ hkept).bind _
  · intro kept _ hkept _
    exact (hx.wants_expect hkept _).bind _

theorem items {item : (t : σ) → unread t ≤ unread s → Except ε (Taken unread (unread t) α)}
    {item' : (t : τ) → unread' t ≤ unread' s' → Except δ (Taken unread' (unread' t) β)}
    (hitem : ∀ t h t' h', x.State t t' →
      x.Follows (x.Left x.Loose) (x.Both V) (item t h) (item' t' h'))
    (hitem_done : ∀ t h, x.Done t → x.Wants (item t h)) :
    x.Follows (x.Left False) (x.Both (List.Forall₂ V)) (A.items close s item more)
      (B.items close s' item' more') := by
  refine hx.accept hs (hx.respects_isMark close) ?_ ?_ ?_
  · intro t t' _ _ hrest
    exact .ok ⟨.nil, hrest⟩
  · intro kept _ kept' _ hkept
    refine (hitem _ _ _ _ hkept).bind ?_ ?_
    · intro a b hab
      exact (hmore _ _ _ _ _ _ (.cons hab.value .nil) hab.rest).finish id fun _ _ h => h
    · intro a ha
      exact (hmore_done _ _ _ ha.2).bind _
  · intro kept _ hkept _
    exact (hitem_done _ _ hkept).bind _

end Lists

section Alone

variable {w : Nat} {ask : Callees unread ε w} {s : σ} (hs : x.Done s)
include hs

theorem wants_atom {h} : x.Wants (Rules.atom A ask s h) := by
  rw [Rules.atom]
  exact hx.past_peek hs fun _ _ _ hkept => .inl ⟨_, rfl, hx.want .expression hkept⟩

theorem wants_binding {h} : x.Wants (Rules.binding A ask s h) :=
  (hx.wants_expect hs _).bind _

theorem wants_lambdaRest {p : Position} {name : Option String} {h} :
    x.Wants (Rules.lambdaRest A ask p name s h) :=
  (hx.wants_expect hs _).bind _

theorem past_climb {left : Expr} {bound : Nat} (hloose : x.Loose) {h} :
    x.Past (x.Left x.Loose) (Rules.climb A ask left bound s h) := by
  rw [Rules.climb]
  exact hx.past_peek hs fun _ _ _ hkept => .inr ⟨_, rfl, hloose, hkept⟩

theorem past_arguments {callee : Expr} (hloose : x.Loose) {h} :
    x.Past (x.Left x.Loose) (Rules.arguments A ask callee s h) :=
  hx.past_accept hs fun _ _ hkept => .inr ⟨_, rfl, hloose, hkept⟩

end Alone

theorem alone_step (c : Call σ) (ask : Callees unread ε (c.weight unread))
    (hask : ∀ d hd, x.Alone d (ask d hd)) : x.Alone c (Rules.step A c ask) := by
  cases c <;> rw [Rules.step]
  case expression => exact fun hs => Wants.bind (hask (.operand _) _ hs) _
  case operand => exact fun hs => Wants.bind (hask (.atom _) _ hs) _
  case atom => exact fun hs => hx.wants_atom hs
  case binding => exact fun hs => hx.wants_binding hs
  case lambdaRest => exact fun hs => hx.wants_lambdaRest hs
  case moreExpressions | moreBindings | moreNames => exact fun hs => hx.wants_moreItems hs
  case climb => exact fun hloose hs => hx.past_climb hs hloose
  case arguments => exact fun hloose hs => hx.past_arguments hs hloose
  all_goals trivial

section Trees

omit hx

theorem eq_map_of_tree {as bs : List Expr} (h : List.Forall₂ x.Tree as bs) (hexact : x.Exact) :
    bs = as.map (Expr.moved x.place) := by
  induction h with
  | nil => rfl
  | cons hab _ ih => rw [hab hexact, ih, List.map_cons]

theorem eq_map_of_binds {as bs : List (Binding Expr)} (h : List.Forall₂ x.Binds as bs)
    (hexact : x.Exact) : bs = as.map (Expr.movedBinding x.place) := by
  induction h with
  | nil => rfl
  | cons hab _ ih => rw [hab.eq_moved hexact, ih, List.map_cons]

theorem find?_binds {bs cs : List (Binding Expr)} (h : List.Forall₂ x.Binds bs cs) :
    (bs.find? (·.init.isSome) = none ∧ cs.find? (·.init.isSome) = none) ∨
      ∃ b c, bs.find? (·.init.isSome) = some b ∧ cs.find? (·.init.isSome) = some c ∧
        c.name = b.name := by
  induction h with
  | nil => exact .inl ⟨rfl, rfl⟩
  | @cons b c bs cs hbc _ ih =>
    rw [List.find?_cons, List.find?_cons, hbc.init]
    cases b.init.isSome with
    | true => exact .inr ⟨b, c, rfl, rfl, hbc.name⟩
    | false => exact ih

end Trees

section Rules

variable {w : Nat} {ask : Callees unread ε w} {s : σ} {p : Position}
  (hdone : ∀ d hd, x.Alone d (ask d hd)) (hask : ∀ d hd, x.Matches B d (ask d hd))
include hdone hask

theorem expressions {sep close : Char} {s' : τ} (hs : x.State s s') {hw w' hw'} :
    x.Follows (x.Left False) (x.Both (List.Forall₂ x.Tree))
      (Rules.expressions A ask sep close s hw)
      (Rules.expressions B (w := w') (fun d _ => B.answer d) sep close s' hw') :=
  hx.items (fun _ _ _ _ _ _ hbefore ht => hask (.moreExpressions ..) _ _ _ hbefore ht)
    (fun _ _ _ ht => hdone (.moreExpressions ..) _ ht) hs
    (fun _ _ _ _ ht => hask (.expression _) _ _ ht) fun _ _ ht => hdone (.expression _) _ ht

theorem bindings {s' : τ} (hs : x.State s s') {hw w' hw'} :
    x.Follows (x.Left False) (x.Both (List.Forall₂ x.Binds)) (Rules.bindings A ask s hw)
      (Rules.bindings B (w := w') (fun d _ => B.answer d) s' hw') :=
  hx.items (fun _ _ _ _ _ _ hbefore ht => hask (.moreBindings ..) _ _ _ hbefore ht)
    (fun _ _ _ ht => hdone (.moreBindings ..) _ ht) hs
    (fun _ _ _ _ ht => hask (.binding _) _ _ ht) fun _ _ ht => hdone (.binding _) _ ht

theorem names {s' : τ} (hs : x.State s s') {hw w' hw'} :
    x.Follows (x.Left False) (x.Both (List.Forall₂ Eq)) (Rules.names A ask s hw)
      (Rules.names B (w := w') (fun d _ => B.answer d) s' hw') :=
  hx.items (fun _ _ _ _ _ _ hbefore ht => hask (.moreNames ..) _ _ _ hbefore ht)
    (fun _ _ _ ht => hdone (.moreNames ..) _ ht) hs
    (fun _ _ _ _ ht => (hx.paramName ht).mono fun _ h => h.1.elim)
    fun _ _ ht => (hx.wants_expect ht _).bind _

omit hx in
theorem expression {hw} : x.Matches B (.expression s) (Rules.expression ask s hw) := by
  intro s' hs
  rw [B.answer_eq]
  refine Follows.bind (hask (.operand s) _ s' hs) ?_ ?_
  · intro first first' hfirst
    refine Follows.bind (hask (.climb ..) _ _ _ hfirst.value hfirst.rest) ?_ ?_
    · intro joined joined' hjoined
      exact Follows.finish (hask (.arguments ..) _ _ _ hjoined.value hjoined.rest) id fun _ _ h => h
    · intro joined hleft
      exact (hdone (.arguments ..) _ hleft.1 hleft.2).finish
  · intro first hleft
    refine Past.bind (hdone (.climb ..) _ hleft.1 hleft.2) fun joined hleft => ?_
    exact (hdone (.arguments ..) _ hleft.1 hleft.2).finish

omit hx in
theorem operand {hw} : x.Matches B (.operand s) (Rules.operand ask s hw) := by
  intro s' hs
  rw [B.answer_eq]
  refine Follows.bind (hask (.atom s) _ s' hs) ?_ ?_
  · intro a a' ha
    exact Follows.finish (hask (.arguments ..) _ _ _ ha.value ha.rest) id fun _ _ h => h
  · intro a hleft
    exact (hdone (.arguments ..) _ hleft.1 hleft.2).finish

theorem arguments {callee : Expr} {hw} :
    x.Matches B (.arguments callee s) (Rules.arguments A ask callee s hw) := by
  intro callee' s' hcallee hs
  rw [B.answer_eq]
  refine hx.accept hs (hx.respects_isMark '(') ?_ ?_ ?_
  · intro o o' _ _ hrest
    refine (hx.expressions hdone hask hrest).bind ?_ fun _ h => h.1.elim
    intro args args' hargs
    refine Follows.finish (hask (.arguments ..) _ _ _ ?_ hargs.rest) id fun _ _ h => h
    intro hexact
    rw [hcallee hexact, eq_map_of_tree hargs.value hexact]
    simp [Expr.moved]
  · intro kept _ kept' _ hkept
    exact .ok ⟨hcallee, hkept⟩
  · intro kept _ hkept hloose
    exact .inr ⟨_, rfl, hloose fun _ => Parser.goesOn_of_mark, hkept⟩

theorem climb {left : Expr} {bound : Nat} {hw} :
    x.Matches B (.climb left bound s) (Rules.climb A ask left bound s hw) := by
  intro left' s' hleft hs
  rw [B.answer_eq]
  refine hx.peek hs ?_ ?_
  · intro look look' hlook
    cases hlook with
    | ended hkept _ => exact .ok ⟨hleft, hkept⟩
    | @next t t' kept kept' after after' _ _ _ _ hsame hkept hafter _ =>
      have hkind := hx.kind_eq hsame
      by_cases ht : t.kind = .operator
      · simp only [hkind, if_pos ht, hx.text_eq hsame (by simp [ht])]
        cases Connective.ofSymbol? t.text with
        | none => exact .error (hx.raised hsame .operator)
        | some c =>
          by_cases hbound : c.precedence ≤ bound
          · simp only [if_pos hbound]
            exact .ok ⟨hleft, hkept⟩
          · simp only [if_neg hbound]
            refine Follows.bind (hask (.operand _) _ _ hafter) ?_ ?_
            · intro first first' hfirst
              refine Follows.bind (hask (.climb ..) _ _ _ hfirst.value hfirst.rest) ?_ ?_
              · intro right right' hright
                refine Follows.finish (hask (.climb ..) _ _ _ ?_ hright.rest) id fun _ _ h => h
                intro hexact
                rw [hleft hexact, hright.value hexact, Expr.moved_join]
              · intro right hleft
                exact (hdone (.climb ..) _ hleft.1 hleft.2).finish
            · intro first hleft
              refine Past.bind (hdone (.climb ..) _ hleft.1 hleft.2) fun right hleft => ?_
              exact (hdone (.climb ..) _ hleft.1 hleft.2).finish
      · simp only [hkind, if_neg ht]
        exact .ok ⟨hleft, hkept⟩
  · intro mark kept h hkept hnext
    by_cases hloose : x.Loose
    · exact .past (.inr ⟨_, rfl, hloose, hkept⟩)
    · obtain ⟨look, hlook, hstate, hnot⟩ := hnext hloose
      rw [bind_ok hlook]
      cases look with
      | ended mark' kept' h' => exact .ok ⟨hleft, hstate⟩
      | next t kept' after' h' h₁ =>
        have ht : ¬ t.kind = .operator := fun ht => by
          simp [Look.token, Parser.goesOn_of_operator (decide_eq_true ht)] at hnot
        simp only [if_neg ht]
        exact .ok ⟨hleft, hstate⟩

omit hdone in
theorem binding {hw} : x.Matches B (.binding s) (Rules.binding A ask s hw) := by
  intro s' hs
  rw [B.answer_eq]
  refine (hx.expect hs hx.respects_isName _).bind ?_ fun _ h => h.1.elim
  intro name name' hname
  have htext := hx.text_of_isName hname.value.1 hname.value.2
  refine hx.accept hname.rest (hx.respects_isOperator "=") ?_ ?_ ?_
  · intro eq eq' _ _ hrest
    refine Follows.finish (hask (.expression _) _ _ hrest) id ?_
    intro init init' hinit
    refine ⟨htext, rfl, fun hexact => ?_⟩
    rw [Expr.movedBinding_eq, htext, hinit hexact]
    rfl
  · intro kept _ kept' _ hkept
    refine .ok ⟨⟨htext, rfl, fun _ => ?_⟩, hkept⟩
    rw [Expr.movedBinding_eq, htext]
    rfl
  · intro kept _ hkept hloose
    exact .inr ⟨_, rfl, hloose fun _ => Parser.goesOn_of_equals, hkept⟩

theorem condition {hw} : x.Matches B (.condition s) (Rules.condition A ask s hw) := by
  intro s' hs
  rw [B.answer_eq]
  refine hx.accept hs (hx.respects_isMark '(') ?_ ?_ ?_
  · intro o o' hsame _ hrest
    refine (hx.expressions hdone hask hrest).bind ?_ fun _ h => h.1.elim
    rintro ⟨es, _, _⟩ ⟨es', _, _⟩ ⟨hvalue, hrest⟩
    cases hvalue with
    | nil => exact .error (hx.raised hsame .condition)
    | cons he _ => exact .ok ⟨he, hrest⟩
  · intro kept _ kept' _ hkept
    exact Follows.finish (hask (.expression _) _ _ hkept) id fun _ _ h => h
  · intro kept _ hkept _
    exact Wants.bind (hdone (.expression _) _ hkept) _

theorem ifForm {hw} : x.Matches B (.ifForm p s) (Rules.ifForm A ask p s hw) := by
  intro p' s' hp hs
  rw [B.answer_eq]
  refine Follows.bind (hask (.condition _) _ _ hs) ?_ ?_
  · intro cond cond' hcond
    refine hx.skip hcond.rest (hx.respects_isKeyword "then") ?_ ?_
    · intro body body' hbody
      refine Follows.bind (hask (.expression _) _ _ hbody) ?_ ?_
      · intro consequent consequent' hconsequent
        refine hx.accept hconsequent.rest (hx.respects_isKeyword "else") ?_ ?_ ?_
        · intro els els' _ _ hrest
          refine hx.accept hrest (hx.respects_isKeyword "if") ?_ ?_ ?_
          · intro word word' hsame _ hrest
            refine Follows.finish (hask (.ifForm ..) _ _ _ ⟨_, _, hsame, rfl, rfl⟩ hrest) id ?_
            intro chained chained' hchained hexact
            rw [hx.place_eq hp hexact, hcond.value hexact, hconsequent.value hexact,
              hchained hexact]
            simp [Expr.moved]
          · intro kept _ kept' _ hkept
            refine Follows.finish (hask (.expression _) _ _ hkept) id ?_
            intro other other' hother hexact
            rw [hx.place_eq hp hexact, hcond.value hexact, hconsequent.value hexact, hother hexact]
            simp [Expr.moved]
          · intro kept _ hkept _
            exact Wants.bind (hdone (.expression _) _ hkept) _
        · intro kept _ kept' _ hkept
          refine .ok ⟨fun hexact => ?_, hkept⟩
          rw [hx.place_eq hp hexact, hcond.value hexact, hconsequent.value hexact]
          simp [Expr.moved]
        · intro kept _ hkept hloose
          exact .inr ⟨_, rfl, hloose fun _ => Parser.goesOn_of_else, hkept⟩
      · intro consequent hleft
        exact hx.past_accept hleft.2 fun _ _ hkept => .inr ⟨_, rfl, hleft.1, hkept⟩
    · intro body hbody
      exact Wants.bind (hdone (.expression _) _ hbody) _
  · intro cond hleft
    exact hx.past_skip hleft.2 fun body hbody => Wants.bind (hdone (.expression _) _ hbody) _

theorem lambdaRest {name : Option String} {hw} :
    x.Matches B (.lambdaRest p name s) (Rules.lambdaRest A ask p name s hw) := by
  intro p' s' hp hs
  rw [B.answer_eq]
  refine (hx.expect hs (hx.respects_isMark '(') _).bind ?_ fun _ h => h.1.elim
  intro o o' ho
  refine (hx.names hdone hask ho.rest).bind ?_ fun _ h => h.1.elim
  intro params params' hparams
  refine Follows.finish (hask (.expression _) _ _ hparams.rest) id ?_
  intro body body' hbody hexact
  have heq : params.value = params'.value := List.forall₂_eq_eq_eq ▸ hparams.value
  rw [hx.place_eq hp hexact, hbody hexact, ← heq]
  simp [Expr.moved]

theorem lambdaForm {hw} : x.Matches B (.lambdaForm p s) (Rules.lambdaForm A ask p s hw) := by
  intro p' s' hp hs
  rw [B.answer_eq]
  refine hx.accept hs hx.respects_isName ?_ ?_ ?_
  · intro name name' hsame ht hrest
    show x.Follows _ _ _ (B.answer (.lambdaRest p' (some name'.value.text) name'.rest) >>= _)
    rw [hx.text_of_isName hsame ht]
    exact Follows.finish (hask (.lambdaRest ..) _ _ _ hp hrest) id fun _ _ h => h
  · intro kept _ kept' _ hkept
    exact Follows.finish (hask (.lambdaRest ..) _ _ _ hp hkept) id fun _ _ h => h
  · intro kept _ hkept _
    exact Wants.bind (hdone (.lambdaRest ..) _ hkept) _

theorem letParams {name : String} {params : List (Binding Expr)} {hw} :
    x.Matches B (.letParams p name params s) (Rules.letParams A ask p name params s hw) := by
  intro p' params' s' hp hparams hs
  rw [B.answer_eq]
  refine hx.accept hs (hx.respects_isOperator "=") ?_ ?_ ?_
  · intro eq eq' _ _ hrest
    dsimp only
    rcases find?_binds hparams with ⟨hnone, hnone'⟩ | ⟨b, c, hb, hc, hname⟩
    · rw [hnone, hnone']
      refine Follows.finish (hask (.expression _) _ _ hrest) id ?_
      intro body body' hbody hexact
      rw [hx.place_eq hp hexact, hbody hexact, eq_map_of_binds hparams hexact,
        Parser.moved_definitionOf]
    · obtain ⟨t, u, hsame, rfl, rfl⟩ := hp
      rw [hb, hc]
      simp only [hname]
      exact .error (hx.raised hsame (.initializer b.name))
  · intro kept _ kept' _ hkept
    refine Follows.finish (hask (.expression _) _ _ hkept) id ?_
    intro body body' hbody hexact
    rw [hx.place_eq hp hexact, hbody hexact, eq_map_of_binds hparams hexact, Parser.moved_loopOf]
  · intro kept _ hkept _
    exact Wants.bind (hdone (.expression _) _ hkept) _

theorem letForm {hw} : x.Matches B (.letForm p s) (Rules.letForm A ask p s hw) := by
  intro p' s' hp hs
  rw [B.answer_eq]
  refine hx.accept hs (hx.respects_isMark '(') ?_ ?_ ?_
  · intro o o' _ _ hrest
    refine (hx.bindings hdone hask hrest).bind ?_ fun _ h => h.1.elim
    intro list list' hlist
    refine Follows.finish (hask (.expression _) _ _ hlist.rest) id ?_
    intro body body' hbody hexact
    rw [hx.place_eq hp hexact, hbody hexact, eq_map_of_binds hlist.value hexact]
    simp [Expr.moved]
  · intro kept _ kept' _ hkept
    refine (hx.expect hkept hx.respects_isName _).bind ?_ fun _ h => h.1.elim
    intro name name' hname
    have htext := hx.text_of_isName hname.value.1 hname.value.2
    refine hx.accept hname.rest (hx.respects_isOperator "=") ?_ ?_ ?_
    · intro eq eq' _ _ hrest
      refine Follows.finish (hask (.expression _) _ _ hrest) id ?_
      intro init init' hinit hexact
      rw [hx.place_eq hp hexact, htext, hinit hexact]
      simp [Expr.moved, Expr.moved_nameLambda]
    · intro kept _ kept' _ hkept
      refine hx.accept hkept (hx.respects_isMark '(') ?_ ?_ ?_
      · intro o o' _ _ hrest
        refine (hx.bindings hdone hask hrest).bind ?_ fun _ h => h.1.elim
        intro params params' hparams
        show x.Follows _ _ _
          (B.answer (.letParams p' name'.value.text params'.value params'.rest) >>= _)
        rw [htext]
        exact Follows.finish (hask (.letParams ..) _ _ _ _ hp hparams.value hparams.rest) id
          fun _ _ h => h
      · intro kept _ kept' _ hkept
        refine .ok ⟨fun hexact => ?_, hkept⟩
        rw [hx.place_eq hp hexact, htext]
        rfl
      · intro kept _ hkept hloose
        exact .inr ⟨_, rfl, hloose fun _ => Parser.goesOn_of_mark, hkept⟩
    · intro kept _ hkept hloose
      exact hx.past_accept hkept fun _ _ hkept =>
        .inr ⟨_, rfl, hloose fun _ => Parser.goesOn_of_equals, hkept⟩
  · intro kept _ hkept _
    exact (hx.wants_expect hkept _).bind _

section Atoms

variable {t t' : Token} (hsame : x.Same t t') {kept after : σ} {kept' after' : τ}
  (hafter : x.State after after') {s' : τ} {h : unread after < unread s}
  {h' : unread' after' < unread' s'} {w' : Nat} {hw : 8 * unread s ≤ w} {hw' : 8 * unread' s' ≤ w'}
include hsame hafter

theorem bracketed (ht : t.kind = .punctuation)
    (hunexpected : ∀ expected, x.Error (A.unexpected expected kept) (B.unexpected expected kept')) :
    x.Follows (x.Left x.Loose) (x.Both x.Tree) (Rules.bracketed A ask t kept after h hw)
      (Rules.bracketed B (fun d _ => B.answer d) t' kept' after' h' hw') := by
  have hplace : x.Place t.position t'.position := ⟨t, t', hsame, rfl, rfl⟩
  simp only [Rules.bracketed, hx.text_eq hsame (by simp [ht])]
  by_cases hopen : t.text = "("
  · simp only [if_pos hopen]
    refine Follows.bind (hask (.expression _) _ _ hafter) ?_ ?_
    · intro e e' he
      exact (hx.expect he.rest (hx.respects_isMark ')') _).bind
        (fun _ _ hclosing => .ok ⟨he.value, hclosing.rest⟩) fun _ h => h.1.elim
    · intro e hleft
      exact (hx.wants_expect hleft.2 _).bind _
  simp only [if_neg hopen]
  by_cases hbrace : t.text = "\x7b"
  · simp only [if_pos hbrace]
    refine (hx.expressions hdone hask hafter).finish False.elim ?_
    intro body body' hbody hexact
    rw [hx.place_eq hplace hexact, eq_map_of_tree hbody hexact, Parser.moved_blockOf]
  simp only [if_neg hbrace]
  by_cases hbracket : t.text = "["
  · simp only [if_pos hbracket]
    refine (hx.expressions hdone hask hafter).finish False.elim ?_
    intro list list' hlist hexact
    rw [hx.place_eq hplace hexact, eq_map_of_tree hlist hexact]
    simp [Expr.moved]
  · simp only [if_neg hbracket]
    exact .error (hunexpected _)

omit hdone in
theorem worded (ht : t.kind = .keyword)
    (hunexpected : ∀ expected, x.Error (A.unexpected expected kept) (B.unexpected expected kept')) :
    x.Follows (x.Left x.Loose) (x.Both x.Tree) (Rules.worded A ask t kept after h hw)
      (Rules.worded B (fun d _ => B.answer d) t' kept' after' h' hw') := by
  have hplace : x.Place t.position t'.position := ⟨t, t', hsame, rfl, rfl⟩
  have htext := hx.text_eq hsame (by simp [ht])
  have hword : Parser.isLambdaWord t' = Parser.isLambdaWord t := by
    simp only [Parser.isLambdaWord, Token.isKeyword, hx.kind_eq hsame, htext]
  simp only [Rules.worded, htext, hword]
  by_cases hlet : t.text = "let"
  · simp only [if_pos hlet]
    exact Follows.finish (hask (.letForm ..) _ _ _ hplace hafter) id fun _ _ h => h
  simp only [if_neg hlet]
  by_cases hif : t.text = "if"
  · simp only [if_pos hif]
    exact Follows.finish (hask (.ifForm ..) _ _ _ hplace hafter) id fun _ _ h => h
  simp only [if_neg hif]
  by_cases hlambda : Parser.isLambdaWord t = true
  · simp only [if_pos hlambda]
    exact Follows.finish (hask (.lambdaForm ..) _ _ _ hplace hafter) id fun _ _ h => h
  · simp only [if_neg hlambda]
    exact .error (hunexpected _)

theorem named (ht : t.kind = .name) :
    x.Follows (x.Left x.Loose) (x.Both x.Tree) (Rules.named A ask t after h hw)
      (Rules.named B (fun d _ => B.answer d) t' after' h' hw') := by
  have hplace : x.Place t.position t'.position := ⟨t, t', hsame, rfl, rfl⟩
  have htext := hx.text_eq hsame (by simp [ht])
  refine hx.accept hafter (hx.respects_isMark '.') ?_ ?_ ?_
  · intro dot dot' _ _ hrest
    refine (hx.expect hrest hx.respects_isName _).bind ?_ fun _ h => h.1.elim
    intro method method' hmethod
    have hname := hx.text_of_isName hmethod.value.1 hmethod.value.2
    refine (hx.expect hmethod.rest (hx.respects_isMark '(') _).bind ?_ fun _ h => h.1.elim
    intro o o' ho
    refine (hx.expressions hdone hask ho.rest).finish False.elim ?_
    intro args args' hargs hexact
    rw [hx.place_eq hplace hexact, htext, hname, eq_map_of_tree hargs hexact]
    simp [Expr.moved]
  · intro kept _ kept' _ hkept
    refine .ok ⟨fun hexact => ?_, hkept⟩
    rw [hx.place_eq hplace hexact, htext]
    rfl
  · intro kept _ hkept hloose
    exact .inr ⟨_, rfl, hloose fun _ => Parser.goesOn_of_point, hkept⟩

end Atoms

theorem atom {hw} : x.Matches B (.atom s) (Rules.atom A ask s hw) := by
  intro s' hs
  rw [B.answer_eq]
  refine hx.peek hs ?_ fun mark kept h hkept _ => .past (.inl ⟨_, rfl, hx.want _ hkept⟩)
  intro look look' hlook
  cases hlook with
  | ended _ hunexpected => exact .error (hunexpected _)
  | @next t t' kept kept' after after' _ _ _ _ hsame hkept hafter hunexpected =>
    have hkind := hx.kind_eq hsame
    cases ht : t.kind with
    | punctuation =>
      simp only [hkind, ht]
      exact hx.bracketed hdone hask hsame hafter ht hunexpected
    | keyword =>
      simp only [hkind, ht]
      exact hx.worded hask hsame hafter ht hunexpected
    | name =>
      simp only [hkind, ht]
      exact hx.named hdone hask hsame hafter ht
    | boolean | string =>
      simp only [hkind, ht]
      refine .ok ⟨fun hexact => ?_, hafter⟩
      rw [hx.eq_moved hexact hsame]
      rfl
    | number =>
      simp only [hkind, ht, hx.text_eq hsame (by simp [ht])]
      cases hvalue : Number.ofLiteral? t.text with
      | none => exact .error (hx.raised hsame (.number ht hvalue))
      | some value =>
        refine .ok ⟨fun hexact => ?_, hafter⟩
        rw [hx.eq_moved hexact hsame]
        rfl
    | operator | endOfInput =>
      simp only [hkind, ht]
      exact .error (hunexpected _)

theorem moreExpressions {sep close : Char} {before : List Expr} {hw} :
    x.Matches B (.moreExpressions sep close before s)
      (Rules.moreExpressions A ask sep close before s hw) := by
  intro before' s' hbefore hs
  rw [B.answer_eq]
  exact hx.moreItems
    (fun _ _ _ _ _ _ hbefore ht => hask (.moreExpressions ..) _ _ _ hbefore ht)
    (fun _ _ _ ht => hdone (.moreExpressions ..) _ ht) hs
    (fun _ _ _ _ ht => hask (.expression _) _ _ ht) (fun _ _ ht => hdone (.expression _) _ ht)
    hbefore

theorem moreBindings {before : List (Binding Expr)} {hw} :
    x.Matches B (.moreBindings before s) (Rules.moreBindings A ask before s hw) := by
  intro before' s' hbefore hs
  rw [B.answer_eq]
  exact hx.moreItems
    (fun _ _ _ _ _ _ hbefore ht => hask (.moreBindings ..) _ _ _ hbefore ht)
    (fun _ _ _ ht => hdone (.moreBindings ..) _ ht) hs
    (fun _ _ _ _ ht => hask (.binding _) _ _ ht) (fun _ _ ht => hdone (.binding _) _ ht) hbefore

theorem moreNames {before : List String} {hw} :
    x.Matches B (.moreNames before s) (Rules.moreNames A ask before s hw) := by
  intro before' s' hbefore hs
  rw [B.answer_eq]
  exact hx.moreItems
    (fun _ _ _ _ _ _ hbefore ht => hask (.moreNames ..) _ _ _ hbefore ht)
    (fun _ _ _ ht => hdone (.moreNames ..) _ ht) hs
    (fun _ _ _ _ ht => (hx.paramName ht).mono fun _ h => h.1.elim)
    (fun _ _ ht => (hx.wants_expect ht _).bind _) hbefore

omit hdone in
theorem statements {before : List Expr} {hw} : @Matches _ _ _ _ unread unread' x B
    (.statements before s) (Rules.statements A ask before s hw) := by
  intro before' s' hbefore hs
  rw [B.answer_eq]
  refine hx.peek hs ?_ fun mark kept h hkept _ => .past (.inr ⟨_, rfl, kept, hkept⟩)
  intro look look' hlook
  cases hlook with
  | ended _ _ => exact .ok (List.rel_reverse hbefore)
  | next _ hkept _ _ =>
    refine Follows.bind (hask (.expression _) _ _ hkept) ?_ ?_
    · intro e e' he
      have hes := List.Forall₂.cons he.value hbefore
      refine hx.accept he.rest (hx.respects_isMark ';') ?_ ?_ ?_
      · intro semicolon semicolon' _ _ hrest
        exact hask (.statements ..) _ _ _ hes hrest
      · intro kept _ kept' _ hkept
        refine hx.peek hkept ?_ fun mark kept h hkept _ => .past (.inr ⟨_, rfl, kept, hkept⟩)
        intro look look' hlook
        cases hlook with
        | ended _ _ => exact .ok (List.rel_reverse hes)
        | next _ _ _ hunexpected => exact .error (hunexpected _)
      · intro kept _ hkept _
        exact hx.past_peek hkept fun _ kept _ hkept => .inr ⟨_, rfl, kept, hkept⟩
    · intro e hleft
      refine hx.past_accept hleft.2 fun kept _ hkept => ?_
      exact hx.past_peek hkept fun _ kept _ hkept => .inr ⟨_, rfl, kept, hkept⟩

end Rules

theorem matches_step (c : Call σ) (ask : Callees unread ε (c.weight unread))
    (hdone : ∀ d hd, x.Alone d (ask d hd)) (hask : ∀ d hd, x.Matches B d (ask d hd)) :
    x.Matches B c (Rules.step A c ask) := by
  cases c <;> rw [Rules.step]
  case expression => exact expression hdone hask
  case climb => exact hx.climb hdone hask
  case operand => exact operand hdone hask
  case arguments => exact hx.arguments hdone hask
  case atom => exact hx.atom hdone hask
  case binding => exact hx.binding hask
  case letForm => exact hx.letForm hdone hask
  case letParams => exact hx.letParams hdone hask
  case condition => exact hx.condition hdone hask
  case ifForm => exact hx.ifForm hdone hask
  case lambdaForm => exact hx.lambdaForm hdone hask
  case lambdaRest => exact hx.lambdaRest hdone hask
  case moreExpressions => exact hx.moreExpressions hdone hask
  case moreBindings => exact hx.moreBindings hdone hask
  case moreNames => exact hx.moreNames hdone hask
  case statements => exact hx.statements hask

/-- Every rule does on the second source what it does on the first. -/
theorem matches_answer (c : Call σ) : x.Matches B c (A.answer c) := by
  have hboth : x.Alone c (A.answer c) ∧ x.Matches B c (A.answer c) := by
    refine A.answer_induction (P := fun c r => x.Alone c r ∧ x.Matches B c r) ?_ c
    intro c ask hask
    have hdone := fun d hd => (hask d hd).1
    exact ⟨hx.alone_step c ask hdone, hx.matches_step c ask hdone fun d hd => (hask d hd).2⟩
  exact hboth.2

/-- Programs are read alike. -/
theorem follows_parse (hstart : x.place .start = .start) {s : σ} {s' : τ} (hs : x.State s s') :
    x.Follows (fun _ => ∃ s, x.Done s) x.Tree (A.parse s) (B.parse s') := by
  have h := hx.matches_answer (.statements [] s) [] s' .nil hs
  rw [Source.parse, Source.parse]
  generalize A.answer (.statements [] s) = r at h ⊢
  generalize B.answer (.statements [] s') = r' at h ⊢
  cases h with
  | error h => exact .error h
  | past h =>
    rcases h with ⟨e, rfl, he⟩ | ⟨es, rfl, hdone⟩
    · exact .past (.inl ⟨e, rfl, he⟩)
    · exact .past (.inr ⟨_, rfl, hdone⟩)
  | ok h =>
    refine .ok fun hexact => ?_
    rw [eq_map_of_tree h hexact]
    simp [Expr.moved, hstart]

end Simulation

end Pairing

end ExprLang
