import ExprLang.Proofs.Expr.Completeness
import ExprLang.Proofs.Expr.Simulation

namespace ExprLang.Parser

/-- Errors that the ending of the tokens is the cause of. -/
inductive EndError : TokenStream.Ending → ParseError → Prop
  | eof (expected : Expected) (p : Position) : EndError (.eof p) (.unexpected expected (.eof p))
  | failed (e : LexError) : EndError (.failed e) (.ofLex e)

theorem endError_of_failed {fin : TokenStream.Ending} {e : LexError} (h : fin = .failed e) :
    EndError fin (.ofLex e) :=
  h ▸ .failed e

theorem endError_unexpected (fin : TokenStream.Ending) (expected : Expected) :
    EndError fin ((source fin).unexpected expected []) := by
  cases fin with
  | eof p => exact .eof expected p
  | failed e => exact .failed e

theorem Lacks.mono {fin : TokenStream.Ending} {test test' : Token → Bool} {ts : List Token}
    (h : Lacks fin test' ts) (htest : ∀ t, test t = true → test' t = true) :
    Lacks fin test ts := by
  cases ts with
  | nil => exact h
  | cons t ts =>
    have h : test' t = false := h
    exact eq_false_of_ne_true fun ht => by simp [htest t ht] at h

theorem peek_of_lacks {fin : TokenStream.Ending} {ts : List Token} (h : Lacks fin goesOn ts) :
    ∃ look, (source fin).peek ts = .ok look ∧ look.kept = ts ∧ goesOn look.token = false := by
  cases ts with
  | cons t ts => exact ⟨_, rfl, rfl, h⟩
  | nil =>
    obtain ⟨p, rfl⟩ := h
    exact ⟨_, rfl, rfl, rfl⟩

/-- How tokens go on: what they are now, and which tokens follow before which ending. -/
structure Extension where
  /-- What a token can be now. -/
  Same : Token → Token → Prop
  kind_eq {t u : Token} : Same t u → u.kind = t.kind
  text_eq {t u : Token} : Same t u → t.kind ≠ .string → u.text = t.text
  /-- The ending there was. -/
  fin : TokenStream.Ending
  more : List Token
  fin' : TokenStream.Ending

namespace Extension

variable (x : Extension)

/-- Errors of one kind at one token. -/
inductive SameError : ParseError → ParseError → Prop
  | found {t u : Token} (h : x.Same t u) (expected : Expected) :
      SameError (.unexpected expected t) (.unexpected expected u)
  | fault {t u : Token} (h : x.Same t u) (fault : ParseFault) :
      SameError ⟨fault, t.position⟩ ⟨fault, u.position⟩

/-- Nothing follows. -/
def Closed : Prop := x.more = [] ∧ ∃ q, x.fin' = .eof q

/-- The tokens go together with those that go on. An error for want of tokens is not followed. -/
def pairing : Pairing (List Token) (List Token) ParseError ParseError where
  State ts us := ∃ us', us = us' ++ x.more ∧ List.Forall₂ x.Same ts us'
  Same := x.Same
  Error e e' := x.SameError e e' ∨ EndError x.fin e
  Done ts := ts = [] ∧ ¬ x.Closed
  Want := EndError x.fin
  Loose := ¬ Lacks x.fin' goesOn x.more
  Exact := False
  place := id

theorem sees {ts us : List Token} (h : x.pairing.State ts us) :
    x.pairing.Sees (source x.fin) (source x.fin') ((source x.fin).peek ts)
      ((source x.fin').peek us) := by
  obtain ⟨us', rfl, hts⟩ := id h
  cases hts with
  | @cons t u ts us hsame hts =>
    exact .both (.next hsame h ⟨us, rfl, hts⟩ fun expected => .inl (.found hsame expected))
  | nil =>
    have hunexpected := endError_unexpected x.fin
    rcases hfin : x.fin with p | e
    · rw [hfin] at hunexpected
      by_cases hclosed : x.Closed
      · obtain ⟨hmore, q, hq⟩ := hclosed
        rw [hmore] at h ⊢
        rw [hq]
        exact .both (.ended h fun expected => .inr (hfin ▸ hunexpected expected))
      · refine .done ⟨rfl, hclosed⟩ fun hlacks => ?_
        obtain ⟨look, hlook, hkept, hnot⟩ := peek_of_lacks (Classical.not_not.mp hlacks)
        exact ⟨look, hlook, by rwa [hkept], hnot⟩
    · exact .want (endError_of_failed hfin)

theorem simulation : x.pairing.Simulation (source x.fin) (source x.fin') where
  kind_eq := x.kind_eq
  text_eq := x.text_eq
  eq_moved := False.elim
  raised hsame _ := .inl (.fault hsame _)
  look := x.sees
  alone := by
    rintro _ ⟨rfl, hopen⟩
    rcases hfin : x.fin with p | e
    · exact .inr ⟨_, _, _, rfl, rfl, hopen⟩
    · exact .inl ⟨_, rfl, endError_of_failed hfin⟩
  want expected := by
    rintro ⟨rfl, -⟩
    exact endError_unexpected x.fin expected

variable {x} {ts us : List Token} (hts : List.Forall₂ x.Same ts us)
include hts

/-- The parser goes on as before, unless it fails at the end, or is done where something follows. -/
theorem follows_parse :
    x.pairing.Follows (fun _ => ¬ x.Closed) x.pairing.Tree (⟨ts, x.fin⟩ : TokenStream).parse
      (⟨us ++ x.more, x.fin'⟩ : TokenStream).parse := by
  have h : x.pairing.State ts (us ++ x.more) := ⟨us, rfl, hts⟩
  exact (x.simulation.follows_parse rfl h).mono fun _ ⟨_, _, hopen⟩ => hopen

/-- Tokens after which nothing follows are a program as before. -/
theorem parse_of_ok (hclosed : x.Closed) {e : Expr}
    (h : (⟨ts, x.fin⟩ : TokenStream).parse = .ok e) :
    ∃ e', (⟨us ++ x.more, x.fin'⟩ : TokenStream).parse = .ok e' := by
  have hfollows := follows_parse hts
  rw [h] at hfollows
  generalize TokenStream.parse _ = r' at hfollows ⊢
  cases hfollows with
  | ok _ => exact ⟨_, rfl⟩
  | past hpast =>
    rcases hpast with ⟨_, heq, _⟩ | ⟨_, _, hopen⟩
    · cases heq
    · exact absurd hclosed hopen

/-- An error stays, unless it is for want of tokens. -/
theorem parse_of_error {e : ParseError} (h : (⟨ts, x.fin⟩ : TokenStream).parse = .error e) :
    (∃ e', (⟨us ++ x.more, x.fin'⟩ : TokenStream).parse = .error e' ∧ x.SameError e e') ∨
      EndError x.fin e := by
  have hfollows := follows_parse hts
  rw [h] at hfollows
  generalize TokenStream.parse _ = r' at hfollows ⊢
  cases hfollows with
  | error herror => exact herror.imp (fun hsame => ⟨_, rfl, hsame⟩) id
  | past hpast =>
    rcases hpast with ⟨_, heq, hwant⟩ | ⟨_, heq, _⟩
    · cases heq
      exact .inr hwant
    · cases heq

end Extension

end ExprLang.Parser
