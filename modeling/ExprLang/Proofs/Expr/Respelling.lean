import ExprLang.Proofs.Expr.Canonical

namespace ExprLang

/-- A text has no lexical faults, and its tokens say the same as others. -/
def Says (strict : Bool) (source : String) (ts : List Token) : Prop :=
  List.Forall₂ Parser.Alike ts (TokenStream.ofSource source strict).tokens ∧
    ∃ p, (TokenStream.ofSource source strict).ending = .eof p

/-- Two results are programs, equal but for the places of their nodes. -/
def SameProgram (a b : Except ParseError Expr) : Prop :=
  ∃ e e', a = .ok e ∧ b = .ok e' ∧ e'.erase = e.erase ∧ e'.same e = true

theorem Says.parseWith {strict : Bool} {source : String} {ts : List Token} {es : List Expr}
    {fin : TokenStream.Ending} (h : Says strict source ts) (hread : Parser.ReadsAll fin ts es) :
    ∃ es', ExprLang.parseWith strict source = .ok (.block .start es') ∧
      es'.map Expr.erase = es.map Expr.erase := by
  obtain ⟨hts, p, hp⟩ := h
  obtain ⟨es', hread', heq⟩ := hread.alike (p := p) hts
  rw [← hp] at hread'
  exact ⟨es', Parser.parse_of_readsAll hread', heq⟩

theorem sameProgram_of_erase {strict strict' : Bool} {source source' : String} {as bs : List Expr}
    (ha : parseWith strict source = .ok (.block .start as))
    (hb : parseWith strict' source' = .ok (.block .start bs))
    (h : bs.map Expr.erase = as.map Expr.erase) :
    SameProgram (parseWith strict source) (parseWith strict' source') := by
  have herase : (Expr.block .start bs).erase = (Expr.block .start as).erase := by
    simp only [Expr.erase, Expr.eraseAll_eq_map, h]
  exact ⟨_, _, ha, hb, herase, same_of_parseWith ha herase⟩

theorem sameProgram_of_says {strict strict' : Bool} {source source' : String} {e : Expr}
    (h : parseWith strict source = .ok e)
    (htext : Says strict' source' (TokenStream.ofSource source strict).tokens) :
    SameProgram (parseWith strict source) (parseWith strict' source') := by
  obtain ⟨as, rfl, hread⟩ := Parser.readsAll_of_parse h
  obtain ⟨bs, hb, hbs⟩ := htext.parseWith hread
  exact sameProgram_of_erase h hb hbs

theorem sameProgram_of_readsAll {strict strict' : Bool} {source source' : String}
    {ts ts' : List Token} {es : List Expr} {fin fin' : TokenStream.Ending}
    (h : Says strict source ts) (h' : Says strict' source' ts')
    (hread : Parser.ReadsAll fin ts es) (hread' : Parser.ReadsAll fin' ts' es) :
    SameProgram (parseWith strict source) (parseWith strict' source') := by
  obtain ⟨as, ha, has⟩ := h.parseWith hread
  obtain ⟨bs, hb, hbs⟩ := h'.parseWith hread'
  exact sameProgram_of_erase ha hb (hbs.trans has.symm)

end ExprLang
