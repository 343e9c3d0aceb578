import ExprLang.Proofs.Token.Segmentation

namespace ExprLang

theorem Position.advance_append (p : Position) {cs : List Char} {n : Nat} (h : n < cs.length)
    (w : List Char) : p.advance (cs ++ w) n = p.advance cs n := by
  induction cs generalizing p n with
  | nil => cases h
  | cons c cs ih =>
    cases n with
    | zero => simp
    | succ n =>
      have hn : n < cs.length := Nat.lt_of_succ_lt_succ h
      have hstep : p.step c (cs ++ w) = p.step c cs := by
        rw [step, step, List.head?_append_of_ne_nil _ (List.ne_nil_of_length_pos (by omega))]
      rw [List.cons_append, advance_cons_succ, advance_cons_succ, hstep, ih _ hn]

/-- The same token, except that a string may have gone on. -/
structure Token.Akin (t u : Token) : Prop where
  kind_eq : u.kind = t.kind
  position_eq : u.position = t.position
  text_eq : t.kind ≠ .string → u.text = t.text

theorem Token.Akin.refl (t : Token) : t.Akin t := ⟨rfl, rfl, fun _ => rfl⟩

theorem Token.akin_append_string (ts : List Token) (text text' : String) (p : Position) :
    List.Forall₂ Token.Akin (ts ++ [⟨.string, text, p⟩]) (ts ++ [⟨.string, text', p⟩]) := by
  have hstring : Token.Akin ⟨.string, text, p⟩ ⟨.string, text', p⟩ :=
    ⟨rfl, rfl, fun h => absurd rfl h⟩
  exact List.rel_append (List.forall₂_same.mpr fun t _ => .refl t) (.cons hstring .nil)

namespace Lexeme

/-- Nothing, or a text that starts with a line break. -/
def Breaks (w : List Char) : Prop := ∀ c ∈ w.head?, isLineBreak c = true

variable {w rest : List Char}

theorem head?_append {P : Char → Prop} (hrest : ∀ c ∈ rest.head?, P c) (hw : ∀ c ∈ w.head?, P c) :
    ∀ c ∈ (rest ++ w).head?, P c := by
  cases rest with
  | nil => exact hw
  | cons d rest => exact hrest

theorem Breaks.head (hw : Breaks w) : ∀ c ∈ w.head?,
    isDigit c = false ∧ c ≠ '.' ∧ isNamePart c = false ∧ isOperatorChar c = false := by
  intro c hc
  have hbreak := hw c hc
  simp only [isLineBreak, Bool.or_eq_true, decide_eq_true_eq] at hbreak
  rcases hbreak with rfl | rfl <;> decide

theorem Trivia.append {v : List Char} (h : Trivia v rest) (hw : Breaks w) :
    Trivia v (rest ++ w) := by
  induction h with
  | nil => exact .nil
  | blank hc _ ih => exact .blank hc ih
  | comment hbody hend _ ih =>
    refine .comment hbody ?_ ih
    rw [← List.append_assoc]
    exact head?_append hend hw

theorem prefix_of_breaks {op l : List Char} (hop : op.all isOperatorChar = true) (hw : Breaks w)
    (h : op <+: l ++ w) : op <+: l := by
  rcases List.prefix_or_prefix_of_prefix h (List.prefix_append l w) with h' | ⟨tail, rfl⟩
  · exact h'
  · have htail : tail <+: w := (List.prefix_append_right_inj l).mp h
    cases tail with
    | nil => rw [List.append_nil]
    | cons c tail =>
      obtain ⟨more, rfl⟩ := htail
      have hc : isOperatorChar c = true := List.all_eq_true.mp hop c (by simp)
      rw [(hw.head c rfl).2.2.2] at hc
      cases hc

/-- A string without its closing quote. -/
inductive Unclosed : List Char → Prop
  | mk {quote : Char} {body text pending : List Char} (hquote : isQuote quote = true)
      (hbody : Unescapes quote body text) (hpending : pending = [] ∨ pending = ['\\']) :
      Unclosed (quote :: (body ++ pending))

variable {kind : Token.Kind} {text : String} {l : List Char}

/-- A lexeme stays one in front of a line break, if it is not a string that goes on. -/
theorem IsLexeme.append (h : IsLexeme kind text l rest) :
    (∀ w, Breaks w → IsLexeme kind text l (rest ++ w)) ∨ rest = [] ∧ Unclosed l := by
  cases h with
  | string hquote hbody => exact .inl fun w _ => .string hquote hbody
  | unclosed hquote hbody hpending => exact .inr ⟨rfl, .mk hquote hbody hpending⟩
  | whole hne hds hend =>
    refine .inl fun w hw => .whole hne hds (head?_append hend fun c hc => ?_)
    exact ⟨(hw.head c hc).1, (hw.head c hc).2.1⟩
  | point hne hds hps hend =>
    exact .inl fun w hw => .point hne hds hps (head?_append hend fun c hc => (hw.head c hc).1)
  | word hc hcs hend hkind =>
    exact .inl fun w hw =>
      .word hc hcs (head?_append hend fun c hc => (hw.head c hc).2.2.1) hkind
  | mark hc => exact .inl fun w _ => .mark hc
  | operator hop hmax =>
    refine .inl fun w hw => .operator hop fun longer hmem hlonger => hmax longer hmem ?_
    rw [← List.append_assoc] at hlonger
    exact prefix_of_breaks (operators_chars longer hmem).2 hw hlonger

theorem Unescapes.append {quote : Char} {body body' text text' : List Char}
    (h : Unescapes quote body text) (h' : Unescapes quote body' text') :
    Unescapes quote (body ++ body') (text ++ text') := by
  induction h with
  | nil => exact h'
  | plain hescape hquote _ ih => exact .plain hescape hquote ih
  | escaped _ ih => exact .escaped ih

/-- An unclosed string is closed by its quote, after a character that a backslash may take. -/
theorem Unclosed.close (h : Unclosed l) :
    ∃ quote text, ∀ rest, IsLexeme .string text (l ++ ['\n', quote]) rest := by
  obtain ⟨hquote, hbody, hpending⟩ := h
  rename_i quote body text pending
  refine ⟨quote, String.ofList (text ++ ['\n']), fun rest => ?_⟩
  have hnewline : Unescapes quote (pending ++ ['\n']) ['\n'] := by
    rcases hpending with rfl | rfl
    · refine .plain (by decide) ?_ .nil
      rintro rfl
      exact absurd hquote (by decide)
    · exact .escaped .nil
  have hl : IsLexeme .string _ (quote :: (body ++ (pending ++ ['\n']) ++ [quote])) rest :=
    .string hquote (hbody.append hnewline)
  simpa using hl

theorem Unclosed.exists_string (h : Unclosed l) (w : List Char) :
    ∃ text l' rest, l ++ w = l' ++ rest ∧ IsLexeme .string text l' rest := by
  obtain ⟨hquote, -, -⟩ := h
  exact exists_string hquote _

end Lexeme

namespace TokenStream
open Lexeme

theorem prepend_prepend (ts us : List Token) (s : TokenStream) :
    prepend ts (prepend us s) = prepend (ts ++ us) s := by
  simp [prepend]

/-- What stands at the end of a text after all of its other tokens. -/
inductive Last : List Char → Prop
  | gap {w : List Char} (h : Trivia w []) : Last w
  | unclosed {l : List Char} (h : Unclosed l) : Last l
  | stray {c : Char} {rest : List Char} (h : IsStray c) : Last (c :: rest)

theorem collect_trivia {v rest : List Char} (hv : Trivia v rest) (p : Position) :
    collect false [] ⟨v ++ rest, p⟩ =
      collect false [] ⟨rest, p.advance (v ++ rest) v.length⟩ :=
  collect_congr [] (Cursor.token_append hv p false)

/-- A lexeme that ends where it is stays one token at its place, and so does what comes next. -/
theorem collect_isLexeme_append {v l tail : List Char} {kind : Token.Kind} {text : String}
    (hv : Trivia v (l ++ tail)) (hne : l ≠ [])
    (hl : ∀ w, Breaks w → IsLexeme kind text l (tail ++ w)) (p : Position) :
    ∃ q r, ∀ w, Breaks w → ∃ r', collect false [] ⟨v ++ (l ++ tail) ++ w, p⟩ =
      prepend [⟨kind, text, q⟩] (collect false [] ⟨tail ++ w, r'⟩) ∧ (tail ≠ [] → r' = r) := by
  have hlength := List.length_pos_of_ne_nil hne
  refine ⟨p.advance (v ++ (l ++ tail)) v.length,
    p.advance (v ++ (l ++ tail)) (v ++ l).length, fun w hw => ?_⟩
  have hv' := hv.append hw
  rw [List.append_assoc] at hv'
  obtain ⟨q, r', hcollect, rfl, rfl⟩ := collect_isLexeme hv' (hl w hw) p
  have happend : v ++ (l ++ (tail ++ w)) = v ++ (l ++ tail) ++ w := by simp
  rw [happend, p.advance_append (by simp only [List.length_append]; omega)] at hcollect
  refine ⟨_, hcollect, fun htail => ?_⟩
  have := List.length_pos_of_ne_nil htail
  exact p.advance_append (by simp only [List.length_append]; omega) w

/-- All tokens before the last piece of a text stay what and where they are. -/
theorem exists_last (cs : List Char) (p : Position) : ∃ ts last q, Last last ∧
    ∀ w, Breaks w → ∃ q', collect false [] ⟨cs ++ w, p⟩ =
      prepend ts (collect false [] ⟨last ++ w, q'⟩) ∧ (last ≠ [] → q' = q) := by
  obtain ⟨v, rest, rfl, hv, hnext⟩ := Cursor.exists_next cs
  -- The place after the blanks is the same whatever follows the rest.
  have hskip (hrest : rest ≠ []) (w : List Char) (hw : Breaks w) :
      collect false [] ⟨v ++ rest ++ w, p⟩ =
        collect false [] ⟨rest ++ w, p.advance (v ++ rest) v.length⟩ := by
    have := List.length_pos_of_ne_nil hrest
    rw [← p.advance_append (by simp only [List.length_append]; omega) w, List.append_assoc,
      collect_trivia (hv.append hw)]
  rcases hnext with rfl | ⟨kind, text, l, tail, rfl, hl⟩ | ⟨c, tail, rfl, hc⟩
  · refine ⟨[], v, p, .gap hv, fun w hw => ⟨p, ?_, fun _ => rfl⟩⟩
    rw [List.append_nil]
    rfl
  · obtain ⟨c, l', hcons, -⟩ := hl.head
    have hne : l ≠ [] := by simp [hcons]
    rcases hl.append with hclosed | ⟨rfl, hunclosed⟩
    · obtain ⟨q, r, htoken⟩ := collect_isLexeme_append hv hne hclosed p
      by_cases htail : tail = []
      · subst htail
        refine ⟨[⟨kind, text, q⟩], [], p, .gap .nil, fun w hw => ?_⟩
        obtain ⟨q', hcollect, -⟩ := htoken w hw
        exact ⟨q', hcollect, fun h => absurd rfl h⟩
      · have hshorter : tail.length < (v ++ (l ++ tail)).length := by
          have := List.length_pos_of_ne_nil hne
          simp only [List.length_append]
          omega
        obtain ⟨ts, last, q', hlast, hts⟩ := exists_last tail r
        refine ⟨⟨kind, text, q⟩ :: ts, last, q', hlast, fun w hw => ?_⟩
        obtain ⟨r', hcollect, hr'⟩ := htoken w hw
        obtain ⟨q'', hrest, hq''⟩ := hts w hw
        rw [hr' htail, hrest, prepend_prepend] at hcollect
        exact ⟨q'', hcollect, hq''⟩
    · rw [List.append_nil] at hskip ⊢
      exact ⟨[], l, _, .unclosed hunclosed, fun w hw => ⟨_, hskip hne w hw, fun _ => rfl⟩⟩
  · exact ⟨[], c :: tail, _, .stray hc, fun w hw => ⟨_, hskip (by simp) w hw, fun _ => rfl⟩⟩
termination_by cs.length

theorem collect_unclosed {l : List Char} (h : Unclosed l) (p : Position) :
    ∃ text q, collect false [] ⟨l, p⟩ = ⟨[⟨.string, text, p⟩], .eof q⟩ := by
  obtain ⟨hquote, hbody, hpending⟩ := h
  obtain ⟨q, q', hcollect, hq, -⟩ := collect_isLexeme .nil (.unclosed hquote hbody hpending) p
  rw [List.nil_append, List.length_nil, Position.advance_zero] at hq
  rw [collect_eof [] (Cursor.token_nil _ _) rfl, hq] at hcollect
  rw [List.append_nil, List.nil_append] at hcollect
  exact ⟨_, q', hcollect⟩

theorem exists_collect_unclosed {l : List Char} (h : Unclosed l) (w : List Char) (p : Position) :
    ∃ text s, collect false [] ⟨l ++ w, p⟩ = prepend [⟨.string, text, p⟩] s := by
  obtain ⟨text, l', rest, hl, hlexeme⟩ := h.exists_string w
  obtain ⟨q, q', hcollect, hq, -⟩ := collect_isLexeme .nil hlexeme p
  rw [List.nil_append, List.length_nil, Position.advance_zero] at hq
  rw [hq, List.nil_append, ← hl] at hcollect
  exact ⟨text, _, hcollect⟩

theorem Last.stray_of_failed {last : List Char} {q : Position} {e : LexError} (h : Last last)
    (he : (collect false [] ⟨last, q⟩).ending = .failed e) :
    ∃ c rest, last = c :: rest ∧ IsStray c := by
  cases h with
  | gap hlast =>
    have hcollect := collect_trivia hlast q
    rw [List.append_nil, collect_eof [] (Cursor.token_nil _ _) rfl] at hcollect
    rw [hcollect] at he
    cases he
  | unclosed hlast =>
    obtain ⟨text, q', hcollect⟩ := collect_unclosed hlast q
    rw [hcollect] at he
    cases he
  | stray hc => exact ⟨_, _, rfl, hc⟩

theorem collect_append_of_failed {cs w : List Char} {p : Position} {e : LexError} (hw : Breaks w)
    (he : (collect false [] ⟨cs, p⟩).ending = .failed e) :
    collect false [] ⟨cs ++ w, p⟩ = collect false [] ⟨cs, p⟩ := by
  obtain ⟨ts, last, q, hlast, hcollect⟩ := exists_last cs p
  obtain ⟨q₁, hempty, hq₁⟩ := hcollect [] (by simp [Breaks])
  obtain ⟨q₂, hmore, hq₂⟩ := hcollect w hw
  rw [List.append_nil, List.append_nil] at hempty
  rw [hempty] at he
  obtain ⟨c, rest, rfl, hc⟩ := hlast.stray_of_failed he
  have hstray (more : List Char) := collect_failed [] (Cursor.token_isStray hc more q)
  rw [hmore, hempty, hq₁ (by simp), hq₂ (by simp), List.cons_append, hstray, hstray]

/-- A text without stray characters ends after its tokens, or in an unclosed string. -/
theorem last_of_eof {cs : List Char} {p q : Position}
    (he : (collect false [] ⟨cs, p⟩).ending = .eof q) :
    (∀ w, Breaks w → ∃ r, collect false [] ⟨cs ++ w, p⟩ =
      prepend (collect false [] ⟨cs, p⟩).tokens (collect false [] ⟨w, r⟩)) ∨
    ∃ ts l text r, Unclosed l ∧
      (collect false [] ⟨cs, p⟩).tokens = ts ++ [⟨.string, text, r⟩] ∧
      ∀ w, Breaks w → collect false [] ⟨cs ++ w, p⟩ =
        prepend ts (collect false [] ⟨l ++ w, r⟩) := by
  obtain ⟨ts, last, r, hlast, hcollect⟩ := exists_last cs p
  obtain ⟨r₁, hempty, hr₁⟩ := hcollect [] (by simp [Breaks])
  rw [List.append_nil, List.append_nil] at hempty
  rw [hempty] at he ⊢
  cases hlast with
  | gap hgap =>
    have hnil := collect_trivia hgap r₁
    rw [List.append_nil, collect_eof [] (Cursor.token_nil _ _) rfl] at hnil
    refine .inl fun w hw => ?_
    obtain ⟨r₂, hmore, -⟩ := hcollect w hw
    have hskip : collect false [] ⟨last ++ w, r₂⟩ = _ := collect_trivia (hgap.append hw) r₂
    rw [hmore, hskip, hnil, prepend, prepend, List.reverse_nil, List.append_nil]
    exact ⟨_, rfl⟩
  | unclosed hunclosed =>
    have hne : last ≠ [] := by
      obtain ⟨-, -, -⟩ := hunclosed
      exact List.cons_ne_nil _ _
    obtain ⟨text, r₂, htokens⟩ := collect_unclosed hunclosed r
    rw [hr₁ hne, htokens]
    refine .inr ⟨ts, last, text, r, hunclosed, rfl, fun w hw => ?_⟩
    obtain ⟨r₃, hmore, hr₃⟩ := hcollect w hw
    rw [hmore, hr₃ hne]
  | stray hc =>
    rw [collect_failed [] (Cursor.token_isStray hc _ _)] at he
    cases he

/-- The tokens of a text without stray characters are the first ones of a text that goes on. They
are followed by just the tokens of what follows if an unclosed string is closed first. -/
theorem collect_append_of_eof {cs : List Char} {p q : Position}
    (he : (collect false [] ⟨cs, p⟩).ending = .eof q) :
    (∀ w, Breaks w → ∃ us s, collect false [] ⟨cs ++ w, p⟩ = prepend us s ∧
      List.Forall₂ Token.Akin (collect false [] ⟨cs, p⟩).tokens us) ∧
    ∃ closing, ∀ w, Breaks w → ∃ us r,
      collect false [] ⟨cs ++ (closing ++ w), p⟩ = prepend us (collect false [] ⟨w, r⟩) ∧
      List.Forall₂ Token.Akin (collect false [] ⟨cs, p⟩).tokens us := by
  rcases last_of_eof he with hgap | ⟨ts, l, text, r, hunclosed, htokens, hcollect⟩
  · have hsame (ts : List Token) : List.Forall₂ Token.Akin ts ts :=
      List.forall₂_same.mpr fun t _ => .refl t
    refine ⟨fun w hw => ?_, [], fun w hw => ?_⟩
    · obtain ⟨r, hr⟩ := hgap w hw
      exact ⟨_, _, hr, hsame _⟩
    · obtain ⟨r, hr⟩ := hgap w hw
      exact ⟨_, r, hr, hsame _⟩
  · rw [htokens]
    refine ⟨fun w hw => ?_, ?_⟩
    · obtain ⟨text', s, hs⟩ := exists_collect_unclosed hunclosed w r
      rw [hcollect w hw, hs, prepend_prepend]
      exact ⟨_, s, rfl, Token.akin_append_string ts text text' r⟩
    · obtain ⟨quote, text', hclose⟩ := hunclosed.close
      refine ⟨['\n', quote], fun w _ => ?_⟩
      obtain ⟨r₁, r₂, hstring, hr₁, -⟩ := collect_isLexeme .nil (hclose w) r
      rw [List.nil_append, List.length_nil, Position.advance_zero] at hr₁
      rw [List.nil_append, List.append_assoc, hr₁] at hstring
      rw [hcollect _ (by simp [Breaks, isLineBreak]), hstring, prepend_prepend]
      exact ⟨_, r₂, rfl, Token.akin_append_string ts text text' r⟩

end TokenStream

end ExprLang
