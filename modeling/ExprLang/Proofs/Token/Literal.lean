import ExprLang.Proofs.Expr.Layout
import ExprLang.Token.Lexer

namespace ExprLang

namespace Lexeme

theorem isLexeme_print (q : Position) (v : String) (rest : List Char) :
    IsLexeme .string v (Expr.string q v).print.toList rest := by
  have hprint : (Expr.string q v).print.toList =
      '"' :: (v.toList.flatMap Printer.escape ++ ['"']) := by
    have hwrite : Printer.write 0 (.string q v) [] = Printer.literal v ++ [] := by
      with_unfolding_all rfl
    rw [Expr.print, String.toList_ofList, hwrite, List.append_nil]
    rfl
  have hlexeme : IsLexeme .string (String.ofList v.toList)
      ('"' :: (v.toList.flatMap Printer.escape ++ ['"'])) rest :=
    .string (by decide) (Spells.unescapes_escape v.toList)
  rwa [String.ofList_toList, ← hprint] at hlexeme

theorem not_unclosed_print (q : Position) (v : String) :
    ¬ Unclosed (Expr.string q v).print.toList := by
  have hlexeme := isLexeme_print q v ['x']
  intro hopen
  cases hlexeme.nil_of_unclosed (hlexeme.unclosed_append hopen)

end Lexeme

namespace Cursor
open Lexeme

/-- All that is met in a text, and the text after it: its end, a lexeme after blanks and comments, a
string that is not closed, or a character that starts no lexeme. -/
inductive Meets (cs : List Char) : Except LexError Token → List Char → Prop
  | eof {p : Position} {rest : List Char} : Meets cs (.ok (.eof p)) rest
  | lexeme {w l rest : List Char} {t : Token} (hcs : cs = w ++ (l ++ rest))
      (hw : Trivia w (l ++ rest)) (hl : IsLexeme t.kind t.text l rest) : Meets cs (.ok t) rest
  | unclosed {p : Position} {rest : List Char} : Meets cs (.error ⟨.unterminatedString, p⟩) rest
  | stray {c : Char} {p : Position} {rest : List Char} (hc : IsStray c) :
      Meets cs (.error ⟨.unexpectedChar c, p⟩) rest

theorem meets_of_token {strict : Bool} {cur next : Cursor} {r : Except LexError Token}
    (h : cur.token strict = (r, next)) : Meets cur.rest r next.rest := by
  obtain ⟨cs, p⟩ := cur
  obtain ⟨w, rest, rfl, hw, hnext⟩ := exists_next cs
  rw [token_append hw] at h
  rcases hnext with rfl | ⟨kind, text, l, tail, rfl, hl⟩ | ⟨c, tail, rfl, hc⟩
  · rw [token_nil] at h
    cases h
    exact .eof
  · by_cases hopen : Unclosed l
    · obtain rfl := hl.nil_of_unclosed (hl.unclosed_append hopen)
      cases strict with
      | false =>
        rw [token_isLexeme hl] at h
        cases h
        exact .lexeme rfl hw hl
      | true =>
        obtain ⟨c, cs, rfl, hblank, hash⟩ := hl.head
        rw [List.append_nil] at h
        obtain ⟨next', hfault⟩ := token_strict_of_unclosed hblank hash hopen _
        cases h.symm.trans hfault
        exact .unclosed
    · rw [token_of_closed hl hopen] at h
      cases h
      exact .lexeme rfl hw hl
  · rw [token_of_isStray hc] at h
    cases h
    exact .stray hc

theorem isLexeme_of_token {strict : Bool} {cur next : Cursor} {t : Token}
    (h : cur.token strict = (.ok t, next)) (ht : t.isEof = false) :
    ∃ w l, cur.rest = w ++ (l ++ next.rest) ∧ Trivia w (l ++ next.rest) ∧
      IsLexeme t.kind t.text l next.rest := by
  generalize hr : Except.ok t = r at h
  cases meets_of_token h with
  | eof =>
    cases hr
    cases ht
  | lexeme hcs hw hl =>
    cases hr
    exact ⟨_, _, hcs, hw, hl⟩
  | unclosed | stray _ => cases hr

theorem isStray_of_token {strict : Bool} {cur next : Cursor} {c : Char} {p : Position}
    (h : cur.token strict = (.error ⟨.unexpectedChar c, p⟩, next)) : IsStray c := by
  cases meets_of_token h with
  | stray hc => exact hc

end Cursor

namespace Lexer
open Lexeme

/-- In front of `rest` a lexer reads the characters `l` as a string and leaves `rest`, wherever it
stands. -/
def ReadsString (strict : Bool) (l rest : List Char) (v : String) : Prop :=
  ∀ p, (⟨⟨l ++ rest, p⟩, none, strict⟩ : Lexer).next =
    (.ok ⟨.string, v, p⟩, ⟨⟨rest, p.advance (l ++ rest) l.length⟩, none, strict⟩)

theorem readsString_of_token {strict : Bool} {l rest : List Char} {v : String}
    (h : ∀ p, (⟨l ++ rest, p⟩ : Cursor).token strict =
      (.ok ⟨.string, v, p⟩, ⟨rest, p.advance (l ++ rest) l.length⟩)) :
    ReadsString strict l rest v := fun p => by
  simp only [Lexer.next, h p]

/-- Strings are read back from how they are printed. A string that is printed in front of any text
is read as that string, and the text is left. A string lexeme is read as what it stands for, which
is read again from how that is printed. And when a lexer gives a string, it has read such a lexeme
after blanks and comments. -/
theorem string_reread :
    (∀ strict q v rest, ReadsString strict (Expr.string q v).print.toList rest v) ∧
    (∀ v l rest, IsLexeme .string v l rest → ReadsString false l rest v ∧
      (¬ Unclosed l → ReadsString true l rest v) ∧
      ∀ strict q rest', ReadsString strict (Expr.string q v).print.toList rest' v) ∧
    ∀ (lx after : Lexer) (t : Token),
      lx.peeked = none → lx.next = (.ok t, after) → t.kind = .string →
      ∃ w l, lx.cursor.rest = w ++ (l ++ after.cursor.rest) ∧
        Trivia w (l ++ after.cursor.rest) ∧ IsLexeme .string t.text l after.cursor.rest := by
  have hprint (strict : Bool) (q : Position) (v : String) (rest : List Char) :
      ReadsString strict (Expr.string q v).print.toList rest v :=
    readsString_of_token fun p =>
      Cursor.token_of_closed (isLexeme_print q v rest) (not_unclosed_print q v) p strict
  refine ⟨hprint, fun v l rest hl => ⟨?_, fun hclosed => ?_, fun strict q => hprint strict q v⟩, ?_⟩
  · exact readsString_of_token fun p => Cursor.token_isLexeme hl p
  · exact readsString_of_token fun p => Cursor.token_of_closed hl hclosed p true
  · intro lx after t hnone hnext hkind
    rcases htoken : lx.cursor.token lx.strict with ⟨r, cursor⟩
    simp only [Lexer.next, hnone, htoken] at hnext
    cases hnext
    rw [← hkind]
    exact Cursor.isLexeme_of_token htoken (by simp [Token.isEof, hkind])

/-- A string in single quotes that is all escapes, and one in double quotes that ends with a
backslash and the text. -/
theorem string_reread_escapes :
    ReadsString true "'\\n\\'\\\\'".toList "'x".toList "n'\\" ∧
    ReadsString true (Expr.string .start "n'\\").print.toList "\"".toList "n'\\" ∧
    ∃ w l, "# c\n\"a\\".toList = w ++ (l ++ []) ∧ Trivia w (l ++ []) ∧
      IsLexeme .string "a" l [] := by
  have hlexeme : IsLexeme .string "n'\\" "'\\n\\'\\\\'".toList "'x".toList :=
    .string (by decide) (.escaped (.escaped (.escaped .nil)))
  have hclosed : ¬ Unclosed "'\\n\\'\\\\'".toList := unclosed_iff.not.mpr (by decide +kernel)
  have hnext : (ofSource "# c\n\"a\\" false).next =
      (.ok ⟨.string, "a", ⟨2, 1⟩⟩, ⟨⟨[], ⟨2, 4⟩⟩, none, false⟩) := by decide +kernel
  obtain ⟨hread, hstrict, hreread⟩ := string_reread.2.1 _ _ _ hlexeme
  exact ⟨hstrict hclosed, hreread true .start "\"".toList,
    string_reread.2.2 _ _ _ rfl hnext rfl⟩

end Lexer

end ExprLang
