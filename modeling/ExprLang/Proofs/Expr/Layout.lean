import ExprLang.Proofs.Expr.Canonical
import ExprLang.Proofs.Expr.OnDemand
import ExprLang.Proofs.Token.Continuation

namespace ExprLang

namespace Lexeme

variable {kind : Token.Kind} {text : String} {l rest rest' : List Char} {c : Char} {cs : List Char}

section Closed

theorem unclosed_iff :
    Unclosed (c :: cs) ↔ isQuote c = true ∧ (stringBody c false "" 0 cs).closed = false := by
  constructor
  · intro h
    generalize hl : c :: cs = l at h
    obtain ⟨hquote, hbody, hpending⟩ := h
    obtain ⟨rfl, rfl⟩ := List.cons.inj hl
    refine ⟨hquote, ?_⟩
    rw [hbody.stringBody_append]
    rcases hpending with rfl | rfl <;> simp [stringBody]
  · rintro ⟨hquote, hclosed⟩
    obtain ⟨body, text, tail, rfl, hbody, rfl | rfl | ⟨rest, rfl⟩⟩ := exists_unescapes c cs
    · exact .mk hquote hbody (.inl rfl)
    · exact .mk hquote hbody (.inr rfl)
    · rw [hbody.stringBody_close hquote] at hclosed
      cases hclosed

theorem read_strict_of_unclosed (h : Unclosed (c :: cs)) :
    read true c cs = .error .unterminatedString := by
  obtain ⟨hquote, hclosed⟩ := unclosed_iff.mp h
  simp [read, hquote, hclosed]

theorem read_strict_of_closed (h : ¬ Unclosed (c :: cs)) : read true c cs = read false c cs := by
  by_cases hquote : isQuote c = true
  · have hclosed : (stringBody c false "" 0 cs).closed = true := by
      by_contra hopen
      exact h (unclosed_iff.mpr ⟨hquote, eq_false_of_ne_true hopen⟩)
    simp [read, hquote, hclosed]
  · simp [read, hquote]

theorem IsLexeme.nil_of_unclosed (h : IsLexeme kind text l rest) (hopen : Unclosed (l ++ rest)) :
    rest = [] := by
  generalize hl : l ++ rest = l' at hopen
  obtain ⟨hquote, hbody, hpending⟩ := hopen
  have hread := read_of_isLexeme h hl
  rw [read_unclosed hquote hbody hpending, Except.ok.injEq, Lexeme.mk.injEq] at hread
  have hlength := congrArg List.length hl
  rw [List.length_append, hread.2.2] at hlength
  exact List.eq_nil_of_length_eq_zero (by omega)

theorem IsLexeme.unclosed_append (h : IsLexeme kind text l rest) (hopen : Unclosed l) :
    Unclosed (l ++ rest) := by
  obtain ⟨c, cs, rfl, -⟩ := h.head
  obtain ⟨hquote, hclosed⟩ := unclosed_iff.mp hopen
  have hkind : kind = .string := by
    have hread := read_of_isLexeme h List.cons_append
    simp only [read, hquote, if_true, Bool.false_and, Bool.false_eq_true, if_false,
      Except.ok.injEq, Lexeme.mk.injEq] at hread
    exact hread.1.symm
  subst hkind
  generalize hl : c :: cs = l' at h
  cases h with
  | string hquote' hbody =>
    obtain ⟨rfl, rfl⟩ := List.cons.inj hl
    rw [hbody.stringBody_close hquote'] at hclosed
    cases hclosed
  | unclosed _ _ _ =>
    rw [← hl, List.append_nil]
    exact hopen
  | word _ _ _ hkind => exact hkind.elim

end Closed

section Apart

/-- A character that a run of blanks and comments starts with. -/
def IsApart (c : Char) : Prop := isBlank c = true ∨ c = '#'

theorem IsApart.ends (h : IsApart c) :
    isDigit c = false ∧ c ≠ '.' ∧ isNamePart c = false ∧ isOperatorChar c = false := by
  have hc : c = ' ' ∨ c = '\t' ∨ c = '\n' ∨ c = '\r' ∨ c = '#' := by
    simpa [IsApart, isBlank, or_assoc] using h
  rcases hc with rfl | rfl | rfl | rfl | rfl <;> decide

theorem Trivia.isApart {w : List Char} (h : Trivia (c :: w) rest) : IsApart c := by
  generalize hw : c :: w = w' at h
  cases h with
  | nil => cases hw
  | blank hc _ =>
    cases hw
    exact .inl hc
  | comment _ _ _ =>
    cases hw
    exact .inr rfl

theorem inits_operators : ∀ op ∈ operators, ∀ p ∈ op.toList.inits, p ≠ [] →
    String.ofList p ∈ operators := by
  decide

theorem length_le_of_head? {op longer : String}
    (hmax : ∀ longer ∈ operators, longer.toList <+: op.toList ++ rest → longer.length ≤ op.length)
    (hhead : ∀ c ∈ rest'.head?, isOperatorChar c = true → rest.head? = some c)
    (hlonger : longer ∈ operators) (h : longer.toList <+: op.toList ++ rest') :
    longer.length ≤ op.length := by
  rcases List.prefix_or_prefix_of_prefix h (List.prefix_append _ _) with hshort | ⟨tail, htail⟩
  · simpa only [String.length_toList] using hshort.length_le
  cases tail with
  | nil =>
    rw [List.append_nil] at htail
    rw [← String.length_toList, ← htail, String.length_toList]
  | cons c tail =>
    -- The operator with one more character is an operator, and stands in front of the rest too.
    rw [← htail] at h
    obtain ⟨more, hmore⟩ := (List.prefix_append_right_inj _).mp h
    have hinit : op.toList ++ [c] ∈ longer.toList.inits := by
      rw [List.mem_inits, ← htail, List.prefix_append_right_inj]
      exact ⟨tail, rfl⟩
    have hmem := inits_operators longer hlonger _ hinit (by simp)
    have hc : isOperatorChar c = true :=
      List.all_eq_true.mp (operators_chars longer hlonger).2 c (by rw [← htail]; simp)
    obtain ⟨more', hmore'⟩ : ∃ more', rest = c :: more' := by
      have := hhead c (by rw [← hmore]; rfl) hc
      exact ⟨rest.tail, (List.eq_cons_of_mem_head? this)⟩
    have hle := hmax _ hmem (by
      rw [String.toList_ofList, hmore', List.prefix_append_right_inj]
      exact ⟨more', rfl⟩)
    simp at hle

/-- A closed lexeme stays one where the text goes on with the same character, or with blanks or a
comment. -/
theorem IsLexeme.of_head? (h : IsLexeme kind text l rest) (hclosed : ¬ Unclosed l)
    (hhead : ∀ c ∈ rest'.head?, IsApart c ∨ rest.head? = some c) :
    IsLexeme kind text l rest' := by
  have hend {P : Char → Prop} (hrest : ∀ c ∈ rest.head?, P c) (happart : ∀ c, IsApart c → P c) :
      ∀ c ∈ rest'.head?, P c := by
    intro c hc
    rcases hhead c hc with hc | hc
    · exact happart c hc
    · exact hrest c hc
  cases h with
  | string hquote hbody => exact .string hquote hbody
  | unclosed hquote hbody hpending => exact absurd (.mk hquote hbody hpending) hclosed
  | whole hne hds hrest =>
    exact .whole hne hds (hend hrest fun c hc => ⟨hc.ends.1, hc.ends.2.1⟩)
  | point hne hds hps hrest => exact .point hne hds hps (hend hrest fun c hc => hc.ends.1)
  | word hc hcs hrest hkind => exact .word hc hcs (hend hrest fun c hc => hc.ends.2.2.1) hkind
  | mark hc => exact .mark hc
  | operator hop hmax =>
    refine .operator hop fun longer hlonger h => length_le_of_head? hmax ?_ hlonger h
    intro c hc hoperator
    refine (hhead c hc).resolve_left fun happart => ?_
    rw [happart.ends.2.2.2] at hoperator
    cases hoperator

end Apart

end Lexeme

namespace Cursor
open Lexeme

variable {c : Char} {cs l rest : List Char}

theorem token_strict_of_closed (hblank : isBlank c = false) (hash : c ≠ '#')
    (h : ¬ Unclosed (c :: cs)) (p : Position) :
    (⟨c :: cs, p⟩ : Cursor).token true = (⟨c :: cs, p⟩ : Cursor).token false := by
  rw [token, token, skipTrivia_lexeme p hblank hash]
  simp only [read_strict_of_closed h]

theorem token_strict_of_unclosed (hblank : isBlank c = false) (hash : c ≠ '#')
    (h : Unclosed (c :: cs)) (p : Position) :
    ∃ next, (⟨c :: cs, p⟩ : Cursor).token true = (.error ⟨.unterminatedString, p⟩, next) := by
  rw [token, skipTrivia_lexeme p hblank hash]
  simp only [read_strict_of_unclosed h]
  exact ⟨_, rfl⟩

theorem token_of_closed {kind : Token.Kind} {text : String} (hl : IsLexeme kind text l rest)
    (hclosed : ¬ Unclosed l) (p : Position) (strict : Bool) :
    (⟨l ++ rest, p⟩ : Cursor).token strict =
      (.ok ⟨kind, text, p⟩, ⟨rest, p.advance (l ++ rest) l.length⟩) := by
  have htoken := token_isLexeme hl p
  cases strict with
  | false => exact htoken
  | true =>
    have hopen : ¬ Unclosed (l ++ rest) := by
      intro hopen
      rw [hl.nil_of_unclosed hopen, List.append_nil] at hopen
      exact hclosed hopen
    obtain ⟨c, cs, rfl, hblank, hash⟩ := hl.head
    rw [← htoken]
    exact token_strict_of_closed hblank hash hopen p

theorem token_of_isStray (hc : IsStray c) (cs : List Char) (p : Position) (strict : Bool) :
    (⟨c :: cs, p⟩ : Cursor).token strict = (.error ⟨.unexpectedChar c, p⟩, ⟨c :: cs, p⟩) := by
  have htoken := token_isStray hc cs p
  cases strict with
  | false => exact htoken
  | true =>
    have hclosed : ¬ Unclosed (c :: cs) := by
      rw [unclosed_iff, hc.quote]
      simp
    rw [← htoken]
    exact token_strict_of_closed hc.blank hc.hash hclosed p

end Cursor

namespace TokenStream
open Lexeme

variable {w l rest : List Char} {kind : Token.Kind} {text : String}

theorem collect_of_trivia (hw : Trivia w []) (p : Position) (strict : Bool) :
    collect strict [] ⟨w, p⟩ = ⟨[], .eof (p.advance w w.length)⟩ := by
  have htoken := Cursor.token_append hw p strict
  rw [Cursor.token_nil, List.append_nil] at htoken
  exact collect_eof [] htoken rfl

theorem collect_of_closed (hw : Trivia w (l ++ rest)) (hl : IsLexeme kind text l rest)
    (hclosed : ¬ Unclosed l) (p : Position) (strict : Bool) :
    collect strict [] ⟨w ++ (l ++ rest), p⟩ =
      prepend [⟨kind, text, p.advance (w ++ (l ++ rest)) w.length⟩]
        (collect strict [] ⟨rest, p.advance (w ++ (l ++ rest)) (w ++ l).length⟩) := by
  have htoken := Cursor.token_of_closed hl hclosed (p.advance (w ++ (l ++ rest)) w.length) strict
  rw [← Cursor.token_append hw] at htoken
  rw [collect_next htoken (hl.isEof _), List.length_append, Position.advance_add, List.drop_left]

theorem collect_of_unclosed (hw : Trivia w l) (hl : Unclosed l) (p : Position) :
    collect true [] ⟨w ++ l, p⟩ =
        ⟨[], .failed ⟨.unterminatedString, p.advance (w ++ l) w.length⟩⟩ ∧
      ∃ text q, collect false [] ⟨w ++ l, p⟩ =
        ⟨[⟨.string, text, p.advance (w ++ l) w.length⟩], .eof q⟩ := by
  have hskip (strict : Bool) := collect_congr [] (Cursor.token_append hw p strict)
  rw [hskip, hskip]
  refine ⟨?_, collect_unclosed hl _⟩
  obtain ⟨c, cs, rfl, hblank, hash⟩ : ∃ c cs, l = c :: cs ∧ isBlank c = false ∧ c ≠ '#' := by
    obtain ⟨hquote, hbody, hpending⟩ := hl
    exact (IsLexeme.unclosed hquote hbody hpending).head
  obtain ⟨next, htoken⟩ :=
    Cursor.token_strict_of_unclosed hblank hash hl (p.advance (w ++ c :: cs) w.length)
  exact collect_failed [] htoken

theorem collect_of_isStray {c : Char} (hw : Trivia w (c :: rest)) (hc : IsStray c) (p : Position)
    (strict : Bool) : collect strict [] ⟨w ++ c :: rest, p⟩ =
      ⟨[], .failed ⟨.unexpectedChar c, p.advance (w ++ c :: rest) w.length⟩⟩ := by
  have htoken := Cursor.token_append hw p strict
  rw [Cursor.token_of_isStray hc] at htoken
  exact collect_failed [] htoken

end TokenStream

open Lexeme in
/-- The second text has the lexemes of the first with other blanks and comments before, between and
after them, none of them an unclosed string. Where there was a blank or a comment there still is. -/
inductive Relaid : List Char → List Char → Prop
  | gap {w w' : List Char} (hw : Trivia w []) (hw' : Trivia w' []) (hne : w ≠ [] → w' ≠ []) :
      Relaid w w'
  | lexeme {w w' l cs cs' : List Char} {kind : Token.Kind} {text : String}
      (hw : Trivia w (l ++ cs)) (hw' : Trivia w' (l ++ cs')) (hne : w ≠ [] → w' ≠ [])
      (hl : IsLexeme kind text l cs) (hclosed : ¬ Unclosed l) (h : Relaid cs cs') :
      Relaid (w ++ (l ++ cs)) (w' ++ (l ++ cs'))

namespace Relaid
open Lexeme

variable {cs cs' : List Char}

theorem head (h : Relaid cs cs') : ∀ c ∈ cs'.head?, IsApart c ∨ cs.head? = some c := by
  have hgap {w w' rest' : List Char} (rest : List Char) (hw' : Trivia w' rest')
      (hne : w ≠ [] → w' ≠ []) (hrest : rest'.head? = rest.head?) :
      ∀ c ∈ (w' ++ rest').head?, IsApart c ∨ (w ++ rest).head? = some c := by
    intro c hc
    cases w' with
    | nil =>
      have hw : w = [] := by
        by_contra hw
        exact hne hw rfl
      rw [hw, List.nil_append, ← hrest]
      exact .inr hc
    | cons d w' =>
      cases hc
      exact .inl hw'.isApart
  cases h with
  | gap _ hw' hne => simpa using hgap [] hw' hne rfl
  | lexeme _ hw' hne hl _ _ =>
    obtain ⟨d, ds, rfl, -⟩ := hl.head
    exact hgap _ hw' hne rfl

theorem segmented (h : Relaid cs cs') :
    ∃ words, Segmented cs words [] ∧ Segmented cs' words [] := by
  induction h with
  | gap hw hw' _ => exact ⟨[], .gap hw, .gap hw'⟩
  | @lexeme w w' l cs cs' kind text hw hw' _ hl hclosed h ih =>
    obtain ⟨words, hcs, hcs'⟩ := ih
    refine ⟨(kind, text) :: words, .lexeme ?_ ?_ hcs, .lexeme ?_ ?_ hcs'⟩
    · rwa [List.append_nil]
    · rwa [List.append_nil]
    · rwa [List.append_nil]
    · rw [List.append_nil]
      exact hl.of_head? hclosed h.head

theorem refl_of_eof (cs : List Char) {p q : Position}
    (h : (TokenStream.collect true [] ⟨cs, p⟩).ending = .eof q) : Relaid cs cs := by
  obtain ⟨w, rest, rfl, hw, hnext⟩ := Cursor.exists_next cs
  rcases hnext with rfl | ⟨kind, text, l, tail, rfl, hl⟩ | ⟨c, tail, rfl, hc⟩
  · rw [List.append_nil]
    exact .gap hw hw id
  · by_cases hopen : Unclosed l
    · obtain rfl := hl.nil_of_unclosed (hl.unclosed_append hopen)
      rw [List.append_nil] at hw h
      rw [(TokenStream.collect_of_unclosed hw hopen p).1] at h
      cases h
    · have hshorter := hl.length_lt w
      rw [TokenStream.collect_of_closed hw hl hopen] at h
      exact .lexeme hw hw id hl hopen (refl_of_eof tail h)
  · rw [TokenStream.collect_of_isStray hw hc] at h
    cases h
termination_by cs.length

theorem eof_of_relaid (h : Relaid cs cs') (p : Position) :
    ∃ q, (TokenStream.collect true [] ⟨cs, p⟩).ending = .eof q := by
  induction h generalizing p with
  | gap hw _ _ =>
    rw [TokenStream.collect_of_trivia hw]
    exact ⟨_, rfl⟩
  | lexeme hw _ _ hl hclosed _ ih =>
    rw [TokenStream.collect_of_closed hw hl hclosed]
    exact ih _

end Relaid

namespace TokenStream

theorem moved_eq_of_words {ts us : List Token} {p q : Position}
    (h : us.map Token.word = ts.map Token.word) :
    moved (fun _ => .start) ⟨us, .eof q⟩ = moved (fun _ => .start) ⟨ts, .eof p⟩ := by
  have herase : (·.moved fun _ => .start) =
      (fun w : Token.Kind × String => (⟨w.1, w.2, .start⟩ : Token)) ∘ Token.word := rfl
  rw [moved, moved, herase, ← List.map_map, ← List.map_map, h]
  rfl

theorem ofSource_of_segmented {source : String} {words : List (Token.Kind × String)}
    (h : Segmented source.toList words []) :
    ∃ ts q, ofSource source false = ⟨ts, .eof q⟩ ∧ ts.map Token.word = words := by
  obtain ⟨ts, hwords, hcollect⟩ := collect_segmented h .start
  rw [List.append_nil, collect_eof [] (Cursor.token_nil _ _) rfl, prepend, List.reverse_nil,
    List.append_nil] at hcollect
  exact ⟨ts, _, hcollect, hwords⟩

end TokenStream

/-- Trees that differ in places only, or errors of one kind. -/
inductive ParsesAlike : Except ParseError Expr → Except ParseError Expr → Prop
  | ok {e e' : Expr} (h : e'.same e = true) : ParsesAlike (.ok e) (.ok e')
  | error {e e' : ParseError} (h : e'.fault = e.fault) : ParsesAlike (.error e) (.error e')

/-- Without places the tokens of a text are the program or the error of the text without places. -/
theorem parse_erased (source : String) :
    ((TokenStream.ofSource source false).moved fun _ => .start).parse =
      ((parse source).map Expr.erase).mapError (ParseError.moved fun _ => .start) := by
  have h := ((Lexer.ofSource source false).parse_stream (f := fun _ => .start) rfl).1
  rw [Lexer.stream_ofSource, (Lexer.parse_ofSource source false).1] at h
  rw [h, funext Expr.moved_start]
  rfl

theorem parse_alike {source other : String}
    (h : (TokenStream.ofSource other false).moved (fun _ => .start) =
      (TokenStream.ofSource source false).moved (fun _ => .start)) :
    ParsesAlike (parse source) (parse other) := by
  have herased := parse_erased other
  rw [h, parse_erased source] at herased
  cases hsource : parse source with
  | ok e =>
    cases hother : parse other with
    | ok e' =>
      rw [hsource, hother] at herased
      simp only [Except.map, Except.mapError, Except.ok.injEq] at herased
      exact .ok (same_of_parseWith hsource herased.symm)
    | error err' =>
      rw [hsource, hother] at herased
      cases herased
  | error err =>
    cases hother : parse other with
    | ok e' =>
      rw [hsource, hother] at herased
      cases herased
    | error err' =>
      rw [hsource, hother] at herased
      simp only [Except.map, Except.mapError, Except.error.injEq, ParseError.moved,
        ParseError.mk.injEq] at herased
      exact .error herased.1.symm

/-- Layout plays no part. A text without stray characters and unclosed strings may be laid out anew,
with other blanks and comments around its lexemes: its tokens are the same up to places, and so is
the program or the error. -/
theorem parse_relaid (source : String) :
    (Relaid source.toList source.toList ↔
      ∃ ts, (TokenStream.ofSource source true).toExcept = .ok ts) ∧
    ∀ other : String, Relaid source.toList other.toList →
      (∃ ts us, tokenize source = .ok ts ∧ tokenize other = .ok us ∧
        us.map Token.word = ts.map Token.word) ∧
      ParsesAlike (parse source) (parse other) := by
  refine ⟨⟨fun h => ?_, ?_⟩, fun other h => ?_⟩
  · obtain ⟨q, hq⟩ := h.eof_of_relaid .start
    exact ⟨_, by rw [TokenStream.toExcept, TokenStream.ofSource, Cursor.ofSource, hq]⟩
  · rintro ⟨ts, hts⟩
    cases hend : (TokenStream.ofSource source true).ending with
    | eof q => exact .refl_of_eof _ hend
    | failed e =>
      rw [TokenStream.toExcept, hend] at hts
      cases hts
  · obtain ⟨words, hwords, hwords'⟩ := h.segmented
    obtain ⟨ts, p, hstream, hts⟩ := TokenStream.ofSource_of_segmented hwords
    obtain ⟨us, q, hstream', hus⟩ := TokenStream.ofSource_of_segmented hwords'
    refine ⟨⟨ts, us, ?_, ?_, hus.trans hts.symm⟩, parse_alike ?_⟩
    · rw [tokenize, hstream, TokenStream.toExcept]
    · rw [tokenize, hstream', TokenStream.toExcept]
    · rw [hstream, hstream']
      exact TokenStream.moved_eq_of_words (hus.trans hts.symm)

/-- A comment that a line break ends, one that ends with the text, and a name that a blank would
cut in two. -/
theorem relaid_call : Relaid "f(n-1)".toList "\tf(#1\n n-1)#2".toList := by
  have hclosed {c : Char} {cs : List Char} (hc : Lexeme.isQuote c = false) :
      ¬ Lexeme.Unclosed (c :: cs) := by
    rw [Lexeme.unclosed_iff, hc]
    simp
  have hname (rest : List Char) : Lexeme.IsLexeme .name "f" ['f'] ('(' :: rest) :=
    .word rfl (by simp) (by rintro _ ⟨⟩; rfl) (Lexeme.isWordKind_iff.mpr rfl)
  have harg (rest : List Char) : Lexeme.IsLexeme .name "n-1" ['n', '-', '1'] (')' :: rest) :=
    .word rfl (by simp [Lexeme.isNamePart, Lexeme.isDigit]) (by rintro _ ⟨⟩; rfl)
      (Lexeme.isWordKind_iff.mpr rfl)
  have hgap (rest : List Char) : Lexeme.Trivia ('#' :: ['1'] ++ ['\n', ' ']) rest :=
    .comment (by simp [Lexeme.isLineBreak]) (by simp [Lexeme.isLineBreak])
      (.blank rfl (.blank rfl .nil))
  have hend : Lexeme.Trivia ('#' :: ['2'] ++ []) [] :=
    .comment (by simp [Lexeme.isLineBreak]) (by simp) .nil
  have hlast : Relaid [')'] [')', '#', '2'] :=
    .lexeme (w := []) (l := [')']) .nil .nil id (.mark rfl) (hclosed rfl)
      (.gap .nil hend (by simp))
  have hmiddle : Relaid ['n', '-', '1', ')']
      ['#', '1', '\n', ' ', 'n', '-', '1', ')', '#', '2'] :=
    .lexeme (w := []) .nil (hgap _) (by simp) (harg []) (hclosed rfl) hlast
  have hopen : Relaid ['(', 'n', '-', '1', ')']
      ['(', '#', '1', '\n', ' ', 'n', '-', '1', ')', '#', '2'] :=
    .lexeme (w := []) (l := ['(']) .nil .nil id (.mark rfl) (hclosed rfl) hmiddle
  have hblank (rest : List Char) : Lexeme.Trivia ['\t'] rest := .blank rfl .nil
  exact .lexeme (w := []) .nil (hblank _) (by simp) (hname _) (hclosed rfl) hopen

theorem parse_relaid_call :
    Relaid "f(n-1)".toList "\tf(#1\n n-1)#2".toList ∧
    (∃ ts us, tokenize "f(n-1)" = .ok ts ∧ tokenize "\tf(#1\n n-1)#2" = .ok us ∧
      us.map Token.word = ts.map Token.word) ∧
    ParsesAlike (parse "f(n-1)") (parse "\tf(#1\n n-1)#2") :=
  ⟨relaid_call, (parse_relaid "f(n-1)").2 _ relaid_call⟩

end ExprLang
