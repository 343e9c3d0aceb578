import ExprLang.Proofs.Number.ReadBack
import ExprLang.Token.Stream
import ExprLang.Expr.Printer

namespace ExprLang

theorem forall_mem_of_all {α : Type} {P : α → Prop} [DecidablePred P] {xs : List α}
    (h : (xs.all fun x => decide (P x)) = true) : ∀ x ∈ xs, P x :=
  fun x hx => of_decide_eq_true (List.all_eq_true.mp h x hx)

namespace Token

def erase (t : Token) : Token := ⟨t.kind, t.text, .start⟩

end Token

namespace Lexeme

theorem trivia_blank {c : Char} {cs : List Char} (hc : isBlank c = true) :
    trivia false 0 (c :: cs) = 1 + trivia false 0 cs := by
  have hash : c ≠ '#' := by
    intro h
    rw [h] at hc
    exact absurd hc (by decide)
  rw [trivia]
  simp only [Bool.false_or, decide_eq_true_eq, hash, hc, if_false, if_true]
  split <;> exact trivia_add false 1 cs

theorem not_isLineBreak_of_not_isBlank {c : Char} (h : isBlank c = false) :
    isLineBreak c = false := by
  simp only [isBlank, isLineBreak, Bool.or_eq_false_iff] at *
  exact ⟨h.1.2, h.2⟩

theorem trivia_lexeme {c : Char} {cs : List Char} (hc : isBlank c = false) (hash : c ≠ '#') :
    trivia false 0 (c :: cs) = 0 := by
  simp [trivia, not_isLineBreak_of_not_isBlank hc, hash, hc]

end Lexeme

namespace Cursor

theorem skip_skip (cur : Cursor) (m n : Nat) : (cur.skip m).skip n = cur.skip (m + n) := by
  simp [skip, Position.advance_add, List.drop_drop]

theorem skipTrivia_blank {c : Char} {cs : List Char} (p : Position)
    (hc : Lexeme.isBlank c = true) :
    (⟨c :: cs, p⟩ : Cursor).skipTrivia = (⟨cs, p.step c cs⟩ : Cursor).skipTrivia := by
  have hone : (⟨c :: cs, p⟩ : Cursor).skip 1 = ⟨cs, p.step c cs⟩ := by simp [skip]
  rw [skipTrivia, Lexeme.trivia_blank hc, ← skip_skip, hone]
  rfl

theorem skipTrivia_lexeme {c : Char} {cs : List Char} (p : Position)
    (hc : Lexeme.isBlank c = false) (hash : c ≠ '#') :
    (⟨c :: cs, p⟩ : Cursor).skipTrivia = ⟨c :: cs, p⟩ := by
  rw [skipTrivia, Lexeme.trivia_lexeme hc hash]
  simp [skip]

theorem lexeme_of_token {strict : Bool} {cur next : Cursor} {t : Token}
    (h : cur.token strict = (.ok t, next)) (ht : t.isEof = false) :
    ∃ c cs l, Lexeme.read strict c cs = .ok l ∧ t.kind = l.kind ∧ t.text = l.text := by
  unfold token at h
  dsimp only at h
  split at h
  · cases h
    simp [Token.isEof, Token.eof] at ht
  · rename_i c cs _
    split at h
    · rename_i l hl
      cases h
      exact ⟨c, cs, l, hl, rfl, rfl⟩
    · cases h
    · cases h

end Cursor

namespace Lexeme

def isWord (s : String) : Bool :=
  match s.toList with
  | [] => false
  | c :: cs => isNameStart c && cs.all isNamePart

variable {strict : Bool} {c : Char} {cs : List Char} {l : Lexeme}

theorem push_append_ofList (before : String) (c : Char) (cs : List Char) :
    before.push c ++ String.ofList cs = before ++ String.ofList (c :: cs) := by
  rw [String.push_eq_append, String.append_assoc, String.singleton_eq_ofList,
    ← String.ofList_append]
  rfl

/-- What characters between quotes stand for. A quote among them is escaped, and the backslash of
an escape is dropped in favour of the character after it. -/
inductive Unescapes (quote : Char) : List Char → List Char → Prop
  | nil : Unescapes quote [] []
  | plain {c : Char} {cs text : List Char} (hescape : c ≠ '\\') (hquote : c ≠ quote)
      (h : Unescapes quote cs text) : Unescapes quote (c :: cs) (c :: text)
  | escaped {c : Char} {cs text : List Char} (h : Unescapes quote cs text) :
      Unescapes quote ('\\' :: c :: cs) (c :: text)

theorem Unescapes.stringBody_append {quote : Char} {body text : List Char}
    (h : Unescapes quote body text) (before : String) (n : Nat) (rest : List Char) :
    stringBody quote false before n (body ++ rest) =
      stringBody quote false (before ++ String.ofList text) (n + body.length) rest := by
  induction h generalizing before n with
  | nil => simp
  | plain hescape hquote _ ih =>
    rw [List.cons_append, stringBody, if_neg (by simp), if_neg hescape, if_neg hquote, ih,
      push_append_ofList, List.length_cons]
    congr 1
    omega
  | escaped _ ih =>
    rw [List.cons_append, stringBody, if_neg (by simp), if_pos rfl, List.cons_append, stringBody,
      if_pos rfl, ih, push_append_ofList, List.length_cons, List.length_cons]
    congr 1
    omega

theorem Unescapes.stringBody_close {quote : Char} {body text : List Char}
    (h : Unescapes quote body text) (hquote : isQuote quote = true) (rest : List Char) :
    stringBody quote false "" 0 (body ++ quote :: rest) =
      ⟨String.ofList text, body.length + 1, true⟩ := by
  have hescape : quote ≠ '\\' := by
    rintro rfl
    exact absurd hquote (by decide)
  rw [h.stringBody_append, stringBody, if_neg (by simp), if_neg hescape, if_pos rfl]
  simp

theorem read_cases (h : Lexeme.read strict c cs = .ok l) :
    l.kind = .string ∨
    (l.kind = .number ∧ isDigit c = true ∧ l.text = String.ofList (numberText (c :: cs))) ∨
    (l.kind = wordKind l.text ∧ isWord l.text = true) ∨
    (l.kind = .punctuation ∧ isMark c = true ∧ l.text = String.singleton c) ∨
    (l.kind = .operator ∧ l.text ∈ operators) := by
  unfold Lexeme.read at h
  split at h
  · dsimp only at h
    split at h <;> cases h
    exact .inl rfl
  · split at h
    · rename_i hd
      cases h
      exact .inr (.inl ⟨rfl, hd, rfl⟩)
    · split at h
      · rename_i hn
        cases h
        have hpart : isNamePart c = true := by simp [isNamePart, hn]
        refine .inr (.inr (.inl ⟨rfl, ?_⟩))
        simp [isWord, hpart, hn, List.all_takeWhile]
      · split at h
        · rename_i hm
          cases h
          exact .inr (.inr (.inr (.inl ⟨rfl, hm, rfl⟩)))
        · split at h
          · split at h
            · rename_i op hop
              cases h
              exact .inr (.inr (.inr (.inr ⟨rfl, List.mem_of_find?_eq_some hop⟩)))
            · cases h
          · cases h

theorem wordKind_cases (s : String) :
    wordKind s = .boolean ∨ wordKind s = .keyword ∨ wordKind s = .name := by
  unfold wordKind
  split
  · exact .inl rfl
  · split
    · exact .inr (.inl rfl)
    · exact .inr (.inr rfl)

theorem kind_ne_endOfInput (h : Lexeme.read strict c cs = .ok l) : l.kind ≠ .endOfInput := by
  rcases read_cases h with h | ⟨h, -⟩ | ⟨h, -⟩ | ⟨h, -⟩ | ⟨h, -⟩
  · simp [h]
  · simp [h]
  · rcases wordKind_cases l.text with hw | hw | hw <;> simp [h, hw]
  · simp [h]
  · simp [h]

theorem isWord_of_name (h : Lexeme.read strict c cs = .ok l) (hl : l.kind = .name) :
    isWord l.text = true ∧ wordKind l.text = .name := by
  rcases read_cases h with h | ⟨h, -⟩ | ⟨h, hw⟩ | ⟨h, -⟩ | ⟨h, -⟩
  · simp [h] at hl
  · simp [h] at hl
  · exact ⟨hw, h ▸ hl⟩
  · simp [h] at hl
  · simp [h] at hl

theorem ofLiteral?_of_number (h : Lexeme.read strict c cs = .ok l) (hl : l.kind = .number) :
    ∃ x, Number.ofLiteral? l.text = some x := by
  rcases read_cases h with h | ⟨-, hc, ht⟩ | ⟨h, -⟩ | ⟨h, -⟩ | ⟨h, -⟩
  · simp [h] at hl
  · rw [ht]
    have hdigits (ds : List Char) : ∀ d ∈ ds.takeWhile isDigit, Number.isDecimalDigit d = true :=
      List.all_eq_true.mp (List.all_takeWhile (p := isDigit))
    have hne : (c :: cs).takeWhile isDigit ≠ [] := by simp [hc]
    unfold numberText
    dsimp only
    split
    · exact ⟨_, Number.ofLiteral?_point hne (hdigits _) (hdigits _)⟩
    · exact ⟨_, Number.ofLiteral?_digits hne (hdigits _)⟩
  · rcases wordKind_cases l.text with hw | hw | hw <;> simp [h, hw] at hl
  · simp [h] at hl
  · simp [h] at hl

end Lexeme

namespace TokenStream

variable {strict : Bool} {cur next : Cursor} {t : Token} (before : List Token)

theorem collect_eof (h : cur.token strict = (.ok t, next)) (ht : t.isEof = true) :
    collect strict before cur = ⟨before.reverse, .eof t.position⟩ := by
  rw [collect]
  split
  · rename_i h'
    rw [h] at h'
    cases h'
  · rename_i h'
    rw [h] at h'
    cases h'
    rw [dif_pos ht]

theorem collect_failed {e : LexError} (h : cur.token strict = (.error e, next)) :
    collect strict before cur = ⟨before.reverse, .failed e⟩ := by
  rw [collect]
  split
  · rename_i h'
    rw [h] at h'
    cases h'
    rfl
  · rename_i h'
    rw [h] at h'
    cases h'

theorem collect_token (h : cur.token strict = (.ok t, next)) (ht : t.isEof = false) :
    collect strict before cur = collect strict (t :: before) next := by
  rw [collect]
  split
  · rename_i h'
    rw [h] at h'
    cases h'
  · rename_i h'
    rw [h] at h'
    cases h'
    rw [dif_neg (by simp [ht])]

theorem collect_congr {cur' : Cursor} (h : cur.token strict = cur'.token strict) :
    collect strict before cur = collect strict before cur' := by
  rcases h' : cur'.token strict with ⟨e | t, next⟩ <;> rw [h'] at h
  · rw [collect_failed before h, collect_failed before h']
  · by_cases ht : t.isEof = true
    · rw [collect_eof before h ht, collect_eof before h' ht]
    · rw [Bool.not_eq_true] at ht
      rw [collect_token before h ht, collect_token before h' ht]

theorem collect_before (strict : Bool) (before : List Token) (cur : Cursor) :
    collect strict before cur =
      ⟨before.reverse ++ (collect strict [] cur).tokens, (collect strict [] cur).ending⟩ := by
  rcases h : cur.token strict with ⟨e | t, next⟩
  · simp [collect_failed _ h]
  · by_cases ht : t.isEof = true
    · simp [collect_eof _ h ht]
    · rw [Bool.not_eq_true] at ht
      have hlt := Cursor.length_rest_token h ht
      rw [collect_token before h ht, collect_token [] h ht, collect_before strict (t :: before),
        collect_before strict [t]]
      simp
termination_by cur.rest.length

end TokenStream

/-- The words of a text, whatever place it stands at. -/
def Spells (cs : List Char) (ts : List Token) : Prop :=
  ∀ strict p, ∃ q, (TokenStream.collect strict [] ⟨cs, p⟩).ending = .eof q ∧
    (TokenStream.collect strict [] ⟨cs, p⟩).tokens.map Token.erase = ts

namespace Spells
open Lexeme

variable {c : Char} {cs rest : List Char} {ts : List Token}

theorem nil : Spells [] [] := by
  intro strict p
  have h : (⟨[], p⟩ : Cursor).token strict = (.ok (.eof p), ⟨[], p⟩) := by
    simp [Cursor.token, Cursor.skipTrivia, Cursor.skip]
  rw [TokenStream.collect_eof [] h rfl]
  exact ⟨p, rfl, rfl⟩

theorem blank (hc : isBlank c = true) (h : Spells cs ts) : Spells (c :: cs) ts := by
  intro strict p
  have heq : (⟨c :: cs, p⟩ : Cursor).token strict = (⟨cs, p.step c cs⟩ : Cursor).token strict := by
    rw [Cursor.token, Cursor.token, Cursor.skipTrivia_blank p hc]
  rw [TokenStream.collect_congr [] heq]
  exact h strict _

theorem blanks {n : Nat} (h : Spells rest ts) : Spells (List.replicate n ' ' ++ rest) ts := by
  induction n with
  | zero => exact h
  | succ n ih => exact blank (by decide) ih

theorem lexeme {l : Lexeme} (hc : isBlank c = false) (hash : c ≠ '#')
    (hl : ∀ strict, Lexeme.read strict c cs = .ok l) (h : Spells ((c :: cs).drop l.length) ts) :
    Spells (c :: cs) (⟨l.kind, l.text, .start⟩ :: ts) := by
  intro strict p
  have htoken : (⟨c :: cs, p⟩ : Cursor).token strict =
      (.ok ⟨l.kind, l.text, p⟩, (⟨c :: cs, p⟩ : Cursor).skip l.length) := by
    rw [Cursor.token, Cursor.skipTrivia_lexeme p hc hash]
    simp only [hl strict]
  have heof : (⟨l.kind, l.text, p⟩ : Token).isEof = false := by
    simpa [Token.isEof] using kind_ne_endOfInput (hl strict)
  obtain ⟨q, hend, hwords⟩ := h strict (p.advance (c :: cs) l.length)
  rw [TokenStream.collect_token [] htoken heof, TokenStream.collect_before]
  refine ⟨q, hend, ?_⟩
  simpa [Token.erase, Cursor.skip] using hwords

theorem lexeme_append {text : List Char} {kind : Token.Kind} {s : String} (htext : text = c :: cs)
    (hc : isBlank c = false) (hash : c ≠ '#')
    (hl : ∀ strict, Lexeme.read strict c (cs ++ rest) = .ok ⟨kind, s, text.length⟩)
    (h : Spells rest ts) : Spells (text ++ rest) (⟨kind, s, .start⟩ :: ts) := by
  have hdrop : (c :: (cs ++ rest)).drop text.length = rest := by
    rw [← List.cons_append, ← htext, List.drop_left]
  rw [htext]
  refine lexeme hc hash hl ?_
  dsimp only
  rw [hdrop]
  exact h

theorem mark_start (hc : isMark c = true) : isBlank c = false ∧ c ≠ '#' ∧ isQuote c = false ∧
    isDigit c = false ∧ isNameStart c = false := by
  have hmem : c ∈ [',', '.', ';', '(', ')', '[', ']', '{', '}'] := by
    simpa [isMark] using hc
  have hclass : ∀ c ∈ [',', '.', ';', '(', ')', '[', ']', '{', '}'],
      isBlank c = false ∧ c ≠ '#' ∧ isQuote c = false ∧ isDigit c = false ∧
        isNameStart c = false := forall_mem_of_all (by decide)
  exact hclass c hmem

theorem mark (hc : isMark c = true) (h : Spells rest ts) :
    Spells (c :: rest) (⟨.punctuation, String.singleton c, .start⟩ :: ts) := by
  obtain ⟨hblank, hash, hquote, hdigit, hstart⟩ := mark_start hc
  exact lexeme (l := ⟨.punctuation, String.singleton c, 1⟩) hblank hash
    (by intro strict; simp [Lexeme.read, hquote, hdigit, hstart, hc]) h

/-- What is written between two operands, with a blank after it so that it cannot go on. -/
theorem connective {op : String} (hop : op = "=" ∨ ∃ o : Operator, op = o.symbol)
    (h : Spells rest ts) : Spells (op.toList ++ ' ' :: rest) (⟨.operator, op, .start⟩ :: ts) := by
  obtain ⟨c, cs, hcs, hblank, hash, hread⟩ : ∃ c cs, op.toList = c :: cs ∧ isBlank c = false ∧
      c ≠ '#' ∧ ∀ strict, Lexeme.read strict c (cs ++ ' ' :: rest) =
        .ok ⟨.operator, op, op.toList.length⟩ := by
    rcases hop with rfl | ⟨o, rfl⟩
    · exact ⟨_, _, rfl, by decide, by decide, fun _ => rfl⟩
    · cases o <;> exact ⟨_, _, rfl, by decide, by decide, fun _ => rfl⟩
  exact lexeme_append hcs hblank hash hread (blank (by decide) h)

theorem unescapes_escape (s : List Char) : Unescapes '"' (s.flatMap Printer.escape) s := by
  induction s with
  | nil => exact .nil
  | cons c s ih =>
    rw [List.flatMap_cons]
    by_cases hc : c = '"' ∨ c = '\\'
    · have hesc : Printer.escape c = ['\\', c] := if_pos (by simpa using hc)
      rw [hesc]
      exact .escaped ih
    · have hesc : Printer.escape c = [c] := if_neg (by simpa using hc)
      rw [hesc]
      exact .plain (not_or.mp hc).2 (not_or.mp hc).1 ih

theorem literal (s : String) (h : Spells rest ts) :
    Spells (Printer.literal s ++ rest) (⟨.string, s, .start⟩ :: ts) := by
  have hlit : Printer.literal s = '"' :: (s.toList.flatMap Printer.escape ++ ['"']) := rfl
  have hbody := (unescapes_escape s.toList).stringBody_close (by decide) rest
  refine lexeme_append hlit (by decide) (by decide) ?_ h
  intro strict
  simp only [hlit, List.append_assoc, List.cons_append, List.nil_append, Lexeme.read, hbody]
  simp [isQuote]

theorem word_start (h : isNameStart c = true ∨ isDigit c = true) :
    isBlank c = false ∧ c ≠ '#' ∧ isQuote c = false := by
  have hclass : ∀ d ∈ [' ', '\t', '\n', '\r', '#', '"', '\''],
      isNameStart d = false ∧ isDigit d = false := forall_mem_of_all (by decide)
  have hout : c ∉ [' ', '\t', '\n', '\r', '#', '"', '\''] := by
    intro hmem
    obtain ⟨hn, hd⟩ := hclass c hmem
    simp [hn, hd] at h
  simp only [List.mem_cons, List.not_mem_nil, or_false, not_or] at hout
  simp [isBlank, isQuote, hout]

theorem isDigit_of_isNameStart (h : isNameStart c = true) : isDigit c = false := by
  by_contra hd
  have hd : '0' ≤ c ∧ c ≤ '9' := by simpa [isDigit] using hd
  have hupper : c.toNat ≤ 57 := hd.2
  have hlower : 48 ≤ c.toNat := hd.1
  simp only [isNameStart, Bool.or_eq_true, Bool.and_eq_true, decide_eq_true_eq] at h
  rcases h with ((⟨h, -⟩ | ⟨h, -⟩) | rfl) | rfl
  · have : 97 ≤ c.toNat := h
    omega
  · have : 65 ≤ c.toNat := h
    omega
  · exact absurd hupper (by decide)
  · exact absurd hupper (by decide)

theorem word {s : String} (hs : isWord s = true)
    (hrest : ∀ d, rest.head? = some d → isNamePart d = false) (h : Spells rest ts) :
    Spells (s.toList ++ rest) (⟨wordKind s, s, .start⟩ :: ts) := by
  obtain ⟨c, cs, hcs, hc, hparts⟩ :
      ∃ c cs, s.toList = c :: cs ∧ isNameStart c = true ∧ ∀ d ∈ cs, isNamePart d = true := by
    unfold isWord at hs
    split at hs
    · cases hs
    · rename_i c cs hcs
      rw [Bool.and_eq_true, List.all_eq_true] at hs
      exact ⟨c, cs, hcs, hs⟩
  obtain ⟨hblank, hash, hquote⟩ := word_start (.inl hc)
  have hall : ∀ d ∈ c :: cs, isNamePart d = true := by
    refine List.forall_mem_cons.mpr ⟨?_, hparts⟩
    simp [isNamePart, hc]
  have htake : (c :: (cs ++ rest)).takeWhile isNamePart = c :: cs :=
    Number.takeWhile_append_stop hall hrest
  have hs : String.ofList (c :: cs) = s := by rw [← hcs, String.ofList_toList]
  refine lexeme_append hcs hblank hash ?_ h
  intro strict
  simp [Lexeme.read, hquote, isDigit_of_isNameStart hc, hc, htake, hs, hcs]

theorem numberText_digits {ds : List Char} (hds : ∀ c ∈ ds, isDigit c = true)
    (hrest : ∀ d, rest.head? = some d → isDigit d = false ∧ d ≠ '.') :
    numberText (ds ++ rest) = ds := by
  have htake := Number.takeWhile_append_stop hds fun d hd => (hrest d hd).1
  simp only [numberText, htake, List.drop_left]
  split
  · exact absurd rfl (hrest '.' rfl).2
  · rfl

theorem numberText_point {ds ps : List Char} (hds : ∀ c ∈ ds, isDigit c = true)
    (hps : ∀ c ∈ ps, isDigit c = true) (hrest : ∀ d, rest.head? = some d → isDigit d = false) :
    numberText (ds ++ '.' :: ps ++ rest) = ds ++ '.' :: ps := by
  have htake : (ds ++ '.' :: (ps ++ rest)).takeWhile isDigit = ds :=
    Number.takeWhile_append_stop hds (by simp [isDigit])
  have hplaces := Number.takeWhile_append_stop hps hrest
  simp only [List.append_assoc, List.cons_append, numberText, htake, List.drop_left, hplaces]

theorem number {s : String} (hs : Number.IsNumeral s.toList)
    (hrest : ∀ d, rest.head? = some d → isDigit d = false ∧ d ≠ '.')
    (h : Spells rest ts) : Spells (s.toList ++ rest) (⟨.number, s, .start⟩ :: ts) := by
  obtain ⟨c, cs, hcs, hdigit, htext⟩ : ∃ c cs, s.toList = c :: cs ∧ isDigit c = true ∧
      numberText (s.toList ++ rest) = s.toList := by
    generalize s.toList = text at hs
    cases hs with
    | whole hne hds =>
      obtain ⟨c, cs, rfl⟩ := List.exists_cons_of_ne_nil hne
      exact ⟨c, cs, rfl, hds c List.mem_cons_self, numberText_digits hds hrest⟩
    | places hne hds hps _ =>
      obtain ⟨c, cs, rfl⟩ := List.exists_cons_of_ne_nil hne
      exact ⟨c, _, List.cons_append, hds c List.mem_cons_self,
        numberText_point hds hps fun d hd => (hrest d hd).1⟩
  obtain ⟨hblank, hash, hquote⟩ := word_start (.inr hdigit)
  have hs : String.ofList (c :: cs) = s := by rw [← hcs, String.ofList_toList]
  refine lexeme_append hcs hblank hash ?_ h
  intro strict
  rw [hcs, List.cons_append] at htext
  simp [Lexeme.read, hquote, hdigit, htext, hs, hcs]

theorem tokenize_map {s : String} (h : Spells s.toList ts) :
    (tokenize s).map (·.map Token.erase) = .ok ts := by
  obtain ⟨q, hend, hwords⟩ := h false .start
  simp only [tokenize, TokenStream.ofSource, Cursor.ofSource, TokenStream.toExcept, hend]
  exact congrArg Except.ok hwords

end Spells

namespace TokenStream

theorem lexeme_of_mem (strict : Bool) (cur : Cursor) :
    ∀ t ∈ (collect strict [] cur).tokens,
      ∃ c cs l, Lexeme.read strict c cs = .ok l ∧ t.kind = l.kind ∧ t.text = l.text := by
  rcases h : cur.token strict with ⟨e | t, next⟩
  · simp [collect_failed _ h]
  · by_cases ht : t.isEof = true
    · simp [collect_eof _ h ht]
    · rw [Bool.not_eq_true] at ht
      have hlt := Cursor.length_rest_token h ht
      rw [collect_token [] h ht, collect_before]
      intro u hu
      rcases List.mem_append.mp hu with hu | hu
      · rw [List.reverse_singleton, List.mem_singleton] at hu
        subst hu
        exact Cursor.lexeme_of_token h ht
      · exact lexeme_of_mem strict next u hu
termination_by cur.rest.length

theorem isEof_of_mem {strict : Bool} {cur : Cursor} {t : Token}
    (h : t ∈ (collect strict [] cur).tokens) : t.isEof = false := by
  obtain ⟨c, cs, l, hl, hkind, -⟩ := lexeme_of_mem strict cur t h
  simpa [Token.isEof, hkind] using Lexeme.kind_ne_endOfInput hl

end TokenStream

def IsName (s : String) : Prop := ∃ p, tokenize s = .ok [⟨.name, s, p⟩]

theorem isName_iff (s : String) :
    IsName s ↔ Lexeme.isWord s = true ∧ Lexeme.wordKind s = .name := by
  constructor
  · rintro ⟨p, h⟩
    have hmem : (⟨.name, s, p⟩ : Token) ∈ (TokenStream.ofSource s false).tokens := by
      unfold tokenize TokenStream.toExcept at h
      split at h
      · rw [Except.ok.inj h]
        exact List.mem_singleton_self _
      · cases h
    obtain ⟨c, cs, l, hl, hkind, htext⟩ := TokenStream.lexeme_of_mem false _ _ hmem
    dsimp only at hkind htext
    rw [htext]
    exact Lexeme.isWord_of_name hl hkind.symm
  · rintro ⟨hword, hkind⟩
    have hspells : Spells (s.toList ++ []) [⟨Lexeme.wordKind s, s, .start⟩] :=
      .word hword (by simp) .nil
    rw [List.append_nil] at hspells
    have h := Spells.tokenize_map hspells
    rw [hkind] at h
    rcases htokens : tokenize s with e | ts
    · simp [htokens, Except.map] at h
    · simp only [htokens, Except.map, Except.ok.injEq, List.map_eq_singleton_iff] at h
      obtain ⟨⟨kind, text, p⟩, rfl, hword⟩ := h
      cases hword
      exact ⟨p, htokens⟩

end ExprLang
