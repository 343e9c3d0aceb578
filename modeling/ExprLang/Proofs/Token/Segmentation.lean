import ExprLang.Proofs.Token.Spelling

namespace ExprLang

namespace Lexeme

/-- A run of blanks and comments in front of a text. A comment goes on up to a line break or the
end of the text. -/
inductive Trivia : List Char → List Char → Prop
  | nil {rest : List Char} : Trivia [] rest
  | blank {c : Char} {w rest : List Char} (hc : isBlank c = true) (h : Trivia w rest) :
      Trivia (c :: w) rest
  | comment {body w rest : List Char} (hbody : ∀ c ∈ body, isLineBreak c = false)
      (hend : ∀ c ∈ (w ++ rest).head?, isLineBreak c = true) (h : Trivia w rest) :
      Trivia ('#' :: body ++ w) rest

def IsWordKind (word : String) : Token.Kind → Prop
  | .boolean => word = "true" ∨ word = "false"
  | .keyword => word ∈ keywords
  | .name => word ≠ "true" ∧ word ≠ "false" ∧ word ∉ keywords
  | _ => False

/-- `IsLexeme kind text l rest`: in front of `rest` the characters `l` are a lexeme of a kind, and
stand for `text`. What `rest` starts with cannot go on with them. -/
inductive IsLexeme : Token.Kind → String → List Char → List Char → Prop
  | string {quote : Char} {body text rest : List Char} (hquote : isQuote quote = true)
      (hbody : Unescapes quote body text) :
      IsLexeme .string (String.ofList text) (quote :: (body ++ [quote])) rest
  /-- A string without its closing quote goes on to the end, perhaps with a backslash there. -/
  | unclosed {quote : Char} {body text pending : List Char} (hquote : isQuote quote = true)
      (hbody : Unescapes quote body text) (hpending : pending = [] ∨ pending = ['\\']) :
      IsLexeme .string (String.ofList text) (quote :: (body ++ pending)) []
  | whole {ds rest : List Char} (hne : ds ≠ []) (hds : ∀ d ∈ ds, isDigit d = true)
      (hend : ∀ c ∈ rest.head?, isDigit c = false ∧ c ≠ '.') :
      IsLexeme .number (String.ofList ds) ds rest
  | point {ds ps rest : List Char} (hne : ds ≠ []) (hds : ∀ d ∈ ds, isDigit d = true)
      (hps : ∀ d ∈ ps, isDigit d = true) (hend : ∀ c ∈ rest.head?, isDigit c = false) :
      IsLexeme .number (String.ofList (ds ++ '.' :: ps)) (ds ++ '.' :: ps) rest
  | word {kind : Token.Kind} {c : Char} {cs rest : List Char} (hc : isNameStart c = true)
      (hcs : ∀ d ∈ cs, isNamePart d = true) (hend : ∀ d ∈ rest.head?, isNamePart d = false)
      (hkind : IsWordKind (String.ofList (c :: cs)) kind) :
      IsLexeme kind (String.ofList (c :: cs)) (c :: cs) rest
  | mark {c : Char} {rest : List Char} (hc : isMark c = true) :
      IsLexeme .punctuation (String.singleton c) [c] rest
  | operator {op : String} {rest : List Char} (hop : op ∈ operators)
      (hmax : ∀ longer ∈ operators, longer.toList <+: op.toList ++ rest →
        longer.length ≤ op.length) :
      IsLexeme .operator op op.toList rest

/-- Neither a lexeme nor a comment starts with the character, and it is no blank. -/
structure IsStray (c : Char) : Prop where
  quote : isQuote c = false
  digit : isDigit c = false
  nameStart : isNameStart c = false
  mark : isMark c = false
  operatorChar : isOperatorChar c = false
  blank : isBlank c = false
  hash : c ≠ '#'

end Lexeme

def Token.word (t : Token) : Token.Kind × String := (t.kind, t.text)

/-- `Segmented cs words rest`: in front of `rest` the characters `cs` are blanks and comments with
lexemes between them, which stand for `words`. -/
inductive Segmented : List Char → List (Token.Kind × String) → List Char → Prop
  | gap {w rest : List Char} (hw : Lexeme.Trivia w rest) : Segmented w [] rest
  | lexeme {w l cs rest : List Char} {kind : Token.Kind} {text : String}
      {words : List (Token.Kind × String)} (hw : Lexeme.Trivia w (l ++ (cs ++ rest)))
      (hl : Lexeme.IsLexeme kind text l (cs ++ rest)) (h : Segmented cs words rest) :
      Segmented (w ++ (l ++ cs)) ((kind, text) :: words) rest

namespace Lexeme

section Blanks

theorem trivia_comment {body rest : List Char} (hbody : ∀ c ∈ body, isLineBreak c = false)
    (hend : ∀ c ∈ rest.head?, isLineBreak c = true) :
    trivia true 0 (body ++ rest) = body.length + trivia false 0 rest := by
  induction body with
  | nil =>
    -- At a line break it makes no difference whether a comment is open.
    cases rest with
    | nil => rfl
    | cons c cs => simp [trivia, hend c rfl]
  | cons c body ih =>
    obtain ⟨hc, hbody⟩ := List.forall_mem_cons.mp hbody
    rw [List.cons_append, trivia, hc]
    simp only [Bool.false_eq_true, if_false, Bool.true_or, if_true]
    rw [trivia_add, ih hbody, List.length_cons]
    omega

theorem Trivia.trivia_append {w rest : List Char} (h : Trivia w rest) :
    trivia false 0 (w ++ rest) = w.length + trivia false 0 rest := by
  induction h with
  | nil => simp
  | blank hc _ ih =>
    rw [List.cons_append, trivia_blank hc, ih, List.length_cons]
    omega
  | @comment body w rest hbody hend _ ih =>
    have hhash : trivia false 0 ('#' :: (body ++ (w ++ rest))) =
        1 + trivia true 0 (body ++ (w ++ rest)) := by
      rw [trivia]
      simp only [show isLineBreak '#' = false from rfl, Bool.false_eq_true, if_false,
        decide_true, Bool.or_true, if_true]
      exact trivia_add true 1 _
    simp only [List.cons_append, List.append_assoc, List.length_cons, List.length_append]
    rw [hhash, trivia_comment hbody hend, ih]
    omega

/-- Every text starts with a run of blanks and comments after which no more of them follow. If a
comment is open, it has to end first. -/
theorem exists_trivia (cs : List Char) :
    (∃ w rest, cs = w ++ rest ∧ Trivia w rest ∧ ∀ c ∈ rest.head?, isBlank c = false ∧ c ≠ '#') ∧
    ∃ body w rest, cs = body ++ (w ++ rest) ∧ (∀ c ∈ body, isLineBreak c = false) ∧
      (∀ c ∈ (w ++ rest).head?, isLineBreak c = true) ∧ Trivia w rest ∧
      ∀ c ∈ rest.head?, isBlank c = false ∧ c ≠ '#' := by
  induction cs with
  | nil => exact ⟨⟨[], [], rfl, .nil, by simp⟩, [], [], [], rfl, by simp, by simp, .nil, by simp⟩
  | cons c cs ih =>
    obtain ⟨⟨w, rest, hcs, hw, hrest⟩, body, w', rest', heq, hbody, hend, hw', hrest'⟩ := ih
    have houtside : ∃ v tail, c :: cs = v ++ tail ∧ Trivia v tail ∧
        ∀ d ∈ tail.head?, isBlank d = false ∧ d ≠ '#' := by
      by_cases hblank : isBlank c = true
      · exact ⟨c :: w, rest, by rw [hcs, List.cons_append], .blank hblank hw, hrest⟩
      · by_cases hash : c = '#'
        · subst hash
          exact ⟨'#' :: body ++ w', rest', by simp [heq], .comment hbody hend hw', hrest'⟩
        · refine ⟨[], c :: cs, rfl, .nil, ?_⟩
          rintro d ⟨⟩
          exact ⟨eq_false_of_ne_true hblank, hash⟩
    refine ⟨houtside, ?_⟩
    by_cases hbreak : isLineBreak c = true
    · obtain ⟨v, tail, hv, htrivia, htail⟩ := houtside
      refine ⟨[], v, tail, hv, by simp, ?_, htrivia, htail⟩
      rw [← hv]
      rintro d ⟨⟩
      exact hbreak
    · refine ⟨c :: body, w', rest', by simp [heq], ?_, hend, hw', hrest'⟩
      exact List.forall_mem_cons.mpr ⟨eq_false_of_ne_true hbreak, hbody⟩

end Blanks

section Strings

variable {quote : Char}

theorem exists_unescapes (quote : Char) (cs : List Char) :
    ∃ body text tail, cs = body ++ tail ∧ Unescapes quote body text ∧
      (tail = [] ∨ tail = ['\\'] ∨ ∃ rest, tail = quote :: rest) := by
  match cs with
  | [] => exact ⟨[], [], [], rfl, .nil, .inl rfl⟩
  | c :: cs =>
    by_cases hescape : c = '\\'
    · subst hescape
      match cs with
      | [] => exact ⟨[], [], ['\\'], rfl, .nil, .inr (.inl rfl)⟩
      | c :: cs =>
        obtain ⟨body, text, tail, hcs, hbody, htail⟩ := exists_unescapes quote cs
        exact ⟨'\\' :: c :: body, c :: text, tail, by rw [hcs]; rfl, .escaped hbody, htail⟩
    · by_cases hquote : c = quote
      · exact ⟨[], [], c :: cs, rfl, .nil, .inr (.inr ⟨cs, by rw [hquote]⟩)⟩
      · obtain ⟨body, text, tail, hcs, hbody, htail⟩ := exists_unescapes quote cs
        exact ⟨c :: body, c :: text, tail, by rw [hcs]; rfl, .plain hescape hquote hbody, htail⟩

theorem exists_string (hquote : isQuote quote = true) (cs : List Char) :
    ∃ text l rest, quote :: cs = l ++ rest ∧ IsLexeme .string text l rest := by
  obtain ⟨body, text, tail, rfl, hbody, htail⟩ := exists_unescapes quote cs
  rcases htail with rfl | rfl | ⟨rest, rfl⟩
  · exact ⟨_, _, [], (List.append_nil _).symm, .unclosed hquote hbody (.inl rfl)⟩
  · exact ⟨_, _, [], (List.append_nil _).symm, .unclosed hquote hbody (.inr rfl)⟩
  · exact ⟨_, _, rest, by simp, .string hquote hbody⟩

theorem read_string {body text : List Char} (hquote : isQuote quote = true)
    (hbody : Unescapes quote body text) (rest : List Char) :
    read false quote (body ++ quote :: rest) =
      .ok ⟨.string, String.ofList text, (quote :: (body ++ [quote])).length⟩ := by
  rw [read, if_pos hquote, hbody.stringBody_close hquote]
  simp

theorem read_unclosed {body text pending : List Char} (hquote : isQuote quote = true)
    (hbody : Unescapes quote body text) (hpending : pending = [] ∨ pending = ['\\']) :
    read false quote (body ++ pending) =
      .ok ⟨.string, String.ofList text, (quote :: (body ++ pending)).length⟩ := by
  have hend : stringBody quote false "" 0 (body ++ pending) =
      ⟨String.ofList text, body.length + pending.length, false⟩ := by
    rw [hbody.stringBody_append]
    rcases hpending with rfl | rfl <;> simp [stringBody]
  rw [read, if_pos hquote, hend]
  simp

end Strings

section Numbers

theorem isLexeme_numberText {c : Char} (hc : isDigit c = true) (cs : List Char) :
    ∃ rest, c :: cs = numberText (c :: cs) ++ rest ∧
      IsLexeme .number (String.ofList (numberText (c :: cs))) (numberText (c :: cs)) rest := by
  have hall (ds : List Char) : ∀ d ∈ ds.takeWhile isDigit, isDigit d = true :=
    List.all_eq_true.mp (List.all_takeWhile (p := isDigit))
  have hstop (ds : List Char) : ∀ d ∈ (ds.dropWhile isDigit).head?, isDigit d = false := by
    intro d hd
    have h := List.head?_dropWhile_not isDigit ds
    rw [Option.mem_def.mp hd] at h
    exact h
  have hne : (c :: cs).takeWhile isDigit ≠ [] := by simp [hc]
  have hsplit : (c :: cs).takeWhile isDigit ++ (c :: cs).dropWhile isDigit = c :: cs :=
    List.takeWhile_append_dropWhile
  have hdrop : (c :: cs).drop ((c :: cs).takeWhile isDigit).length =
      (c :: cs).dropWhile isDigit := by
    nth_rewrite 2 [← hsplit]
    rw [List.drop_left]
  unfold numberText
  dsimp only
  rw [hdrop]
  have hrest := hstop (c :: cs)
  split
  · rename_i ps heq
    have hps : ps.takeWhile isDigit ++ ps.dropWhile isDigit = ps :=
      List.takeWhile_append_dropWhile
    refine ⟨ps.dropWhile isDigit, ?_, .point hne (hall _) (hall _) (hstop ps)⟩
    rw [List.append_assoc, List.cons_append, hps, ← heq, hsplit]
  · rename_i hpoint
    refine ⟨(c :: cs).dropWhile isDigit, hsplit.symm, .whole hne (hall _) fun d hd => ?_⟩
    refine ⟨hrest d hd, ?_⟩
    rintro rfl
    obtain ⟨tail, htail⟩ := List.head?_eq_some_iff.mp (Option.mem_def.mp hd)
    exact hpoint tail htail

end Numbers

section Words

theorem isWordKind_iff {word : String} {kind : Token.Kind} :
    IsWordKind word kind ↔ wordKind word = kind := by
  have hboth : ∀ w ∈ keywords, w ≠ "true" ∧ w ≠ "false" := by decide
  unfold wordKind
  by_cases hbool : word = "true" ∨ word = "false"
  · have hkeyword : word ∉ keywords := by
      intro h
      rcases hbool with rfl | rfl
      · exact (hboth _ h).1 rfl
      · exact (hboth _ h).2 rfl
    cases kind with
    | name =>
      have hname : ¬ IsWordKind word .name := fun h => hbool.elim h.1 h.2.1
      simp [hname, hbool]
    | _ => simp [IsWordKind, hbool, hkeyword]
  · have hbool' := not_or.mp hbool
    by_cases hkeyword : word ∈ keywords
    · cases kind <;> simp [IsWordKind, hbool', hkeyword]
    · cases kind <;> simp [IsWordKind, hbool', hkeyword]

theorem isLexeme_takeWhile {c : Char} (hc : isNameStart c = true) (cs : List Char) :
    ∃ rest, c :: cs = (c :: cs).takeWhile isNamePart ++ rest ∧
      IsLexeme (wordKind (String.ofList ((c :: cs).takeWhile isNamePart)))
        (String.ofList ((c :: cs).takeWhile isNamePart)) ((c :: cs).takeWhile isNamePart) rest := by
  have hpart : isNamePart c = true := by simp [isNamePart, hc]
  refine ⟨(c :: cs).dropWhile isNamePart, List.takeWhile_append_dropWhile.symm, ?_⟩
  rw [List.takeWhile_cons_of_pos hpart]
  refine .word hc ?_ ?_ (isWordKind_iff.mpr rfl)
  · exact List.all_eq_true.mp (List.all_takeWhile (p := isNamePart))
  · intro d hd
    have h := List.head?_dropWhile_not isNamePart (c :: cs)
    rw [Option.mem_def.mp hd] at h
    exact h

end Words

section Operators

theorem pairwise_operators : operators.Pairwise fun op longer => longer.length ≤ op.length := by
  decide

theorem prefix_of_find? {cs : List Char} {op : String}
    (hfind : operators.find? (fun op => op.toList.isPrefixOf cs) = some op) :
    op.toList <+: cs := by
  have hmatch := List.find?_some hfind
  exact List.isPrefixOf_iff_prefix.mp hmatch

theorem exists_find? {cs : List Char} {op : String} (hop : op ∈ operators)
    (hstarts : op.toList <+: cs) :
    ∃ first, operators.find? (fun op => op.toList.isPrefixOf cs) = some first := by
  rw [← Option.isSome_iff_exists, List.find?_isSome]
  exact ⟨op, hop, List.isPrefixOf_iff_prefix.mpr hstarts⟩

theorem length_le_of_find? {cs : List Char} {op longer : String}
    (hfind : operators.find? (fun op => op.toList.isPrefixOf cs) = some op)
    (hmem : longer ∈ operators) (hlonger : longer.toList <+: cs) : longer.length ≤ op.length := by
  obtain ⟨-, before, after, hsplit, hbefore⟩ := List.find?_eq_some_iff_append.mp hfind
  have hpairwise := pairwise_operators
  rw [hsplit] at hmem hpairwise
  rcases List.mem_append.mp hmem with hmem | hmem
  · have hnot := hbefore longer hmem
    rw [List.isPrefixOf_iff_prefix.mpr hlonger] at hnot
    cases hnot
  · rcases List.mem_cons.mp hmem with rfl | hmem
    · exact Nat.le_refl _
    · exact List.rel_of_pairwise_cons (List.pairwise_append.mp hpairwise).2.1 hmem

theorem find?_operators {op : String} {rest : List Char} (hop : op ∈ operators)
    (hmax : ∀ longer ∈ operators, longer.toList <+: op.toList ++ rest →
      longer.length ≤ op.length) :
    operators.find? (fun first => first.toList.isPrefixOf (op.toList ++ rest)) = some op := by
  have hstarts : op.toList <+: op.toList ++ rest := List.prefix_append _ _
  obtain ⟨first, hfind⟩ := exists_find? hop hstarts
  rw [hfind]
  have hfirst := prefix_of_find? hfind
  have hle := hmax first (List.mem_of_find?_eq_some hfind) hfirst
  have hge := length_le_of_find? hfind hop hstarts
  -- Two operators of one length that both match are the same.
  have heq : first.toList = op.toList := by
    refine (List.prefix_of_prefix_length_le hfirst hstarts ?_).eq_of_length ?_
    · simpa [String.length_toList] using hle
    · simpa [String.length_toList] using Nat.le_antisymm hle hge
  rw [String.toList_inj.mp heq]

theorem operatorChar_start {c : Char} (hc : isOperatorChar c = true) :
    isBlank c = false ∧ c ≠ '#' ∧ isQuote c = false ∧ isDigit c = false ∧ isNameStart c = false ∧
      isMark c = false ∧ isLineBreak c = false := by
  have hmem : c ∈ ['+', '-', '*', '/', '%', '=', '&', '|', '<', '>', '!'] := by
    simpa [isOperatorChar] using hc
  have hclass : ∀ c ∈ ['+', '-', '*', '/', '%', '=', '&', '|', '<', '>', '!'],
      isBlank c = false ∧ c ≠ '#' ∧ isQuote c = false ∧ isDigit c = false ∧
        isNameStart c = false ∧ isMark c = false ∧ isLineBreak c = false :=
    forall_mem_of_all (by decide)
  exact hclass c hmem

theorem operators_chars : ∀ op ∈ operators, op.toList ≠ [] ∧ op.toList.all isOperatorChar := by
  decide

theorem singleton_mem_operators {c : Char} (hc : isOperatorChar c = true) :
    String.singleton c ∈ operators := by
  have hmem : c ∈ ['+', '-', '*', '/', '%', '=', '&', '|', '<', '>', '!'] := by
    simpa [isOperatorChar] using hc
  have hall : ∀ c ∈ ['+', '-', '*', '/', '%', '=', '&', '|', '<', '>', '!'],
      String.singleton c ∈ operators := forall_mem_of_all (by decide)
  exact hall c hmem

theorem exists_find?_operators {c : Char} (cs : List Char) (hc : isOperatorChar c = true) :
    ∃ op, operators.find? (fun op => op.toList.isPrefixOf (c :: cs)) = some op := by
  refine exists_find? (singleton_mem_operators hc) ?_
  simp

theorem isLexeme_of_find? {op : String} {cs : List Char}
    (hfind : operators.find? (fun op => op.toList.isPrefixOf cs) = some op) :
    ∃ rest, cs = op.toList ++ rest ∧ IsLexeme .operator op op.toList rest := by
  obtain ⟨rest, hrest⟩ := prefix_of_find? hfind
  refine ⟨rest, hrest.symm, .operator (List.mem_of_find?_eq_some hfind) fun longer hmem h => ?_⟩
  rw [hrest] at h
  exact length_le_of_find? hfind hmem h

end Operators

variable {kind : Token.Kind} {text : String} {l rest : List Char}

theorem IsLexeme.head (h : IsLexeme kind text l rest) :
    ∃ c cs, l = c :: cs ∧ isBlank c = false ∧ c ≠ '#' := by
  have hquoted {quote : Char} (hquote : isQuote quote = true) :
      isBlank quote = false ∧ quote ≠ '#' := by
    simp only [isQuote, Bool.or_eq_true, decide_eq_true_eq] at hquote
    rcases hquote with rfl | rfl <;> decide
  have hdigits {ds : List Char} (hne : ds ≠ []) (hds : ∀ d ∈ ds, isDigit d = true) :
      ∃ c cs, ds = c :: cs ∧ isBlank c = false ∧ c ≠ '#' := by
    obtain ⟨d, ds, rfl⟩ := List.exists_cons_of_ne_nil hne
    obtain ⟨hblank, hash, -⟩ := Spells.word_start (.inr (hds d List.mem_cons_self))
    exact ⟨d, ds, rfl, hblank, hash⟩
  cases h with
  | string hquote _ => exact ⟨_, _, rfl, hquoted hquote⟩
  | unclosed hquote _ _ => exact ⟨_, _, rfl, hquoted hquote⟩
  | whole hne hds _ => exact hdigits hne hds
  | point hne hds _ _ =>
    obtain ⟨c, cs, rfl, hc⟩ := hdigits hne hds
    exact ⟨c, _, rfl, hc⟩
  | word hc _ _ _ =>
    obtain ⟨hblank, hash, -⟩ := Spells.word_start (.inl hc)
    exact ⟨_, _, rfl, hblank, hash⟩
  | mark hc =>
    obtain ⟨hblank, hash, -⟩ := Spells.mark_start hc
    exact ⟨_, _, rfl, hblank, hash⟩
  | operator hop _ =>
    obtain ⟨hne, hall⟩ := operators_chars _ hop
    obtain ⟨c, cs, hcs⟩ := List.exists_cons_of_ne_nil hne
    rw [hcs, List.all_cons, Bool.and_eq_true] at hall
    obtain ⟨hblank, hash, -⟩ := operatorChar_start hall.1
    exact ⟨c, cs, hcs, hblank, hash⟩

theorem read_of_isLexeme (h : IsLexeme kind text l rest) {c : Char} {cs : List Char}
    (hcs : l ++ rest = c :: cs) : read false c cs = .ok ⟨kind, text, l.length⟩ := by
  have hdigits {ds more : List Char} (hne : ds ≠ []) (hds : ∀ d ∈ ds, isDigit d = true)
      (hmore : ds ++ more = c :: cs) : isQuote c = false ∧ isDigit c = true := by
    obtain ⟨d, ds, rfl⟩ := List.exists_cons_of_ne_nil hne
    obtain ⟨rfl, -⟩ := List.cons.inj hmore
    have hd := hds d List.mem_cons_self
    exact ⟨(Spells.word_start (.inr hd)).2.2, hd⟩
  cases h with
  | string hquote hbody =>
    rw [List.cons_append, List.append_assoc, List.singleton_append] at hcs
    obtain ⟨rfl, rfl⟩ := List.cons.inj hcs
    exact read_string hquote hbody rest
  | unclosed hquote hbody hpending =>
    rw [List.append_nil] at hcs
    obtain ⟨rfl, rfl⟩ := List.cons.inj hcs
    exact read_unclosed hquote hbody hpending
  | whole hne hds hend =>
    obtain ⟨hquote, hdigit⟩ := hdigits hne hds hcs
    have hnumber := Spells.numberText_digits hds hend
    rw [hcs] at hnumber
    simp [read, hquote, hdigit, hnumber]
  | point hne hds hps hend =>
    obtain ⟨hquote, hdigit⟩ := hdigits hne hds (by rw [← hcs, List.append_assoc])
    have hnumber := Spells.numberText_point hds hps hend
    rw [hcs] at hnumber
    simp [read, hquote, hdigit, hnumber]
  | @word _ d ds _ hd hds hend hkind =>
    obtain ⟨rfl, rfl⟩ := List.cons.inj hcs
    have hpart : ∀ e ∈ d :: ds, isNamePart e = true :=
      List.forall_mem_cons.mpr ⟨by simp [isNamePart, hd], hds⟩
    have htake : (d :: (ds ++ rest)).takeWhile isNamePart = d :: ds :=
      Number.takeWhile_append_stop hpart hend
    obtain ⟨-, -, hquote⟩ := Spells.word_start (.inl hd)
    rw [read, if_neg (by simp [hquote]), if_neg (by simp [Spells.isDigit_of_isNameStart hd]),
      if_pos hd]
    change Except.ok _ = _
    rw [show List.takeWhile isNamePart (d :: ds.append rest) = d :: ds from htake,
      isWordKind_iff.mp hkind]
  | mark hc =>
    obtain ⟨rfl, rfl⟩ := List.cons.inj hcs
    obtain ⟨-, -, hquote, hdigit, hstart⟩ := Spells.mark_start hc
    simp [read, hquote, hdigit, hstart, hc]
  | operator hop hmax =>
    obtain ⟨hne, hall⟩ := operators_chars _ hop
    have hfind := find?_operators hop hmax
    rw [hcs] at hfind
    have hc : isOperatorChar c = true := by
      obtain ⟨d, ds, hds⟩ := List.exists_cons_of_ne_nil hne
      rw [hds, List.all_cons, Bool.and_eq_true] at hall
      rw [hds] at hcs
      obtain ⟨rfl, -⟩ := List.cons.inj hcs
      exact hall.1
    obtain ⟨-, -, hquote, hdigit, hstart, hmark, -⟩ := operatorChar_start hc
    simp [read, hquote, hdigit, hstart, hmark, hc, hfind, String.length_toList]

theorem IsLexeme.isEof (h : IsLexeme kind text l rest) (p : Position) :
    (⟨kind, text, p⟩ : Token).isEof = false := by
  obtain ⟨c, cs, rfl, -⟩ := h.head
  exact decide_eq_false (kind_ne_endOfInput (read_of_isLexeme h List.cons_append))

theorem IsLexeme.length_lt (h : IsLexeme kind text l rest) (w : List Char) :
    rest.length < (w ++ (l ++ rest)).length := by
  obtain ⟨c, cs, rfl, -⟩ := h.head
  simp only [List.length_append, List.length_cons]
  omega

theorem read_spec (c : Char) (cs : List Char) (hblank : isBlank c = false) (hash : c ≠ '#') :
    (∃ kind text l rest, c :: cs = l ++ rest ∧ IsLexeme kind text l rest ∧
      read false c cs = .ok ⟨kind, text, l.length⟩) ∨
    (IsStray c ∧ read false c cs = .error (.unexpectedChar c)) := by
  have hfound (h : ∃ kind text l rest, c :: cs = l ++ rest ∧ IsLexeme kind text l rest) :
      ∃ kind text l rest, c :: cs = l ++ rest ∧ IsLexeme kind text l rest ∧
        read false c cs = .ok ⟨kind, text, l.length⟩ := by
    obtain ⟨kind, text, l, rest, hcs, hl⟩ := h
    exact ⟨kind, text, l, rest, hcs, hl, read_of_isLexeme hl hcs.symm⟩
  by_cases hquote : isQuote c = true
  · obtain ⟨text, l, rest, hcs, hl⟩ := exists_string hquote cs
    exact .inl (hfound ⟨_, _, _, rest, hcs, hl⟩)
  by_cases hdigit : isDigit c = true
  · obtain ⟨rest, hcs, hl⟩ := isLexeme_numberText hdigit cs
    exact .inl (hfound ⟨_, _, _, rest, hcs, hl⟩)
  by_cases hstart : isNameStart c = true
  · obtain ⟨rest, hcs, hl⟩ := isLexeme_takeWhile hstart cs
    exact .inl (hfound ⟨_, _, _, rest, hcs, hl⟩)
  by_cases hmark : isMark c = true
  · exact .inl (hfound ⟨_, _, _, cs, rfl, .mark hmark⟩)
  by_cases hop : isOperatorChar c = true
  · obtain ⟨op, hfind⟩ := exists_find?_operators cs hop
    obtain ⟨rest, hcs, hl⟩ := isLexeme_of_find? hfind
    exact .inl (hfound ⟨_, _, _, rest, hcs, hl⟩)
  rw [Bool.not_eq_true] at hquote hdigit hstart hmark hop
  exact .inr ⟨⟨hquote, hdigit, hstart, hmark, hop, hblank, hash⟩,
    by simp [read, hquote, hdigit, hstart, hmark, hop]⟩

end Lexeme

namespace Cursor
open Lexeme

variable {w l rest : List Char}

theorem skip_append (l rest : List Char) (p : Position) :
    (⟨l ++ rest, p⟩ : Cursor).skip l.length = ⟨rest, p.advance (l ++ rest) l.length⟩ := by
  simp [skip]

theorem skipTrivia_append (hw : Trivia w rest) (p : Position) :
    (⟨w ++ rest, p⟩ : Cursor).skipTrivia =
      (⟨rest, p.advance (w ++ rest) w.length⟩ : Cursor).skipTrivia := by
  rw [skipTrivia, hw.trivia_append, ← skip_skip, skip_append]
  rfl

theorem token_append (hw : Trivia w rest) (p : Position) (strict : Bool) :
    (⟨w ++ rest, p⟩ : Cursor).token strict =
      (⟨rest, p.advance (w ++ rest) w.length⟩ : Cursor).token strict := by
  rw [token, token, skipTrivia_append hw]

theorem token_nil (p : Position) (strict : Bool) :
    (⟨[], p⟩ : Cursor).token strict = (.ok (.eof p), ⟨[], p⟩) := by
  simp [token, skipTrivia, skip]

theorem token_isLexeme {kind : Token.Kind} {text : String} (hl : IsLexeme kind text l rest)
    (p : Position) : (⟨l ++ rest, p⟩ : Cursor).token false =
      (.ok ⟨kind, text, p⟩, ⟨rest, p.advance (l ++ rest) l.length⟩) := by
  obtain ⟨c, cs, rfl, hblank, hash⟩ := hl.head
  have hread := read_of_isLexeme hl List.cons_append
  have hskip := skip_append (c :: cs) rest p
  rw [List.cons_append] at hskip ⊢
  rw [token, skipTrivia_lexeme p hblank hash]
  simp only [hread, hskip]

theorem token_isStray {c : Char} (hc : IsStray c) (cs : List Char) (p : Position) :
    (⟨c :: cs, p⟩ : Cursor).token false = (.error ⟨.unexpectedChar c, p⟩, ⟨c :: cs, p⟩) := by
  have hread : Lexeme.read false c cs = .error (.unexpectedChar c) := by
    simp [Lexeme.read, hc.quote, hc.digit, hc.nameStart, hc.mark, hc.operatorChar]
  rw [token, skipTrivia_lexeme p hc.blank hc.hash]
  simp only [hread]

/-- After blanks and comments there is the end of the text, a lexeme or a stray character. -/
theorem exists_next (cs : List Char) : ∃ w rest, cs = w ++ rest ∧ Trivia w rest ∧
    (rest = [] ∨ (∃ kind text l tail, rest = l ++ tail ∧ IsLexeme kind text l tail) ∨
      ∃ c tail, rest = c :: tail ∧ IsStray c) := by
  obtain ⟨w, rest, hcs, hw, hrest⟩ := (exists_trivia cs).1
  refine ⟨w, rest, hcs, hw, ?_⟩
  cases rest with
  | nil => exact .inl rfl
  | cons c tail =>
    obtain ⟨hblank, hash⟩ := hrest c rfl
    rcases read_spec c tail hblank hash with ⟨kind, text, l, rest, hl, h, -⟩ | ⟨hc, -⟩
    · exact .inr (.inl ⟨kind, text, l, rest, hl, h⟩)
    · exact .inr (.inr ⟨c, tail, rfl, hc⟩)

end Cursor

namespace TokenStream
open Lexeme

def prepend (ts : List Token) (s : TokenStream) : TokenStream := ⟨ts ++ s.tokens, s.ending⟩

theorem collect_next {strict : Bool} {cur next : Cursor} {t : Token}
    (h : cur.token strict = (.ok t, next)) (ht : t.isEof = false) :
    collect strict [] cur = prepend [t] (collect strict [] next) := by
  rw [collect_token [] h ht, collect_before]
  rfl

theorem collect_isLexeme {w l rest : List Char} {kind : Token.Kind} {text : String}
    (hw : Trivia w (l ++ rest)) (hl : IsLexeme kind text l rest) (p : Position) :
    ∃ q q', collect false [] ⟨w ++ (l ++ rest), p⟩ =
      prepend [⟨kind, text, q⟩] (collect false [] ⟨rest, q'⟩) ∧
      q = p.advance (w ++ (l ++ rest)) w.length ∧
      q' = p.advance (w ++ (l ++ rest)) (w ++ l).length := by
  have htoken := Cursor.token_isLexeme hl (p.advance (w ++ (l ++ rest)) w.length)
  rw [← Cursor.token_append hw] at htoken
  refine ⟨_, _, ?_, rfl, rfl⟩
  rw [collect_next htoken (hl.isEof _), List.length_append, Position.advance_add, List.drop_left]

theorem advance_pieces (p : Position) (w l cs rest : List Char) :
    p.advance (w ++ (l ++ (cs ++ rest))) (w ++ (l ++ cs)).length =
      (p.advance (w ++ (l ++ (cs ++ rest))) (w ++ l).length).advance (cs ++ rest) cs.length := by
  rw [← List.append_assoc w l cs, List.length_append, Position.advance_add,
    ← List.append_assoc w l, List.drop_left]

theorem collect_segmented {cs rest : List Char} {words : List (Token.Kind × String)}
    (h : Segmented cs words rest) (p : Position) :
    ∃ ts, ts.map Token.word = words ∧ collect false [] ⟨cs ++ rest, p⟩ =
      prepend ts (collect false [] ⟨rest, p.advance (cs ++ rest) cs.length⟩) := by
  induction h generalizing p with
  | gap hw =>
    refine ⟨[], rfl, ?_⟩
    rw [collect_congr [] (Cursor.token_append hw p false)]
    rfl
  | @lexeme w l cs rest kind text words hw hl _ ih =>
    obtain ⟨q, q', hcollect, -, hq'⟩ := collect_isLexeme hw hl p
    obtain ⟨ts, hwords, hts⟩ := ih q'
    refine ⟨⟨kind, text, q⟩ :: ts, by simp [Token.word, hwords], ?_⟩
    simp only [List.append_assoc]
    rw [hcollect, hts, hq', advance_pieces]
    rfl

/-- How the lexing of a text ends: at the end of the text, all of which is cut up, or at a stray
character with all before it cut up. -/
def Ends (cs : List Char) (p : Position) (s : TokenStream) : Prop :=
  (∃ q, s.ending = .eof q ∧ Segmented cs (s.tokens.map Token.word) []) ∨
  ∃ before c rest, cs = before ++ c :: rest ∧ IsStray c ∧
    s.ending = .failed ⟨.unexpectedChar c, p.advance cs before.length⟩ ∧
    Segmented before (s.tokens.map Token.word) (c :: rest)

theorem ends_collect (cs : List Char) (p : Position) : Ends cs p (collect false [] ⟨cs, p⟩) := by
  obtain ⟨w, rest, rfl, hw, hnext⟩ := Cursor.exists_next cs
  rcases hnext with rfl | ⟨kind, text, l, tail, rfl, hl⟩ | ⟨c, tail, rfl, hc⟩
  · have htoken := Cursor.token_append hw p false
    rw [Cursor.token_nil] at htoken
    rw [collect_eof [] htoken rfl, List.append_nil]
    exact .inl ⟨_, rfl, .gap hw⟩
  · obtain ⟨q, q', hcollect, -, hq'⟩ := collect_isLexeme hw hl p
    have hshorter := hl.length_lt w
    rw [hcollect]
    rcases ends_collect tail q' with
      ⟨r, hend, hsegmented⟩ | ⟨before, c, rest, rfl, hc, hend, hsegmented⟩
    · refine .inl ⟨r, hend, .lexeme ?_ ?_ hsegmented⟩
      · rwa [List.append_nil]
      · rwa [List.append_nil]
    · refine .inr ⟨w ++ (l ++ before), c, rest, by simp, hc, ?_, .lexeme hw hl hsegmented⟩
      rw [advance_pieces, ← hq']
      exact hend
  · have htoken := Cursor.token_append hw p false
    rw [Cursor.token_isStray hc] at htoken
    rw [collect_failed [] htoken]
    exact .inr ⟨w, c, tail, rfl, hc, rfl, .gap hw⟩
termination_by cs.length

end TokenStream

/-- A text is lexed as given words exactly if it can be cut up into lexemes that stand for them.
Otherwise lexing fails, at the first character where none of the pieces can start. -/
theorem tokenize_iff_segmented (source : String) :
    (∀ words, (∃ ts, tokenize source = .ok ts ∧ ts.map Token.word = words) ↔
      Segmented source.toList words []) ∧
    ∀ e, tokenize source = .error e ↔ ∃ before words c rest,
      source.toList = before ++ c :: rest ∧ Segmented before words (c :: rest) ∧
        Lexeme.IsStray c ∧
        e = ⟨.unexpectedChar c, Position.start.advance source.toList before.length⟩ := by
  have hends := TokenStream.ends_collect source.toList .start
  have hcut {cs words rest} (h : Segmented cs words rest) (hsource : source.toList = cs ++ rest) :=
    hsource ▸ TokenStream.collect_segmented h .start
  unfold tokenize TokenStream.toExcept TokenStream.ofSource Cursor.ofSource
  refine ⟨fun words => ⟨?_, fun h => ?_⟩, fun e => ⟨?_, ?_⟩⟩
  · rintro ⟨ts, hts, rfl⟩
    rcases hends with ⟨q, hend, hsegmented⟩ | ⟨before, c, rest, -, -, hend, -⟩
    · rw [hend] at hts
      rw [← Except.ok.inj hts]
      exact hsegmented
    · rw [hend] at hts
      cases hts
  · obtain ⟨ts, hwords, hts⟩ := hcut h (List.append_nil _).symm
    rw [hts, TokenStream.collect_eof [] (Cursor.token_nil _ _) rfl]
    exact ⟨ts, by simp [TokenStream.prepend], hwords⟩
  · intro he
    rcases hends with ⟨q, hend, -⟩ | ⟨before, c, rest, hsource, hc, hend, hsegmented⟩
    · rw [hend] at he
      cases he
    · rw [hend] at he
      exact ⟨before, _, c, rest, hsource, hsegmented, hc, (Except.error.inj he).symm⟩
  · rintro ⟨before, words, c, rest, hsource, hsegmented, hc, rfl⟩
    obtain ⟨ts, -, hts⟩ := hcut hsegmented hsource
    rw [hts, TokenStream.collect_failed [] (Cursor.token_isStray hc _ _), hsource]
    rfl

end ExprLang
