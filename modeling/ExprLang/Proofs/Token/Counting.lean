import Mathlib.Data.List.DropRight
import ExprLang.Proofs.Expr.Strict
import ExprLang.Proofs.Token.Lookahead

namespace ExprLang

namespace Position
open Lexeme (isLineBreak)

/-- The number of line breaks in a text. A carriage return and the line feed after it are one. -/
def lineBreaks : List Char → Nat
  | [] => 0
  | '\r' :: '\n' :: cs => lineBreaks cs + 1
  | c :: cs => lineBreaks cs + if isLineBreak c then 1 else 0

/-- The characters after the last line break of a text. -/
def lastLine (cs : List Char) : List Char := cs.rtakeWhile fun c => !isLineBreak c

/-- The place after a text that starts at the first line and column. -/
def after (cs : List Char) : Position := ⟨1 + lineBreaks cs, 1 + (lastLine cs).length⟩

/-- From here `n` more characters can be counted with 32 bits. -/
def Room (p : Position) (n : Nat) : Prop :=
  p.line + n < UInt32.size ∧ p.column + n < UInt32.size

theorem increment_of_lt {n : Nat} (h : n + 1 < UInt32.size) : increment n = n + 1 :=
  Nat.mod_eq_of_lt h

namespace Room

variable {p : Position} {m n : Nat}

theorem mono (h : p.Room n) (hmn : m ≤ n) : p.Room m := by
  unfold Room at *
  omega

theorem newLine (h : p.Room (n + 1)) : p.newLine.Room n := by
  obtain ⟨hline, -⟩ := h
  have hincrement : increment p.line = p.line + 1 := increment_of_lt (by omega)
  simp only [Room, Position.newLine, hincrement]
  omega

theorem step (h : p.Room (n + 1)) (c : Char) (rest : List Char) : (p.step c rest).Room n := by
  unfold Position.step
  split
  · exact h.newLine
  · split
    · split
      · exact h.mono (Nat.le_succ n)
      · exact h.newLine
    · obtain ⟨hline, hcolumn⟩ := h
      have hincrement : increment p.column = p.column + 1 := increment_of_lt (by omega)
      simp only [Room, hincrement]
      omega

theorem advance {k : Nat} {cs : List Char} (h : p.Room (k + n)) (hk : min m cs.length ≤ k) :
    (p.advance cs m).Room n := by
  induction m generalizing p cs k with
  | zero =>
    rw [advance_zero]
    exact h.mono (Nat.le_add_left n k)
  | succ m ih =>
    cases cs with
    | nil => exact h.mono (Nat.le_add_left n k)
    | cons c cs =>
      obtain ⟨k, rfl⟩ : ∃ j, k = j + 1 := by
        rw [List.length_cons] at hk
        exact ⟨k - 1, by omega⟩
      rw [Nat.succ_add] at h
      apply ih (h.step c cs)
      rw [List.length_cons] at hk
      omega

end Room

theorem room_start {n : Nat} (h : n < 2 ^ 32 - 1) : start.Room n := by
  simp only [Room, start, UInt32.size]
  omega

section Count

variable {c : Char} {cs rest : List Char}

theorem step_of_isLineBreak (p : Position) (h : isLineBreak c = true)
    (hlone : c = '\r' → rest.head? ≠ some '\n') : p.step c rest = p.newLine := by
  simp only [isLineBreak, Bool.or_eq_true, decide_eq_true_eq] at h
  rcases h with rfl | rfl
  · rfl
  · simp [step, hlone rfl]

theorem step_of_not_isLineBreak (p : Position) (h : isLineBreak c = false) (rest : List Char) :
    p.step c rest = ⟨p.line, increment p.column⟩ := by
  simp only [isLineBreak, Bool.or_eq_false_iff, decide_eq_false_iff_not] at h
  rw [step, if_neg h.1, if_neg h.2]

theorem Room.line_newLine {p : Position} {n : Nat} (h : p.Room (n + 1)) :
    p.newLine.line = p.line + 1 :=
  increment_of_lt (Nat.lt_of_le_of_lt (Nat.add_le_add_left (Nat.le_add_left 1 n) _) h.1)

theorem line_advance {p : Position} (hroom : p.Room cs.length)
    (h : cs.getLast? = some '\r' → rest.head? ≠ some '\n') :
    (p.advance (cs ++ rest) cs.length).line = p.line + lineBreaks cs := by
  fun_induction lineBreaks cs generalizing p with
  | case1 => simp
  | case2 cs ih =>
    have hlast : cs.getLast? = some '\r' → rest.head? ≠ some '\n' :=
      fun hcs => h (by simp [List.getLast?_cons, hcs])
    change (p.newLine.advance (cs ++ rest) cs.length).line = _
    rw [ih (hroom.newLine.mono (Nat.le_succ _)) hlast, hroom.line_newLine]
    omega
  | case3 c cs hc ih =>
    have hlast : cs.getLast? = some '\r' → rest.head? ≠ some '\n' :=
      fun hcs => h (by simp [List.getLast?_cons, hcs])
    change ((p.step c (cs ++ rest)).advance (cs ++ rest) cs.length).line = _
    rw [ih (hroom.step c _) hlast]
    cases hbreak : isLineBreak c with
    | false =>
      rw [step_of_not_isLineBreak p hbreak]
      rfl
    | true =>
      have hlone : c = '\r' → (cs ++ rest).head? ≠ some '\n' := by
        rintro rfl
        cases cs with
        | nil => exact h rfl
        | cons d cs =>
          intro hd
          cases hd
          exact hc _ rfl rfl
      rw [step_of_isLineBreak p hbreak hlone, hroom.line_newLine, if_pos rfl]
      omega

theorem column_advance (hroom : start.Room cs.length)
    (h : cs.getLast? = some '\r' → rest.head? ≠ some '\n') :
    (start.advance (cs ++ rest) cs.length).column = 1 + (lastLine cs).length := by
  induction cs using List.reverseRecOn generalizing rest with
  | nil => simp [lastLine, start]
  | append_singleton cs c ih =>
    have hstep (p : Position) : p.advance (c :: rest) [c].length = p.step c rest :=
      advance_zero _ rest
    rw [List.length_append, List.length_singleton] at hroom
    have hone : (start.advance (cs ++ c :: rest) cs.length).Room 1 :=
      hroom.advance (Nat.min_le_left _ _)
    rw [List.append_assoc, List.singleton_append, List.length_append, advance_add, List.drop_left,
      hstep]
    cases hbreak : isLineBreak c with
    | true =>
      have hlone : c = '\r' → rest.head? ≠ some '\n' := by
        rintro rfl
        exact h (by simp)
      rw [step_of_isLineBreak _ hbreak hlone, lastLine, List.rtakeWhile_concat_neg]
      · rfl
      · simp [hbreak]
    | false =>
      have hc : c ≠ '\n' := by
        rintro rfl
        cases hbreak
      have hnext : cs.getLast? = some '\r' → (c :: rest).head? ≠ some '\n' :=
        fun _ hd => hc (Option.some.inj hd)
      rw [step_of_not_isLineBreak _ hbreak, lastLine, List.rtakeWhile_concat_pos]
      · rw [increment_of_lt hone.2, ih (hroom.mono (Nat.le_succ _)) hnext, List.length_append]
        rfl
      · simp [hbreak]

theorem advance_start (hroom : start.Room cs.length)
    (h : cs.getLast? = some '\r' → rest.head? ≠ some '\n') :
    start.advance (cs ++ rest) cs.length = after cs := by
  rw [after, ← column_advance hroom h]
  exact congrArg (Position.mk · _) (line_advance hroom h)

end Count

section Order

variable {p q r : Position} {c : Char} {cs : List Char}

/-- Line by line, and within a line column by column. -/
instance : LE Position := ⟨fun p q => p.line < q.line ∨ p.line = q.line ∧ p.column ≤ q.column⟩

instance : LT Position := ⟨fun p q => p.line < q.line ∨ p.line = q.line ∧ p.column < q.column⟩

theorem le_iff : p ≤ q ↔ p.line < q.line ∨ p.line = q.line ∧ p.column ≤ q.column := Iff.rfl

theorem lt_iff : p < q ↔ p.line < q.line ∨ p.line = q.line ∧ p.column < q.column := Iff.rfl

theorem le_refl (p : Position) : p ≤ p := .inr ⟨rfl, Nat.le_refl _⟩

theorem le_trans (hpq : p ≤ q) (hqr : q ≤ r) : p ≤ r := by
  rw [le_iff] at *
  omega

theorem le_of_lt (h : p < q) : p ≤ q := by
  rw [lt_iff] at h
  rw [le_iff]
  omega

theorem lt_of_lt_of_le (hpq : p < q) (hqr : q ≤ r) : p < r := by
  rw [lt_iff, le_iff] at *
  omega

theorem lt_newLine {n : Nat} (h : p.Room (n + 1)) : p < p.newLine := by
  rw [lt_iff, h.line_newLine]
  exact .inl (Nat.lt_succ_self _)

theorem lt_step (hc : isLineBreak c = false) (h : p.Room 1) (rest : List Char) :
    p < p.step c rest := by
  rw [step_of_not_isLineBreak p hc, increment_of_lt h.2]
  exact .inr ⟨rfl, Nat.lt_succ_self _⟩

theorem le_step (h : p.Room 1) (c : Char) (rest : List Char) : p ≤ p.step c rest := by
  unfold step
  split
  · exact le_of_lt (lt_newLine h)
  · split
    · split
      · exact le_refl p
      · exact le_of_lt (lt_newLine h)
    · rw [increment_of_lt h.2]
      exact .inr ⟨rfl, Nat.le_succ _⟩

theorem le_advance (h : p.Room cs.length) (n : Nat) : p ≤ p.advance cs n := by
  induction n generalizing p cs with
  | zero =>
    rw [advance_zero]
    exact le_refl p
  | succ n ih =>
    cases cs with
    | nil => exact le_refl p
    | cons c cs =>
      exact le_trans (le_step (h.mono (Nat.le_add_left 1 _)) c cs) (ih (h.step c cs))

end Order

end Position

namespace Cursor
open Lexeme

variable {strict : Bool} {cur next : Cursor} {t : Token} {c : Char} {cs : List Char}

theorem not_isBlank_of_skipTrivia (h : cur.skipTrivia.rest = c :: cs) : isBlank c = false := by
  by_contra hblank
  have hagain := skipTrivia_skipTrivia cur
  rcases hcur : cur.skipTrivia with ⟨rest, p⟩
  rw [hcur] at h hagain
  cases h
  -- A blank ahead would be skipped, which leaves fewer characters.
  rw [skipTrivia_blank p (eq_true_of_ne_false hblank)] at hagain
  have hlength := congrArg (·.rest.length) hagain
  simp only [skipTrivia, length_rest_skip, List.length_cons] at hlength
  omega

/-- What is left of the text can be counted with 32 bits. -/
def Room (cur : Cursor) : Prop := cur.position.Room cur.rest.length

theorem Room.skip (h : cur.Room) (n : Nat) : (cur.skip n).Room := by
  unfold Room at *
  rw [length_rest_skip]
  have hsplit : cur.position.Room (min n cur.rest.length + (cur.rest.length - n)) :=
    h.mono (by omega)
  exact hsplit.advance (Nat.le_refl _)

theorem Room.token (h : cur.Room) (htoken : cur.token strict = (.ok t, next)) :
    cur.position ≤ t.position ∧ t.position ≤ next.position ∧ next.Room := by
  have hskip : cur.position ≤ cur.skipTrivia.position := Position.le_advance h _
  have hroom : cur.skipTrivia.Room := h.skip _
  unfold Cursor.token at htoken
  dsimp only at htoken
  split at htoken
  · cases htoken
    exact ⟨hskip, Position.le_refl _, hroom⟩
  · split at htoken
    · cases htoken
      exact ⟨hskip, Position.le_advance hroom _, hroom.skip _⟩
    · cases htoken
    · cases htoken

theorem Room.lt_of_token (h : cur.Room) (htoken : cur.token strict = (.ok t, next))
    (ht : t.isEof = false) : t.position < next.position := by
  unfold Cursor.token at htoken
  dsimp only at htoken
  split at htoken
  · cases htoken
    cases ht
  · rename_i c cs hcs
    have hbreak := not_isLineBreak_of_not_isBlank (not_isBlank_of_skipTrivia hcs)
    have hroom : cur.skipTrivia.position.Room (cs.length + 1) := by
      have hskip : cur.skipTrivia.Room := h.skip _
      rwa [Room, hcs] at hskip
    split at htoken
    · rename_i l hl
      cases htoken
      obtain ⟨n, hn⟩ := Nat.exists_eq_add_of_lt (Lexeme.length_pos_of_read hl)
      change cur.skipTrivia.position < cur.skipTrivia.position.advance cur.skipTrivia.rest l.length
      rw [hcs, hn, Nat.zero_add, Position.advance_cons_succ]
      apply Position.lt_of_lt_of_le
      · exact Position.lt_step hbreak (hroom.mono (Nat.le_add_left 1 _)) cs
      · exact Position.le_advance (hroom.step c cs) n
    · cases htoken
    · cases htoken

theorem Room.le_finish (h : cur.Room) : cur.position ≤ cur.finish := Position.le_advance h _

theorem room_ofSource {source : String} (h : source.length < 2 ^ 32 - 1) :
    (ofSource source).Room := by
  rw [← String.length_toList] at h
  exact Position.room_start h

end Cursor

namespace TokenStream
open Lexeme

theorem increasing_collect (strict : Bool) {cur : Cursor} (hroom : cur.Room) :
    (collect strict [] cur).tokens.Pairwise (·.position < ·.position) ∧
      ∀ t ∈ (collect strict [] cur).tokens,
        cur.position ≤ t.position ∧ t.position < cur.finish := by
  rcases h : cur.token strict with ⟨e | t, next⟩
  · rw [collect_failed _ h]
    exact ⟨.nil, List.forall_mem_nil _⟩
  · by_cases ht : t.isEof = true
    · rw [collect_eof _ h ht]
      exact ⟨.nil, List.forall_mem_nil _⟩
    · rw [Bool.not_eq_true] at ht
      have hshorter := Cursor.length_rest_token h ht
      have hlt := hroom.lt_of_token h ht
      obtain ⟨hcur, hnext, hroom⟩ := hroom.token h
      obtain ⟨hsorted, hall⟩ := increasing_collect strict hroom
      have hlater : ∀ u ∈ (collect strict [] next).tokens, t.position < u.position :=
        fun u hu => Position.lt_of_lt_of_le hlt (hall u hu).1
      rw [← Cursor.finish_of_token h, collect_next h ht]
      refine ⟨List.pairwise_cons.mpr ⟨hlater, hsorted⟩, List.forall_mem_cons.mpr ⟨⟨hcur, ?_⟩, ?_⟩⟩
      · exact Position.lt_of_lt_of_le hlt hroom.le_finish
      · intro u hu
        obtain ⟨hle, hfinish⟩ := hall u hu
        exact ⟨Position.le_trans hcur (Position.le_trans hnext hle), hfinish⟩
termination_by cur.rest.length

theorem segmented_of_getElem? {cs : List Char} {p : Position} {n : Nat} {t : Token}
    (h : (collect false [] ⟨cs, p⟩).tokens[n]? = some t) :
    ∃ before words l rest, cs = before ++ (l ++ rest) ∧ Segmented before words (l ++ rest) ∧
      words.length = n ∧ IsLexeme t.kind t.text l rest ∧
      t.position = p.advance cs before.length := by
  obtain ⟨w, rest, rfl, hw, rfl | ⟨kind, text, l, tail, rfl, hl⟩ | ⟨c, tail, rfl, hc⟩⟩ :=
    Cursor.exists_next cs
  · rw [List.append_nil, collect_of_trivia hw] at h
    cases h
  · obtain ⟨q, q', hcollect, hq, hq'⟩ := collect_isLexeme hw hl p
    have hshorter := hl.length_lt w
    rw [hcollect] at h
    cases n with
    | zero =>
      cases h
      exact ⟨w, [], l, tail, rfl, .gap hw, rfl, hl, hq⟩
    | succ n =>
      obtain ⟨before, words, l', rest, rfl, hsegmented, hlength, hl', hposition⟩ :=
        segmented_of_getElem? (n := n) (t := t) h
      refine ⟨w ++ (l ++ before), (kind, text) :: words, l', rest, by simp,
        .lexeme hw hl hsegmented, congrArg (· + 1) hlength, hl', ?_⟩
      rw [hposition, hq', advance_pieces]
  · rw [collect_of_isStray hw hc] at h
    cases h
termination_by cs.length

theorem tokens_prefix (source : String) (strict : Bool) :
    (ofSource source strict).tokens <+: (ofSource source false).tokens := by
  cases strict with
  | false => exact List.prefix_rfl
  | true =>
    rcases collect_strict source.toList .start with heq | ⟨_, _, _, _, -, -, -, hlax⟩
    · exact (congrArg tokens heq) ▸ List.prefix_rfl
    · exact (congrArg tokens hlax) ▸ List.prefix_append _ _

theorem ends_of_stray {source : String} {strict : Bool} {c : Char} {p : Position}
    (h : (ofSource source strict).ending = .failed ⟨.unexpectedChar c, p⟩) :
    ∃ before words rest, source.toList = before ++ c :: rest ∧
      Segmented before words (c :: rest) ∧ IsStray c ∧
      p = Position.start.advance source.toList before.length := by
  have hlax : (ofSource source false).ending = .failed ⟨.unexpectedChar c, p⟩ := by
    cases strict with
    | false => exact h
    | true =>
      rcases collect_strict source.toList .start with heq | ⟨_, _, _, _, -, -, hopen, -⟩
      · exact (congrArg ending heq) ▸ h
      · cases h.symm.trans hopen
  rcases ends_collect source.toList .start with
    ⟨q, hend, -⟩ | ⟨before, d, rest, hsource, hd, hend, hsegmented⟩
  · cases hlax.symm.trans hend
  · cases hlax.symm.trans hend
    exact ⟨before, _, rest, hsource, hsegmented, hd, rfl⟩

variable {s : TokenStream} {finish : Position} {n : Nat} {t : Token}

theorem getElem?_of_outcome (h : s.outcome finish n = .ok t) (ht : t.isEof = false) :
    s.tokens[n]? = some t := by
  unfold outcome at h
  split at h
  · rename_i hu
    cases h
    exact hu
  · cases h
    cases ht
  · cases h
  · split at h
    · cases h
    · cases h
      cases ht

theorem ending_of_outcome {c : Char} {p : Position}
    (h : s.outcome finish n = .error ⟨.unexpectedChar c, p⟩) :
    s.ending = .failed ⟨.unexpectedChar c, p⟩ := by
  unfold outcome at h
  split at h
  · cases h
  · cases h
  · rename_i hend
    cases h
    exact hend
  · split at h <;> cases h

end TokenStream

namespace Reader

/-- An answer that is a token or a fault, or the fault that a look for the end met. -/
inductive Answer.Tells : Answer → Except LexError Token → Prop
  | token (r : Except LexError Token) : Tells (.token r) r
  | ended (e : LexError) : Tells (.ended (.error e)) (.error e)

/-- All tokens and faults that reading along a sequence answers with are of the sequence. -/
theorem exists_of_mem_answers {results : Nat → Except LexError Token} {places : Nat → Position}
    {a : Answer} {r : Except LexError Token} {actions : List Action} {d : Desk Bookmark}
    (h : a ∈ (along results places).answers d actions) (hr : a.Tells r) :
    ∃ n, results n = r := by
  induction actions generalizing d with
  | nil => cases h
  | cons action actions ih =>
    rw [answers, List.mem_cons] at h
    rcases h with rfl | h
    · cases action with
      | next =>
        cases hr
        exact ⟨_, rfl⟩
      | peek =>
        cases hr
        exact ⟨_, rfl⟩
      | atEnd =>
        refine ⟨d.current.index, ?_⟩
        change Answer.Tells (.ended ((results d.current.index).map Token.isEof)) r at hr
        cases hresult : results d.current.index with
        | ok t =>
          rw [hresult] at hr
          cases hr
        | error e =>
          rw [hresult] at hr
          cases hr
          rfl
      | _ => cases hr
    · exact ih h

end Reader

namespace Lexer
open Lexeme Reader

/-- Whatever is done with the lexer of a text, it gives results of the one sequence. -/
theorem exists_results_of_mem_run {source : String} {strict : Bool} {actions : List Action}
    {a : Answer} {r : Except LexError Token}
    (h : a ∈ lexer.run (ofSource source strict) actions) (hr : a.Tells r) :
    ∃ n, results source strict n = r := by
  have hnone (i : Nat) : ((ofSource source strict).taken i).peeked = none := by
    obtain ⟨cur, htaken, -⟩ := exists_taken strict (.ofSource source) i
    exact congrArg peeked htaken
  have hrun : lexer.run (ofSource source strict) actions =
      (along (fun n => ((ofSource source strict).taken n).next.1) fun n =>
        ((ofSource source strict).taken n).position).run ⟨0, false⟩ actions :=
    (simulates_along hnone).answers ⟨.unknown 0, fun _ => .unknown 0⟩ actions
  rw [hrun] at h
  rw [results_eq]
  exact exists_of_mem_answers h hr

section Room

variable {source : String} {strict : Bool} {n : Nat} (hroom : (Cursor.ofSource source).Room)
include hroom

theorem position_lt_of_results {m : Nat} {t u : Token}
    (hmn : m < n) (ht : results source strict m = .ok t) (hlexeme : t.isEof = false)
    (hu : results source strict n = .ok u) : t.position < u.position := by
  obtain ⟨hsorted, hall⟩ := TokenStream.increasing_collect strict hroom
  have htm := TokenStream.getElem?_of_outcome ht hlexeme
  cases hkind : u.isEof with
  | false =>
    have hun := TokenStream.getElem?_of_outcome hu hkind
    obtain ⟨hm, rfl⟩ := List.getElem?_eq_some_iff.mp htm
    obtain ⟨hn, rfl⟩ := List.getElem?_eq_some_iff.mp hun
    exact List.pairwise_iff_getElem.mp hsorted m n hm hn hmn
  | true =>
    obtain ⟨cur, next, hfinish, htoken, -⟩ := exists_token_of_results hu
    rw [(Cursor.token_of_eof htoken hkind).1, hfinish]
    exact (hall t (List.mem_of_getElem? htm)).2

theorem advance_before {before rest : List Char} {c : Char}
    (hsource : source.toList = before ++ c :: rest) (hc : isBlank c = false) :
    Position.start.advance source.toList before.length = .after before := by
  have hlength : before.length ≤ source.toList.length := by
    rw [hsource, List.length_append]
    exact Nat.le_add_right _ _
  rw [hsource]
  refine Position.advance_start (Position.Room.mono hroom hlength) fun _ hnext => ?_
  cases hnext
  cases hc

theorem position_of_token {t : Token} (h : results source strict n = .ok t)
    (ht : t.isEof = false) :
    ∃ before words l rest, source.toList = before ++ (l ++ rest) ∧
      Segmented before words (l ++ rest) ∧ words.length = n ∧ IsLexeme t.kind t.text l rest ∧
      t.position = .after before := by
  have hstrict := TokenStream.getElem?_of_outcome h ht
  obtain ⟨more, hmore⟩ := TokenStream.tokens_prefix source strict
  have hget : (TokenStream.ofSource source false).tokens[n]? = some t := by
    rw [← hmore, List.getElem?_append_left (List.getElem?_eq_some_iff.mp hstrict).1]
    exact hstrict
  obtain ⟨before, words, l, rest, hsource, hsegmented, hlength, hl, hposition⟩ :=
    TokenStream.segmented_of_getElem? hget
  refine ⟨before, words, l, rest, hsource, hsegmented, hlength, hl, ?_⟩
  obtain ⟨c, cs, rfl, hblank, -⟩ := hl.head
  rw [hposition]
  exact advance_before hroom hsource hblank

theorem position_of_eof {t : Token} (h : results source strict n = .ok t)
    (ht : t.isEof = true) : t = .eof (.after source.toList) := by
  obtain ⟨cur, next, hfinish, htoken, -⟩ := exists_token_of_results h
  have hplace : Position.start.advance (source.toList ++ []) source.toList.length =
      .after source.toList := Position.advance_start hroom fun _ => by simp
  rw [List.append_nil] at hplace
  rw [(Cursor.token_of_eof htoken ht).1, hfinish, ← hplace]
  rfl

theorem position_of_stray {c : Char} {p : Position}
    (h : results source strict n = .error ⟨.unexpectedChar c, p⟩) :
    ∃ before words rest, source.toList = before ++ c :: rest ∧
      Segmented before words (c :: rest) ∧ IsStray c ∧ p = .after before := by
  obtain ⟨before, words, rest, hsource, hsegmented, hc, hp⟩ :=
    TokenStream.ends_of_stray (TokenStream.ending_of_outcome h)
  refine ⟨before, words, rest, hsource, hsegmented, hc, ?_⟩
  rw [hp]
  exact advance_before hroom hsource hc.blank

end Room

/-- Places are right. In a text whose characters can be counted with 32 bits no count on the way
wraps around. Each token is at the place that the line breaks and characters in front of it come
to, and so are the end mark and a stray character; tokens stand one behind the other. This goes for
all that the lexer is ever heard to say. -/
theorem places_counted (source : String) (strict : Bool) (h : source.length < 2 ^ 32 - 1) :
    (∀ n, (Position.start.advance source.toList n).line < 2 ^ 32 ∧
      (Position.start.advance source.toList n).column < 2 ^ 32 ∧
      (n < source.length → (Position.start.advance source.toList n).line + 1 < 2 ^ 32 ∧
        (Position.start.advance source.toList n).column + 1 < 2 ^ 32)) ∧
    (∀ n t, ((ofSource source strict).taken n).next.1 = .ok t → t.isEof = false →
      ∃ before words l rest, source.toList = before ++ (l ++ rest) ∧
        Segmented before words (l ++ rest) ∧ words.length = n ∧ IsLexeme t.kind t.text l rest ∧
        t.position = .after before) ∧
    (∀ n t, ((ofSource source strict).taken n).next.1 = .ok t → t.isEof = true →
      t = .eof (.after source.toList)) ∧
    (∀ n c p, ((ofSource source strict).taken n).next.1 = .error ⟨.unexpectedChar c, p⟩ →
      ∃ before words rest, source.toList = before ++ c :: rest ∧
        Segmented before words (c :: rest) ∧ IsStray c ∧ p = .after before) ∧
    (∀ m n t u, m < n → ((ofSource source strict).taken m).next.1 = .ok t → t.isEof = false →
      ((ofSource source strict).taken n).next.1 = .ok u → t.position < u.position) ∧
    ∀ actions a r, a ∈ lexer.run (ofSource source strict) actions → a.Tells r →
      ∃ n, ((ofSource source strict).taken n).next.1 = r := by
  have hresults (n : Nat) : ((ofSource source strict).taken n).next.1 = results source strict n :=
    (congrFun (results_eq source strict) n).symm
  simp only [hresults]
  have hroom := Cursor.room_ofSource h
  refine ⟨fun n => ⟨?_, ?_, fun hn => ?_⟩, fun n t => position_of_token hroom,
    fun n t => position_of_eof hroom, fun n c p => position_of_stray hroom,
    fun m n t u => position_lt_of_results hroom, fun actions a r => exists_results_of_mem_run⟩
  · exact ((Cursor.Room.skip hroom n).mono (Nat.zero_le _)).1
  · exact ((Cursor.Room.skip hroom n).mono (Nat.zero_le _)).2
  · have hsplit : Position.start.Room (n + 1) := by
      rw [← String.length_toList] at hn
      exact Position.Room.mono hroom hn
    exact hsplit.advance (Nat.min_le_left _ _)

/-- All kinds of line breaks: after a name, in a string, at the end of a comment and at the end. -/
theorem places_counted_breaks :
    (∃ before words l rest, "a\r\n'x\ny' # c\rλ\r".toList = before ++ (l ++ rest) ∧
      Segmented before words (l ++ rest) ∧ words.length = 2 ∧ IsLexeme .keyword "λ" l rest ∧
      (⟨4, 1⟩ : Position) = .after before) ∧
    Token.eof ⟨5, 1⟩ = .eof (.after "a\r\n'x\ny' # c\rλ\r".toList) ∧
    (⟨2, 1⟩ : Position) < ⟨4, 1⟩ := by
  have hresults (n : Nat) (r : Except LexError Token)
      (h : results "a\r\n'x\ny' # c\rλ\r" false n = r) :
      ((ofSource "a\r\n'x\ny' # c\rλ\r" false).taken n).next.1 = r :=
    (congrFun (results_eq _ _) n).symm.trans h
  have hstring := hresults 1 (.ok ⟨.string, "x\ny", ⟨2, 1⟩⟩) (by decide +kernel)
  have hword := hresults 2 (.ok ⟨.keyword, "λ", ⟨4, 1⟩⟩) (by decide +kernel)
  have hend := hresults 3 (.ok (.eof ⟨5, 1⟩)) (by decide +kernel)
  have hplaces := places_counted "a\r\n'x\ny' # c\rλ\r" false (by decide)
  exact ⟨hplaces.2.1 2 _ hword rfl, hplaces.2.2.1 3 _ hend rfl,
    hplaces.2.2.2.2.1 1 2 _ _ (by decide) hstring rfl hword⟩

end Lexer

end ExprLang
