import ExprLang.Proofs.Token.Segmentation
import ExprLang.Token.Lexer

namespace ExprLang

theorem Position.advance_of_length_le (p : Position) {cs : List Char} {n : Nat}
    (h : cs.length ≤ n) : p.advance cs n = p.advance cs cs.length := by
  have hn : n = cs.length + (n - cs.length) := by omega
  rw [hn, advance_add, List.drop_length, advance_nil]

namespace Cursor
open Lexeme

variable {strict : Bool} {cur next : Cursor} {r : Except LexError Token} {t : Token}

def finish (cur : Cursor) : Position := cur.position.advance cur.rest cur.rest.length

theorem finish_skip (cur : Cursor) (n : Nat) : (cur.skip n).finish = cur.finish := by
  have hadd : (cur.skip n).finish = cur.position.advance cur.rest (n + (cur.rest.length - n)) := by
    rw [Position.advance_add, ← List.length_drop]
    rfl
  rw [hadd, finish]
  by_cases hn : n ≤ cur.rest.length
  · rw [Nat.add_sub_of_le hn]
  · exact cur.position.advance_of_length_le (by omega)

theorem finish_skipTrivia (cur : Cursor) : cur.skipTrivia.finish = cur.finish := finish_skip cur _

theorem finish_of_nil (h : cur.rest = []) : cur.finish = cur.position := by
  rw [finish, h, Position.advance_nil]

theorem skipTrivia_skipTrivia (cur : Cursor) : cur.skipTrivia.skipTrivia = cur.skipTrivia := by
  obtain ⟨cs, p⟩ := cur
  obtain ⟨w, rest, rfl, hw, hrest⟩ := (exists_trivia cs).1
  have hstop (q : Position) : (⟨rest, q⟩ : Cursor).skipTrivia = ⟨rest, q⟩ := by
    cases rest with
    | nil => simp [skipTrivia, skip]
    | cons c tail => exact skipTrivia_lexeme q (hrest c rfl).1 (hrest c rfl).2
  rw [skipTrivia_append hw, hstop, hstop]

theorem token_skipTrivia (cur : Cursor) (strict : Bool) :
    cur.skipTrivia.token strict = cur.token strict := by
  rw [token, token, skipTrivia_skipTrivia]

/-- All that reading a token can come to, and where it leaves the cursor. -/
inductive Yields (cur : Cursor) : Except LexError Token → Cursor → Prop
  | eof (h : cur.skipTrivia.rest = []) : Yields cur (.ok (.eof cur.finish)) cur.skipTrivia
  | lexeme {t : Token} (n : Nat) (h : t.isEof = false) :
      Yields cur (.ok t) (cur.skipTrivia.skip n)
  | stray (c : Char) (p : Position) : Yields cur (.error ⟨.unexpectedChar c, p⟩) cur.skipTrivia
  | unclosed (p : Position) : Yields cur (.error ⟨.unterminatedString, p⟩)
      (cur.skipTrivia.skip cur.skipTrivia.rest.length)

theorem yields_of_token (h : cur.token strict = (r, next)) : Yields cur r next := by
  unfold token at h
  dsimp only at h
  split at h
  · next hnil =>
    cases h
    rw [← finish_of_nil hnil, finish_skipTrivia]
    exact .eof hnil
  · split at h
    · next l hl =>
      cases h
      exact .lexeme l.length (decide_eq_false (kind_ne_endOfInput hl))
    · cases h
      exact .unclosed _
    · cases h
      exact .stray _ _

theorem finish_of_token (h : cur.token strict = (r, next)) : next.finish = cur.finish := by
  cases yields_of_token h with
  | eof _ => exact finish_skipTrivia cur
  | lexeme n _ => rw [finish_skip, finish_skipTrivia]
  | stray _ _ => exact finish_skipTrivia cur
  | unclosed _ => rw [finish_skip, finish_skipTrivia]

theorem token_of_eof (h : cur.token strict = (.ok t, next)) (ht : t.isEof = true) :
    t = .eof cur.finish ∧ next.token strict = (.ok t, next) := by
  have hagain := token_skipTrivia cur strict
  rw [h] at hagain
  cases yields_of_token h with
  | eof _ => exact ⟨rfl, hagain⟩
  | lexeme _ hlexeme =>
    rw [hlexeme] at ht
    cases ht

theorem token_of_stray {c : Char} {p : Position}
    (h : cur.token strict = (.error ⟨.unexpectedChar c, p⟩, next)) :
    next.token strict = (.error ⟨.unexpectedChar c, p⟩, next) := by
  have hagain := token_skipTrivia cur strict
  rw [h] at hagain
  cases yields_of_token h with
  | stray _ _ => exact hagain

theorem token_of_unclosed {p : Position}
    (h : cur.token strict = (.error ⟨.unterminatedString, p⟩, next)) :
    next.token strict = (.ok (.eof cur.finish), next) := by
  have hfinish := finish_of_token h
  have hnil : next.rest = [] := by
    cases yields_of_token h with
    | unclosed _ => exact List.drop_length
  obtain ⟨rest, q⟩ := next
  cases hnil
  rw [← hfinish, finish_of_nil rfl, token_nil]

end Cursor

namespace TokenStream

/-- What is there after `n` results have been passed, in a text that ends at `finish`: a token, the
end mark for ever, a stray character for ever, or an unclosed string once and then the end mark. -/
def outcome (s : TokenStream) (finish : Position) (n : Nat) : Except LexError Token :=
  match s.tokens[n]?, s.ending with
  | some t, _ => .ok t
  | none, .eof p => .ok (.eof p)
  | none, .failed ⟨.unexpectedChar c, p⟩ => .error ⟨.unexpectedChar c, p⟩
  | none, .failed ⟨.unterminatedString, p⟩ =>
    if n = s.tokens.length then .error ⟨.unterminatedString, p⟩ else .ok (.eof finish)

theorem outcome_prepend_succ (t : Token) (s : TokenStream) (finish : Position) (n : Nat) :
    (prepend [t] s).outcome finish (n + 1) = s.outcome finish n := by
  simp [outcome, prepend]

end TokenStream

namespace Lexer

/-- The lexer after `n` tokens have been taken from it, one after the other. -/
def taken (lx : Lexer) : Nat → Lexer
  | 0 => lx
  | n + 1 => lx.next.2.taken n

theorem taken_add (lx : Lexer) (m n : Nat) : lx.taken (m + n) = (lx.taken m).taken n := by
  induction m generalizing lx with
  | zero => rw [Nat.zero_add, taken]
  | succ m ih => rw [Nat.succ_add, taken, taken, ih]

theorem taken_succ (lx : Lexer) (n : Nat) : lx.taken (n + 1) = (lx.taken n).next.2 :=
  taken_add lx n 1

theorem next_taken_of_still {lx lx' : Lexer} {n k : Nat} {r r' : Except LexError Token}
    (h : (lx.taken n).next = (r, lx')) (hstill : lx'.next = (r', lx')) (hk : n < k) :
    (lx.taken k).next.1 = r' := by
  have htaken (j : Nat) : lx'.taken j = lx' := by
    induction j with
    | zero => rfl
    | succ j ih => rw [taken_succ, ih, hstill]
  obtain ⟨j, rfl⟩ : ∃ j, k = n + 1 + j := ⟨k - (n + 1), by omega⟩
  rw [taken_add, taken_succ, h, htaken, hstill]

theorem next_of_token {strict : Bool} {cur next : Cursor} {r : Except LexError Token}
    (h : cur.token strict = (r, next)) :
    (⟨cur, none, strict⟩ : Lexer).next = (r, ⟨next, none, strict⟩) := by
  simp only [Lexer.next, h]

theorem exists_taken (strict : Bool) (cur : Cursor) (n : Nat) :
    ∃ cur', (⟨cur, none, strict⟩ : Lexer).taken n = ⟨cur', none, strict⟩ ∧
      cur'.finish = cur.finish := by
  induction n generalizing cur with
  | zero => exact ⟨cur, rfl, rfl⟩
  | succ n ih =>
    rcases htoken : cur.token strict with ⟨r, next⟩
    obtain ⟨cur', htaken, hfinish⟩ := ih next
    refine ⟨cur', ?_, hfinish.trans (Cursor.finish_of_token htoken)⟩
    rw [taken, next_of_token htoken, htaken]

theorem next_taken (strict : Bool) (cur : Cursor) (n : Nat) :
    ((⟨cur, none, strict⟩ : Lexer).taken n).next.1 =
      (TokenStream.collect strict [] cur).outcome cur.finish n := by
  rcases htoken : cur.token strict with ⟨r, next⟩
  have hnext := next_of_token htoken
  have hstill {r' : Except LexError Token} (h : next.token strict = (r', next)) (n : Nat) :
      ((⟨cur, none, strict⟩ : Lexer).taken (n + 1)).next.1 = r' :=
    next_taken_of_still (n := 0) hnext (next_of_token h) (Nat.succ_pos n)
  cases r with
  | error e =>
    rw [TokenStream.collect_failed [] htoken]
    obtain ⟨c | _, p⟩ := e
    · cases n with
      | zero => exact congrArg Prod.fst hnext
      | succ n => exact hstill (Cursor.token_of_stray htoken) n
    · cases n with
      | zero => exact congrArg Prod.fst hnext
      | succ n => exact hstill (Cursor.token_of_unclosed htoken) n
  | ok t =>
    cases ht : t.isEof with
    | true =>
      obtain ⟨rfl, hagain⟩ := Cursor.token_of_eof htoken ht
      rw [TokenStream.collect_eof [] htoken ht]
      cases n with
      | zero => exact congrArg Prod.fst hnext
      | succ n => exact hstill hagain n
    | false =>
      rw [TokenStream.collect_next htoken ht]
      cases n with
      | zero => exact congrArg Prod.fst hnext
      | succ n =>
        rw [TokenStream.outcome_prepend_succ, ← Cursor.finish_of_token htoken, taken, hnext]
        exact next_taken strict next n

end Lexer

/-- Something that tokens can be taken from, with a look at the next one. -/
structure Reader (σ : Type) where
  next : σ → Except LexError Token × σ
  peek : σ → Except LexError Token × σ
  atEnd : σ → Except LexError Bool × σ
  position : σ → Position

namespace Reader

/-- What can be done with a reader. Copies of it are kept under numbers. -/
inductive Action where
  | next
  | peek
  | atEnd
  | position
  | copy (i : Nat)
  | restore (i : Nat)
deriving DecidableEq, Repr

inductive Answer where
  | token (result : Except LexError Token)
  | ended (result : Except LexError Bool)
  | place (p : Position)
  | done

/-- A reader in use and the copies of it. -/
structure Desk (σ : Type) where
  current : σ
  copies : Nat → σ

variable {σ τ : Type}

def act (r : Reader σ) (d : Desk σ) : Action → Answer × Desk σ
  | .next => (.token (r.next d.current).1, ⟨(r.next d.current).2, d.copies⟩)
  | .peek => (.token (r.peek d.current).1, ⟨(r.peek d.current).2, d.copies⟩)
  | .atEnd => (.ended (r.atEnd d.current).1, ⟨(r.atEnd d.current).2, d.copies⟩)
  | .position => (.place (r.position d.current), d)
  | .copy i => (.done, ⟨d.current, fun j => if j = i then d.current else d.copies j⟩)
  | .restore i => (.done, ⟨d.copies i, d.copies⟩)

/-- What a reader answers when one thing after another is done with it. -/
def answers (r : Reader σ) (d : Desk σ) : List Action → List Answer
  | [] => []
  | a :: actions => (r.act d a).1 :: r.answers (r.act d a).2 actions

/-- The answers from a state that all copies are of at first. -/
def run (r : Reader σ) (start : σ) (actions : List Action) : List Answer :=
  r.answers ⟨start, fun _ => start⟩ actions

/-- Related states of two readers answer the same and stay related. -/
structure Simulates (r : Reader σ) (r' : Reader τ) (R : σ → τ → Prop) : Prop where
  next {a : σ} {b : τ} : R a b → (r.next a).1 = (r'.next b).1 ∧ R (r.next a).2 (r'.next b).2
  peek {a : σ} {b : τ} : R a b → (r.peek a).1 = (r'.peek b).1 ∧ R (r.peek a).2 (r'.peek b).2
  atEnd {a : σ} {b : τ} : R a b → (r.atEnd a).1 = (r'.atEnd b).1 ∧ R (r.atEnd a).2 (r'.atEnd b).2
  position {a : σ} {b : τ} : R a b → r.position a = r'.position b

/-- Two desks with related readers and related copies. -/
structure Desk.Related (R : σ → τ → Prop) (d : Desk σ) (d' : Desk τ) : Prop where
  current : R d.current d'.current
  copies : ∀ i, R (d.copies i) (d'.copies i)

section Simulation

variable {r : Reader σ} {r' : Reader τ} {R : σ → τ → Prop} {d : Desk σ} {d' : Desk τ}

theorem Simulates.act (h : Simulates r r' R) (hd : d.Related R d') (a : Action) :
    (r.act d a).1 = (r'.act d' a).1 ∧ (r.act d a).2.Related R (r'.act d' a).2 := by
  obtain ⟨hcurrent, hcopies⟩ := hd
  cases a with
  | next =>
    obtain ⟨hanswer, hafter⟩ := h.next hcurrent
    exact ⟨congrArg _ hanswer, hafter, hcopies⟩
  | peek =>
    obtain ⟨hanswer, hafter⟩ := h.peek hcurrent
    exact ⟨congrArg _ hanswer, hafter, hcopies⟩
  | atEnd =>
    obtain ⟨hanswer, hafter⟩ := h.atEnd hcurrent
    exact ⟨congrArg _ hanswer, hafter, hcopies⟩
  | position => exact ⟨congrArg _ (h.position hcurrent), hcurrent, hcopies⟩
  | copy i =>
    refine ⟨rfl, hcurrent, fun j => ?_⟩
    by_cases hj : j = i
    · simpa only [Reader.act, if_pos hj] using hcurrent
    · simpa only [Reader.act, if_neg hj] using hcopies j
  | restore i => exact ⟨rfl, hcopies i, hcopies⟩

theorem Simulates.answers (h : Simulates r r' R) (hd : d.Related R d') (actions : List Action) :
    r.answers d actions = r'.answers d' actions := by
  induction actions generalizing d d' with
  | nil => rfl
  | cons a actions ih =>
    obtain ⟨hanswer, hafter⟩ := h.act hd a
    rw [Reader.answers, Reader.answers, hanswer, ih hafter]

end Simulation

def lexer : Reader Lexer := ⟨Lexer.next, Lexer.peek, Lexer.atEnd, Lexer.position⟩

/-- A place in a sequence of results: how many have been passed, and whether the next one is
known. -/
structure Bookmark where
  index : Nat
  known : Bool

/-- A look at a result. A token stays the next result, a fault is passed. -/
def Bookmark.look (b : Bookmark) : Except LexError Token → Bookmark
  | .ok _ => ⟨b.index, true⟩
  | .error _ => ⟨b.index + 1, false⟩

/-- Reading along a sequence of results. The place of the next token is only known after a look at
it; otherwise it is that of the character after what has been passed. -/
def along (results : Nat → Except LexError Token) (places : Nat → Position) : Reader Bookmark where
  next b := (results b.index, ⟨b.index + 1, false⟩)
  peek b := (results b.index, b.look (results b.index))
  atEnd b := ((results b.index).map Token.isEof, b.look (results b.index))
  position b :=
    match b.known, results b.index with
    | true, .ok t => t.position
    | _, _ => places b.index

end Reader

namespace Lexer
open Reader

/-- A lexer that some tokens have been taken from, perhaps with the next one kept. -/
inductive MarkedBy (lx₀ : Lexer) : Lexer → Bookmark → Prop
  | unknown (i : Nat) : MarkedBy lx₀ (lx₀.taken i) ⟨i, false⟩
  | known {i : Nat} {t : Token} (h : (lx₀.taken i).next.1 = .ok t) :
      MarkedBy lx₀ { lx₀.taken (i + 1) with peeked := some t } ⟨i, true⟩

theorem next_of_markedBy {lx₀ lx : Lexer} {b : Bookmark} (h₀ : ∀ i, (lx₀.taken i).peeked = none)
    (h : MarkedBy lx₀ lx b) : lx.next = ((lx₀.taken b.index).next.1, lx₀.taken (b.index + 1)) := by
  cases h with
  | unknown i => rw [taken_succ]
  | @known i t ht =>
    -- Without the token that was kept, the lexer is as it was after it had been read.
    have hnone := h₀ (i + 1)
    rw [ht]
    generalize lx₀.taken (i + 1) = after at hnone
    obtain ⟨cursor, peeked, strict⟩ := after
    cases hnone
    rfl

theorem peek_of_markedBy {lx₀ lx : Lexer} {b : Bookmark} (h₀ : ∀ i, (lx₀.taken i).peeked = none)
    (h : MarkedBy lx₀ lx b) : lx.peek.1 = (lx₀.taken b.index).next.1 ∧
      MarkedBy lx₀ lx.peek.2 (b.look (lx₀.taken b.index).next.1) := by
  have hnext := next_of_markedBy h₀ h
  rw [peek, hnext]
  cases hresult : (lx₀.taken b.index).next.1 with
  | ok t => exact ⟨rfl, .known hresult⟩
  | error e => exact ⟨rfl, .unknown (b.index + 1)⟩

/-- A lexer with nothing kept reads along what it gives when only tokens are taken from it. -/
theorem simulates_along {lx₀ : Lexer} (h₀ : ∀ i, (lx₀.taken i).peeked = none) :
    Simulates lexer (along (fun n => (lx₀.taken n).next.1) fun n => (lx₀.taken n).position)
      (MarkedBy lx₀) where
  next h := by
    have hnext := next_of_markedBy h₀ h
    refine ⟨(congrArg Prod.fst hnext :), ?_⟩
    have hafter : (lexer.next _).2 = _ := congrArg Prod.snd hnext
    rw [hafter]
    exact .unknown _
  peek h := peek_of_markedBy h₀ h
  atEnd h := by
    obtain ⟨hanswer, hafter⟩ := peek_of_markedBy h₀ h
    exact ⟨congrArg (·.map Token.isEof) hanswer, hafter⟩
  position h := by
    cases h with
    | unknown i => rfl
    | known ht =>
      simp only [along, ht]
      rfl

/-- What a text gives, one result after another, when nothing but tokens is taken. -/
def results (source : String) (strict : Bool) : Nat → Except LexError Token :=
  (TokenStream.ofSource source strict).outcome (Cursor.ofSource source).finish

theorem results_eq (source : String) (strict : Bool) :
    results source strict = fun n => ((ofSource source strict).taken n).next.1 :=
  funext fun n => (next_taken strict (.ofSource source) n).symm

/-- Each result is what reading a token comes to at some cursor before the same end. If reading
stands still after that, all later results are known. -/
theorem exists_token_of_results {source : String} {strict : Bool} {n : Nat}
    {r : Except LexError Token} (h : results source strict n = r) :
    ∃ cur next : Cursor, cur.finish = (Cursor.ofSource source).finish ∧
      cur.token strict = (r, next) ∧
      ∀ r', next.token strict = (r', next) → ∀ k, n < k → results source strict k = r' := by
  obtain ⟨cur, htaken, hfinish⟩ := exists_taken strict (.ofSource source) n
  rcases htoken : cur.token strict with ⟨r₁, next⟩
  have hnext : ((ofSource source strict).taken n).next = (r₁, ⟨next, none, strict⟩) :=
    (congrArg Lexer.next htaken).trans (next_of_token htoken)
  rw [results_eq] at h ⊢
  have hr : r₁ = r := (congrArg Prod.fst hnext).symm.trans h
  subst hr
  exact ⟨cur, next, hfinish, htoken, fun r' hstill k hk =>
    next_taken_of_still hnext (next_of_token hstill) hk⟩

/-- Looking ahead is invisible. Whatever is done with the lexer of a text, the answers are those of
reading along the results that there are when nothing but tokens is taken: the next token is what a
look shows, the text is at its end exactly if that is the end mark, and going back to a copy is
going back in the results. The end mark, which is at the place where the text ends, and a stray
character are all that follows them; after an unclosed string only the end mark follows. -/
theorem lookahead_invisible (source : String) (strict : Bool) :
    (∀ n, ((ofSource source strict).taken n).next.1 = results source strict n) ∧
    (∀ actions, lexer.run (ofSource source strict) actions =
      (along (results source strict) fun n => ((ofSource source strict).taken n).position).run
        ⟨0, false⟩ actions) ∧
    (∀ n t, results source strict n = .ok t → t.isEof = true →
      ∀ k, n ≤ k → results source strict k = .ok (.eof (Cursor.ofSource source).finish)) ∧
    (∀ n c p, results source strict n = .error ⟨.unexpectedChar c, p⟩ →
      ∀ k, n ≤ k → results source strict k = .error ⟨.unexpectedChar c, p⟩) ∧
    ∀ n p, results source strict n = .error ⟨.unterminatedString, p⟩ →
      ∀ k, n < k → results source strict k = .ok (.eof (Cursor.ofSource source).finish) := by
  refine ⟨fun n => by rw [results_eq], fun actions => ?_, ?_, ?_, ?_⟩
  · have hnone (i : Nat) : ((ofSource source strict).taken i).peeked = none := by
      obtain ⟨cur, htaken, -⟩ := exists_taken strict (.ofSource source) i
      exact congrArg peeked htaken
    rw [results_eq]
    exact (simulates_along hnone).answers ⟨.unknown 0, fun _ => .unknown 0⟩ actions
  · intro n t ht heof k hk
    obtain ⟨cur, next, hfinish, htoken, hlater⟩ := exists_token_of_results ht
    obtain ⟨hmark, hstill⟩ := Cursor.token_of_eof htoken heof
    rw [hfinish] at hmark
    subst hmark
    rcases Nat.eq_or_lt_of_le hk with rfl | hk
    · exact ht
    · exact hlater _ hstill k hk
  · intro n c p hstray k hk
    obtain ⟨cur, next, -, htoken, hlater⟩ := exists_token_of_results hstray
    rcases Nat.eq_or_lt_of_le hk with rfl | hk
    · exact hstray
    · exact hlater _ (Cursor.token_of_stray htoken) k hk
  · intro n p hopen k hk
    obtain ⟨cur, next, hfinish, htoken, hlater⟩ := exists_token_of_results hopen
    rw [← hfinish]
    exact hlater _ (Cursor.token_of_unclosed htoken) k hk

/-- The end of a text, a stray character, and an unclosed string that is first met by a look. -/
theorem lookahead_invisible_faults :
    (results "f # x" false 1 = .ok (.eof ⟨1, 6⟩) ∧ results "f # x" false 7 = .ok (.eof ⟨1, 6⟩)) ∧
    (results "f $" true 1 = .error ⟨.unexpectedChar '$', ⟨1, 3⟩⟩ ∧
      results "f $" true 7 = .error ⟨.unexpectedChar '$', ⟨1, 3⟩⟩) ∧
    (results "f 'x" true 1 = .error ⟨.unterminatedString, ⟨1, 3⟩⟩ ∧
      results "f 'x" true 7 = .ok (.eof ⟨1, 5⟩)) ∧
    lexer.run (ofSource "f 'x" true) [.copy 0, .peek, .next, .peek, .next, .restore 0, .atEnd] =
      [.done, .token (.ok ⟨.name, "f", ⟨1, 1⟩⟩), .token (.ok ⟨.name, "f", ⟨1, 1⟩⟩),
        .token (.error ⟨.unterminatedString, ⟨1, 3⟩⟩), .token (.ok (.eof ⟨1, 5⟩)), .done,
        .ended (.ok false)] := by
  have heof : results "f # x" false 1 = .ok (.eof ⟨1, 6⟩) := by decide +kernel
  have hstray : results "f $" true 1 = .error ⟨.unexpectedChar '$', ⟨1, 3⟩⟩ := by decide +kernel
  have hopen : results "f 'x" true 1 = .error ⟨.unterminatedString, ⟨1, 3⟩⟩ := by decide +kernel
  refine ⟨⟨heof, ?_⟩, ⟨hstray, ?_⟩, ⟨hopen, ?_⟩, ?_⟩
  · exact (lookahead_invisible _ _).2.2.1 1 _ heof rfl 7 (by decide)
  · exact (lookahead_invisible _ _).2.2.2.1 1 _ _ hstray 7 (by decide)
  · exact (lookahead_invisible _ _).2.2.2.2 1 _ hopen 7 (by decide)
  · rw [(lookahead_invisible _ _).2.1]
    with_unfolding_all rfl

end Lexer

end ExprLang
