import ExprLang.Proofs.Expr.Lockstep

namespace ExprLang.Parser

variable {fin : TokenStream.Ending}

theorem ne_nil_of_parsed {α : Type} {ts : List Token} (a : Parsed ts α) : ts ≠ [] :=
  List.ne_nil_of_length_pos (Nat.zero_lt_of_lt a.fewer)

section Append

variable {fin' : TokenStream.Ending} {r : Rule} {ts us rest : List Token} {test : Token → Bool}

theorem absurd_cons {t : Token} {P : Prop} (h : t :: ts = []) : P :=
  absurd h (List.cons_ne_nil t ts)

theorem Lacks.before (h : Lacks fin test ts) (more : List Token)
    (hmore : ts = [] → Lacks fin' test more) : Lacks fin' test (ts ++ more) := by
  cases ts with
  | nil => exact hmore rfl
  | cons t ts => exact h

theorem Maybe.before {word : Option Token} (h : Maybe fin test ts word us) (more : List Token)
    (hmore : us = [] → Lacks fin' test more) : Maybe fin' test (ts ++ more) word (us ++ more) := by
  cases h with
  | taken h => exact .taken h
  | absent h => exact .absent (h.before more hmore)

theorem Reads.rest_nil {x : r.Tree} (h : Reads fin r ts x rest) (hts : ts = []) : rest = [] :=
  List.subset_nil.mp (hts ▸ h.subset)

theorem Reads.ne_nil {x : r.Tree} (h : Reads fin r ts x rest) (hr : r.isExpression = true) :
    ts ≠ [] := by
  obtain ⟨t, us, rfl, -⟩ := h.first hr
  exact List.cons_ne_nil t us

theorem Reads.more_ne_nil {b : Bracket} {x : (Rule.more b r).Tree}
    (h : Reads fin (.more b r) ts x rest) : ts ≠ [] := by
  cases h <;> exact List.cons_ne_nil _ _

/-- What a rule reads, it reads in front of any tokens that do not go on with an expression,
whatever ends them. -/
theorem Reads.before {x : r.Tree} (h : Reads fin r ts x rest) (more : List Token)
    (hmore : rest = [] → Lacks fin' goesOn more) : Reads fin' r (ts ++ more) x (rest ++ more) := by
  -- What a rule has to lack it lacks in its own tokens, or else in those that follow.
  have hend {test : Token → Bool} {rest : List Token} (h : Lacks fin test rest)
      (hmore : rest = [] → Lacks fin' goesOn more) (htest : ∀ t, test t = true → goesOn t = true) :
      Lacks fin' test (rest ++ more) := h.before _ fun hnil => (hmore hnil).mono htest
  induction h with
  | expression _ hlinks hop ihleft ihlinks =>
    exact .expression (ihleft fun h => hmore (hlinks.rest_nil h)) (ihlinks hmore)
      (hend hop hmore fun _ => goesOn_of_operator)
  | links_nil => exact .links_nil
  | links_cons ht hc _ hlinks ihfirst ihlinks =>
    exact .links_cons ht hc (ihfirst fun h => hmore (hlinks.rest_nil h)) (ihlinks hmore)
  | operand _ hargs iha ihargs =>
    exact .operand (iha fun h => hmore (hargs.rest_nil h)) (ihargs hmore)
  | arguments_nil ho => exact .arguments_nil (hend ho hmore fun _ => goesOn_of_mark)
  | arguments_cons ht _ hargs ihlist ihargs =>
    exact .arguments_cons ht (ihlist fun h => hmore (hargs.rest_nil h)) (ihargs hmore)
  | number ht hx => exact .number ht hx
  | string ht => exact .string ht
  | boolean ht => exact .boolean ht
  | var ht hdot => exact .var ht (hend hdot hmore fun _ => goesOn_of_point)
  | method ht hdot hname ho _ ih => exact .method ht hdot hname ho (ih hmore)
  | group ht _ hu ih => exact .group ht (ih absurd_cons) hu
  | array ht _ ih => exact .array ht (ih hmore)
  | block ht _ ih => exact .block ht (ih hmore)
  | lambda ht hname ho _ hbody ihparams ihbody =>
    exact .lambda ht (hname.before _ absurd_cons) ho
      (ihparams fun h => absurd h (hbody.ne_nil rfl)) (ihbody hmore)
  | scope ht ho _ hbody ihlist ihbody =>
    exact .scope ht ho (ihlist fun h => absurd h (hbody.ne_nil rfl)) (ihbody hmore)
  | define ht hname heq ho =>
    exact .define ht hname (hend heq hmore fun _ => goesOn_of_equals)
      (hend ho hmore fun _ => goesOn_of_mark)
  | define_init ht hname heq _ ih => exact .define_init ht hname heq (ih hmore)
  | definition ht hname ho _ heq hnone _ ihparams ihbody =>
    exact .definition ht hname ho (ihparams absurd_cons) heq hnone (ihbody hmore)
  | loop ht hname ho _ heq hbody ihlist ihbody =>
    exact .loop ht hname ho (ihlist fun h => absurd h (hbody.ne_nil rfl))
      (heq.before _ fun h => absurd h (hbody.ne_nil rfl)) (ihbody hmore)
  | branch _ ih => exact .branch (ih hmore)
  | only_then ht _ hword he helse ihcond ihe =>
    have hne := he.ne_nil rfl
    refine .only_then ht (ihcond fun h => ?_) (hword.before _ fun h => absurd h hne) (ihe hmore)
      (hend helse hmore fun _ => goesOn_of_else)
    exact absurd (List.subset_nil.mp (h ▸ hword.subset)) hne
  | else_if ht _ hword he hels _ ihcond ihe ihchained =>
    have hne := he.ne_nil rfl
    refine .else_if ht (ihcond fun h => ?_) (hword.before _ fun h => absurd h hne)
      (ihe absurd_cons) hels (ihchained hmore)
    exact absurd (List.subset_nil.mp (h ▸ hword.subset)) hne
  | or_else ht _ hword he hels hif hother ihcond ihe ihother =>
    have hne := he.ne_nil rfl
    refine .or_else ht (ihcond fun h => ?_) (hword.before _ fun h => absurd h hne)
      (ihe absurd_cons) hels (hif.before _ fun h => absurd h (hother.ne_nil rfl))
      (ihother hmore)
    exact absurd (List.subset_nil.mp (h ▸ hword.subset)) hne
  | bare ho he ih => exact .bare (ho.before _ fun h => absurd h (he.ne_nil rfl)) (ih hmore)
  | listed ht _ ih => exact .listed ht (ih hmore)
  | binding hname heq => exact .binding hname (hend heq hmore fun _ => goesOn_of_equals)
  | binding_init hname heq _ ih => exact .binding_init hname heq (ih hmore)
  | param hname => exact .param hname
  | list_nil ht => exact .list_nil ht
  | list_cons hopen hitem hlist ihitem ihlist =>
    exact .list_cons (hopen.before _ fun h => absurd (hitem.rest_nil h) hlist.more_ne_nil)
      (ihitem fun h => absurd h hlist.more_ne_nil) (ihlist hmore)
  | more_nil ht => exact .more_nil ht
  | more_last hs ht => exact .more_last hs ht
  | more_cons hs hopen hitem hlist ihitem ihlist =>
    exact .more_cons hs (hopen.before _ fun h => absurd (hitem.rest_nil h) hlist.more_ne_nil)
      (ihitem fun h => absurd h hlist.more_ne_nil) (ihlist hmore)

section SameEnding

variable (more : List Token)

theorem Lacks.append (h : Lacks fin test ts) (hmore : ts = [] → Lacks fin test more) :
    Lacks fin test (ts ++ more) := h.before more hmore

theorem Maybe.append {word : Option Token} (h : Maybe fin test ts word us)
    (hmore : us = [] → Lacks fin test more) : Maybe fin test (ts ++ more) word (us ++ more) :=
  h.before more hmore

theorem Reads.append {x : r.Tree} (h : Reads fin r ts x rest)
    (hmore : rest = [] → Lacks fin goesOn more) : Reads fin r (ts ++ more) x (rest ++ more) :=
  h.before more hmore

end SameEnding

end Append

section Fillers

def missing : Token := ⟨.name, "x", .start⟩

def mark (c : Char) : Token := ⟨.punctuation, String.singleton c, .start⟩

def fillers : List Token := [missing, mark '(', mark ')', mark ']', mark '}']

theorem isMark_mark (c : Char) : (mark c).isMark c = true := by
  simp [mark, Token.isMark]

variable {t : Token}

theorem isMark_of_isName (h : t.isName = true) (c : Char) : t.isMark c = false := by
  simp [Token.isMark, isName_token_iff.mp h]

theorem isKeyword_of_isName (h : t.isName = true) (word : String) : t.isKeyword word = false := by
  simp [Token.isKeyword, isName_token_iff.mp h]

theorem isOperator_of_isName (h : t.isName = true) (symbol : String) :
    t.isOperator symbol = false := by
  simp [Token.isOperator, isName_token_iff.mp h]

theorem goesOn_of_isName (h : t.isName = true) : goesOn t = false := by
  simp [goesOn, isMark_of_isName h, isKeyword_of_isName h, isName_token_iff.mp h]

theorem goesOn_of_close {b : Bracket} (h : t.isMark b.close = true) : goesOn t = false := by
  obtain ⟨hkind, htext⟩ := isMark_iff.mp h
  cases b <;> simp [goesOn, Token.isMark, Token.isKeyword, hkind, htext, Bracket.close]

end Fillers

section FailsAtEnd

/-- A computation fails because the text ends. -/
def FailsAtEnd {α : Type} (r : Except ParseError α) : Prop :=
  ∃ e, r = .error e ∧ ∃ expected, e.fault = .unexpectedEnd expected

variable {α β : Type} {ts : List Token} {test : Token → Bool}

theorem not_failsAtEnd_ok (a : α) : ¬ FailsAtEnd (.ok a) := by
  rintro ⟨e, h, -⟩
  cases h

theorem FailsAtEnd.bind {r : Except ParseError α} {f : α → Except ParseError β}
    (h : FailsAtEnd (r >>= f)) : FailsAtEnd r ∨ ∃ a, r = .ok a ∧ FailsAtEnd (f a) := by
  cases r with
  | error e =>
    obtain ⟨e', he, hfault⟩ := h
    cases he
    exact .inl ⟨e, rfl, hfault⟩
  | ok a => exact .inr ⟨a, rfl, h⟩

theorem FailsAtEnd.of_last {r : Except ParseError α} {g : α → β}
    (h : FailsAtEnd (r >>= fun a => .ok (g a))) : FailsAtEnd r := by
  rcases h.bind with h | ⟨a, _, h⟩
  · exact h
  · exact absurd h (not_failsAtEnd_ok _)

theorem FailsAtEnd.of_map {r : Except ParseError α} {g : α → β} (h : FailsAtEnd (r.map g)) :
    FailsAtEnd r := by
  cases r with
  | error e =>
    obtain ⟨_, heq, hfault⟩ := h
    cases heq
    exact ⟨e, rfl, hfault⟩
  | ok a => exact absurd h (not_failsAtEnd_ok _)

theorem not_failsAtEnd_error {e : ParseError} (he : ∀ expected, e.fault ≠ .unexpectedEnd expected) :
    ¬ FailsAtEnd (.error e : Except ParseError α) := by
  rintro ⟨_, h, expected, hfault⟩
  cases h
  exact he expected hfault

theorem not_failsAtEnd_unexpected {t : Token} (ht : t.isEof = false) (expected : Expected) :
    ¬ FailsAtEnd (.error (.unexpected expected t) : Except ParseError α) :=
  not_failsAtEnd_error fun _ => by simp [ParseError.unexpected, ht]

theorem not_failsAtEnd_ofLex (e : LexError) :
    ¬ FailsAtEnd (.error (.ofLex e) : Except ParseError α) :=
  not_failsAtEnd_error (by simp [ParseError.ofLex])

theorem not_failsAtEnd_fault {e : ParseError}
    (he : ∀ expected, e.fault ≠ .unexpectedEnd expected) :
    ¬ FailsAtEnd (.error ((source fin).fault e) : Except ParseError α) :=
  not_failsAtEnd_error he

theorem not_failsAtEnd_peek : ¬ FailsAtEnd ((source fin).peek ts) := by
  cases ts with
  | cons t ts => exact not_failsAtEnd_ok _
  | nil =>
    cases fin with
    | eof p => exact not_failsAtEnd_ok _
    | failed e => exact not_failsAtEnd_ofLex e

theorem FailsAtEnd.of_look {t : Token} {f : Look List.length (t :: ts) → Except ParseError β}
    (h : FailsAtEnd ((source fin).peek (t :: ts) >>= f)) :
    FailsAtEnd (f (.next t (t :: ts) ts (Nat.le_refl _) (Nat.lt_succ_self _))) :=
  h

theorem FailsAtEnd.accept {f : Offered List.length ts → Except ParseError β}
    (h : FailsAtEnd ((source fin).accept test ts >>= f)) :
    (∃ t rest hs, ts = t :: rest ∧ test t = true ∧ FailsAtEnd (f (.taken ⟨t, rest, hs⟩))) ∨
      Lacks fin test ts ∧ ∃ hkept, FailsAtEnd (f (.kept ts hkept)) := by
  rcases h.bind with h | ⟨o, ho, h⟩
  · rcases h.bind with h | ⟨look, -, h⟩
    · exact absurd h not_failsAtEnd_peek
    · cases look <;> exact absurd h (not_failsAtEnd_ok _)
  · cases tested_of_accept ho with
    | @taken a hts htest => exact .inl ⟨a.value, a.rest, a.fewer, hts, htest, h⟩
    | kept hlacks => exact .inr ⟨hlacks, _, h⟩

theorem FailsAtEnd.accept_taken {f : Offered List.length ts → Except ParseError β}
    (h : FailsAtEnd ((source fin).accept test ts >>= f))
    (hkept : ∀ hkept, ¬ FailsAtEnd (f (.kept ts hkept))) :
    ∃ t rest hs, ts = t :: rest ∧ test t = true ∧ FailsAtEnd (f (.taken ⟨t, rest, hs⟩)) :=
  h.accept.resolve_right fun ⟨_, _, h⟩ => hkept _ h

theorem FailsAtEnd.accept_kept {f : Offered List.length ts → Except ParseError β}
    (h : FailsAtEnd ((source fin).accept test ts >>= f))
    (htaken : ∀ a, ¬ FailsAtEnd (f (.taken a))) :
    Lacks fin test ts ∧ ∃ hkept, FailsAtEnd (f (.kept ts hkept)) := by
  rcases h.accept with ⟨_, _, _, _, _, h⟩ | h
  · exact absurd h (htaken _)
  · exact h

theorem FailsAtEnd.skip {f : { us : List Token // us.length ≤ ts.length } → Except ParseError β}
    (h : FailsAtEnd ((source fin).skipIf test ts >>= f)) :
    ∃ word us hle, Maybe fin test ts word us ∧ FailsAtEnd (f ⟨us, hle⟩) := by
  rcases h.bind with h | ⟨us, hus, h⟩
  · obtain ⟨_, _, h⟩ := FailsAtEnd.accept_kept h fun _ => not_failsAtEnd_ok _
    exact absurd h (not_failsAtEnd_ok _)
  · obtain ⟨_, hword⟩ := maybe_of_skipIf hus
    exact ⟨_, us.val, us.property, hword, h⟩

def NoEnd (ts : List Token) : Prop := ∀ t ∈ ts, t.isEof = false

theorem NoEnd.tail {t : Token} (h : NoEnd (t :: ts)) : NoEnd ts :=
  fun u hu => h u (List.mem_cons_of_mem t hu)

theorem NoEnd.of_subset {us : List Token} (h : NoEnd ts) (hus : us ⊆ ts) : NoEnd us :=
  fun u hu => h u (hus hu)

theorem FailsAtEnd.expect {ex : Expected} {f : Parsed ts Token → Except ParseError β}
    (h : FailsAtEnd ((source fin).expect ex test ts >>= f)) (hts : NoEnd ts) :
    (ts = [] ∧ ∃ p, fin = .eof p) ∨
      ∃ t rest hs, ts = t :: rest ∧ test t = true ∧ FailsAtEnd (f ⟨t, rest, hs⟩) := by
  rcases h.bind with h | ⟨a, ha, h⟩
  · obtain ⟨hlacks, _, h⟩ := FailsAtEnd.accept_kept h fun _ => not_failsAtEnd_ok _
    cases ts with
    | nil => exact .inl ⟨rfl, hlacks⟩
    | cons t ts => exact absurd h (not_failsAtEnd_unexpected (hts t List.mem_cons_self) ex)
  · exact .inr ⟨a.value, a.rest, a.fewer, (expect_ok ha).1, (expect_ok ha).2, h⟩

end FailsAtEnd

section Completes

def Starts (first : Token → Bool) (ts : List Token) : Prop := ∃ t us, ts = t :: us ∧ first t = true

theorem Starts.lacks {first test : Token → Bool} {ts : List Token} (h : Starts first ts)
    (htest : ∀ t, first t = true → test t = false) : Lacks fin test ts := by
  obtain ⟨t, us, rfl, ht⟩ := h
  exact htest t ht

/-- Some tokens complete what has been read, in front of any that do not go on with an expression.
If nothing has been read yet, the first of them passes a test. -/
def Completes (fin : TokenStream.Ending) (first : Token → Bool)
    (Q : List Token → List Token → Prop) (ts : List Token) : Prop :=
  (∃ p, fin = .eof p) ∧ ∃ c, (∀ t ∈ c, t ∈ fillers) ∧
    (ts = [] → Starts first c) ∧ ∀ more, Lacks fin goesOn more → Q (ts ++ (c ++ more)) more

def Reading (fin : TokenStream.Ending) (r : Rule) (ts rest : List Token) : Prop :=
  ∃ x, Reads fin r ts x rest

/-- The items of a list are read, at least one of them. -/
def ReadingItems (fin : TokenStream.Ending) (b : Bracket) (r : Rule) (ts rest : List Token) :
    Prop :=
  ∃ x xs, Reads fin (.list b r) ts (x :: xs) rest

variable {first first' : Token → Bool} {Q Q' : List Token → List Token → Prop}
  {ts us vs : List Token}

theorem Completes.extend (h : Completes fin first Q us) {extra : List Token}
    (hextra : ∀ t ∈ extra, t ∈ fillers ∧ goesOn t = false)
    (hts : ts = [] → us = [] ∧ ∀ t, first t = true → first' t = true)
    (hQ : ∀ vs more, (us = [] → Starts first vs) → Lacks fin goesOn more →
      Q (us ++ vs) (extra ++ more) → Q' (ts ++ vs) more) :
    Completes fin first' Q' ts := by
  obtain ⟨hfin, c, hc, hfirst, hread⟩ := h
  refine ⟨hfin, c ++ extra, ?_, ?_, fun more hmore => ?_⟩
  · intro t ht
    rcases List.mem_append.mp ht with ht | ht
    · exact hc t ht
    · exact (hextra t ht).1
  · intro hnil
    obtain ⟨hus, hmono⟩ := hts hnil
    obtain ⟨t, ws, rfl, ht⟩ := hfirst hus
    exact ⟨t, ws ++ extra, rfl, hmono t ht⟩
  · have hmore' : Lacks fin goesOn (extra ++ more) := by
      cases extra with
      | nil => exact hmore
      | cons t extra => exact (hextra t List.mem_cons_self).2
    rw [List.append_assoc]
    refine hQ _ more (fun hus => ?_) hmore (hread _ hmore')
    obtain ⟨t, ws, rfl, ht⟩ := hfirst hus
    exact ⟨t, _, rfl, ht⟩

theorem Lacks.append_starts {test : Token → Bool} (h : Lacks fin test us)
    (hfirst : us = [] → Starts first vs) (htest : ∀ t, first t = true → test t = false) :
    Lacks fin test (us ++ vs) :=
  h.append vs fun hnil => (hfirst hnil).lacks htest

theorem Reads.append_starts {r : Rule} {x : r.Tree} (h : Reads fin r ts x us)
    (hfirst : us = [] → Starts first vs) (htest : ∀ t, first t = true → goesOn t = false) :
    Reads fin r (ts ++ vs) x (us ++ vs) :=
  h.append vs fun hnil => (hfirst hnil).lacks htest

theorem Completes.map (h : Completes fin first Q us)
    (hts : ts = [] → us = [] ∧ ∀ t, first t = true → first' t = true)
    (hQ : ∀ vs more, (us = [] → Starts first vs) → Lacks fin goesOn more →
      Q (us ++ vs) more → Q' (ts ++ vs) more) :
    Completes fin first' Q' ts :=
  h.extend (List.forall_mem_nil _) hts hQ

end Completes

section Missing

theorem fillers_missing : ∀ t ∈ [missing], t ∈ fillers ∧ goesOn t = false := by decide

theorem fillers_close (b : Bracket) : ∀ t ∈ [mark b.close], t ∈ fillers ∧ goesOn t = false := by
  cases b <;> decide

variable {more : List Token}

theorem reads_missing (h : Lacks fin goesOn more) :
    Reads fin .expression (missing :: more) (.chain (.applied (.var .start "x") []) []) more :=
  .expression (.operand (.var rfl (h.mono fun _ => goesOn_of_point))
    (.arguments_nil (h.mono fun _ => goesOn_of_mark))) .links_nil
    (h.mono fun _ => goesOn_of_operator)

end Missing

section Lists

variable {b : Bracket} {r : Rule} {ts : List Token}
  {more : List r.Tree → (us : List Token) → us.length < ts.length →
    Except ParseError (Parsed us (List r.Tree))}
  (hmore : ∀ before us h, NoEnd us → FailsAtEnd (more before us h) →
    Completes fin (·.isMark b.close) (Reading fin (.more b r)) us) (hts : NoEnd ts)
include hmore hts

theorem completes_moreItems
    {item : (us : List Token) → us.length < ts.length → Except ParseError (Parsed us r.Tree)}
    (hsound : ∀ us h a, item us h = .ok a → Reads fin r us a.value a.rest)
    (hitem : ∀ us h, NoEnd us → FailsAtEnd (item us h) →
      Completes fin (·.isName) (Reading fin r) us) {before : List r.Tree}
    (h : FailsAtEnd ((source fin).moreItems b.separator b.close before ts item more)) :
    Completes fin (·.isMark b.close) (Reading fin (.more b r)) ts := by
  obtain ⟨hopen, _, h⟩ := h.accept_kept fun _ => not_failsAtEnd_ok _
  rcases h.expect hts with ⟨rfl, hfin⟩ | ⟨s, rest, hs, rfl, hsep, h⟩
  · exact ⟨hfin, [mark b.close], fun t ht => (fillers_close b t ht).1,
      fun _ => ⟨_, _, rfl, isMark_mark _⟩, fun more _ => ⟨[], .more_nil (isMark_mark _)⟩⟩
  obtain ⟨hopen', _, h⟩ := h.accept_kept fun _ => not_failsAtEnd_ok _
  rcases h.bind with h | ⟨a, ha, h⟩
  · refine (hitem _ _ hts.tail h).extend (fillers_close b) absurd_cons ?_
    rintro vs more hfirst - ⟨x, hx⟩
    have hopen' := hopen'.append_starts hfirst fun t ht => isMark_of_isName ht _
    exact ⟨_, .more_cons hsep hopen' hx (.more_nil (isMark_mark _))⟩
  · have hread := hsound _ _ _ ha
    refine (hmore _ _ _ (hts.tail.of_subset hread.subset) h.of_last).map absurd_cons ?_
    rintro vs more hfirst - ⟨xs, hxs⟩
    have hopen' := hopen'.append vs fun hnil => absurd hnil (ne_nil_of_parsed a)
    have hread := hread.append_starts hfirst fun t => goesOn_of_close
    exact ⟨_, .more_cons hsep hopen' hread hxs⟩

theorem completes_items
    {item : (us : List Token) → us.length ≤ ts.length → Except ParseError (Parsed us r.Tree)}
    (hsound : ∀ us h a, item us h = .ok a → Reads fin r us a.value a.rest)
    (hitem : ∀ us h, NoEnd us → FailsAtEnd (item us h) →
      Completes fin (·.isName) (Reading fin r) us)
    (h : FailsAtEnd ((source fin).items b.close ts item more)) :
    Completes fin (·.isName) (ReadingItems fin b r) ts := by
  obtain ⟨hopen, _, h⟩ := h.accept_kept fun _ => not_failsAtEnd_ok _
  rcases h.bind with h | ⟨a, ha, h⟩
  · refine (hitem _ _ hts h).extend (fillers_close b) (fun h => ⟨h, fun _ => id⟩) ?_
    rintro vs more hfirst - ⟨x, hx⟩
    have hopen := hopen.append_starts hfirst fun t ht => isMark_of_isName ht _
    exact ⟨_, _, .list_cons hopen hx (.more_nil (isMark_mark _))⟩
  · have hread := hsound _ _ _ ha
    refine (hmore _ _ _ (hts.of_subset hread.subset) h.of_last).map
      (fun h => absurd h (ne_nil_of_parsed a)) ?_
    rintro vs more hfirst - ⟨xs, hxs⟩
    have hopen := hopen.append vs fun hnil => absurd hnil (ne_nil_of_parsed a)
    have hread := hread.append_starts hfirst fun t => goesOn_of_close
    exact ⟨_, _, .list_cons hopen hread hxs⟩

end Lists

theorem completes_paramName {ts : List Token} (hts : NoEnd ts)
    (h : FailsAtEnd ((source fin).paramName ts)) :
    Completes fin (·.isName) (Reading fin .param) ts := by
  rcases h.expect hts with ⟨rfl, hfin⟩ | ⟨_, _, _, _, _, h⟩
  · exact ⟨hfin, [missing], by decide, fun _ => ⟨_, _, rfl, rfl⟩, fun more _ => ⟨_, .param rfl⟩⟩
  · exact absurd h (not_failsAtEnd_ok _)

/-- A rule that fails because the text ends lacks only its end. -/
def Completable (fin : TokenStream.Ending) :
    (c : Call (List Token)) → Except ParseError (c.Answer List.length) → Prop
  | .expression ts, r => NoEnd ts → FailsAtEnd r →
      Completes fin (·.isName) (Reading fin .expression) ts
  | .climb _ _ ts, r => NoEnd ts → FailsAtEnd r →
      ts ≠ [] ∧ Completes fin (·.isName) (Reading fin .links) ts
  | .operand ts, r => NoEnd ts → FailsAtEnd r → Completes fin (·.isName) (Reading fin .operand) ts
  | .arguments _ ts, r => NoEnd ts → FailsAtEnd r →
      ts ≠ [] ∧ Completes fin (·.isName) (Reading fin .arguments) ts
  | .atom ts, r => NoEnd ts → FailsAtEnd r → Completes fin (·.isName) (Reading fin .atom) ts
  | .binding ts, r => NoEnd ts → FailsAtEnd r → Completes fin (·.isName) (Reading fin .binding) ts
  | .letForm p ts, r => NoEnd ts → FailsAtEnd r → ∀ t : Token, t.isKeyword "let" = true →
      t.position = p → Completes fin (·.isName) (Reading fin .atom) (t :: ts)
  | .letParams p name params ts, r => NoEnd ts → FailsAtEnd r → ∀ t u o before,
      t.isKeyword "let" = true → t.position = p → u.isName = true → u.text = name →
      o.isMark '(' = true → Reads fin (.list .round .binding) before params ts →
      Completes fin (·.isName) (Reading fin .atom) (t :: u :: o :: before)
  | .condition ts, r => NoEnd ts → FailsAtEnd r →
      Completes fin (·.isName) (Reading fin .condition) ts
  | .ifForm p ts, r => NoEnd ts → FailsAtEnd r → ∀ t : Token, t.isKeyword "if" = true →
      t.position = p → Completes fin (·.isName) (Reading fin .conditional) (t :: ts)
  | .lambdaForm p ts, r => NoEnd ts → FailsAtEnd r → ∀ t : Token, isLambdaWord t = true →
      t.position = p → Completes fin (·.isName) (Reading fin .atom) (t :: ts)
  | .lambdaRest p name ts, r => NoEnd ts → FailsAtEnd r → ∀ t us word, isLambdaWord t = true →
      t.position = p → Maybe fin (·.isName) us word ts → word.map (·.text) = name →
      Completes fin (·.isName) (Reading fin .atom) (t :: us)
  | .moreExpressions sep close _ ts, r => NoEnd ts → FailsAtEnd r → ∀ b : Bracket,
      b.separator = sep → b.close = close →
      Completes fin (·.isMark b.close) (Reading fin (.more b .expression)) ts
  | .moreBindings _ ts, r => NoEnd ts → FailsAtEnd r →
      Completes fin (·.isMark ')') (Reading fin (.more .round .binding)) ts
  | .moreNames _ ts, r => NoEnd ts → FailsAtEnd r →
      Completes fin (·.isMark ')') (Reading fin (.more .round .param)) ts
  | .statements _ ts, r => NoEnd ts → FailsAtEnd r → (∃ p, fin = .eof p) ∧
      ∃ c es, (∀ t ∈ c, t ∈ fillers) ∧ ReadsAll fin (ts ++ c) es

namespace Completable

variable {w : Nat} {ask : Callees List.length ParseError w} {ts : List Token} {p : Position}
  (hsound : ∀ d hd a, ask d hd = .ok a → Sound fin d a)
  (hask : ∀ d hd, Completable fin d (ask d hd))
include hsound hask

theorem expressions {b : Bracket} {hs} (hts : NoEnd ts)
    (h : FailsAtEnd (Rules.expressions (source fin) ask b.separator b.close ts hs)) :
    Completes fin (·.isName) (ReadingItems fin b .expression) ts :=
  completes_items (fun _ _ _ hus h => hask (.moreExpressions ..) _ hus h b rfl rfl) hts
    (fun _ _ => hsound (.expression _) _) (fun _ _ => hask (.expression _) _) h

theorem bindings {hs} (hts : NoEnd ts) (h : FailsAtEnd (Rules.bindings (source fin) ask ts hs)) :
    Completes fin (·.isName) (ReadingItems fin .round .binding) ts :=
  completes_items (b := .round) (fun _ _ _ hus h => hask (.moreBindings ..) _ hus h) hts
    (fun _ _ => hsound (.binding _) _) (fun _ _ => hask (.binding _) _) h

omit hsound in
theorem names {hs} (hts : NoEnd ts) (h : FailsAtEnd (Rules.names (source fin) ask ts hs)) :
    Completes fin (·.isName) (ReadingItems fin .round .param) ts :=
  completes_items (b := .round) (r := .param)
    (fun _ _ _ hus h => hask (.moreNames ..) _ hus h) hts
    (fun _ _ _ h => reads_param h) (fun _ _ hus h => completes_paramName hus h) h

omit hsound in
theorem binding {hs} : Completable fin (.binding ts) (Rules.binding (source fin) ask ts hs) := by
  intro hts h
  rcases h.expect hts with ⟨rfl, hfin⟩ | ⟨name, rest, hs, rfl, hname, h⟩
  · exact ⟨hfin, [missing], by decide, fun _ => ⟨_, _, rfl, rfl⟩, fun more hmore =>
      ⟨_, .binding rfl (hmore.mono fun _ => goesOn_of_equals)⟩⟩
  obtain ⟨eq, rest, hs', rfl, heq, h⟩ := h.accept_taken fun _ => not_failsAtEnd_ok _
  refine (hask (.expression _) _ hts.tail.tail h.of_last).map absurd_cons ?_
  rintro vs more - - ⟨init, hinit⟩
  exact ⟨_, .binding_init hname heq hinit⟩

theorem condition {hs} :
    Completable fin (.condition ts) (Rules.condition (source fin) ask ts hs) := by
  intro hts h
  rcases h.accept with ⟨o, rest, hs, rfl, ho, h⟩ | ⟨ho, _, h⟩
  · rcases h.bind with h | ⟨list, _, h⟩
    · refine (expressions hsound hask (b := .round) hts.tail h).map absurd_cons ?_
      rintro vs more - - ⟨e, es, hes⟩
      exact ⟨_, .listed ho hes⟩
    · dsimp only at h
      split at h
      · exact absurd h (not_failsAtEnd_fault (by simp))
      · exact absurd h (not_failsAtEnd_ok _)
  · refine (hask (.expression _) _ hts h.of_last).map (fun h => ⟨h, fun _ => id⟩) ?_
    rintro vs more hfirst - ⟨e, he⟩
    have ho := ho.append_starts hfirst fun t ht => isMark_of_isName ht _
    exact ⟨_, .bare ho he⟩

theorem ifForm {hs} : Completable fin (.ifForm p ts) (Rules.ifForm (source fin) ask p ts hs) := by
  rintro hts h t ht rfl
  rcases h.bind with h | ⟨cond, hcond, h⟩
  · refine (hask (.condition _) _ hts h).extend fillers_missing absurd_cons ?_
    rintro vs more - hmore ⟨cond, hcond⟩
    exact ⟨_, .only_then ht hcond (.absent (isKeyword_of_isName rfl "then")) (reads_missing hmore)
      (hmore.mono fun _ => goesOn_of_else)⟩
  have hcond : Reads fin .condition ts cond.value cond.rest := hsound _ _ _ hcond
  obtain ⟨word, body, hbs, hword, h⟩ := h.skip
  have hbody := (hts.of_subset hcond.subset).of_subset hword.subset
  rcases h.bind with h | ⟨e, he, h⟩
  · refine (hask (.expression _) _ hbody h).map absurd_cons ?_
    rintro vs more hfirst hmore ⟨e, he⟩
    have hcond := hcond.append vs fun hnil =>
      (hfirst (List.subset_nil.mp (hnil ▸ hword.subset))).lacks fun _ => goesOn_of_isName
    have hword := hword.append _ fun hnil =>
      (hfirst hnil).lacks fun _ ht => isKeyword_of_isName ht "then"
    exact ⟨_, .only_then ht hcond hword he (hmore.mono fun _ => goesOn_of_else)⟩
  have he : Reads fin .expression body e.value e.rest := hsound _ _ _ he
  obtain ⟨els, rest, hls, hcons, hels, h⟩ := h.accept_taken fun _ => not_failsAtEnd_ok _
  rw [hcons] at he
  have hrest := (hbody.of_subset he.subset).tail
  -- All that is read so far stands in front of `else`, so it does not depend on what follows.
  have hbegun (vs : List Token) : Reads fin .condition (ts ++ vs) cond.value (cond.rest ++ vs) ∧
      Maybe fin (·.isKeyword "then") (cond.rest ++ vs) word (body ++ vs) ∧
      Reads fin .expression (body ++ vs) e.value (els :: (rest ++ vs)) := by
    have hne : body ≠ [] := he.ne_nil rfl
    refine ⟨hcond.append _ fun hnil => ?_, hword.append _ fun hnil => absurd hnil hne,
      he.append _ absurd_cons⟩
    exact absurd (List.subset_nil.mp (hnil ▸ hword.subset)) hne
  rcases h.accept with ⟨w, rest', hws, rfl, hif, h⟩ | ⟨hif, _, h⟩
  · refine (hask (.ifForm ..) _ hrest.tail h.of_last w hif rfl).map absurd_cons ?_
    rintro vs more - - ⟨chained, hchained⟩
    obtain ⟨hcond, hword, he⟩ := hbegun vs
    exact ⟨_, .else_if ht hcond hword he hels hchained⟩
  · refine (hask (.expression _) _ hrest h.of_last).map absurd_cons ?_
    rintro vs more hfirst - ⟨other, hother⟩
    obtain ⟨hcond, hword, he⟩ := hbegun vs
    have hif := hif.append_starts hfirst fun _ ht => isKeyword_of_isName ht "if"
    exact ⟨_, .or_else ht hcond hword he hels hif hother⟩

theorem lambdaRest {name : Option String} {hs} :
    Completable fin (.lambdaRest p name ts) (Rules.lambdaRest (source fin) ask p name ts hs) := by
  rintro hts h t us word ht rfl hword rfl
  rcases h.expect hts with ⟨rfl, hfin⟩ | ⟨o, rest, hs, rfl, ho, h⟩
  · refine ⟨hfin, [mark '(', mark ')', missing], by decide, absurd_cons, fun more hmore => ?_⟩
    have hword := hword.append (mark '(' :: mark ')' :: missing :: more) fun _ => rfl
    exact ⟨_, .lambda ht hword (isMark_mark _) (.list_nil (isMark_mark _)) (reads_missing hmore)⟩
  rcases h.bind with h | ⟨params, hparams, h⟩
  · refine (names hask hts.tail h).extend fillers_missing absurd_cons ?_
    rintro vs more - hmore ⟨name₁, names, hparams⟩
    exact ⟨_, .lambda ht (hword.append _ absurd_cons) ho hparams (reads_missing hmore)⟩
  have hparams := Sound.names hsound hparams
  refine (hask (.expression _) _ (hts.tail.of_subset hparams.subset) h.of_last).map absurd_cons ?_
  rintro vs more hfirst - ⟨body, hbody⟩
  have hparams := hparams.append_starts hfirst fun _ => goesOn_of_isName
  exact ⟨_, .lambda ht (hword.append _ absurd_cons) ho hparams hbody⟩

omit hsound in
theorem lambdaForm {hs} :
    Completable fin (.lambdaForm p ts) (Rules.lambdaForm (source fin) ask p ts hs) := by
  rintro hts h t ht rfl
  rcases h.accept with ⟨name, rest, hs, rfl, hname, h⟩ | ⟨hlacks, _, h⟩
  · exact hask (.lambdaRest ..) _ hts.tail h.of_last t _ _ ht rfl (.taken hname) rfl
  · exact hask (.lambdaRest ..) _ hts h.of_last t _ _ ht rfl (.absent hlacks) rfl

omit hsound in
theorem letParams {name : String} {params : List (Binding Expr)} {hs} :
    Completable fin (.letParams p name params ts)
      (Rules.letParams (source fin) ask p name params ts hs) := by
  rintro hts h t u o before ht rfl hname rfl ho hparams
  rcases h.accept with ⟨eq, rest, hs, rfl, heq, h⟩ | ⟨heq, _, h⟩
  · dsimp only at h
    split at h
    · exact absurd h (not_failsAtEnd_fault (by simp))
    · rename_i hnone
      refine (hask (.expression _) _ hts.tail h.of_last).map absurd_cons ?_
      rintro vs more - - ⟨body, hbody⟩
      exact ⟨_, .definition ht hname ho (hparams.append _ absurd_cons) heq hnone hbody⟩
  · refine (hask (.expression _) _ hts h.of_last).map absurd_cons ?_
    rintro vs more hfirst - ⟨body, hbody⟩
    have hparams := hparams.append_starts hfirst fun _ => goesOn_of_isName
    have heq := heq.append_starts hfirst fun _ ht => isOperator_of_isName ht "="
    exact ⟨_, .loop ht hname ho hparams heq hbody⟩

theorem letForm {hs} :
    Completable fin (.letForm p ts) (Rules.letForm (source fin) ask p ts hs) := by
  rintro hts h t ht rfl
  rcases h.accept with ⟨o, rest, hs, rfl, ho, h⟩ | ⟨ho, _, h⟩
  · rcases h.bind with h | ⟨list, hlist, h⟩
    · refine (bindings hsound hask hts.tail h).extend fillers_missing absurd_cons ?_
      rintro vs more - hmore ⟨b, bs, hbs⟩
      exact ⟨_, .scope ht ho hbs (reads_missing hmore)⟩
    · have hread := Sound.bindings hsound hlist
      refine (hask (.expression _) _ (hts.tail.of_subset hread.subset) h.of_last).map absurd_cons ?_
      rintro vs more hfirst - ⟨body, hbody⟩
      have hread := hread.append_starts hfirst fun _ => goesOn_of_isName
      exact ⟨_, .scope ht ho hread hbody⟩
  rcases h.expect hts with ⟨rfl, hfin⟩ | ⟨name, rest, hs, rfl, hname, h⟩
  · exact ⟨hfin, [missing], by decide, absurd_cons, fun more hmore => ⟨_, .define ht rfl
      (hmore.mono fun _ => goesOn_of_equals) (hmore.mono fun _ => goesOn_of_mark)⟩⟩
  rcases h.accept with ⟨eq, rest, hs, rfl, heq, h⟩ | ⟨_, _, h⟩
  · refine (hask (.expression _) _ hts.tail.tail h.of_last).map absurd_cons ?_
    rintro vs more - - ⟨init, hinit⟩
    exact ⟨_, .define_init ht hname heq hinit⟩
  obtain ⟨o, rest, hs, rfl, ho, h⟩ := h.accept_taken fun _ => not_failsAtEnd_ok _
  rcases h.bind with h | ⟨params, hparams, h⟩
  · refine (bindings hsound hask hts.tail.tail h).extend fillers_missing absurd_cons ?_
    rintro vs more - hmore ⟨b, bs, hbs⟩
    exact ⟨_, .loop ht hname ho hbs (isOperator_of_isName rfl "=") (reads_missing hmore)⟩
  · have hread := Sound.bindings hsound hparams
    exact hask (.letParams ..) _ (hts.tail.tail.of_subset hread.subset) h.of_last t name o _ ht rfl
      hname rfl ho hread

section Atoms

variable {t : Token} {kept : List Token} {hafter : ts.length < (t :: ts).length} {hs}

theorem bracketed (hts : NoEnd (t :: ts)) (hkind : t.kind = .punctuation)
    (h : FailsAtEnd (Rules.bracketed (source fin) ask t (t :: ts) ts hafter hs)) :
    Completes fin (·.isName) (Reading fin .atom) (t :: ts) := by
  unfold Rules.bracketed at h
  split at h
  · rename_i htext
    have hmark : t.isMark '(' = true := isMark_iff.mpr ⟨hkind, htext⟩
    rcases h.bind with h | ⟨e, he, h⟩
    · refine (hask (.expression _) _ hts.tail h).extend (fillers_close .round) absurd_cons ?_
      rintro vs more - - ⟨e, he⟩
      exact ⟨_, .group hmark he (isMark_mark _)⟩
    · have hread : Reads fin .expression ts e.value e.rest := hsound _ _ _ he
      rcases h.expect (hts.tail.of_subset hread.subset) with ⟨hnil, hfin⟩ | ⟨_, _, _, _, _, h⟩
      · rw [hnil] at hread
        refine ⟨hfin, [mark ')'], by decide, absurd_cons, fun more _ => ?_⟩
        exact ⟨_, .group hmark (hread.append _ fun _ => goesOn_of_close (b := .round) rfl) rfl⟩
      · exact absurd h (not_failsAtEnd_ok _)
  split at h
  · rename_i htext
    refine (expressions hsound hask (b := .curly) hts.tail h.of_last).map absurd_cons ?_
    rintro vs more - - ⟨e, es, hes⟩
    exact ⟨_, .block (isMark_iff.mpr ⟨hkind, htext⟩) hes⟩
  split at h
  · rename_i htext
    refine (expressions hsound hask (b := .square) hts.tail h.of_last).map absurd_cons ?_
    rintro vs more - - ⟨e, es, hes⟩
    exact ⟨_, .array (isMark_iff.mpr ⟨hkind, htext⟩) hes⟩
  · exact absurd h (not_failsAtEnd_unexpected (hts t List.mem_cons_self) _)

omit hsound in
theorem worded (hts : NoEnd (t :: ts)) (hkind : t.kind = .keyword)
    (h : FailsAtEnd (Rules.worded (source fin) ask t (t :: ts) ts hafter hs)) :
    Completes fin (·.isName) (Reading fin .atom) (t :: ts) := by
  unfold Rules.worded at h
  split at h
  · rename_i htext
    exact hask (.letForm ..) _ hts.tail h.of_last t (isKeyword_iff.mpr ⟨hkind, htext⟩) rfl
  split at h
  · rename_i htext
    have hif := isKeyword_iff.mpr ⟨hkind, htext⟩
    refine (hask (.ifForm ..) _ hts.tail h.of_last t hif rfl).map absurd_cons ?_
    rintro vs more - - ⟨e, he⟩
    exact ⟨_, .branch he⟩
  split at h
  · rename_i hword
    exact hask (.lambdaForm ..) _ hts.tail h.of_last t hword rfl
  · exact absurd h (not_failsAtEnd_unexpected (hts t List.mem_cons_self) _)

theorem named (hts : NoEnd ts) (hname : t.isName = true)
    (h : FailsAtEnd (Rules.named (source fin) ask t ts hafter hs)) :
    Completes fin (·.isName) (Reading fin .atom) (t :: ts) := by
  obtain ⟨dot, rest, hs, rfl, hdot, h⟩ := h.accept_taken fun _ => not_failsAtEnd_ok _
  rcases h.expect hts.tail with ⟨rfl, hfin⟩ | ⟨method, rest, hs, rfl, hmethod, h⟩
  · exact ⟨hfin, [missing, mark '(', mark ')'], by decide, absurd_cons, fun more _ =>
      ⟨_, .method hname hdot rfl (isMark_mark _) (.list_nil (isMark_mark _))⟩⟩
  rcases h.expect hts.tail.tail with ⟨rfl, hfin⟩ | ⟨o, rest, hs, rfl, ho, h⟩
  · exact ⟨hfin, [mark '(', mark ')'], by decide, absurd_cons, fun more _ =>
      ⟨_, .method hname hdot hmethod (isMark_mark _) (.list_nil (isMark_mark _))⟩⟩
  have hrest := hts.tail.tail.tail
  refine (expressions hsound hask (b := .round) hrest h.of_last).map absurd_cons ?_
  rintro vs more - - ⟨e, es, hes⟩
  exact ⟨_, .method hname hdot hmethod ho hes⟩

end Atoms

theorem atom {hs} : Completable fin (.atom ts) (Rules.atom (source fin) ask ts hs) := by
  intro hts h
  cases ts with
  | nil =>
    cases fin with
    | failed e => exact absurd h (not_failsAtEnd_ofLex e)
    | eof p =>
      exact ⟨⟨p, rfl⟩, [missing], by decide, fun _ => ⟨_, _, rfl, rfl⟩, fun more hmore =>
        ⟨_, .var rfl (hmore.mono fun _ => goesOn_of_point)⟩⟩
  | cons t ts =>
    replace h := h.of_look
    -- All other atoms are one token, so they have no end to lack.
    cases hkind : t.kind with
    | punctuation =>
      simp only [hkind] at h
      exact bracketed hsound hask hts hkind h
    | keyword =>
      simp only [hkind] at h
      exact worded hask hts hkind h
    | name =>
      simp only [hkind] at h
      exact named hsound hask hts.tail (isName_token_iff.mpr hkind) h
    | boolean | string =>
      simp only [hkind] at h
      exact absurd h (not_failsAtEnd_ok _)
    | number =>
      simp only [hkind] at h
      split at h
      · exact absurd h (not_failsAtEnd_ok _)
      · exact absurd h (not_failsAtEnd_fault (by simp))
    | operator | endOfInput =>
      simp only [hkind] at h
      exact absurd h (not_failsAtEnd_unexpected (hts t List.mem_cons_self) _)

theorem arguments {callee : Expr} {hs} : Completable fin (.arguments callee ts)
    (Rules.arguments (source fin) ask callee ts hs) := by
  intro hts h
  obtain ⟨o, rest, hs, rfl, ho, h⟩ := h.accept_taken fun _ => not_failsAtEnd_ok _
  refine ⟨List.cons_ne_nil _ _, ?_⟩
  rcases h.bind with h | ⟨args, hargs, h⟩
  · refine (expressions hsound hask (b := .round) hts.tail h).map absurd_cons ?_
    rintro vs more - hmore ⟨e, es, hes⟩
    exact ⟨_, .arguments_cons ho hes (.arguments_nil (hmore.mono fun _ => goesOn_of_mark))⟩
  · have hread := Sound.expressions hsound .round hargs
    obtain ⟨hne, hcompletes⟩ :=
      hask (.arguments ..) _ (hts.tail.of_subset hread.subset) h.of_last
    refine hcompletes.map absurd_cons ?_
    rintro vs more - - ⟨as, has⟩
    exact ⟨_, .arguments_cons ho (hread.append _ fun hnil => absurd hnil hne) has⟩

theorem operand {hs} : Completable fin (.operand ts) (Rules.operand ask ts hs) := by
  intro hts h
  rcases h.bind with h | ⟨a, ha, h⟩
  · refine (hask (.atom _) _ hts h).map (fun h => ⟨h, fun _ => id⟩) ?_
    rintro vs more - hmore ⟨e, he⟩
    exact ⟨_, .operand he (.arguments_nil (hmore.mono fun _ => goesOn_of_mark))⟩
  · have hread : Reads fin .atom ts a.value a.rest := hsound _ _ _ ha
    obtain ⟨hne, hcompletes⟩ := hask (.arguments ..) _ (hts.of_subset hread.subset) h.of_last
    refine hcompletes.map (fun h => absurd h (ne_nil_of_parsed a)) ?_
    rintro vs more - - ⟨args, hargs⟩
    exact ⟨_, .operand (hread.append _ fun hnil => absurd hnil hne) hargs⟩

theorem climb {left : Expr} {bound : Nat} {hs} : Completable fin (.climb left bound ts)
    (Rules.climb (source fin) ask left bound ts hs) := by
  intro hts h
  cases ts with
  | nil =>
    cases fin with
    | failed e => exact absurd h (not_failsAtEnd_ofLex e)
    | eof p => exact absurd h (not_failsAtEnd_ok _)
  | cons t ts =>
    refine ⟨List.cons_ne_nil _ _, ?_⟩
    replace h := h.of_look
    dsimp only at h
    split at h
    · rename_i ht
      split at h
      · exact absurd h (not_failsAtEnd_fault (by simp))
      · rename_i c hc
        split at h
        · exact absurd h (not_failsAtEnd_ok _)
        · rcases h.bind with h | ⟨first, hfirst, h⟩
          · refine (hask (.operand _) _ hts.tail h).map absurd_cons ?_
            rintro vs more - - ⟨e, he⟩
            exact ⟨_, .links_cons ht hc he .links_nil⟩
          have hfirst : Reads fin .operand ts first.value first.rest := hsound _ _ _ hfirst
          have hrest := hts.tail.of_subset hfirst.subset
          rcases h.bind with h | ⟨right, hright, h⟩
          · obtain ⟨hne, hcompletes⟩ := hask (.climb ..) _ hrest h
            refine hcompletes.map absurd_cons ?_
            rintro vs more - - ⟨links, hlinks⟩
            exact ⟨_, .links_cons ht hc (hfirst.append _ fun hnil => absurd hnil hne) hlinks⟩
          · obtain ⟨inner, hinner, -, -⟩ := hsound _ _ _ hright
            obtain ⟨hne, hcompletes⟩ :=
              hask (.climb ..) _ (hrest.of_subset hinner.subset) h.of_last
            refine hcompletes.map absurd_cons ?_
            rintro vs more - - ⟨outer, houter⟩
            have hfirst := hfirst.append vs fun hnil =>
              absurd (hinner.rest_nil hnil) hne
            have hinner := hinner.append vs fun hnil => absurd hnil hne
            exact ⟨_, .links_cons ht hc hfirst (hinner.links_append houter)⟩
    · exact absurd h (not_failsAtEnd_ok _)

theorem expression {hs} : Completable fin (.expression ts) (Rules.expression ask ts hs) := by
  intro hts h
  rcases h.bind with h | ⟨first, hfirst, h⟩
  · refine (hask (.operand _) _ hts h).map (fun h => ⟨h, fun _ => id⟩) ?_
    rintro vs more - hmore ⟨e, he⟩
    exact ⟨_, .expression he .links_nil (hmore.mono fun _ => goesOn_of_operator)⟩
  have hread : Reads fin .operand ts first.value first.rest := hsound _ _ _ hfirst
  rcases h.bind with h | ⟨joined, hjoined, h⟩
  · obtain ⟨hne, hcompletes⟩ := hask (.climb ..) _ (hts.of_subset hread.subset) h
    refine hcompletes.map (fun h => absurd h (ne_nil_of_parsed first)) ?_
    rintro vs more - hmore ⟨links, hlinks⟩
    exact ⟨_, .expression (hread.append _ fun hnil => absurd hnil hne) hlinks
      (hmore.mono fun _ => goesOn_of_operator)⟩
  · have hread := Sound.joined_operand hread (hsound _ _ _ hjoined)
    -- The last operand has taken all argument lists, so none is left that could lack its end.
    obtain ⟨hne, hfin, c, -, -, hargs⟩ :=
      hask (.arguments ..) _ (hts.of_subset hread.subset) h.of_last
    obtain ⟨args, hargs⟩ := hargs [] hfin
    obtain ⟨-, hnil⟩ := hargs.arguments_eq_nil (hread.maximal.1.append _ fun h => absurd h hne)
    exact absurd (List.append_eq_nil_iff.mp hnil.symm).1 hne

theorem moreExpressions {sep close : Char} {before : List Expr} {hs} :
    Completable fin (.moreExpressions sep close before ts)
      (Rules.moreExpressions (source fin) ask sep close before ts hs) := by
  rintro hts h b rfl rfl
  exact completes_moreItems (fun _ _ _ hus h => hask (.moreExpressions ..) _ hus h b rfl rfl) hts
    (fun _ _ => hsound (.expression _) _) (fun _ _ => hask (.expression _) _) h

theorem moreBindings {before : List (Binding Expr)} {hs} :
    Completable fin (.moreBindings before ts)
      (Rules.moreBindings (source fin) ask before ts hs) := fun hts h =>
  completes_moreItems (b := .round) (fun _ _ _ hus h => hask (.moreBindings ..) _ hus h) hts
    (fun _ _ => hsound (.binding _) _) (fun _ _ => hask (.binding _) _) h

omit hsound in
theorem moreNames {before : List String} {hs} :
    Completable fin (.moreNames before ts)
      (Rules.moreNames (source fin) ask before ts hs) := fun hts h =>
  completes_moreItems (b := .round) (r := .param)
    (fun _ _ _ hus h => hask (.moreNames ..) _ hus h) hts
    (fun _ _ _ h => reads_param h) (fun _ _ hus h => completes_paramName hus h) h

theorem statements {before : List Expr} {hs} : Completable fin (.statements before ts)
    (Rules.statements (source fin) ask before ts hs) := by
  intro hts h
  cases ts with
  | nil =>
    cases fin with
    | failed e => exact absurd h (not_failsAtEnd_ofLex e)
    | eof p => exact absurd h (not_failsAtEnd_ok _)
  | cons t ts =>
    replace h := h.of_look
    rcases h.bind with h | ⟨a, ha, h⟩
    · obtain ⟨hfin, c, hc, -, hread⟩ := hask (.expression _) _ hts h
      obtain ⟨e, he⟩ := hread [] hfin
      rw [List.append_nil] at he
      exact ⟨hfin, c, [e], hc, .last he hfin⟩
    have hread : Reads fin .expression (t :: ts) a.value a.rest := hsound _ _ _ ha
    have hrest := hts.of_subset hread.subset
    rcases h.accept with ⟨s, rest, hs, hcons, hmark, h⟩ | ⟨-, _, h⟩
    · rw [hcons] at hread hrest
      obtain ⟨hfin, c, es, hc, hmore⟩ := hask (.statements ..) _ hrest.tail h
      exact ⟨hfin, c, _, hc, .cons (hread.append _ absurd_cons) hmark hmore⟩
    · rcases h.bind with h | ⟨look, hlook, h⟩
      · exact absurd h not_failsAtEnd_peek
      · obtain ⟨value, rest, hshort⟩ := a
        cases rest with
        | nil =>
          cases fin with
          | eof p =>
            cases hlook
            exact absurd h (not_failsAtEnd_ok _)
          | failed e => cases hlook
        | cons u us =>
          cases hlook
          exact absurd h (not_failsAtEnd_unexpected (hrest u List.mem_cons_self) _)

end Completable

theorem completable_step (c : Call (List Token))
    (ask : Callees List.length ParseError (c.weight List.length))
    (hsound : ∀ d hd a, ask d hd = .ok a → Sound fin d a)
    (hask : ∀ d hd, Completable fin d (ask d hd)) :
    Completable fin c (Rules.step (source fin) c ask) := by
  cases c <;> rw [Rules.step]
  case expression => exact Completable.expression hsound hask
  case climb => exact Completable.climb hsound hask
  case operand => exact Completable.operand hsound hask
  case arguments => exact Completable.arguments hsound hask
  case atom => exact Completable.atom hsound hask
  case binding => exact Completable.binding hask
  case letForm => exact Completable.letForm hsound hask
  case letParams => exact Completable.letParams hask
  case condition => exact Completable.condition hsound hask
  case ifForm => exact Completable.ifForm hsound hask
  case lambdaForm => exact Completable.lambdaForm hask
  case lambdaRest => exact Completable.lambdaRest hsound hask
  case moreExpressions => exact Completable.moreExpressions hsound hask
  case moreBindings => exact Completable.moreBindings hsound hask
  case moreNames => exact Completable.moreNames hask
  case statements => exact Completable.statements hsound hask

theorem completable (c : Call (List Token)) : Completable fin c ((source fin).answer c) := by
  refine (Source.answer_induction (source fin)
    (P := fun c r => (∀ a, r = .ok a → Sound fin c a) ∧ Completable fin c r) ?_ c).2
  intro c ask hask
  have hsound d hd := (hask d hd).1
  exact ⟨sound_step c ask hsound, completable_step c ask hsound fun d hd => (hask d hd).2⟩

/-- A program that lacks only its end is completed. -/
theorem exists_readsAll {ts : List Token} (hts : NoEnd ts)
    (h : FailsAtEnd (⟨ts, fin⟩ : TokenStream).parse) :
    (∃ p, fin = .eof p) ∧ ∃ c es, (∀ t ∈ c, t ∈ fillers) ∧ ReadsAll fin (ts ++ c) es :=
  completable (.statements [] ts) hts h.of_map

end ExprLang.Parser
