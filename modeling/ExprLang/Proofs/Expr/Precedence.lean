import ExprLang.Proofs.Expr.Completion

namespace ExprLang

theorem Connective.rightBound_le_precedence (c : Connective) : c.rightBound ≤ c.precedence := by
  cases c with
  | assign => exact Nat.zero_le _
  | binary op => exact Nat.le_refl _

/-- The operators that may stand to the left of `c` under it: no assignment, and none that binds
less tightly. -/
def Under (c : Connective) (before : List Link) : Prop :=
  ∀ l ∈ before, l.1 ≠ .assign ∧ c.precedence ≤ l.1.precedence

namespace Under

variable {c d : Connective} {first : Expr} {before : List Link}

theorem tail {l : Link} (h : Under c (l :: before)) : Under c before :=
  fun m hm => h m (List.mem_cons_of_mem _ hm)

theorem le_rightBound (h : Under c ((d, first) :: before)) : c.precedence ≤ d.rightBound := by
  obtain ⟨hassign, hle⟩ := h _ List.mem_cons_self
  cases d with
  | assign => exact absurd rfl hassign
  | binary op => exact hle

end Under

/-- A place where links fall apart. -/
structure Cut (links : List Link) where
  before : List Link
  connective : Connective
  first : Expr
  after : List Link
  whole : links = before ++ (connective, first) :: after

namespace Cut

variable {l : Link} {links : List Link}

def head (l : Link) (links : List Link) : Cut (l :: links) := ⟨[], l.1, l.2, links, rfl⟩

/-- The same place with one more link in front. -/
def shift (l : Link) (cut : Cut links) : Cut (l :: links) :=
  ⟨l :: cut.before, cut.connective, cut.first, cut.after, congrArg (l :: ·) cut.whole⟩

theorem length_before_lt (cut : Cut links) : cut.before.length < links.length := by
  have h := congrArg List.length cut.whole
  rw [List.length_append, List.length_cons] at h
  omega

theorem length_after_lt (cut : Cut links) : cut.after.length < links.length := by
  have h := congrArg List.length cut.whole
  rw [List.length_append, List.length_cons] at h
  omega

def assignment? : (links : List Link) → Option (Cut links)
  | [] => none
  | l :: links =>
    if l.1 = .assign then some (head l links) else (assignment? links).map (shift l)

/-- At the last of the operators that bind least tightly. -/
def weakest? : (links : List Link) → Option (Cut links)
  | [] => none
  | l :: links =>
    match weakest? links with
    | none => some (head l links)
    | some cut =>
      some (if l.1.precedence < cut.connective.precedence then head l links else cut.shift l)

theorem assignment?_eq_none (h : assignment? links = none) : ∀ l ∈ links, l.1 ≠ .assign := by
  induction links with
  | nil => simp
  | cons l links ih =>
    by_cases hl : l.1 = .assign
    · simp [assignment?, hl] at h
    · rw [assignment?, if_neg hl, Option.map_eq_none_iff] at h
      exact List.forall_mem_cons.mpr ⟨hl, ih h⟩

theorem assignment?_eq_some {cut : Cut links} (h : assignment? links = some cut) :
    cut.connective = .assign ∧ ∀ l ∈ cut.before, l.1 ≠ .assign := by
  induction links with
  | nil => cases h
  | cons l links ih =>
    by_cases hl : l.1 = .assign
    · rw [assignment?, if_pos hl] at h
      cases h
      exact ⟨hl, by simp [head]⟩
    · rw [assignment?, if_neg hl] at h
      obtain ⟨cut, hcut, rfl⟩ := Option.map_eq_some_iff.mp h
      exact ⟨(ih hcut).1, List.forall_mem_cons.mpr ⟨hl, (ih hcut).2⟩⟩

theorem weakest?_eq_none (h : weakest? links = none) : links = [] := by
  cases links with
  | nil => rfl
  | cons l links =>
    rw [weakest?] at h
    split at h <;> cases h

theorem weakest?_eq_some {cut : Cut links} (h : weakest? links = some cut) :
    (∀ l ∈ cut.before, cut.connective.precedence ≤ l.1.precedence) ∧
      ∀ l ∈ cut.after, cut.connective.precedence < l.1.precedence := by
  induction links with
  | nil => cases h
  | cons l links ih =>
    rw [weakest?] at h
    split at h
    · rename_i hnone
      cases h
      obtain rfl := weakest?_eq_none hnone
      simp [head]
    · rename_i later hlater
      obtain ⟨hbefore, hafter⟩ := ih hlater
      cases h
      split
      · rename_i hlt
        -- The head binds less tightly than the cut after it, so than every link there.
        refine ⟨by simp [head], fun m hm => ?_⟩
        change m ∈ links at hm
        rw [later.whole, List.mem_append, List.mem_cons] at hm
        rcases hm with hm | rfl | hm
        · exact Nat.lt_of_lt_of_le hlt (hbefore m hm)
        · exact hlt
        · exact Nat.lt_trans hlt (hafter m hm)
      · rename_i hle
        exact ⟨List.forall_mem_cons.mpr ⟨Nat.not_lt.mp hle, hbefore⟩, hafter⟩

def root? (links : List Link) : Option (Cut links) := (assignment? links).or (weakest? links)

theorem root?_eq_none (h : root? links = none) : links = [] :=
  weakest?_eq_none (Option.or_eq_none_iff.mp h).2

theorem root?_eq_some {cut : Cut links} (h : root? links = some cut) :
    Under cut.connective cut.before ∧
      ∀ l ∈ cut.after, cut.connective.rightBound < l.1.precedence := by
  rcases Option.or_eq_some_iff.mp h with h | ⟨hnone, h⟩
  · obtain ⟨hc, hbefore⟩ := assignment?_eq_some h
    rw [hc]
    exact ⟨fun l hl => ⟨hbefore l hl, l.1.precedence_pos⟩, fun l _ => l.1.precedence_pos⟩
  · obtain ⟨hbefore, hafter⟩ := weakest?_eq_some h
    have hassign : ∀ l ∈ cut.before, l.1 ≠ .assign := fun l hl =>
      assignment?_eq_none hnone l (cut.whole ▸ List.mem_append_left _ hl)
    exact ⟨fun l hl => ⟨hassign l hl, hbefore l hl⟩, fun l hl =>
      Nat.lt_of_le_of_lt cut.connective.rightBound_le_precedence (hafter l hl)⟩

end Cut

namespace Expr

/-- The tree of a chain by where it falls apart. -/
def divided (left : Expr) (links : List Link) : Expr :=
  match Cut.root? links with
  | none => left
  | some cut => join cut.connective (divided left cut.before) (divided cut.first cut.after)
termination_by links.length
decreasing_by
  · exact cut.length_before_lt
  · exact cut.length_after_lt

section Climb

variable {c : Connective} {first : Expr} {before after : List Link}

theorem untaken_suffix (left : Expr) (bound : Nat) (links : List Link) :
    untaken left bound links <:+ links := by
  match links with
  | [] => exact ⟨[], untaken_nil left⟩
  | (c, first) :: more =>
    by_cases h : c.precedence ≤ bound
    · exact ⟨[], untaken_stop _ _ _ h⟩
    · have hmore := length_untaken_le first c.rightBound more
      rw [untaken_join _ _ _ (Nat.lt_of_not_le h)]
      exact (untaken_suffix _ bound _).trans
        ((untaken_suffix first c.rightBound more).trans (List.suffix_cons _ _))
termination_by links.length
decreasing_by all_goals (simp only [List.length_cons]; omega)

theorem untaken_eq_nil {left : Expr} {bound : Nat} {links : List Link}
    (h : ∀ l ∈ links, bound < l.1.precedence) : untaken left bound links = [] := by
  match links with
  | [] => rw [untaken_nil]
  | (c, first) :: more =>
    have hmore := length_untaken_le first c.rightBound more
    rw [untaken_join _ _ _ (h _ List.mem_cons_self)]
    exact untaken_eq_nil fun l hl =>
      h l (List.mem_cons_of_mem _ ((untaken_suffix first c.rightBound more).subset hl))
termination_by links.length
decreasing_by simp only [List.length_cons]; omega

theorem taken_eq_chain {left : Expr} {bound : Nat} {links : List Link}
    (h : ∀ l ∈ links, bound < l.1.precedence) : taken left bound links = chain left links := by
  match links with
  | [] => rw [taken_nil, chain_nil]
  | (c, first) :: more =>
    have hmore := length_untaken_le first c.rightBound more
    rw [taken_join _ _ _ (h _ List.mem_cons_self), chain, taken_join _ _ _ c.precedence_pos]
    exact taken_eq_chain fun l hl =>
      h l (List.mem_cons_of_mem _ ((untaken_suffix first c.rightBound more).subset hl))
termination_by links.length
decreasing_by simp only [List.length_cons]; omega

theorem under_untaken (h : Under c before) (left : Expr) (bound : Nat) :
    Under c (untaken left bound before) :=
  fun l hl => h l ((untaken_suffix left bound before).subset hl)

theorem climb_append_stop {left : Expr} {bound : Nat} {before : List Link}
    (hbefore : Under c before) (hc : c.precedence ≤ bound) :
    taken left bound (before ++ (c, first) :: after) = taken left bound before ∧
      untaken left bound (before ++ (c, first) :: after) =
        untaken left bound before ++ (c, first) :: after := by
  match before with
  | [] =>
    rw [List.nil_append, taken_stop _ _ _ hc, untaken_stop _ _ _ hc, taken_nil, untaken_nil,
      List.nil_append]
    exact ⟨rfl, rfl⟩
  | (d, g) :: more =>
    rw [List.cons_append]
    by_cases hd : d.precedence ≤ bound
    · simp only [taken_stop _ _ _ hd, untaken_stop _ _ _ hd, List.cons_append, and_self]
    · have hd := Nat.lt_of_not_le hd
      have hmore := length_untaken_le g d.rightBound more
      obtain ⟨hright, hrest⟩ :=
        climb_append_stop hbefore.tail hbefore.le_rightBound
      rw [taken_join _ _ _ hd, untaken_join _ _ _ hd, taken_join _ _ _ hd, untaken_join _ _ _ hd,
        hright, hrest]
      exact climb_append_stop (under_untaken hbefore.tail g d.rightBound) hc
termination_by before.length
decreasing_by all_goals (simp only [List.length_cons]; omega)

/-- A climb that goes past `c` has by then taken in all that stands to the left of it. -/
theorem taken_append {left : Expr} {bound : Nat} {before : List Link}
    (hbefore : Under c before) (hc : bound < c.precedence) :
    taken left bound (before ++ (c, first) :: after) =
      taken (taken left bound before) bound ((c, first) :: after) := by
  match before with
  | [] => rw [List.nil_append, taken_nil]
  | (d, g) :: more =>
    have hd := Nat.lt_of_lt_of_le hc (hbefore _ List.mem_cons_self).2
    have hmore := length_untaken_le g d.rightBound more
    obtain ⟨hright, hrest⟩ := climb_append_stop hbefore.tail hbefore.le_rightBound
    rw [List.cons_append, taken_join _ _ _ hd, taken_join _ _ more hd, hright, hrest]
    exact taken_append (under_untaken hbefore.tail g d.rightBound) hc
termination_by before.length
decreasing_by simp only [List.length_cons]; omega

/-- What is to the left of an operator and what is to the right of it are its two sides, if nothing
on the left binds less tightly and nothing on the right has to wait for it. -/
theorem chain_append {left : Expr} (hbefore : Under c before)
    (hafter : ∀ l ∈ after, c.rightBound < l.1.precedence) :
    chain left (before ++ (c, first) :: after) =
      join c (chain left before) (chain first after) := by
  calc chain left (before ++ (c, first) :: after)
      = taken (chain left before) 0 ((c, first) :: after) := taken_append hbefore c.precedence_pos
    _ = taken (join c (chain left before) (taken first c.rightBound after)) 0
          (untaken first c.rightBound after) := taken_join _ _ _ c.precedence_pos
    _ = join c (chain left before) (chain first after) := by
        rw [untaken_eq_nil hafter, taken_nil, taken_eq_chain hafter]

end Climb

/-- The climb builds the tree that the division says. -/
theorem chain_eq_divided (left : Expr) (links : List Link) :
    left.chain links = left.divided links := by
  rw [divided]
  cases hroot : Cut.root? links with
  | none =>
    obtain rfl := Cut.root?_eq_none hroot
    exact chain_nil left
  | some cut =>
    obtain ⟨hbefore, hafter⟩ := Cut.root?_eq_some hroot
    have hlt := cut.length_before_lt
    have hlt' := cut.length_after_lt
    calc left.chain links
        = left.chain (cut.before ++ (cut.connective, cut.first) :: cut.after) :=
          congrArg left.chain cut.whole
      _ = join cut.connective (left.chain cut.before) (cut.first.chain cut.after) :=
          chain_append hbefore hafter
      _ = join cut.connective (left.divided cut.before) (cut.first.divided cut.after) := by
          rw [chain_eq_divided left cut.before, chain_eq_divided cut.first cut.after]
termination_by links.length

end Expr

namespace Parser

/-- Whether a form that starts with a token has no end of its own: it goes on as long as its last
part does. -/
def startsOpen (t : Token) : Bool := t.isKeyword "let" || t.isKeyword "if" || isLambdaWord t

def IsOperand (ts : List Token) (e : Expr) : Prop :=
  ∃ p, Yields ((source (.eof p)).answer (.operand ts)) e []

/-- The tokens are operands with operators between them; only the last one may be of a form without
an end. -/
inductive IsChain : List Token → Expr → List Link → Prop
  | last {ts e} (h : IsOperand ts e) : IsChain ts e []
  | cons {ts t us left c first links} (h : IsOperand ts left)
      (hclosed : ∀ s ∈ ts.head?, startsOpen s = false) (ht : t.kind = .operator)
      (hc : Connective.ofSymbol? t.text = some c) (hmore : IsChain us first links) :
      IsChain (ts ++ t :: us) left ((c, first) :: links)

/-- What ends a chain: the end of the text, or a mark after an expression. -/
def EndsChain (fin : TokenStream.Ending) : List Token → Prop
  | [] => ∃ p, fin = .eof p
  | t :: _ => ∃ c ∈ [';', ',', ')', ']', '}'], t.isMark c = true

variable {fin fin' : TokenStream.Ending} {ts us rest : List Token} {e left : Expr}
  {links : List Link}

theorem EndsChain.lacks (h : EndsChain fin rest) : Lacks fin goesOn rest := by
  cases rest with
  | nil => exact h
  | cons t rest =>
    obtain ⟨c, hc, ht⟩ := h
    obtain ⟨hkind, htext⟩ := isMark_iff.mp ht
    have hmarks : [';', ',', ')', ']', '}'].all (fun c =>
        String.singleton c ≠ "." ∧ String.singleton c ≠ "(") = true := by decide
    obtain ⟨hpoint, hround⟩ := of_decide_eq_true (List.all_eq_true.mp hmarks c hc)
    have hpoint' : t.isMark '.' = false := by
      rw [← Bool.not_eq_true, isMark_iff, htext]
      exact fun h => hpoint h.2
    have hround' : t.isMark '(' = false := by
      rw [← Bool.not_eq_true, isMark_iff, htext]
      exact fun h => hround h.2
    simp [Lacks, goesOn, hpoint', hround', Token.isKeyword, hkind]

theorem reads_of_isOperand (h : IsOperand ts e) : ∃ p, Reads (.eof p) .operand ts e [] := by
  obtain ⟨p, hlt, h⟩ := h
  exact ⟨p, sound h⟩

theorem Reads.more_before {b : Bracket} {item : Rule} {x : (Rule.more b item).Tree}
    (h : Reads fin (.more b item) ts x rest) (us : List Token) :
    Reads fin' (.more b item) (ts ++ us) x (rest ++ us) := by
  induction x generalizing ts with
  | nil =>
    cases h with
    | more_nil ht => exact .more_nil ht
    | more_last hs ht => exact .more_last hs ht
  | cons y ys ih =>
    cases h with
    | more_cons hs hopen hitem hmore =>
      exact .more_cons hs (hopen.before us fun h => absurd (hitem.rest_nil h) hmore.more_ne_nil)
        (hitem.before us fun h => absurd h hmore.more_ne_nil) (ih hmore)

theorem Reads.list_before {b : Bracket} {item : Rule} {x : (Rule.list b item).Tree}
    (h : Reads fin (.list b item) ts x rest) (us : List Token) :
    Reads fin' (.list b item) (ts ++ us) x (rest ++ us) := by
  cases h with
  | list_nil ht => exact .list_nil ht
  | list_cons hopen hitem hmore =>
    exact .list_cons (hopen.before us fun h => absurd (hitem.rest_nil h) hmore.more_ne_nil)
      (hitem.before us fun h => absurd h hmore.more_ne_nil) (hmore.more_before us)

theorem Reads.arguments_before {args : List (List Expr)} (h : Reads fin .arguments ts args rest)
    (us : List Token) (hround : rest = [] → Lacks fin' (·.isMark '(') us) :
    Reads fin' .arguments (ts ++ us) args (rest ++ us) := by
  induction args generalizing ts with
  | nil =>
    cases h with
    | arguments_nil hend => exact .arguments_nil (hend.before us hround)
  | cons as args ih =>
    cases h with
    | arguments_cons ht hlist hmore =>
      exact .arguments_cons ht (hlist.list_before us) (ih hmore)

/-- Among the atoms with an end of their own only a name looks at what follows, whether it is the
point of a method call. -/
theorem Reads.atom_before (h : Reads fin .atom ts e rest)
    (hclosed : ∀ t ∈ ts.head?, startsOpen t = false) (us : List Token)
    (hpoint : rest = [] → Lacks fin' (·.isMark '.') us) :
    Reads fin' .atom (ts ++ us) e (rest ++ us) := by
  have hopen {t : Token} {ts : List Token} {P : Prop} (ht : startsOpen t = true)
      (hclosed : ∀ s ∈ (t :: ts).head?, startsOpen s = false) : P :=
    absurd (hclosed t rfl) (by simp [ht])
  cases h with
  | number ht hx => exact .number ht hx
  | string ht => exact .string ht
  | boolean ht => exact .boolean ht
  | var ht hdot => exact .var ht (hdot.before us hpoint)
  | method ht hdot hname ho hargs => exact .method ht hdot hname ho (hargs.list_before us)
  | group ht he hu => exact .group ht (he.before us absurd_cons) hu
  | array ht hitems => exact .array ht (hitems.list_before us)
  | block ht hitems => exact .block ht (hitems.list_before us)
  | lambda ht => exact hopen (by simp [startsOpen, ht]) hclosed
  | scope ht => exact hopen (by simp [startsOpen, ht]) hclosed
  | define ht => exact hopen (by simp [startsOpen, ht]) hclosed
  | define_init ht => exact hopen (by simp [startsOpen, ht]) hclosed
  | definition ht => exact hopen (by simp [startsOpen, ht]) hclosed
  | loop ht => exact hopen (by simp [startsOpen, ht]) hclosed
  | branch he =>
    cases he with
    | only_then ht => exact hopen (by simp [startsOpen, ht]) hclosed
    | else_if ht => exact hopen (by simp [startsOpen, ht]) hclosed
    | or_else ht => exact hopen (by simp [startsOpen, ht]) hclosed

theorem Reads.operand_before_operator {t : Token} (h : Reads fin .operand ts e [])
    (hclosed : ∀ s ∈ ts.head?, startsOpen s = false) (ht : t.kind = .operator) (us : List Token) :
    Reads fin' .operand (ts ++ t :: us) e (t :: us) := by
  have hmark (c : Char) : Lacks fin' (·.isMark c) (t :: us) := by simp [Lacks, Token.isMark, ht]
  cases h with
  | operand ha hargs =>
    exact .operand (ha.atom_before hclosed _ fun _ => hmark '.')
      (hargs.arguments_before _ fun _ => hmark '(')

theorem IsChain.reads (h : IsChain ts left links) (hrest : Lacks fin goesOn rest) :
    ∃ us, Reads fin .operand (ts ++ rest) left us ∧ Reads fin .links us links rest := by
  induction h with
  | last h =>
    obtain ⟨p, h⟩ := reads_of_isOperand h
    exact ⟨rest, h.before rest fun _ => hrest, .links_nil⟩
  | @cons ts t us left c first links h hclosed ht hc _ ih =>
    obtain ⟨p, h⟩ := reads_of_isOperand h
    obtain ⟨vs, hfirst, hmore⟩ := ih
    rw [List.append_assoc, List.cons_append]
    exact ⟨_, h.operand_before_operator hclosed ht _, .links_cons ht hc hfirst hmore⟩

/-- The parser takes a chain as a whole and makes of it the tree that the division says. -/
theorem expression_of_isChain (h : IsChain ts left links) (hrest : EndsChain fin rest) :
    Yields ((source fin).answer (.expression (ts ++ rest))) (left.divided links) rest := by
  obtain ⟨us, hleft, hlinks⟩ := h.reads hrest.lacks
  rw [← Expr.chain_eq_divided]
  exact parses_of_reads (.expression hleft hlinks (hrest.lacks.mono fun _ => goesOn_of_operator))

theorem isOperand_name (p : Position) (name : String) :
    IsOperand [⟨.name, name, p⟩] (.var p name) :=
  have hend (test : Token → Bool) : Lacks (.eof .start) test [] := ⟨_, rfl⟩
  ⟨_, parses_of_reads (.operand (.var rfl (hend _)) (.arguments_nil (hend _)))⟩

/-- In `x = a - b * c - d;` the assignment divides first, then the last of the operators `-`. -/
theorem expression_of_isChain_mixed :
    Yields ((source (.eof ⟨1, 19⟩)).answer (.expression
        [⟨.name, "x", ⟨1, 1⟩⟩, ⟨.operator, "=", ⟨1, 3⟩⟩, ⟨.name, "a", ⟨1, 5⟩⟩,
          ⟨.operator, "-", ⟨1, 7⟩⟩, ⟨.name, "b", ⟨1, 9⟩⟩, ⟨.operator, "*", ⟨1, 11⟩⟩,
          ⟨.name, "c", ⟨1, 13⟩⟩, ⟨.operator, "-", ⟨1, 15⟩⟩, ⟨.name, "d", ⟨1, 17⟩⟩,
          ⟨.punctuation, ";", ⟨1, 18⟩⟩]))
      (.assign ⟨1, 1⟩ (.var ⟨1, 1⟩ "x")
        (.binary ⟨1, 5⟩ .subtract
          (.binary ⟨1, 5⟩ .subtract (.var ⟨1, 5⟩ "a")
            (.binary ⟨1, 9⟩ .multiply (.var ⟨1, 9⟩ "b") (.var ⟨1, 13⟩ "c")))
          (.var ⟨1, 17⟩ "d")))
      [⟨.punctuation, ";", ⟨1, 18⟩⟩] := by
  have hname (p : Position) (name : String) :
      ∀ s ∈ [(⟨.name, name, p⟩ : Token)].head?, startsOpen s = false := by
    simp [startsOpen, isLambdaWord, Token.isKeyword]
  have hchain := IsChain.cons (isOperand_name ⟨1, 1⟩ "x") (hname _ _)
    (t := ⟨.operator, "=", ⟨1, 3⟩⟩) rfl (c := .assign) (by decide) <|
    .cons (isOperand_name ⟨1, 5⟩ "a") (hname _ _)
      (t := ⟨.operator, "-", ⟨1, 7⟩⟩) rfl (c := .binary .subtract) (by decide) <|
    .cons (isOperand_name ⟨1, 9⟩ "b") (hname _ _)
      (t := ⟨.operator, "*", ⟨1, 11⟩⟩) rfl (c := .binary .multiply) (by decide) <|
    .cons (isOperand_name ⟨1, 13⟩ "c") (hname _ _)
      (t := ⟨.operator, "-", ⟨1, 15⟩⟩) rfl (c := .binary .subtract) (by decide) <|
    .last (isOperand_name ⟨1, 17⟩ "d")
  have hends : EndsChain (.eof ⟨1, 19⟩) [⟨.punctuation, ";", ⟨1, 18⟩⟩] := ⟨';', by decide, rfl⟩
  obtain ⟨hlt, h⟩ := expression_of_isChain hchain hends
  refine ⟨hlt, h.trans ?_⟩
  simp [Expr.divided, Cut.root?, Cut.assignment?, Cut.weakest?, Cut.head, Cut.shift, Expr.join,
    Expr.position, Connective.precedence, Operator.precedence]

end Parser

end ExprLang
