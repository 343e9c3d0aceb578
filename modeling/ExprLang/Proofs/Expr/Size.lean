import ExprLang.Proofs.Expr.Soundness
import ExprLang.Proofs.Token.Spelling

namespace ExprLang

namespace Expr

mutual

@[simp] def size : Expr → Nat
  | number .. | string .. | boolean .. | var .. => 1
  | array _ items => 1 + sizeAll items
  | define _ _ init => 1 + sizeOption init
  | scope _ bindings body => 1 + sizeBindings bindings + size body
  | assign _ target value => 1 + size target + size value
  | binary _ _ left right => 1 + size left + size right
  | lambda _ _ _ body => 1 + size body
  | call _ callee args => 1 + size callee + sizeAll args
  | method _ _ _ args => 1 + sizeAll args
  | branch _ cond consequent chained alternative =>
    1 + size cond + size consequent + sizeOption chained + sizeOption alternative
  | block _ statements => 1 + sizeAll statements

@[simp] def sizeAll : List Expr → Nat
  | [] => 0
  | e :: es => size e + sizeAll es

@[simp] def sizeOption : Option Expr → Nat
  | none => 0
  | some e => size e

@[simp] def sizeBinding : Binding Expr → Nat
  | ⟨_, init⟩ => sizeOption init

@[simp] def sizeBindings : List (Binding Expr) → Nat
  | [] => 0
  | b :: bs => sizeBinding b + sizeBindings bs

end

theorem sizeAll_eq_sum (es : List Expr) : sizeAll es = (es.map size).sum := by
  induction es with
  | nil => rfl
  | cons e es ih => rw [sizeAll, ih, List.map_cons, List.sum_cons]

@[simp] theorem size_nameLambda (name : String) (e : Expr) : (e.nameLambda name).size = e.size := by
  cases e with
  | lambda p inner params body => cases inner <;> rfl
  | _ => rfl

@[simp] theorem size_join (c : Connective) (left right : Expr) :
    (join c left right).size = 1 + left.size + right.size := by
  cases c <;> rw [join, size]

end Expr

namespace Parser

/-- The number of nodes that the trees of a rule can come to. A binding without an initial value is
a node of its own when the value of a call stands in its place. -/
@[simp] def Rule.size : (r : Rule) → r.Tree → Nat
  | .expression | .operand | .atom | .conditional | .condition => Expr.size
  | .links => fun links => (links.map fun l => 1 + l.2.size).sum
  | .arguments => fun lists => (lists.map fun args => 1 + (args.map Expr.size).sum).sum
  | .binding => fun b => (b.init.getD (.boolean .start false)).size
  | .param => fun _ => 0
  | .list _ item | .more _ item => fun xs => (xs.map item.size).sum

theorem size_taken (left : Expr) (bound : Nat) (links : List Link) :
    (left.taken bound links).size + Rule.links.size (left.untaken bound links) =
      left.size + Rule.links.size links := by
  match links with
  | [] => simp
  | (c, first) :: more =>
    by_cases h : c.precedence ≤ bound
    · rw [Expr.taken_stop _ _ _ h, Expr.untaken_stop _ _ _ h]
    · have h := Nat.lt_of_not_le h
      have hmore := Expr.length_untaken_le first c.rightBound more
      have hright := size_taken first c.rightBound more
      have hwhole := size_taken (.join c left (first.taken c.rightBound more)) bound
        (first.untaken c.rightBound more)
      rw [Expr.taken_join _ _ _ h, Expr.untaken_join _ _ _ h, hwhole, Expr.size_join]
      simp only [Rule.size, List.map_cons, List.sum_cons] at hright ⊢
      omega
termination_by links.length
decreasing_by all_goals (simp only [List.length_cons]; omega)

theorem size_chain (left : Expr) (links : List Link) :
    (left.chain links).size = left.size + Rule.links.size links := by
  have h := size_taken left 0 links
  rwa [Expr.untaken_zero] at h

theorem size_applied (callee : Expr) (lists : List (List Expr)) :
    (callee.applied lists).size = callee.size + Rule.arguments.size lists := by
  induction lists generalizing callee with
  | nil => rfl
  | cons args lists ih =>
    rw [Expr.applied, ih, Expr.size, Expr.sizeAll_eq_sum]
    simp only [Rule.size, List.map_cons, List.sum_cons]
    omega

theorem size_blockOf_le (p : Position) (es : List Expr) :
    (blockOf p es).size ≤ 1 + (es.map Expr.size).sum := by
  match es with
  | [] => exact Nat.le_refl _
  | [e] => simp [blockOf]
  | e :: e' :: more => simp only [blockOf, Expr.size, Expr.sizeAll_eq_sum, Nat.le_refl]

theorem size_definitionOf (p : Position) (name : String) (params : List (Binding Expr))
    (body : Expr) : (definitionOf p name params body).size = 2 + body.size := by
  rw [definitionOf, Expr.size, Expr.sizeOption, Expr.size]
  omega

theorem size_loopOf (p : Position) (name : String) (bindings : List (Binding Expr)) (body : Expr) :
    (loopOf p name bindings body).size =
      2 + body.size + (bindings.map Rule.binding.size).sum := by
  have hargs : (bindings.map fun b => b.init.getD (.boolean p false)).map Expr.size =
      bindings.map Rule.binding.size := by
    rw [List.map_map]
    refine List.map_congr_left fun b _ => ?_
    cases hinit : b.init <;> simp [hinit]
  rw [loopOf, Expr.size, Expr.size, Expr.sizeAll_eq_sum, hargs]
  omega

theorem sizeBindings_le (bindings : List (Binding Expr)) :
    Expr.sizeBindings bindings ≤ (bindings.map Rule.binding.size).sum := by
  induction bindings with
  | nil => exact Nat.le_refl _
  | cons b bs ih =>
    have hb : Expr.sizeBinding b ≤ Rule.binding.size b := by
      obtain ⟨name, _ | init⟩ := b
      · exact Nat.zero_le _
      · exact Nat.le_refl _
    exact Nat.add_le_add hb ih

variable {fin : TokenStream.Ending} {r : Rule} {ts rest : List Token} {x : r.Tree}

theorem Maybe.length_le {test : Token → Bool} {word : Option Token}
    (h : Maybe fin test ts word rest) : rest.length ≤ ts.length := by
  cases h with
  | taken _ => exact Nat.le_succ _
  | absent _ => exact Nat.le_refl _

/-- Every node that a rule makes is paid for with a token that it reads. -/
theorem Reads.size_le (h : Reads fin r ts x rest) : r.size x + rest.length ≤ ts.length := by
  induction h with
  | expression _ _ _ ihleft ihlinks =>
    simp only [Rule.size, size_chain] at *
    omega
  | operand _ _ iha ihargs =>
    simp only [Rule.size, size_applied] at *
    omega
  | @block t _ _ items _ _ ih =>
    have hblock := size_blockOf_le t.position items
    simp only [Rule.size, List.length_cons] at *
    omega
  | @scope _ _ _ _ _ bindings _ _ _ _ _ ihbindings ihbody =>
    have hinits := sizeBindings_le bindings
    simp only [Rule.size, Expr.size, List.length_cons] at *
    omega
  | definition _ _ _ _ _ _ _ ihparams ihbody =>
    simp only [Rule.size, size_definitionOf, List.length_cons] at *
    omega
  | loop _ _ _ _ _ _ ihbindings ihbody =>
    simp only [Rule.size, size_loopOf, List.length_cons] at *
    omega
  | lambda _ hname _ _ _ ihparams ihbody =>
    have hname := hname.length_le
    simp only [Rule.size, Expr.size, List.length_cons] at *
    omega
  | only_then _ _ hword _ _ ihcond ihe =>
    have hword := hword.length_le
    simp only [Rule.size, Expr.size, Expr.sizeOption, List.length_cons] at *
    omega
  | else_if _ _ hword _ _ _ ihcond ihe ihchained =>
    have hword := hword.length_le
    simp only [Rule.size, Expr.size, Expr.sizeOption, List.length_cons] at *
    omega
  | or_else _ _ hword _ _ _ _ ihcond ihe ihother =>
    have hword := hword.length_le
    simp only [Rule.size, Expr.size, Expr.sizeOption, List.length_cons] at *
    omega
  | _ =>
    -- One token for the node, and the parts have paid for themselves.
    simp only [Rule.size, Expr.size, Expr.sizeAll_eq_sum, Expr.sizeOption, Expr.size_nameLambda,
      Option.getD_none, Option.getD_some, List.map_nil, List.sum_nil, List.map_cons, List.sum_cons,
      List.length_cons] at *
    omega

/-- The tokens before `rest` are read. There is one at least, and there are no fewer than nodes. -/
def Spends (ts rest : List Token) (nodes : Nat) : Prop :=
  ∃ read, ts = read ++ rest ∧ read ≠ [] ∧ nodes ≤ read.length

theorem Reads.spends (h : Reads fin r ts x rest) (hlt : rest.length < ts.length) :
    Spends ts rest (r.size x) := by
  obtain ⟨read, rfl⟩ := h.suffix
  have hsize := h.size_le
  rw [List.length_append] at hlt hsize
  exact ⟨read, rfl, List.ne_nil_of_length_pos (by omega), by omega⟩

section Spends

variable {t : Token} {nodes : Nat}

theorem Spends.head (h : Spends (t :: ts) rest nodes) (t' : Token) :
    Spends (t' :: ts) rest nodes := by
  obtain ⟨_ | ⟨_, read⟩, heq, hne, hnodes⟩ := h
  · exact absurd rfl hne
  · obtain ⟨-, rfl⟩ := List.cons.inj heq
    exact ⟨t' :: read, rfl, List.cons_ne_nil _ _, hnodes⟩

theorem Spends.mono {fewer : Nat} (h : Spends ts rest nodes) (hle : fewer ≤ nodes) :
    Spends ts rest fewer := by
  obtain ⟨read, heq, hne, hnodes⟩ := h
  exact ⟨read, heq, hne, Nat.le_trans hle hnodes⟩

theorem spends_method {dot : Token} {e : Expr} (ht : t.isName = true)
    (hdot : dot.isMark '.' = true) (h : Reads fin .atom (t :: dot :: ts) e rest) :
    Spends (dot :: ts) rest e.size := by
  have hkind := isName_token_iff.mp ht
  cases h with
  | method _ _ _ _ hargs =>
    obtain ⟨read, rfl⟩ := hargs.suffix
    have hsize := hargs.size_le
    refine ⟨dot :: _ :: _ :: read, rfl, List.cons_ne_nil _ _, ?_⟩
    simp only [Rule.size, Expr.size, Expr.sizeAll_eq_sum, List.length_append,
      List.length_cons] at hsize ⊢
    omega
  | var _ hend => exact absurd hdot (by simpa [Lacks] using hend)
  | number hnumber | string hnumber | boolean hnumber => simp [hkind] at hnumber
  | group hmark | array hmark | block hmark => simp [isMark_iff, hkind] at hmark
  | lambda hword => simp [isLambdaWord_iff, hkind] at hword
  | scope hword | define hword | define_init hword | definition hword | loop hword =>
    simp [isKeyword_iff, hkind] at hword
  | branch hread =>
    cases hread with
    | only_then hword | else_if hword | or_else hword => simp [isKeyword_iff, hkind] at hword

end Spends

/-- A rule that succeeds has read tokens, no fewer than it has made nodes. To a form that starts
with a word, that token belongs too, and to a method call all from the point on. -/
structure Thrifty (fin : TokenStream.Ending) : Prop where
  expression : ∀ ts a, (source fin).answer (.expression ts) = .ok a →
    Spends ts a.rest a.value.size
  operand : ∀ ts a, (source fin).answer (.operand ts) = .ok a → Spends ts a.rest a.value.size
  atom : ∀ ts a, (source fin).answer (.atom ts) = .ok a → Spends ts a.rest a.value.size
  method : ∀ t dot ts a, t.isName = true → dot.isMark '.' = true →
    (source fin).answer (.atom (t :: dot :: ts)) = .ok a → Spends (dot :: ts) a.rest a.value.size
  binding : ∀ ts a, (source fin).answer (.binding ts) = .ok a →
    Spends ts a.rest (Expr.sizeBinding a.value)
  letForm : ∀ t ts a, (source fin).answer (.letForm t.position ts) = .ok a →
    Spends (t :: ts) a.rest a.value.size
  ifForm : ∀ t ts a, (source fin).answer (.ifForm t.position ts) = .ok a →
    Spends (t :: ts) a.rest a.value.size
  lambdaForm : ∀ t ts a, (source fin).answer (.lambdaForm t.position ts) = .ok a →
    Spends (t :: ts) a.rest a.value.size

theorem thrifty (fin : TokenStream.Ending) : Thrifty fin where
  expression ts a h := by
    have hread : Reads fin .expression ts a.value a.rest := sound h
    exact hread.spends a.fewer
  operand ts a h := by
    have hread : Reads fin .operand ts a.value a.rest := sound h
    exact hread.spends a.fewer
  atom ts a h := by
    have hread : Reads fin .atom ts a.value a.rest := sound h
    exact hread.spends a.fewer
  method _ _ _ _ ht hdot h := spends_method ht hdot (sound h)
  binding ts a h := by
    have hread : Reads fin .binding ts a.value a.rest := sound h
    refine (hread.spends a.fewer).mono ?_
    obtain ⟨⟨name, _ | init⟩, rest, hs⟩ := a
    · exact Nat.zero_le _
    · exact Nat.le_refl _
  letForm t ts a h := by
    have hread : Reads fin .atom (⟨.keyword, "let", t.position⟩ :: ts) a.value a.rest :=
      sound h _ rfl rfl
    exact (hread.spends (Nat.lt_succ_of_lt a.fewer)).head t
  ifForm t ts a h := by
    have hread : Reads fin .conditional (⟨.keyword, "if", t.position⟩ :: ts) a.value a.rest :=
      sound h _ rfl rfl
    exact (hread.spends (Nat.lt_succ_of_lt a.fewer)).head t
  lambdaForm t ts a h := by
    have hread : Reads fin .atom (⟨.keyword, "fn", t.position⟩ :: ts) a.value a.rest :=
      sound h _ rfl rfl
    exact (hread.spends (Nat.lt_succ_of_lt a.fewer)).head t

theorem size_le_of_readsAll {es : List Expr} (h : ReadsAll fin ts es) :
    (es.map Expr.size).sum ≤ ts.length := by
  induction h with
  | nil _ => exact Nat.zero_le _
  | last he _ =>
    have hsize := he.size_le
    simp only [Rule.size, List.map_cons, List.map_nil, List.sum_cons, List.sum_nil] at hsize ⊢
    omega
  | cons he _ _ ih =>
    have hsize := he.size_le
    simp only [Rule.size, List.length_cons, List.map_cons, List.sum_cons] at hsize ⊢
    omega

/-- A program has no more nodes below its root than the text has tokens. -/
theorem size_le_of_parseWith {strict : Bool} {source : String} {e : Expr}
    (h : parseWith strict source = .ok e) :
    e.size ≤ 1 + (TokenStream.ofSource source strict).tokens.length := by
  obtain ⟨statements, rfl, hreads⟩ := readsAll_of_parse h
  rw [Expr.size, Expr.sizeAll_eq_sum]
  exact Nat.add_le_add_left (size_le_of_readsAll hreads) 1

/-- Parsing ends on every text, as no more calls nest than its tokens allow, and no part of it makes
more nodes than it reads tokens. -/
theorem parse_ends_and_spends (strict : Bool) (source : String) :
    (∀ deep n, 8 * (TokenStream.ofSource source strict).tokens.length + 3 < n →
      (Parser.source (TokenStream.ofSource source strict).ending).parseWithin deep n
        (TokenStream.ofSource source strict).tokens = parseWith strict source) ∧
    (∀ fin, Thrifty fin) ∧
    ∀ e, parseWith strict source = .ok e →
      e.size ≤ 1 + (TokenStream.ofSource source strict).tokens.length :=
  ⟨fun deep _ hn => Source.parseWithin_eq _ deep hn, thrifty, fun _ => size_le_of_parseWith⟩

/-- `let f(a, b) a`, where the function, the call and the absent values share the place of `let`. -/
def calledAtOnce : Expr :=
  .block .start [.call ⟨1, 1⟩ (.lambda ⟨1, 1⟩ (some "f") ["a", "b"] (.var ⟨1, 13⟩ "a"))
    [.boolean ⟨1, 1⟩ false, .boolean ⟨1, 1⟩ false]]

theorem parse_ends_and_spends_calledAtOnce :
    (∀ deep, (source (TokenStream.ofSource "let f(a, b) a" false).ending).parseWithin deep 68
      (TokenStream.ofSource "let f(a, b) a" false).tokens = parseWith false "let f(a, b) a") ∧
    parseWith false "let f(a, b) a" = .ok calledAtOnce ∧ calledAtOnce.size = 6 ∧
    calledAtOnce.size ≤ 1 + 8 ∧
    Spends [⟨.name, "a", ⟨1, 13⟩⟩] [] (Expr.var ⟨1, 13⟩ "a").size := by
  have htokens : (TokenStream.ofSource "let f(a, b) a" false).tokens.length = 8 := by
    with_unfolding_all rfl
  have hparse : parseWith false "let f(a, b) a" = .ok calledAtOnce := by
    with_unfolding_all rfl
  obtain ⟨hends, hthrifty, hsize⟩ := parse_ends_and_spends false "let f(a, b) a"
  have hvar : (source (.eof ⟨1, 14⟩)).answer (.atom [⟨.name, "a", ⟨1, 13⟩⟩]) =
      .ok ⟨.var ⟨1, 13⟩ "a", [], Nat.zero_lt_one⟩ := by
    with_unfolding_all rfl
  exact ⟨fun deep => hends deep 68 (by rw [htokens]; decide), hparse, rfl, htokens ▸ hsize _ hparse,
    (hthrifty _).atom _ _ hvar⟩

end Parser

end ExprLang
