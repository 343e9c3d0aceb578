import ExprLang.Expr

namespace ExprLang

namespace Expr

/-- The expressions right below a node, from left to right. -/
def children : Expr → List Expr
  | number .. | string .. | boolean .. | var .. => []
  | array _ items => items
  | define _ _ init => init.toList
  | scope _ bindings body => bindings.filterMap (·.init) ++ [body]
  | assign _ target value => [target, value]
  | binary _ _ left right => [left, right]
  | lambda _ _ _ body => [body]
  | call _ callee args => callee :: args
  | method _ _ _ args => args
  | branch _ cond consequent chained alternative =>
    cond :: consequent :: (chained.toList ++ alternative.toList)
  | block _ statements => statements

/-- A property of all nodes of a tree. -/
inductive Everywhere (P : Expr → Prop) : Expr → Prop
  | node {e : Expr} (here : P e) (below : ∀ c ∈ e.children, Everywhere P c) : Everywhere P e

namespace Everywhere

variable {P Q : Expr → Prop} {e : Expr}

theorem here : Everywhere P e → P e
  | node h _ => h

theorem child {c : Expr} : Everywhere P e → c ∈ e.children → Everywhere P c
  | node _ h, hc => h c hc

theorem leaf (h : P e) (hleaf : e.children = []) : Everywhere P e :=
  node h (by simp [hleaf])

theorem imp (hPQ : ∀ e, P e → Q e) (h : Everywhere P e) : Everywhere Q e := by
  induction h with
  | node h _ ih => exact node (hPQ _ h) ih

theorem and (hP : Everywhere P e) (hQ : Everywhere Q e) : Everywhere (fun e => P e ∧ Q e) e := by
  induction hP with
  | node h _ ih => exact node ⟨h, hQ.here⟩ fun c hc => ih c hc (hQ.child hc)

end Everywhere

/-- A property that a node has if all nodes right below it have it. -/
def Hereditary (P : Expr → Prop) : Prop := ∀ e, (∀ c ∈ e.children, P c) → P e

namespace Hereditary

variable {P : Expr → Prop}

mutual

theorem all (h : Hereditary P) : (e : Expr) → P e
  | number .. | string .. | boolean .. | var .. => h _ (List.forall_mem_nil P)
  | array _ items => h _ (h.allItems items)
  | define _ _ init => h _ (h.allOption init)
  | scope _ bindings body =>
    h _ (List.forall_mem_append.mpr
      ⟨h.allBindings bindings, List.forall_mem_singleton.mpr (h.all body)⟩)
  | assign _ target value =>
    h _ (List.forall_mem_cons.mpr ⟨h.all target, List.forall_mem_singleton.mpr (h.all value)⟩)
  | binary _ _ left right =>
    h _ (List.forall_mem_cons.mpr ⟨h.all left, List.forall_mem_singleton.mpr (h.all right)⟩)
  | lambda _ _ _ body => h _ (List.forall_mem_singleton.mpr (h.all body))
  | call _ callee args => h _ (List.forall_mem_cons.mpr ⟨h.all callee, h.allItems args⟩)
  | method _ _ _ args => h _ (h.allItems args)
  | branch _ cond consequent chained alternative =>
    h _ (List.forall_mem_cons.mpr ⟨h.all cond, List.forall_mem_cons.mpr ⟨h.all consequent,
      List.forall_mem_append.mpr ⟨h.allOption chained, h.allOption alternative⟩⟩⟩)
  | block _ statements => h _ (h.allItems statements)

theorem allItems (h : Hereditary P) : (es : List Expr) → ∀ c ∈ es, P c
  | [] => List.forall_mem_nil P
  | e :: es => List.forall_mem_cons.mpr ⟨h.all e, h.allItems es⟩

theorem allOption (h : Hereditary P) : (o : Option Expr) → ∀ c ∈ o.toList, P c
  | none => List.forall_mem_nil P
  | some e => List.forall_mem_singleton.mpr (h.all e)

theorem allBindings (h : Hereditary P) :
    (bs : List (Binding Expr)) → ∀ c ∈ bs.filterMap (·.init), P c
  | [] => List.forall_mem_nil P
  | ⟨_, none⟩ :: bs => h.allBindings bs
  | ⟨_, some e⟩ :: bs => List.forall_mem_cons.mpr ⟨h.all e, h.allBindings bs⟩

end

end Hereditary

mutual

/-- The tree with the start of the text as the place of every node. -/
def erase : Expr → Expr
  | number _ x => number .start x
  | string _ s => string .start s
  | boolean _ b => boolean .start b
  | array _ items => array .start (eraseAll items)
  | var _ name => var .start name
  | define _ name init => define .start name (eraseOption init)
  | scope _ bindings body => scope .start (eraseBindings bindings) (erase body)
  | assign _ target value => assign .start (erase target) (erase value)
  | binary _ op left right => binary .start op (erase left) (erase right)
  | lambda _ name params body => lambda .start name params (erase body)
  | call _ callee args => call .start (erase callee) (eraseAll args)
  | method _ receiver name args => method .start receiver name (eraseAll args)
  | branch _ cond consequent chained alternative =>
    branch .start (erase cond) (erase consequent) (eraseOption chained) (eraseOption alternative)
  | block _ statements => block .start (eraseAll statements)

def eraseAll : List Expr → List Expr
  | [] => []
  | e :: es => erase e :: eraseAll es

def eraseOption : Option Expr → Option Expr
  | none => none
  | some e => some (erase e)

def eraseBinding : Binding Expr → Binding Expr
  | ⟨name, init⟩ => ⟨name, eraseOption init⟩

def eraseBindings : List (Binding Expr) → List (Binding Expr)
  | [] => []
  | b :: bs => eraseBinding b :: eraseBindings bs

end

mutual

@[simp] theorem erase_erase : (e : Expr) → e.erase.erase = e.erase
  | number .. | string .. | boolean .. | var .. => rfl
  | array _ items => by rw [erase, erase, eraseAll_eraseAll items]
  | define _ _ init => by rw [erase, erase, eraseOption_eraseOption init]
  | scope _ bindings body => by
    rw [erase, erase, eraseBindings_eraseBindings bindings, erase_erase body]
  | assign _ target value => by rw [erase, erase, erase_erase target, erase_erase value]
  | binary _ _ left right => by rw [erase, erase, erase_erase left, erase_erase right]
  | lambda _ _ _ body => by rw [erase, erase, erase_erase body]
  | call _ callee args => by rw [erase, erase, erase_erase callee, eraseAll_eraseAll args]
  | method _ _ _ args => by rw [erase, erase, eraseAll_eraseAll args]
  | branch _ cond consequent chained alternative => by
    rw [erase, erase, erase_erase cond, erase_erase consequent, eraseOption_eraseOption chained,
      eraseOption_eraseOption alternative]
  | block _ statements => by rw [erase, erase, eraseAll_eraseAll statements]

theorem eraseAll_eraseAll : (es : List Expr) → eraseAll (eraseAll es) = eraseAll es
  | [] => rfl
  | e :: es => by rw [eraseAll, eraseAll, erase_erase e, eraseAll_eraseAll es]

theorem eraseOption_eraseOption : (e : Option Expr) → eraseOption (eraseOption e) = eraseOption e
  | none => rfl
  | some e => by rw [eraseOption, eraseOption, erase_erase e]

theorem eraseBinding_eraseBinding :
    (b : Binding Expr) → eraseBinding (eraseBinding b) = eraseBinding b
  | ⟨_, init⟩ => by rw [eraseBinding, eraseBinding, eraseOption_eraseOption init]

theorem eraseBindings_eraseBindings :
    (bs : List (Binding Expr)) → eraseBindings (eraseBindings bs) = eraseBindings bs
  | [] => rfl
  | b :: bs => by
    rw [eraseBindings, eraseBindings, eraseBinding_eraseBinding b, eraseBindings_eraseBindings bs]

end

@[simp] theorem eraseAll_eq_map (es : List Expr) : eraseAll es = es.map erase := by
  induction es with
  | nil => rfl
  | cons e es ih => rw [eraseAll, ih, List.map_cons]

@[simp] theorem eraseOption_eq_map (e : Option Expr) : eraseOption e = e.map erase := by
  cases e <;> rfl

@[simp] theorem eraseBindings_eq_map (bs : List (Binding Expr)) :
    eraseBindings bs = bs.map eraseBinding := by
  induction bs with
  | nil => rfl
  | cons b bs ih => rw [eraseBindings, ih, List.map_cons]

@[simp] theorem name_eraseBinding (b : Binding Expr) : (eraseBinding b).name = b.name := by
  cases b
  rfl

@[simp] theorem init_eraseBinding (b : Binding Expr) :
    (eraseBinding b).init = b.init.map erase := by
  cases b
  rw [eraseBinding, eraseOption_eq_map]

@[simp] theorem position_erase (e : Expr) : e.erase.position = .start := by
  cases e <;> rfl

theorem erase_join (c : Connective) (left right : Expr) :
    (join c left right).erase = join c left.erase right.erase := by
  cases c <;> simp [join, erase]

theorem erase_nameLambda (name : String) (e : Expr) :
    (e.nameLambda name).erase = e.erase.nameLambda name := by
  cases e with
  | lambda p inner params body => cases inner <;> rfl
  | _ => rfl

section Same

theorem sameAll_of_erase {as bs : List Expr}
    (h : ∀ b ∈ bs, ∀ a : Expr, a.erase = b.erase → a.same b = true)
    (heq : as.map erase = bs.map erase) : sameAll as bs = true := by
  induction bs generalizing as with
  | nil =>
    rw [List.map_nil, List.map_eq_nil_iff] at heq
    rw [heq, sameAll]
  | cons b bs ih =>
    obtain ⟨a, as, rfl, ha, has⟩ := List.map_eq_cons_iff.mp heq
    rw [sameAll, h b List.mem_cons_self a ha, Bool.true_and]
    exact ih (fun b hb => h b (List.mem_cons_of_mem _ hb)) has

theorem sameOption_of_erase {a b : Option Expr}
    (h : ∀ e ∈ b, ∀ a : Expr, a.erase = e.erase → a.same e = true)
    (heq : a.map erase = b.map erase) : sameOption a b = true := by
  cases b with
  | none =>
    rw [Option.map_none, Option.map_eq_none_iff] at heq
    rw [heq, sameOption]
  | some e =>
    obtain ⟨a, rfl, ha⟩ := Option.map_eq_some_iff.mp heq
    rw [sameOption]
    exact h e rfl a ha

theorem sameBindings_of_erase {as bs : List (Binding Expr)}
    (h : ∀ b ∈ bs, ∀ e ∈ b.init, ∀ a : Expr, a.erase = e.erase → a.same e = true)
    (heq : as.map eraseBinding = bs.map eraseBinding) : sameBindings as bs = true := by
  induction bs generalizing as with
  | nil =>
    rw [List.map_nil, List.map_eq_nil_iff] at heq
    rw [heq, sameBindings]
  | cons b bs ih =>
    obtain ⟨⟨name, init⟩, as, rfl, ha, has⟩ := List.map_eq_cons_iff.mp heq
    obtain ⟨name', init'⟩ := b
    simp only [eraseBinding, eraseOption_eq_map, Binding.mk.injEq] at ha
    have hinit := sameOption_of_erase (h _ List.mem_cons_self) ha.2
    rw [sameBindings, sameBinding, ha.1, hinit, beq_self_eq_true, Bool.true_and, Bool.true_and]
    exact ih (fun b hb => h b (List.mem_cons_of_mem _ hb)) has

/-- Trees that are equal without places are the same, if no number in them differs from itself. -/
theorem same_of_erase {e e' : Expr}
    (h : Everywhere (fun | number _ x => (x == x) = true | _ => True) e)
    (heq : e'.erase = e.erase) : e'.same e = true := by
  induction h generalizing e' with
  | @node e here _ ih =>
    have hall : ∀ c ∈ e.children, ∀ a : Expr, a.erase = c.erase → a.same c = true :=
      fun c hc a ha => ih c hc ha
    clear ih
    -- Nodes of different kinds differ without places too, so only the diagonal is left.
    cases e <;> cases e' <;>
      simp only [erase, eraseAll_eq_map, eraseOption_eq_map, eraseBindings_eq_map, reduceCtorEq,
        number.injEq, string.injEq, boolean.injEq, array.injEq, var.injEq, define.injEq,
        scope.injEq, assign.injEq, binary.injEq, lambda.injEq, call.injEq, method.injEq,
        branch.injEq, block.injEq, true_and] at heq
    all_goals simp only [children, List.mem_cons, List.mem_append, List.mem_filterMap,
      List.not_mem_nil, Option.mem_toList, or_false, forall_eq, or_imp,
      forall_and] at hall
    case number => simp only [Expr.same, heq, here]
    case string => simp only [Expr.same, heq, beq_self_eq_true]
    case boolean => simp only [Expr.same, heq, beq_self_eq_true]
    case var => simp only [Expr.same, heq, beq_self_eq_true]
    case array => rw [Expr.same, sameAll_of_erase hall heq]
    case define =>
      rw [Expr.same, heq.1, beq_self_eq_true, Bool.true_and]
      exact sameOption_of_erase hall heq.2
    case scope =>
      have hbindings := sameBindings_of_erase (fun b hb e he => hall.1 e ⟨b, hb, he⟩) heq.1
      rw [Expr.same, hbindings, hall.2 _ heq.2, Bool.true_and]
    case assign => rw [Expr.same, hall.1 _ heq.1, hall.2 _ heq.2, Bool.true_and]
    case binary =>
      rw [Expr.same, heq.1, hall.1 _ heq.2.1, hall.2 _ heq.2.2, beq_self_eq_true, Bool.true_and,
        Bool.true_and]
    case lambda =>
      rw [Expr.same, heq.1, heq.2.1, hall _ heq.2.2, beq_self_eq_true, beq_self_eq_true,
        Bool.true_and, Bool.true_and]
    case call =>
      rw [Expr.same, hall.1 _ heq.1, sameAll_of_erase hall.2 heq.2, Bool.true_and]
    case method =>
      rw [Expr.same, heq.1, heq.2.1, sameAll_of_erase hall heq.2.2, beq_self_eq_true,
        beq_self_eq_true, Bool.true_and, Bool.true_and]
    case branch =>
      rw [Expr.same, hall.1 _ heq.1, hall.2.1 _ heq.2.1, sameOption_of_erase hall.2.2.1 heq.2.2.1,
        sameOption_of_erase hall.2.2.2 heq.2.2.2]
      rfl
    case block => rw [Expr.same, sameAll_of_erase hall heq]

end Same

end Expr

end ExprLang
