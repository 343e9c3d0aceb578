import ExprLang.Expr.Parser
import ExprLang.Proofs.Expr.Tree

namespace ExprLang

variable (f : Position → Position)

def Token.moved (t : Token) : Token := ⟨t.kind, t.text, f t.position⟩

namespace TokenStream

def Ending.moved : Ending → Ending
  | .eof p => .eof (f p)
  | .failed e => .failed ⟨e.fault, f e.position⟩

def moved (s : TokenStream) : TokenStream := ⟨s.tokens.map (·.moved f), s.ending.moved f⟩

@[simp] theorem moved_id (s : TokenStream) : s.moved id = s := by
  have htokens : s.tokens.map (·.moved id) = s.tokens := List.map_id _
  cases s with
  | mk tokens ending =>
    cases ending <;> simp only [moved, Ending.moved, htokens, id_eq]

end TokenStream

namespace ParseError

def moved (e : ParseError) : ParseError := ⟨e.fault, f e.position⟩

theorem moved_unexpected (expected : Expected) (t : Token) :
    (unexpected expected t).moved f = unexpected expected (t.moved f) := by
  have hmoved : (t.moved f).isEof = t.isEof := rfl
  rw [unexpected, unexpected, hmoved]
  split <;> rfl

end ParseError

namespace Expr

mutual

/-- The tree with the place of every node moved. -/
def moved : Expr → Expr
  | number p x => number (f p) x
  | string p s => string (f p) s
  | boolean p b => boolean (f p) b
  | array p items => array (f p) (movedAll items)
  | var p name => var (f p) name
  | define p name init => define (f p) name (movedOption init)
  | scope p bindings body => scope (f p) (movedBindings bindings) (moved body)
  | assign p target value => assign (f p) (moved target) (moved value)
  | binary p op left right => binary (f p) op (moved left) (moved right)
  | lambda p name params body => lambda (f p) name params (moved body)
  | call p callee args => call (f p) (moved callee) (movedAll args)
  | method p receiver name args => method (f p) receiver name (movedAll args)
  | branch p cond consequent chained alternative =>
    branch (f p) (moved cond) (moved consequent) (movedOption chained) (movedOption alternative)
  | block p statements => block (f p) (movedAll statements)

def movedAll : List Expr → List Expr
  | [] => []
  | e :: es => moved e :: movedAll es

def movedOption : Option Expr → Option Expr
  | none => none
  | some e => some (moved e)

def movedBinding : Binding Expr → Binding Expr
  | ⟨name, init⟩ => ⟨name, movedOption init⟩

def movedBindings : List (Binding Expr) → List (Binding Expr)
  | [] => []
  | b :: bs => movedBinding b :: movedBindings bs

end

@[simp] theorem movedAll_eq_map (es : List Expr) : movedAll f es = es.map (moved f) := by
  induction es with
  | nil => rfl
  | cons e es ih => rw [movedAll, ih, List.map_cons]

@[simp] theorem movedOption_eq_map (e : Option Expr) : movedOption f e = e.map (moved f) := by
  cases e <;> rfl

@[simp] theorem movedBindings_eq_map (bs : List (Binding Expr)) :
    movedBindings f bs = bs.map (movedBinding f) := by
  induction bs with
  | nil => rfl
  | cons b bs ih => rw [movedBindings, ih, List.map_cons]

theorem movedBinding_eq (b : Binding Expr) :
    movedBinding f b = ⟨b.name, b.init.map (moved f)⟩ := by
  cases b
  rw [movedBinding, movedOption_eq_map]

@[simp] theorem position_moved (e : Expr) : (e.moved f).position = f e.position := by
  cases e <;> rfl

theorem moved_join (c : Connective) (left right : Expr) :
    (join c left right).moved f = join c (left.moved f) (right.moved f) := by
  cases c <;> simp [join, moved]

theorem moved_nameLambda (name : String) (e : Expr) :
    (e.nameLambda name).moved f = (e.moved f).nameLambda name := by
  cases e with
  | lambda p inner params body => cases inner <;> rfl
  | _ => rfl

end Expr

namespace Parser

theorem moved_blockOf (p : Position) (es : List Expr) :
    (blockOf p es).moved f = blockOf (f p) (es.map (Expr.moved f)) := by
  match es with
  | [] => rfl
  | [_] => rfl
  | _ :: _ :: _ => simp [blockOf, Expr.moved]

theorem map_name_movedBinding (bs : List (Binding Expr)) :
    (bs.map (Expr.movedBinding f)).map (·.name) = bs.map (·.name) := by
  simp [Expr.movedBinding_eq]

theorem moved_definitionOf (p : Position) (name : String) (params : List (Binding Expr))
    (body : Expr) : (definitionOf p name params body).moved f =
      definitionOf (f p) name (params.map (Expr.movedBinding f)) (body.moved f) := by
  rw [definitionOf, definitionOf, map_name_movedBinding]
  rfl

theorem moved_loopOf (p : Position) (name : String) (bindings : List (Binding Expr))
    (body : Expr) : (loopOf p name bindings body).moved f =
      loopOf (f p) name (bindings.map (Expr.movedBinding f)) (body.moved f) := by
  have hinit (b : Binding Expr) : (b.init.getD (.boolean p false)).moved f =
      (Expr.movedBinding f b).init.getD (.boolean (f p) false) := by
    rw [Expr.movedBinding_eq]
    cases b.init <;> rfl
  rw [loopOf, loopOf, map_name_movedBinding, Expr.moved, Expr.moved, Expr.movedAll_eq_map,
    List.map_map, List.map_map]
  exact congrArg _ (List.map_congr_left fun b _ => hinit b)

end Parser

namespace Expr

mutual

@[simp] theorem moved_id : (e : Expr) → e.moved id = e
  | number .. | string .. | boolean .. | var .. => rfl
  | array _ items => by rw [moved, movedAll_id items, id_eq]
  | define _ _ init => by rw [moved, movedOption_id init, id_eq]
  | scope _ bindings body => by rw [moved, movedBindings_id bindings, moved_id body, id_eq]
  | assign _ target value => by rw [moved, moved_id target, moved_id value, id_eq]
  | binary _ _ left right => by rw [moved, moved_id left, moved_id right, id_eq]
  | lambda _ _ _ body => by rw [moved, moved_id body, id_eq]
  | call _ callee args => by rw [moved, moved_id callee, movedAll_id args, id_eq]
  | method _ _ _ args => by rw [moved, movedAll_id args, id_eq]
  | branch _ cond consequent chained alternative => by
    rw [moved, moved_id cond, moved_id consequent, movedOption_id chained,
      movedOption_id alternative, id_eq]
  | block _ statements => by rw [moved, movedAll_id statements, id_eq]

theorem movedAll_id : (es : List Expr) → movedAll id es = es
  | [] => rfl
  | e :: es => by rw [movedAll, moved_id e, movedAll_id es]

theorem movedOption_id : (e : Option Expr) → movedOption id e = e
  | none => rfl
  | some e => by rw [movedOption, moved_id e]

theorem movedBinding_id : (b : Binding Expr) → movedBinding id b = b
  | ⟨_, init⟩ => by rw [movedBinding, movedOption_id init]

theorem movedBindings_id : (bs : List (Binding Expr)) → movedBindings id bs = bs
  | [] => rfl
  | b :: bs => by rw [movedBindings, movedBinding_id b, movedBindings_id bs]

end

mutual

theorem moved_start : (e : Expr) → e.moved (fun _ => .start) = e.erase
  | number .. | string .. | boolean .. | var .. => rfl
  | array _ items => by rw [moved, erase, movedAll_start items]
  | define _ _ init => by rw [moved, erase, movedOption_start init]
  | scope _ bindings body => by
    rw [moved, erase, movedBindings_start bindings, moved_start body]
  | assign _ target value => by rw [moved, erase, moved_start target, moved_start value]
  | binary _ _ left right => by rw [moved, erase, moved_start left, moved_start right]
  | lambda _ _ _ body => by rw [moved, erase, moved_start body]
  | call _ callee args => by rw [moved, erase, moved_start callee, movedAll_start args]
  | method _ _ _ args => by rw [moved, erase, movedAll_start args]
  | branch _ cond consequent chained alternative => by
    rw [moved, erase, moved_start cond, moved_start consequent, movedOption_start chained,
      movedOption_start alternative]
  | block _ statements => by rw [moved, erase, movedAll_start statements]

theorem movedAll_start : (es : List Expr) → movedAll (fun _ => .start) es = eraseAll es
  | [] => rfl
  | e :: es => by rw [movedAll, eraseAll, moved_start e, movedAll_start es]

theorem movedOption_start :
    (e : Option Expr) → movedOption (fun _ => .start) e = eraseOption e
  | none => rfl
  | some e => by rw [movedOption, eraseOption, moved_start e]

theorem movedBinding_start :
    (b : Binding Expr) → movedBinding (fun _ => .start) b = eraseBinding b
  | ⟨_, init⟩ => by rw [movedBinding, eraseBinding, movedOption_start init]

theorem movedBindings_start :
    (bs : List (Binding Expr)) → movedBindings (fun _ => .start) bs = eraseBindings bs
  | [] => rfl
  | b :: bs => by
    rw [movedBindings, eraseBindings, movedBinding_start b, movedBindings_start bs]

end

end Expr

end ExprLang
