import ExprLang.Proofs.Expr.Tree
import ExprLang.Store
import ExprLang.Value.Method
import ExprLang.Value.Operate

namespace ExprLang

def Lambda.erase (fn : Lambda) : Lambda := ⟨fn.name, fn.params, fn.body.erase⟩

namespace Value

mutual

/-- The value with the bodies of its functions without places. -/
def erase : Value → Value
  | number x => number x
  | string text => string text
  | boolean b => boolean b
  | array id items => array id (eraseAll items)
  | closure id fn frame => closure id fn.erase frame
  | builtin b => builtin b

def eraseAll : List Value → List Value
  | [] => []
  | v :: vs => erase v :: eraseAll vs

end

@[simp] theorem eraseAll_eq_map (vs : List Value) : eraseAll vs = vs.map erase := by
  induction vs with
  | nil => rfl
  | cons v vs ih => rw [eraseAll, ih, List.map_cons]

@[simp] theorem erase_absent : absent.erase = absent := rfl

@[simp] theorem typeName_erase (v : Value) : v.erase.typeName = v.typeName := by
  cases v <;> rfl

@[simp] theorem isTruthy_erase (v : Value) : v.erase.isTruthy = v.isTruthy := by
  cases v <;> rfl

@[simp] theorem identical_erase (v w : Value) : v.erase.identical w.erase = v.identical w := by
  cases v <;> cases w <;> rfl

@[simp] theorem headD_map_erase (vs : List Value) :
    (vs.map erase).headD absent = (vs.headD absent).erase := by
  cases vs <;> rfl

mutual

@[simp] theorem equal_erase : (v w : Value) → v.erase.equal w.erase = v.equal w
  | array a as, array b bs => by
    rw [erase, erase, equal, equal, equalAll_eraseAll as bs]
  | array .., number _ | array .., string _ | array .., boolean _ | array .., closure ..
  | array .., builtin _ => rfl
  | number _, w | string _, w | boolean _, w | closure .., w | builtin _, w => by
    cases w <;> rfl

theorem equalAll_eraseAll :
    (vs ws : List Value) → equalAll (eraseAll vs) (eraseAll ws) = equalAll vs ws
  | [], [] | [], _ :: _ | _ :: _, [] => rfl
  | v :: vs, w :: ws => by
    rw [eraseAll, eraseAll, equalAll, equalAll, equal_erase v w, equalAll_eraseAll vs ws]

end

theorem displayItems_cons_cons (before : String) (v w : Value) (more : List Value) :
    displayItems before (v :: w :: more) =
      displayItems (displayOnto true before v ++ ", ") (w :: more) := by
  rw [displayItems]
  exact List.cons_ne_nil w more

mutual

theorem displayOnto_erase (nested : Bool) (before : String) :
    (v : Value) → v.erase.displayOnto nested before = v.displayOnto nested before
  | number _ | string _ | boolean _ | closure .. | builtin _ => rfl
  | array _ items => by
    rw [erase, displayOnto, displayOnto, displayItems_eraseAll (before.push '[') items]

theorem displayItems_eraseAll (before : String) :
    (vs : List Value) → displayItems before (eraseAll vs) = displayItems before vs
  | [] => rfl
  | [v] => displayOnto_erase true before v
  | v :: w :: more => by
    have hmore := displayItems_eraseAll (displayOnto true before v ++ ", ") (w :: more)
    rw [eraseAll] at hmore
    rw [eraseAll, eraseAll, displayItems_cons_cons, displayItems_cons_cons,
      displayOnto_erase true before v, hmore]

end

@[simp] theorem display_erase (v : Value) : v.erase.display = v.display :=
  displayOnto_erase false "" v

section Operate

variable (op : Operator) (v w : Value)

theorem numbers_erase : numbers op v.erase w.erase = numbers op v w := by
  cases v <;> cases w <;> rfl

theorem operate_erase : operate op v.erase w.erase = (operate op v w).map erase := by
  have harithmetic (f : Float → Float → Float) :
      arithmetic op v.erase w.erase f = (arithmetic op v w f).map erase := by
    unfold arithmetic
    rw [numbers_erase]
    cases numbers op v w <;> rfl
  have hdivision (f : Float → Float → Float) :
      division op v.erase w.erase f = (division op v w f).map erase := by
    unfold division
    rw [numbers_erase]
    cases numbers op v w with
    | error fault => rfl
    | ok ab => cases h : ab.2 == 0 <;> simp [bind, Except.bind, h] <;> rfl
  have hcompare (f : Float → Float → Bool) :
      compare op v.erase w.erase f = (compare op v w f).map erase := by
    unfold compare
    rw [numbers_erase]
    cases numbers op v w <;> rfl
  cases op with
  | and | or =>
    unfold operate
    rw [isTruthy_erase]
    cases v.isTruthy <;> rfl
  | equal | notEqual =>
    unfold operate
    rw [equal_erase]
    rfl
  | identical | notIdentical =>
    unfold operate
    rw [identical_erase]
    rfl
  | less | greater | lessEqual | greaterEqual =>
    unfold operate
    exact hcompare _
  | add | subtract | multiply => exact harithmetic _
  | divide | modulo => exact hdivision _

end Operate

end Value

theorem Method.apply_erase (id : Nat) (receiver : Value) (args : List Value) (m : Method) :
    m.apply id receiver.erase (args.map Value.erase) =
      (m.apply id receiver args).map Value.erase := by
  have htexts (text : String) :
      (args.map Value.erase).foldl (fun s v => v.displayOnto false s) text =
        args.foldl (fun s v => v.displayOnto false s) text := by
    rw [List.foldl_map]
    congr 1
    funext s v
    exact Value.displayOnto_erase false s v
  cases m with
  | add | pop =>
    cases receiver with
    | array i items => simp [Method.apply, Value.erase, Except.map]
    | _ => rfl
  | append =>
    cases receiver with
    | string text => simp only [Method.apply, Value.erase, htexts, Except.map]
    | _ => rfl

theorem MethodTable.invoke_erase (t : MethodTable) (id : Nat) (receiver : Value) (name : String)
    (args : List Value) : t.invoke id receiver.erase name (args.map Value.erase) =
      (t.invoke id receiver name args).map Value.erase := by
  unfold invoke
  rw [Value.typeName_erase]
  cases t.find? receiver.typeName name with
  | none => rfl
  | some m => exact m.apply_erase id receiver args

namespace Frame

def erase (f : Frame) : Frame := ⟨f.outer, f.bindings.map (Prod.map id Value.erase)⟩

theorem find?_erase (f : Frame) (name : String) :
    f.erase.find? name = (f.find? name).map Value.erase := by
  unfold find? erase
  induction f.bindings with
  | nil => rfl
  | cons b bs ih =>
    obtain ⟨n, v⟩ := b
    rw [List.map_cons, Prod.map_apply, id_eq, List.lookup_cons, List.lookup_cons]
    cases name == n with
    | true => rfl
    | false => exact ih

theorem binds_erase (f : Frame) (name : String) : f.erase.binds name = f.binds name := by
  unfold binds
  rw [find?_erase, Option.isSome_map]

theorem replace_erase (name : String) (v : Value) (bs : List (String × Value)) :
    replace name v.erase (bs.map (Prod.map id Value.erase)) =
      (replace name v bs).map (Prod.map id Value.erase) := by
  induction bs with
  | nil => rfl
  | cons b bs ih =>
    obtain ⟨n, w⟩ := b
    rw [List.map_cons, Prod.map_apply, id_eq, replace, replace]
    by_cases h : n = name
    · rw [if_pos h, if_pos h]
      rfl
    · rw [if_neg h, if_neg h, ih]
      rfl

theorem insert_erase (f : Frame) (name : String) (v : Value) :
    f.erase.insert name v.erase = (f.insert name v).erase := by
  unfold insert
  rw [binds_erase]
  cases f.binds name with
  | true =>
    rw [if_pos rfl, if_pos rfl, erase, erase]
    dsimp only
    rw [replace_erase]
  | false => rfl

end Frame

namespace Store

def erase (s : Store) : Store := ⟨s.frames.map Frame.erase, s.nextId⟩

variable (s : Store) (frame : FrameId) (name : String) (v : Value)

theorem frame_erase : s.erase.frame frame = (s.frame frame).erase := by
  unfold Store.frame erase
  rw [Array.getElem?_map]
  cases s.frames[frame]? <;> rfl

theorem chain_erase : s.erase.chain frame = s.chain frame := by
  unfold chain
  rw [frame_erase]
  rfl

theorem resolve?_erase : s.erase.resolve? frame name = s.resolve? frame name := by
  have hbinds : s.erase.binds name = s.binds name := by
    funext frame
    unfold binds
    rw [frame_erase, Frame.binds_erase]
  unfold resolve?
  rw [chain_erase, hbinds]

theorem lookup_erase : s.erase.lookup frame name = (s.lookup frame name).map Value.erase := by
  unfold lookup
  rw [resolve?_erase]
  cases s.resolve? frame name with
  | none => rfl
  | some owner =>
    rw [Option.bind_some, Option.bind_some, frame_erase, Frame.find?_erase]

theorem define_erase : s.erase.define frame name v.erase = (s.define frame name v).erase := by
  unfold define erase
  congr 1
  -- Frame by frame: only the one that binds the name changes.
  apply Array.ext_getElem?
  intro i
  rw [Array.getElem?_modify, Array.getElem?_map, Array.getElem?_map, Array.getElem?_modify]
  by_cases h : frame = i
  · rw [if_pos h, if_pos h]
    cases s.frames[i]? with
    | none => rfl
    | some f => exact congrArg some (Frame.insert_erase f name v)
  · rw [if_neg h, if_neg h]

theorem set?_erase : s.erase.set? frame name v.erase = (s.set? frame name v).map erase := by
  unfold set?
  rw [resolve?_erase]
  cases s.resolve? frame name with
  | none => rfl
  | some owner => exact congrArg some (define_erase s owner name v)

theorem defineAll_erase (bs : List (String × Value)) :
    s.erase.defineAll frame (bs.map (Prod.map id Value.erase)) =
      (s.defineAll frame bs).erase := by
  induction bs generalizing s with
  | nil => rfl
  | cons b bs ih =>
    obtain ⟨n, v⟩ := b
    rw [List.map_cons, Prod.map_apply, id_eq, defineAll, defineAll, define_erase, ih]

theorem extend_erase :
    s.erase.extend frame = ((s.extend frame).1, (s.extend frame).2.erase) := by
  unfold extend
  rw [chain_erase]
  unfold erase
  rw [Array.size_map, Array.map_push]
  rfl

end Store

end ExprLang
