import ExprLang.Proofs.Machine.Timed
import ExprLang.Proofs.Value.Erase

namespace ExprLang

def erasePlace (position : Option Position) : Option Position := position.map fun _ => .start

def Activation.erase (a : Activation) : Activation := ⟨a.name, .start⟩

def EvalError.erase (e : EvalError) : EvalError :=
  ⟨e.fault, erasePlace e.position, e.backtrace.map Activation.erase⟩

def World.erase (w : World) : World := ⟨w.store.erase, w.output, w.now⟩

namespace Machine

def Purpose.erase : Purpose → Purpose
  | array => array
  | call callee _ => call callee.erase .start
  | method receiver name current _ => method receiver name current.erase .start

def Pending.erase : Pending → Pending
  | define name frame => define name frame
  | scope name more body frame => scope name (more.map Expr.eraseBinding) body.erase frame
  | assign name frame _ => assign name frame .start
  | right op e frame _ => right op e.erase frame .start
  | operate op left _ => operate op left.erase .start
  | callee args frame _ => callee (args.map Expr.erase) frame .start
  | gather purpose before more frame =>
    gather purpose.erase (before.map Value.erase) (more.map Expr.erase) frame
  | branch consequent chained alternative frame =>
    branch consequent.erase (chained.map Expr.erase) (alternative.map Expr.erase) frame
  | sequence more frame => sequence (more.map Expr.erase) frame
  | activation call => activation call.erase
  | timing started => timing started

def Control.erase : Control → Control
  | eval e frame => eval e.erase frame
  | apply callee args position => apply callee.erase (args.map Value.erase) (erasePlace position)
  | fib f => fib f
  | value v => value v.erase

def Finished.erase (f : Finished) : Finished :=
  ⟨match f.result with
    | .ok v => .ok v.erase
    | .error e => .error e.erase, f.depth, f.world.erase⟩

def erase (m : Machine) : Machine :=
  ⟨m.control.erase, m.pending.map Pending.erase, m.depth, m.world.erase⟩

def Transition.erase : Transition → Transition
  | next m => next m.erase
  | done f => done f.erase

theorem activations_erase (ps : List Pending) :
    activations (ps.map Pending.erase) = (activations ps).map Activation.erase := by
  unfold activations
  induction ps with
  | nil => rfl
  | cons p ps ih => cases p <;> simpa [Pending.erase, Pending.activation?] using ih

theorem site?_erase (ps : List Pending) :
    site? (ps.map Pending.erase) = erasePlace (site? ps) := by
  induction ps with
  | nil => rfl
  | cons p ps ih =>
    rw [List.map_cons, site?_cons, site?_cons, ih]
    cases p with
    | gather purpose => cases purpose <;> rfl
    | _ => rfl

namespace Context

def erase (c : Context) : Context := ⟨c.pending.map Pending.erase, c.depth, c.world.erase⟩

variable (c : Context)

theorem erase_give (v : Value) : (c.give v).erase = c.erase.give v.erase := rfl

theorem erase_withStore (s : Store) : (c.withStore s).erase = c.erase.withStore s.erase := rfl

theorem erase_fail (fault : EvalFault) (position : Option Position) :
    (c.fail fault position).erase = c.erase.fail fault (erasePlace position) := by
  rw [fail_eq, fail_eq, Transition.erase, Finished.erase, erase, activations_erase, site?_erase,
    List.length_map]
  cases position <;> rfl

theorem erase_runBlock (frame : FrameId) (es : List Expr) :
    (c.runBlock frame es).erase = c.erase.runBlock frame (es.map Expr.erase) := by
  rcases es with _ | ⟨e, _ | ⟨e', more⟩⟩ <;> rfl

theorem erase_bind (frame : FrameId) (name : String) (v : Value) :
    c.erase.bind frame name v.erase =
      ((c.bind frame name v).1, (c.bind frame name v).2.erase) := by
  unfold bind
  have hextend : c.erase.world.store.extend frame = _ := Store.extend_erase c.world.store frame
  rw [hextend]
  dsimp only
  rw [erase_withStore, ← Store.define_erase]

theorem erase_runScope (frame : FrameId) (body : Expr) (bs : List (Binding Expr)) :
    (c.runScope frame body bs).erase =
      c.erase.runScope frame body.erase (bs.map Expr.eraseBinding) := by
  induction bs generalizing c frame with
  | nil => rfl
  | cons b bs ih =>
    obtain ⟨name, _ | init⟩ := b
    · have hbind := erase_bind c frame name .absent
      rw [Value.erase_absent] at hbind
      simp only [List.map_cons, Expr.eraseBinding, Expr.eraseOption, runScope, hbind]
      exact ih _ _
    · rfl

theorem erase_runMethod (cfg : Config) (frame : FrameId) (receiver method : String)
    (current : Value) (args : List Value) (position : Option Position) :
    (c.runMethod cfg frame receiver method current args position).erase =
      c.erase.runMethod cfg frame receiver method current.erase (args.map Value.erase)
        (erasePlace position) := by
  -- Identities are given out in the same order, places or not.
  have hfresh : c.erase.world.store.fresh =
      (c.world.store.fresh.1, c.world.store.fresh.2.erase) := rfl
  unfold runMethod
  rw [hfresh]
  dsimp only
  rw [MethodTable.invoke_erase]
  cases cfg.methods.invoke _ current method args with
  | error fault => exact erase_fail c fault position
  | ok v =>
    dsimp only [Except.map]
    rw [Store.set?_erase]
    cases c.world.store.fresh.2.set? frame receiver v with
    | none => exact erase_fail c _ position
    | some s => rfl

theorem erase_gather (cfg : Config) (frame : FrameId) (purpose : Purpose) (before : List Value)
    (es : List Expr) : (c.gather cfg frame purpose before es).erase =
      c.erase.gather cfg frame purpose.erase (before.map Value.erase) (es.map Expr.erase) := by
  cases es with
  | cons e more => rfl
  | nil =>
    cases purpose with
    | array =>
      rw [List.map_nil, Purpose.erase, gather, gather, ← List.map_reverse]
      dsimp only
      rw [erase_give, Value.erase, Value.eraseAll_eq_map]
      rfl
    | call callee position =>
      rw [List.map_nil, Purpose.erase, gather, gather, ← List.map_reverse]
      rfl
    | method receiver method current position =>
      rw [List.map_nil, Purpose.erase, gather, gather, ← List.map_reverse, erase_runMethod]
      rfl

theorem erase_eval (cfg : Config) (frame : FrameId) (e : Expr) :
    (c.eval cfg frame e).erase = c.erase.eval cfg frame e.erase := by
  have hlookup (name : String) :
      c.erase.world.store.lookup frame name = (c.world.store.lookup frame name).map Value.erase :=
    Store.lookup_erase c.world.store frame name
  cases e with
  | number | string | boolean => rfl
  | array p items =>
    rw [Expr.erase, Expr.eraseAll_eq_map, eval, eval]
    exact erase_gather c cfg frame .array [] items
  | var p name =>
    rw [Expr.erase, eval, eval, hlookup]
    cases c.world.store.lookup frame name with
    | none => exact erase_fail c _ _
    | some v => rfl
  | define p name init =>
    cases init with
    | none =>
      have hdefine := Store.define_erase c.world.store frame name .absent
      rw [eval, erase_give, erase_withStore, ← hdefine]
      rfl
    | some init => rfl
  | scope p bindings body =>
    rw [Expr.erase, Expr.eraseBindings_eq_map, eval, eval]
    exact erase_runScope c frame body bindings
  | assign p target value =>
    cases target with
    | var q name => rfl
    | _ => exact erase_fail c _ _
  | binary p op left right => rfl
  | lambda p name params body => rfl
  | call p callee args =>
    rw [Expr.erase, Expr.eraseAll_eq_map, eval, eval]
    rfl
  | method p receiver method args =>
    rw [Expr.erase, Expr.eraseAll_eq_map, eval, eval, hlookup]
    cases c.world.store.lookup frame receiver with
    | none => exact erase_fail c _ _
    | some current => exact erase_gather c cfg frame (.method receiver method current p) [] args
  | branch p cond consequent chained alternative =>
    rw [Expr.erase, Expr.eraseOption_eq_map, Expr.eraseOption_eq_map, eval, eval]
    rfl
  | block p statements =>
    rw [Expr.erase, Expr.eraseAll_eq_map, eval, eval]
    exact erase_runBlock c frame statements

theorem parameters_erase (names : List String) (args : List Value) :
    parameters names (args.map Value.erase) =
      (parameters names args).map (Prod.map id Value.erase) := by
  induction names generalizing args with
  | nil => rfl
  | cons name names ih =>
    cases args with
    | nil => exact congrArg _ (ih [])
    | cons v vs => exact congrArg _ (ih vs)

theorem erase_enter (cfg : Config) (i : Nat) (fn : Lambda) (frame : FrameId) (args : List Value)
    (position : Option Position) : (c.enter cfg i fn frame args position).erase =
      c.erase.enter cfg i fn.erase frame (args.map Value.erase) (erasePlace position) := by
  have hextend : c.erase.world.store.extend frame = _ := Store.extend_erase c.world.store frame
  have hdepth : c.erase.depth = c.depth := rfl
  unfold enter
  rw [hextend, hdepth]
  cases cfg.limit.filter (· ≤ c.depth) with
  | some limit => exact erase_fail c _ position
  | none =>
    -- The frame of a call binds corresponding values: the function itself and its arguments.
    have hbindings :
        fn.erase.name.toList.map (fun name => (name, Value.closure i fn.erase frame)) ++
          parameters fn.erase.params (args.map Value.erase) =
        (fn.name.toList.map (fun name => (name, Value.closure i fn frame)) ++
          parameters fn.params args).map (Prod.map id Value.erase) := by
      rw [List.map_append, parameters_erase, List.map_map]
      rfl
    dsimp only
    rw [hbindings, Store.defineAll_erase]
    simp only [Transition.erase, Machine.erase, Control.erase, Pending.erase, List.map_cons,
      Lambda.erase, Activation.erase, Expr.position_erase, World.erase]
    rfl

theorem erase_apply (cfg : Config) (args : List Value) (position : Option Position)
    (callee : Value) : (c.apply cfg args position callee).erase =
      c.erase.apply cfg (args.map Value.erase) (erasePlace position) callee.erase := by
  cases callee with
  | number | string | boolean | array => exact erase_fail c _ position
  | closure id fn frame => exact erase_enter c cfg id fn frame args position
  | builtin b =>
    rw [Value.erase]
    cases b with
    | print | println =>
      rw [apply, apply, Value.headD_map_erase, Value.display_erase]
      rfl
    | time =>
      rw [apply, apply, Value.headD_map_erase]
      rfl
    | fib =>
      rw [apply, apply, Value.headD_map_erase]
      cases args.headD .absent with
      | number n => rfl
      | _ => exact erase_fail c _ position

theorem erase_resume (cfg : Config) (v : Value) (p : Pending) :
    (c.resume cfg v p).erase = c.erase.resume cfg v.erase p.erase := by
  cases p with
  | define name frame =>
    have hdefine := Store.define_erase c.world.store frame name v
    rw [resume, erase_give, erase_withStore, ← hdefine]
    rfl
  | scope name more body frame =>
    rw [Pending.erase, resume, resume, erase_bind]
    exact erase_runScope _ _ _ _
  | assign name frame position =>
    have hset : c.erase.world.store.set? frame name v.erase = _ :=
      Store.set?_erase c.world.store frame name v
    rw [Pending.erase, resume, resume, hset]
    cases c.world.store.set? frame name v with
    | none => exact erase_fail c _ _
    | some s => rfl
  | right op right frame position => rfl
  | operate op left position =>
    rw [Pending.erase, resume, resume, Value.operate_erase]
    cases Value.operate op left v with
    | ok w => rfl
    | error fault => exact erase_fail c _ _
  | callee args frame position => exact erase_gather c cfg frame (.call v position) [] args
  | gather purpose before more frame =>
    exact erase_gather c cfg frame purpose (v :: before) more
  | branch consequent chained alternative frame =>
    rw [Pending.erase, resume, resume, Value.isTruthy_erase]
    cases v.isTruthy with
    | true => rfl
    | false => cases chained <;> cases alternative <;> rfl
  | sequence more frame => exact erase_runBlock c frame more
  | activation call => rfl
  | timing started => rfl

end Context

theorem step_erase (cfg : Config) (m : Machine) : m.erase.step cfg = (m.step cfg).erase := by
  obtain ⟨control, pending, depth, world⟩ := m
  symm
  cases control with
  | eval e frame => exact Context.erase_eval ⟨pending, depth, world⟩ cfg frame e
  | apply callee args position =>
    exact Context.erase_apply ⟨pending, depth, world⟩ cfg args position callee
  | fib f =>
    rw [erase, Control.erase, step, step]
    cases f.step <;> rfl
  | value v =>
    cases pending with
    | nil => rfl
    | cons p pending => exact Context.erase_resume ⟨pending, depth, world⟩ cfg v p

theorem runTimed_erase (cfg : Config) (delays : Nat → Nat) (n : Nat) (m : Machine) :
    m.erase.runTimed cfg delays n = (m.runTimed cfg delays n).erase := by
  induction n generalizing delays m with
  | zero => rfl
  | succ n ih =>
    have hwait : m.erase.wait (delays 0) = (m.wait (delays 0)).erase := rfl
    rw [runTimed, runTimed, hwait, step_erase]
    cases (m.wait (delays 0)).step cfg with
    | next m => exact ih _ m
    | done f => rfl

end Machine

end ExprLang
