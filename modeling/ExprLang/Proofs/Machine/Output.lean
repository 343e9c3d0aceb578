import ExprLang.Proofs.Machine.Timed

namespace ExprLang

namespace Output

theorem write_empty (o : Output) : o.write "" = o := by
  cases o with
  | captured text => rw [write, String.append_empty]
  | silent => rfl

theorem write_write (o : Output) (text more : String) :
    (o.write text).write more = o.write (text ++ more) := by
  cases o with
  | captured before => rw [write, write, write, String.append_assoc]
  | silent => rfl

end Output

namespace Machine

def withOutput (m : Machine) (o : Output) : Machine :=
  ⟨m.control, m.pending, m.depth, ⟨m.world.store, o, m.world.now⟩⟩

def Transition.withOutput : Transition → Output → Transition
  | next m, o => next (m.withOutput o)
  | done f, o => done ⟨f.result, f.depth, ⟨f.world.store, o, f.world.now⟩⟩

/-- The value or the error, once the evaluation has ended. -/
def Transition.result? : Transition → Option (Except EvalError Value)
  | next _ => none
  | done f => some f.result

namespace Transition

variable (t : Transition) (o : Output)

theorem result?_withOutput : (t.withOutput o).result? = t.result? := by
  cases t <;> rfl

theorem store_withOutput : (t.withOutput o).world.store = t.world.store := by
  cases t <;> rfl

theorem output_withOutput : (t.withOutput o).world.output = o := by
  cases t <;> rfl

theorem of_silent {t t' : Transition} {o : Output} (h : t' = t.withOutput o) :
    t' = t.withOutput (o.write "") := by
  rw [h, o.write_empty]

theorem Alike.result? {t t' : Transition} (h : t.Alike t') : t.result? = t'.result? := by
  cases h with
  | next h => rfl
  | done h => exact congrArg some h.result

theorem Alike.store {t t' : Transition} (h : t.Alike t') : t.world.store = t'.world.store := by
  cases h with
  | next h => exact h.context.store
  | done h => exact h.store

end Transition

def elapsed? (m : Machine) : Option Nat :=
  match m.control, m.pending with
  | .value _, .timing started :: _ => some (m.world.now - started)
  | _, _ => none

def prints (m : Machine) : String :=
  match m.control, m.pending with
  | .apply (.builtin .print) args _, _ => (args.headD .absent).display
  | .apply (.builtin .println) args _, _ => (args.headD .absent).display.push '\n'
  | .value _, .timing started :: _ => timeText (m.world.now - started)
  | _, _ => ""

def printed (cfg : Config) (delays : Nat → Nat) : Nat → Machine → String
  | 0, _ => ""
  | n + 1, m =>
    (m.wait (delays 0)).prints ++
      match (m.wait (delays 0)).step cfg with
      | .next m => printed cfg (fun i => delays (i + 1)) n m
      | .done _ => ""

/-- The times that at most `n` steps have measured. -/
def measured (cfg : Config) (delays : Nat → Nat) : Nat → Machine → List Nat
  | 0, _ => []
  | n + 1, m =>
    (m.wait (delays 0)).elapsed?.toList ++
      match (m.wait (delays 0)).step cfg with
      | .next m => measured cfg (fun i => delays (i + 1)) n m
      | .done _ => []

namespace Context

def withOutput (c : Context) (o : Output) : Context :=
  ⟨c.pending, c.depth, ⟨c.world.store, o, c.world.now⟩⟩

variable (c : Context) (o : Output)

theorem runBlock_withOutput (frame : FrameId) (es : List Expr) :
    (c.withOutput o).runBlock frame es = (c.runBlock frame es).withOutput o := by
  rcases es with _ | ⟨e, _ | ⟨e', more⟩⟩ <;> rfl

theorem runScope_withOutput (frame : FrameId) (body : Expr) (bs : List (Binding Expr)) :
    (c.withOutput o).runScope frame body bs = (c.runScope frame body bs).withOutput o := by
  induction bs generalizing c frame with
  | nil => rfl
  | cons b bs ih =>
    obtain ⟨name, _ | init⟩ := b
    · exact ih (c.bind frame name .absent).2 _
    · rfl

theorem runMethod_withOutput (cfg : Config) (frame : FrameId) (receiver method : String)
    (current : Value) (args : List Value) (position : Option Position) :
    (c.withOutput o).runMethod cfg frame receiver method current args position =
      (c.runMethod cfg frame receiver method current args position).withOutput o := by
  unfold runMethod
  dsimp only [withOutput]
  cases cfg.methods.invoke _ current method args with
  | error fault => rfl
  | ok v =>
    dsimp only
    cases Store.set? _ frame receiver v with
    | none => rfl
    | some s => rfl

theorem gather_withOutput (cfg : Config) (frame : FrameId) (purpose : Purpose)
    (before : List Value) (es : List Expr) :
    (c.withOutput o).gather cfg frame purpose before es =
      (c.gather cfg frame purpose before es).withOutput o := by
  cases es with
  | cons e more => rfl
  | nil =>
    cases purpose with
    | array => rfl
    | call callee position => rfl
    | method receiver method current position => exact runMethod_withOutput c o ..

theorem eval_withOutput (cfg : Config) (frame : FrameId) (e : Expr) :
    (c.withOutput o).eval cfg frame e = (c.eval cfg frame e).withOutput o := by
  cases e with
  | array p items => exact gather_withOutput c o cfg ..
  | var p name =>
    simp only [eval, withOutput]
    cases c.world.store.lookup frame name <;> rfl
  | define p name init => cases init <;> rfl
  | scope p bindings body => exact runScope_withOutput c o ..
  | assign p target value => cases target <;> rfl
  | method p receiver method args =>
    simp only [eval, withOutput]
    cases c.world.store.lookup frame receiver with
    | none => rfl
    | some current => exact gather_withOutput c o cfg ..
  | block p statements => exact runBlock_withOutput c o ..
  | _ => rfl

theorem enter_withOutput (cfg : Config) (id : Nat) (fn : Lambda) (frame : FrameId)
    (args : List Value) (position : Option Position) :
    (c.withOutput o).enter cfg id fn frame args position =
      (c.enter cfg id fn frame args position).withOutput o := by
  have hdepth : cfg.limit.filter (· ≤ (c.withOutput o).depth) =
      cfg.limit.filter (· ≤ c.depth) := rfl
  unfold enter
  rw [hdepth]
  cases cfg.limit.filter (· ≤ c.depth) <;> rfl

theorem apply_withOutput (cfg : Config) (args : List Value) (position : Option Position)
    (callee : Value) : (c.withOutput o).apply cfg args position callee =
      (c.apply cfg args position callee).withOutput
        (o.write (prints ⟨.apply callee args position, c.pending, c.depth, c.world⟩)) := by
  cases callee with
  | closure id fn frame => exact Transition.of_silent (enter_withOutput c o ..)
  | builtin b =>
    cases b with
    | print => rfl
    | println => rfl
    | time => exact Transition.of_silent rfl
    | fib =>
      refine Transition.of_silent ?_
      simp only [apply]
      cases args.headD .absent <;> rfl
  | _ => exact Transition.of_silent rfl

theorem resume_withOutput (cfg : Config) (v : Value) (p : Pending) :
    (c.withOutput o).resume cfg v p = (c.resume cfg v p).withOutput
      (o.write (prints ⟨.value v, p :: c.pending, c.depth, c.world⟩)) := by
  cases p with
  | define name frame => exact Transition.of_silent rfl
  | scope name more body frame =>
    exact Transition.of_silent (runScope_withOutput (c.bind frame name v).2 o ..)
  | assign name frame position =>
    refine Transition.of_silent ?_
    simp only [resume, withOutput]
    cases c.world.store.set? frame name v <;> rfl
  | right op right frame position => exact Transition.of_silent rfl
  | operate op left position =>
    refine Transition.of_silent ?_
    simp only [resume]
    cases Value.operate op left v <;> rfl
  | callee args frame position => exact Transition.of_silent (gather_withOutput c o cfg ..)
  | gather purpose before more frame => exact Transition.of_silent (gather_withOutput c o cfg ..)
  | branch consequent chained alternative frame =>
    refine Transition.of_silent ?_
    simp only [resume]
    cases v.isTruthy with
    | true => rfl
    | false => cases chained <|> alternative <;> rfl
  | sequence more frame => exact Transition.of_silent (runBlock_withOutput c o ..)
  | activation call => exact Transition.of_silent rfl
  | timing started => rfl

end Context

/-- One step adds what it prints, and does not look at what has been printed. -/
theorem step_withOutput (cfg : Config) (m : Machine) (o : Output) :
    (m.withOutput o).step cfg = (m.step cfg).withOutput (o.write m.prints) := by
  obtain ⟨control, pending, depth, world⟩ := m
  cases control with
  | eval e frame =>
    exact Transition.of_silent (Context.eval_withOutput ⟨pending, depth, world⟩ o cfg frame e)
  | apply callee args position =>
    exact Context.apply_withOutput ⟨pending, depth, world⟩ o cfg args position callee
  | fib f =>
    refine Transition.of_silent ?_
    simp only [step, withOutput]
    cases f.step <;> rfl
  | value v =>
    cases pending with
    | nil => exact Transition.of_silent rfl
    | cons p pending => exact Context.resume_withOutput ⟨pending, depth, world⟩ o cfg v p

theorem runTimed_withOutput (cfg : Config) (delays : Nat → Nat) (n : Nat) (m : Machine)
    (o : Output) : (m.withOutput o).runTimed cfg delays n =
      (m.runTimed cfg delays n).withOutput (o.write (m.printed cfg delays n)) := by
  induction n generalizing delays m o with
  | zero => exact Transition.of_silent rfl
  | succ n ih =>
    have hstep := step_withOutput cfg (m.wait (delays 0)) o
    rw [runTimed, runTimed, printed, ← Output.write_write]
    generalize (m.wait (delays 0)).prints = text at hstep ⊢
    generalize (m.wait (delays 0)).step cfg = t at hstep ⊢
    have hwait : (m.withOutput o).wait (delays 0) = (m.wait (delays 0)).withOutput o := rfl
    rw [hwait, hstep]
    cases t with
    | next m' => exact ih _ m' _
    | done f => exact Transition.of_silent rfl

theorem measured_withOutput (cfg : Config) (delays : Nat → Nat) (n : Nat) (m : Machine)
    (o : Output) : (m.withOutput o).measured cfg delays n = m.measured cfg delays n := by
  induction n generalizing delays m o with
  | zero => rfl
  | succ n ih =>
    have hwait : (m.withOutput o).wait (delays 0) = (m.wait (delays 0)).withOutput o := rfl
    rw [measured, measured, hwait, step_withOutput]
    refine congrArg _ ?_
    cases (m.wait (delays 0)).step cfg with
    | next m' => exact ih _ m' _
    | done f => rfl

namespace Alike

variable {m m' : Machine}

theorem prints_cases (h : m.Alike m') :
    (m.elapsed? = none ∧ m'.elapsed? = none ∧ m.prints = m'.prints) ∨
    ∃ j k, m.elapsed? = some j ∧ m'.elapsed? = some k ∧ m.prints = timeText j ∧
      m'.prints = timeText k := by
  obtain ⟨control, pending, depth, world⟩ := m
  obtain ⟨control', pending', depth', world'⟩ := m'
  obtain ⟨hcontrol, hcontext⟩ := h
  cases hcontrol
  cases control with
  | eval e frame => exact .inl ⟨rfl, rfl, rfl⟩
  | apply callee args position =>
    refine .inl ⟨rfl, rfl, ?_⟩
    cases callee with
    | builtin b => cases b <;> rfl
    | _ => rfl
  | fib f => exact .inl ⟨rfl, rfl, rfl⟩
  | value v =>
    cases hcontext.pending with
    | nil => exact .inl ⟨rfl, rfl, rfl⟩
    | @cons p p' _ _ hp _ =>
      cases hp with
      | timing j k => exact .inr ⟨_, _, rfl, rfl, rfl, rfl⟩
      | refl =>
        cases p with
        | timing started => exact .inr ⟨_, _, rfl, rfl, rfl, rfl⟩
        | _ => exact .inl ⟨rfl, rfl, rfl⟩

theorem printed_eq (h : m.Alike m') (cfg : Config) (delays delays' : Nat → Nat) (n : Nat)
    (hmeasured : m.measured cfg delays n = m'.measured cfg delays' n) :
    m.printed cfg delays n = m'.printed cfg delays' n := by
  induction n generalizing m m' delays delays' with
  | zero => rfl
  | succ n ih =>
    have hwait := h.wait (delays 0) (delays' 0)
    have hstep := hwait.step cfg
    have hcases := hwait.prints_cases
    rw [measured, measured] at hmeasured
    rw [printed, printed]
    generalize m.wait (delays 0) = w, m'.wait (delays' 0) = w' at hstep hcases hmeasured ⊢
    -- The first step measures a time in both runs or in neither, so the other times are equal too.
    obtain ⟨hprints, hlater⟩ : w.prints = w'.prints ∧ _ = _ := by
      rcases hcases with ⟨hnone, hnone', hprints⟩ | ⟨j, k, hj, hk, hprints, hprints'⟩
      · rw [hnone, hnone'] at hmeasured
        exact ⟨hprints, hmeasured⟩
      · rw [hj, hk] at hmeasured
        obtain ⟨rfl, hlater⟩ := List.cons.inj hmeasured
        exact ⟨hprints.trans hprints'.symm, hlater⟩
    rw [hprints]
    refine congrArg _ ?_
    generalize w.step cfg = t, w'.step cfg = t' at hstep hlater ⊢
    cases hstep with
    | next h => exact ih h _ _ hlater
    | done h => rfl

end Alike

/-- Printed text is never read and only added to. From whatever state, with any output and on any
clock, an evaluation comes to the same value or error and leaves the same scopes. After what was
captured before there is one text, on another clock too if the times that were measured are the
same. -/
theorem output_appended (cfg : Config) (control : Control) (depth : Nat) (store : Store)
    (delays delays' : Nat → Nat) (now now' n : Nat) :
    ∃ text, ∀ o o' : Output, ∀ t t' : Transition,
      t = (start control depth ⟨store, o, now⟩).runTimed cfg delays n →
      t' = (start control depth ⟨store, o', now'⟩).runTimed cfg delays' n →
      t.result? = t'.result? ∧ t.world.store = t'.world.store ∧
      t.world.output = o.write text ∧
      ((start control depth ⟨store, o, now⟩).measured cfg delays n =
          (start control depth ⟨store, o', now'⟩).measured cfg delays' n →
        t'.world.output = o'.write text) := by
  generalize hm : start control depth ⟨store, .silent, now⟩ = m
  generalize hm' : start control depth ⟨store, .silent, now'⟩ = m'
  have halike : m.Alike m' := by
    subst hm hm'
    exact ⟨rfl, .nil, rfl, rfl, .silent⟩
  have hrun := halike.runTimed cfg delays delays' n
  have hstart (o : Output) : start control depth ⟨store, o, now⟩ = m.withOutput o := by
    rw [← hm]
    rfl
  have hstart' (o' : Output) : start control depth ⟨store, o', now'⟩ = m'.withOutput o' := by
    rw [← hm']
    rfl
  refine ⟨m.printed cfg delays n, ?_⟩
  rintro o o' t t' rfl rfl
  rw [hstart, hstart', runTimed_withOutput, runTimed_withOutput, measured_withOutput,
    measured_withOutput]
  refine ⟨?_, ?_, Transition.output_withOutput _ _, fun hmeasured => ?_⟩
  · rw [Transition.result?_withOutput, Transition.result?_withOutput, hrun.result?]
  · rw [Transition.store_withOutput, Transition.store_withOutput, hrun.store]
  · rw [Transition.output_withOutput, halike.printed_eq cfg delays delays' n hmeasured]

/-- A measured `print`, on clocks that are set and go differently but measure the same time. -/
theorem output_appended_time : ∃ text,
    ((start (.apply (.builtin .time) [.builtin .print] none) 0 ⟨.empty, .captured "x", 0⟩).runTimed
      .standard (fun _ => 2) 4).world.output = .captured ("x" ++ text) ∧
    ((start (.apply (.builtin .time) [.builtin .print] none) 0 ⟨.empty, .captured "y", 5⟩).runTimed
      .standard (fun i => i + i % 2) 4).world.output = .captured ("y" ++ text) := by
  obtain ⟨text, h⟩ := output_appended .standard (.apply (.builtin .time) [.builtin .print] none) 0
    .empty (fun _ => 2) (fun i => i + i % 2) 0 5 4
  obtain ⟨-, -, hx, hy⟩ := h (.captured "x") (.captured "y") _ _ rfl rfl
  exact ⟨text, hx, hy rfl⟩

end Machine

end ExprLang
