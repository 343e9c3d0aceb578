import ExprLang.Machine
import Mathlib.Data.List.Forall2

namespace ExprLang

def timeText (ms : Nat) : String := "Time: " ++ toString ms ++ "ms\n"

/-- Texts that are equal apart from times that were measured. -/
inductive TimesAside : String → String → Prop
  | nil : TimesAside "" ""
  | append {a b : String} (text : String) (h : TimesAside a b) : TimesAside (a ++ text) (b ++ text)
  | time {a b : String} (j k : Nat) (h : TimesAside a b) :
    TimesAside (a ++ timeText j) (b ++ timeText k)

theorem TimesAside.refl (text : String) : TimesAside text text := by
  have h := TimesAside.append text .nil
  rwa [String.empty_append] at h

namespace Output

/-- Outputs that have captured the same text apart from times that were measured. -/
inductive SameAside : Output → Output → Prop
  | captured {a b : String} (h : TimesAside a b) : SameAside (.captured a) (.captured b)
  | silent : SameAside .silent .silent

namespace SameAside

variable {o o' : Output}

theorem refl : (o : Output) → SameAside o o
  | .captured text => .captured (.refl text)
  | .silent => .silent

theorem write (text : String) (h : SameAside o o') : SameAside (o.write text) (o'.write text) := by
  cases h with
  | captured h => exact .captured (h.append text)
  | silent => exact .silent

theorem writeTime (j k : Nat) (h : SameAside o o') :
    SameAside (o.write (timeText j)) (o'.write (timeText k)) := by
  cases h with
  | captured h => exact .captured (h.time j k)
  | silent => exact .silent

end SameAside

end Output

namespace Machine

def wait (m : Machine) (ms : Nat) : Machine :=
  ⟨m.control, m.pending, m.depth, ⟨m.world.store, m.world.output, m.world.now + ms⟩⟩

/-- At most `n` steps; `delays i` milliseconds pass before step `i`. -/
def runTimed (cfg : Config) (delays : Nat → Nat) : Nat → Machine → Transition
  | 0, m => .next m
  | n + 1, m =>
    match (m.wait (delays 0)).step cfg with
    | .next m => runTimed cfg (fun i => delays (i + 1)) n m
    | .done f => .done f

def Transition.runTimed (cfg : Config) (delays : Nat → Nat) (n : Nat) : Transition → Transition
  | next m => m.runTimed cfg delays n
  | done f => done f

theorem runTimed_succ (cfg : Config) (delays : Nat → Nat) (n : Nat) (m : Machine) :
    m.runTimed cfg delays (n + 1) =
      ((m.wait (delays 0)).step cfg).runTimed cfg (fun i => delays (i + 1)) n := by
  rw [Machine.runTimed]
  cases (m.wait (delays 0)).step cfg <;> rfl

/-- On a clock that stands still, these are the steps alone. -/
theorem runTimed_zero (cfg : Config) (n : Nat) (m : Machine) :
    runTimed cfg (fun _ => 0) n m = run cfg n m := by
  induction n generalizing m with
  | zero => rfl
  | succ n ih =>
    have hwait : m.wait 0 = m := rfl
    rw [runTimed, run, hwait]
    cases m.step cfg with
    | next m => exact ih m
    | done f => rfl

theorem runTimed_add (cfg : Config) (delays : Nat → Nat) (k n : Nat) (m : Machine) :
    m.runTimed cfg delays (k + n) =
      match m.runTimed cfg delays k with
      | .next m => m.runTimed cfg (fun i => delays (i + k)) n
      | .done f => .done f := by
  induction k generalizing delays m with
  | zero =>
    rw [Nat.zero_add]
    rfl
  | succ k ih =>
    rw [Nat.succ_add, runTimed, runTimed]
    cases (m.wait (delays 0)).step cfg with
    | next m => exact ih _ m
    | done f => rfl

/-- Something to do with nothing on the stack: the start of an evaluation or a call. -/
def start (control : Control) (depth : Nat) (world : World) : Machine :=
  ⟨control, [], depth, world⟩

/-- The world as it is now, or as the evaluation has left it. -/
def Transition.world : Transition → World
  | next m => m.world
  | done f => f.world

/-- The evaluation ends, with a value or an error. -/
def Ends (cfg : Config) (delays : Nat → Nat) (m : Machine) : Prop :=
  ∃ n f, m.runTimed cfg delays n = .done f

def Transition.isDone : Transition → Bool
  | next _ => false
  | done _ => true

theorem ends_of_isDone {cfg : Config} {delays : Nat → Nat} {m : Machine} (n : Nat)
    (h : (m.runTimed cfg delays n).isDone = true) : m.Ends cfg delays := by
  cases hrun : m.runTimed cfg delays n with
  | next m' =>
    rw [hrun] at h
    cases h
  | done f => exact ⟨n, f, hrun⟩

/-- Entries of the stack that differ at most in when a measurement began. -/
inductive Pending.Alike : Pending → Pending → Prop
  | refl (p : Pending) : Alike p p
  | timing (j k : Nat) : Alike (.timing j) (.timing k)

/-- The same ends apart from times that were measured. -/
structure Finished.Alike (f g : Finished) : Prop where
  result : f.result = g.result
  depth : f.depth = g.depth
  store : f.world.store = g.world.store
  output : f.world.output.SameAside g.world.output

/-- The same contexts apart from times, measured or not yet. -/
structure Context.Alike (c d : Context) : Prop where
  pending : List.Forall₂ Pending.Alike c.pending d.pending
  depth : c.depth = d.depth
  store : c.world.store = d.world.store
  output : c.world.output.SameAside d.world.output

/-- What a machine needs besides what it does. -/
def context (m : Machine) : Context := ⟨m.pending, m.depth, m.world⟩

/-- Machines that do the same in alike contexts. -/
structure Alike (m m' : Machine) : Prop where
  control : m.control = m'.control
  context : m.context.Alike m'.context

inductive Transition.Alike : Transition → Transition → Prop
  | next {m m' : Machine} (h : m.Alike m') : Alike (.next m) (.next m')
  | done {f g : Finished} (h : f.Alike g) : Alike (.done f) (.done g)

theorem Context.Alike.refl (c : Context) : c.Alike c :=
  ⟨List.forall₂_same.mpr fun p _ => .refl p, rfl, rfl, .refl _⟩

theorem Alike.refl (m : Machine) : m.Alike m := ⟨rfl, .refl _⟩

theorem Alike.wait {m m' : Machine} (h : m.Alike m') (j k : Nat) :
    (m.wait j).Alike (m'.wait k) :=
  ⟨h.control, h.context.pending, h.context.depth, h.context.store, h.context.output⟩

theorem activations_of_alike {ps qs : List Pending} (h : List.Forall₂ Pending.Alike ps qs) :
    activations ps = activations qs := by
  induction h with
  | nil => rfl
  | cons hp _ ih =>
    rw [activations_cons, activations_cons, ih]
    cases hp <;> rfl

theorem site?_of_alike {ps qs : List Pending} (h : List.Forall₂ Pending.Alike ps qs) :
    site? ps = site? qs := by
  induction h with
  | nil => rfl
  | cons hp _ ih =>
    rw [site?_cons, site?_cons, ih]
    cases hp <;> rfl

namespace Context.Alike

variable {c d : Context} (h : c.Alike d)
include h

theorem go (control : Control) : (c.go control).Alike (d.go control) :=
  .next ⟨rfl, h.pending, h.depth, h.store, h.output⟩

theorem give (v : Value) : (c.give v).Alike (d.give v) := h.go _

theorem push {p q : Pending} (hp : p.Alike q) : (c.push p).Alike (d.push q) :=
  ⟨.cons hp h.pending, h.depth, h.store, h.output⟩

theorem pushSame (p : Pending) : (c.push p).Alike (d.push p) := h.push (.refl p)

theorem fail (fault : EvalFault) (position : Option Position) :
    (c.fail fault position).Alike (d.fail fault position) := by
  rw [fail_eq, fail_eq, activations_of_alike h.pending, site?_of_alike h.pending, h.depth]
  exact .done ⟨rfl, rfl, h.store, h.output⟩

theorem withStore (s : Store) : (c.withStore s).Alike (d.withStore s) :=
  ⟨h.pending, h.depth, rfl, h.output⟩

theorem write (text : String) : (c.write text).Alike (d.write text) :=
  ⟨h.pending, h.depth, h.store, h.output.write text⟩

theorem runBlock (frame : FrameId) (es : List Expr) :
    (c.runBlock frame es).Alike (d.runBlock frame es) := by
  rcases es with _ | ⟨e, _ | ⟨e', more⟩⟩
  · exact h.give _
  · exact h.go _
  · exact (h.pushSame _).go _

theorem bind (frame : FrameId) (name : String) (v : Value) :
    ∃ inner c' d', c.bind frame name v = (inner, c') ∧ d.bind frame name v = (inner, d') ∧
      c'.Alike d' := by
  unfold Context.bind
  rw [h.store]
  exact ⟨_, _, _, rfl, rfl, h.withStore _⟩

omit h in
theorem runScope {c d : Context} (h : c.Alike d) (frame : FrameId) (body : Expr)
    (bs : List (Binding Expr)) : (c.runScope frame body bs).Alike (d.runScope frame body bs) := by
  induction bs generalizing c d frame with
  | nil => exact h.go _
  | cons b bs ih =>
    obtain ⟨name, _ | init⟩ := b
    · obtain ⟨inner, c', d', hleft, hright, hinner⟩ := h.bind frame name .absent
      rw [Context.runScope, Context.runScope, hleft, hright]
      exact ih hinner inner
    · exact (h.pushSame _).go _

theorem runMethod (cfg : Config) (frame : FrameId) (receiver method : String) (current : Value)
    (args : List Value) (position : Option Position) :
    (c.runMethod cfg frame receiver method current args position).Alike
      (d.runMethod cfg frame receiver method current args position) := by
  unfold Context.runMethod
  rw [h.store]
  dsimp only
  cases cfg.methods.invoke _ current method args with
  | error fault => exact h.fail _ _
  | ok v =>
    dsimp only
    cases Store.set? _ frame receiver v with
    | none => exact h.fail _ _
    | some s => exact (h.withStore _).give _

theorem gather (cfg : Config) (frame : FrameId) (purpose : Purpose) (before : List Value)
    (es : List Expr) :
    (c.gather cfg frame purpose before es).Alike (d.gather cfg frame purpose before es) := by
  cases es with
  | cons e more => exact (h.pushSame _).go _
  | nil =>
    cases purpose with
    | array =>
      rw [Context.gather, Context.gather, h.store]
      exact (h.withStore _).give _
    | call callee position => exact h.go _
    | method receiver method current position => exact h.runMethod ..

theorem eval (cfg : Config) (frame : FrameId) (e : Expr) :
    (c.eval cfg frame e).Alike (d.eval cfg frame e) := by
  cases e with
  | number | string | boolean => exact h.give _
  | array p items => exact h.gather cfg ..
  | var p name =>
    rw [Context.eval, Context.eval, h.store]
    cases d.world.store.lookup frame name with
    | none => exact h.fail _ _
    | some v => exact h.give _
  | define p name init =>
    cases init with
    | none =>
      rw [Context.eval, Context.eval, h.store]
      exact (h.withStore _).give _
    | some init => exact (h.pushSame _).go _
  | scope p bindings body => exact h.runScope ..
  | assign p target value =>
    cases target with
    | var q name => exact (h.pushSame _).go _
    | _ => exact h.fail _ _
  | binary p op left right => exact (h.pushSame _).go _
  | lambda p name params body =>
    rw [Context.eval, Context.eval, h.store]
    exact (h.withStore _).give _
  | call p callee args => exact (h.pushSame _).go _
  | method p receiver method args =>
    rw [Context.eval, Context.eval, h.store]
    cases d.world.store.lookup frame receiver with
    | none => exact h.fail _ _
    | some current => exact h.gather cfg ..
  | branch p cond consequent chained alternative => exact (h.pushSame _).go _
  | block p statements => exact h.runBlock ..

theorem enter (cfg : Config) (id : Nat) (fn : Lambda) (frame : FrameId) (args : List Value)
    (position : Option Position) :
    (c.enter cfg id fn frame args position).Alike (d.enter cfg id fn frame args position) := by
  unfold Context.enter
  rw [h.store, h.depth]
  cases cfg.limit.filter (· ≤ d.depth) with
  | some limit => exact h.fail _ _
  | none => exact .next ⟨rfl, .cons (.refl _) h.pending, rfl, rfl, h.output⟩

theorem apply (cfg : Config) (args : List Value) (position : Option Position) (callee : Value) :
    (c.apply cfg args position callee).Alike (d.apply cfg args position callee) := by
  cases callee with
  | number | string | boolean | array => exact h.fail _ _
  | closure id fn frame => exact h.enter ..
  | builtin b =>
    cases b with
    | print | println => exact (h.write _).give _
    -- The clocks need not agree here: only the entry on the stack holds the time.
    | time => exact (h.push (.timing _ _)).go _
    | fib =>
      rw [Context.apply, Context.apply]
      cases args.headD .absent with
      | number n => exact h.go _
      | _ => exact h.fail _ _

theorem resume (cfg : Config) (v : Value) {p q : Pending} (hp : p.Alike q) :
    (c.resume cfg v p).Alike (d.resume cfg v q) := by
  cases hp with
  | timing j k =>
    exact .next ⟨rfl, h.pending, h.depth, h.store, h.output.writeTime _ _⟩
  | refl p =>
    cases p with
    | define name frame =>
      rw [Context.resume, Context.resume, h.store]
      exact (h.withStore _).give _
    | scope name more body frame =>
      obtain ⟨inner, c', d', hleft, hright, hinner⟩ := h.bind frame name v
      rw [Context.resume, Context.resume, hleft, hright]
      exact hinner.runScope ..
    | assign name frame position =>
      rw [Context.resume, Context.resume, h.store]
      cases d.world.store.set? frame name v with
      | none => exact h.fail _ _
      | some s => exact (h.withStore _).give _
    | right op right frame position => exact (h.pushSame _).go _
    | operate op left position =>
      rw [Context.resume, Context.resume]
      cases Value.operate op left v with
      | ok w => exact h.give _
      | error fault => exact h.fail _ _
    | callee args frame position => exact h.gather cfg ..
    | gather purpose before more frame => exact h.gather cfg ..
    | branch consequent chained alternative frame =>
      rw [Context.resume, Context.resume]
      cases v.isTruthy with
      | true => exact h.go _
      | false =>
        cases chained <|> alternative with
        | none => exact h.give _
        | some e => exact h.go _
    | sequence more frame => exact h.runBlock ..
    | activation call =>
      refine .next ⟨rfl, h.pending, ?_, h.store, h.output⟩
      change c.depth - 1 = d.depth - 1
      rw [h.depth]
    | timing started =>
      exact .next ⟨rfl, h.pending, h.depth, h.store, h.output.writeTime _ _⟩

end Context.Alike

theorem Alike.step {m m' : Machine} (h : m.Alike m') (cfg : Config) :
    (m.step cfg).Alike (m'.step cfg) := by
  obtain ⟨control, pending, depth, world⟩ := m
  obtain ⟨control', pending', depth', world'⟩ := m'
  obtain ⟨hcontrol, hcontext⟩ := h
  cases hcontrol
  cases control with
  | eval e frame => exact hcontext.eval cfg frame e
  | apply callee args position => exact hcontext.apply cfg args position callee
  | fib f =>
    rw [Machine.step, Machine.step]
    cases f.step with
    | inl f => exact hcontext.go (.fib f)
    | inr x => exact hcontext.give (.number x)
  | value v =>
    cases hcontext.pending with
    | nil => exact .done ⟨rfl, hcontext.depth, hcontext.store, hcontext.output⟩
    | cons hp hpending =>
      have hrest : Context.Alike ⟨_, depth, world⟩ ⟨_, depth', world'⟩ :=
        ⟨hpending, hcontext.depth, hcontext.store, hcontext.output⟩
      exact hrest.resume cfg v hp

theorem Alike.runTimed {m m' : Machine} (h : m.Alike m') (cfg : Config) (delays delays' : Nat → Nat)
    (n : Nat) : (m.runTimed cfg delays n).Alike (m'.runTimed cfg delays' n) := by
  induction n generalizing m m' delays delays' with
  | zero => exact .next h
  | succ n ih =>
    have hstep := (h.wait (delays 0) (delays' 0)).step cfg
    rw [Machine.runTimed, Machine.runTimed]
    generalize (m.wait (delays 0)).step cfg = t at hstep ⊢
    generalize (m'.wait (delays' 0)).step cfg = t' at hstep ⊢
    cases hstep with
    | next h => exact ih h _ _
    | done h => exact .done h

end Machine

end ExprLang
