import ExprLang.Proofs.Expr.Tree
import ExprLang.Proofs.Machine.Timed
import ExprLang.Proofs.Number.Fibonacci
import ExprLang.Session

namespace ExprLang.Machine
open Number

def AtFib (m : Machine) (x : Float) : Prop :=
  ∃ args position, m.control = .apply (.builtin .fib) args position ∧
    args.headD .absent = .number x

/-- The evaluation makes a call of `fib` with this number. -/
def CallsFib (cfg : Config) (delays : Nat → Nat) (m : Machine) (x : Float) : Prop :=
  ∃ n m', m.runTimed cfg delays n = .next m' ∧ m'.AtFib x

/-- The evaluation ends if all the calls of `fib` that it makes end, whatever the clock does. -/
def Halts (cfg : Config) (m : Machine) : Prop :=
  ∀ delays, (∀ x, m.CallsFib cfg delays x → (Fibonacci.start x).Ends) → m.Ends cfg delays

def Transition.Halts (cfg : Config) : Transition → Prop
  | next m => m.Halts cfg
  | done _ => True

variable {cfg : Config}

theorem ends_of_step {delays : Nat → Nat} {m m' : Machine}
    (hstep : (m.wait (delays 0)).step cfg = .next m')
    (h : m'.Ends cfg fun i => delays (i + 1)) : m.Ends cfg delays := by
  obtain ⟨n, f, hrun⟩ := h
  refine ⟨n + 1, f, ?_⟩
  rw [runTimed, hstep]
  exact hrun

theorem callsFib_of_step {delays : Nat → Nat} {m m' : Machine} {x : Float}
    (hstep : (m.wait (delays 0)).step cfg = .next m')
    (h : m'.CallsFib cfg (fun i => delays (i + 1)) x) : m.CallsFib cfg delays x := by
  obtain ⟨n, m'', hrun, hx⟩ := h
  refine ⟨n + 1, m'', ?_, hx⟩
  rw [runTimed, hstep]
  exact hrun

theorem halts_of_step {m : Machine}
    (h : (∀ x, m.AtFib x → (Fibonacci.start x).Ends) → ∀ ms, ((m.wait ms).step cfg).Halts cfg) :
    m.Halts cfg := by
  intro delays hfib
  have htransition := h (fun x hx => hfib x ⟨0, m, rfl, hx⟩) (delays 0)
  cases hstep : (m.wait (delays 0)).step cfg with
  | done f =>
    refine ⟨1, f, ?_⟩
    rw [runTimed, hstep]
  | next m' =>
    rw [hstep] at htransition
    exact ends_of_step hstep (htransition _ fun x hx => hfib x (callsFib_of_step hstep hx))

namespace Context

/-- With `depth` calls under way, the evaluation halts whatever value the stack is given. -/
structure Ready (cfg : Config) (depth : Nat) (c : Context) : Prop where
  depth : c.depth = depth
  accepts : ∀ v world, Machine.Halts cfg ⟨.value v, c.pending, c.depth, world⟩

/-- Expressions that halt on every stack that is ready for their value. -/
def Evaluates (cfg : Config) (depth : Nat) (e : Expr) : Prop :=
  ∀ (c : Context) frame, c.Ready cfg depth → (c.go (.eval e frame)).Halts cfg

/-- Calls of functions made from expressions halt on every stack that is ready for their value. -/
def Enters (cfg : Config) (depth : Nat) : Prop :=
  ∀ (c : Context) id fn frame args position, c.Ready cfg depth →
    (c.enter cfg id fn frame args position).Halts cfg

variable {c : Context} {depth : Nat}

theorem ready_nil (depth : Nat) (world : World) : Ready cfg depth ⟨[], depth, world⟩ := by
  refine ⟨rfl, fun v world => ?_⟩
  apply halts_of_step
  intro _ ms
  trivial

namespace Ready

section Stack

variable (h : c.Ready cfg depth)
include h

theorem later (world : World) : Ready cfg depth ⟨c.pending, c.depth, world⟩ :=
  ⟨h.depth, h.accepts⟩

theorem give (v : Value) : (c.give v).Halts cfg := h.accepts v c.world

theorem push {p : Pending}
    (hp : ∀ v world, (resume cfg ⟨c.pending, c.depth, world⟩ v p).Halts cfg) :
    (c.push p).Ready cfg depth := by
  refine ⟨h.depth, fun v world => ?_⟩
  apply halts_of_step
  intro _ ms
  exact hp v _

theorem runMethod (frame : FrameId) (receiver method : String) (current : Value)
    (args : List Value) (position : Option Position) :
    (c.runMethod cfg frame receiver method current args position).Halts cfg := by
  unfold Context.runMethod
  dsimp only
  cases cfg.methods.invoke _ current method args with
  | error fault => trivial
  | ok v =>
    dsimp only
    cases Store.set? _ frame receiver v with
    | none => trivial
    | some s => exact h.accepts v _

end Stack

theorem fib {f : Fibonacci} (hf : f.Ends) (h : c.Ready cfg depth) : (c.go (.fib f)).Halts cfg := by
  obtain ⟨n, x, hrun⟩ := hf
  induction n generalizing f c with
  | zero => cases hrun
  | succ n ih =>
    apply halts_of_step
    intro _ ms
    rw [Fibonacci.run] at hrun
    rw [Machine.wait, step]
    cases hstep : f.step with
    | inl f' =>
      rw [hstep] at hrun
      exact ih (h.later _) hrun
    | inr y => exact h.accepts _ _

theorem runBlock {frame : FrameId} {es : List Expr} (hes : ∀ e ∈ es, Evaluates cfg depth e)
    (h : c.Ready cfg depth) : (c.runBlock frame es).Halts cfg := by
  induction es generalizing c with
  | nil => exact h.give _
  | cons e es ih =>
    obtain ⟨he, hes⟩ := List.forall_mem_cons.mp hes
    cases es with
    | nil => exact he c frame h
    | cons e' es => exact he _ frame (h.push fun v world => ih hes (h.later world))

theorem runScope {frame : FrameId} {body : Expr} {bs : List (Binding Expr)}
    (hbs : ∀ e ∈ bs.filterMap (·.init), Evaluates cfg depth e) (hbody : Evaluates cfg depth body)
    (h : c.Ready cfg depth) : (c.runScope frame body bs).Halts cfg := by
  induction bs generalizing c frame with
  | nil => exact hbody c frame h
  | cons b bs ih =>
    obtain ⟨name, _ | init⟩ := b
    · exact ih hbs (h.later _)
    · obtain ⟨hinit, hbs⟩ := List.forall_mem_cons.mp hbs
      exact hinit _ frame (h.push fun v world => ih hbs (h.later _))

section Calls

variable (henter : Enters cfg depth)
include henter

theorem apply_of_time (h : c.Ready cfg depth) {callee : Value} {args : List Value}
    {position : Option Position}
    (htime : callee = .builtin .time → ∀ inner : Context, inner.Ready cfg depth →
      (inner.go (.apply (args.headD .absent) [] position)).Halts cfg) :
    (c.go (.apply callee args position)).Halts cfg := by
  apply halts_of_step
  intro hfib ms
  cases callee with
  | number | string | boolean | array => trivial
  | closure id fn frame => exact henter _ id fn frame args position (h.later _)
  | builtin b =>
    cases b with
    | print | println => exact h.accepts _ _
    | time => exact htime rfl _ ((h.later _).push fun v world => h.accepts v _)
    | fib =>
      rw [Machine.wait, step, Context.apply]
      cases hx : args.headD .absent with
      | number x => exact fib (hfib x ⟨args, position, rfl, hx⟩) (h.later _)
      | _ => trivial

theorem apply (h : c.Ready cfg depth) (callee : Value) (args : List Value)
    (position : Option Position) : (c.go (.apply callee args position)).Halts cfg := by
  -- `time` may call `time`, but that has nothing to call then.
  refine apply_of_time henter h fun _ inner h => ?_
  refine apply_of_time henter h fun _ inner h => ?_
  refine apply_of_time henter h fun htime => ?_
  cases htime

theorem gather {frame : FrameId} {purpose : Purpose} {before : List Value} {es : List Expr}
    (hes : ∀ e ∈ es, Evaluates cfg depth e) (h : c.Ready cfg depth) :
    (c.gather cfg frame purpose before es).Halts cfg := by
  induction es generalizing c before with
  | nil =>
    cases purpose with
    | array => exact h.accepts _ _
    | call callee position => exact apply henter h callee _ _
    | method receiver method current position => exact h.runMethod ..
  | cons e es ih =>
    obtain ⟨he, hes⟩ := List.forall_mem_cons.mp hes
    exact he _ frame (h.push fun v world => ih hes (h.later world))

theorem eval {e : Expr} (hbelow : ∀ b ∈ e.children, Evaluates cfg depth b)
    (h : c.Ready cfg depth) (frame : FrameId) : (c.eval cfg frame e).Halts cfg := by
  cases e with
  | number | string | boolean => exact h.give _
  | array p items => exact gather henter hbelow h
  | var p name =>
    rw [Context.eval]
    cases c.world.store.lookup frame name with
    | none => trivial
    | some v => exact h.give v
  | define p name init =>
    cases init with
    | none => exact h.accepts _ _
    | some init =>
      exact hbelow init List.mem_cons_self _ frame (h.push fun v world => h.accepts v _)
  | scope p bindings body =>
    obtain ⟨hbindings, hbody⟩ := List.forall_mem_append.mp hbelow
    exact runScope hbindings (hbody body List.mem_cons_self) h
  | assign p target value =>
    obtain ⟨-, hvalue⟩ := List.forall_mem_cons.mp hbelow
    cases target with
    | var q name =>
      refine hvalue value List.mem_cons_self _ frame (h.push fun v world => ?_)
      rw [Context.resume]
      cases Store.set? _ frame name v with
      | none => trivial
      | some s => exact h.accepts v _
    | _ => trivial
  | binary p op left right =>
    obtain ⟨hleft, hright⟩ := List.forall_mem_cons.mp hbelow
    refine hleft _ frame (h.push fun v world => ?_)
    refine hright right List.mem_cons_self _ frame ((h.later world).push fun w world => ?_)
    rw [Context.resume]
    cases Value.operate op v w with
    | ok u => exact h.accepts u _
    | error fault => trivial
  | lambda p name params body => exact h.accepts _ _
  | call p callee args =>
    obtain ⟨hcallee, hargs⟩ := List.forall_mem_cons.mp hbelow
    exact hcallee _ frame (h.push fun v world => gather henter hargs (h.later world))
  | method p receiver method args =>
    rw [Context.eval]
    cases c.world.store.lookup frame receiver with
    | none => trivial
    | some current => exact gather henter hbelow h
  | branch p cond consequent chained alternative =>
    obtain ⟨hcond, hbelow⟩ := List.forall_mem_cons.mp hbelow
    obtain ⟨hconsequent, hbelow⟩ := List.forall_mem_cons.mp hbelow
    obtain ⟨hchained, halternative⟩ := List.forall_mem_append.mp hbelow
    refine hcond _ frame (h.push fun v world => ?_)
    rw [Context.resume]
    split
    · exact hconsequent _ frame (h.later world)
    · cases chained with
      | some e => exact hchained e List.mem_cons_self _ frame (h.later world)
      | none =>
        cases alternative with
        | some e => exact halternative e List.mem_cons_self _ frame (h.later world)
        | none => exact h.accepts _ _
  | block p statements => exact runBlock hbelow h

theorem evaluates (e : Expr) : Evaluates cfg depth e := by
  have hstep : Expr.Hereditary (Evaluates cfg depth) := by
    intro e hbelow c frame h
    apply halts_of_step
    intro _ ms
    exact eval henter hbelow (h.later _) frame
  exact hstep.all e

end Calls

/-- Each call leaves less room for calls, and without room a call fails. -/
theorem enters {limit : Nat} (hlimit : cfg.limit = some limit) {depth : Nat} (room : Nat)
    (hroom : limit ≤ depth + room) : Enters cfg depth := by
  induction room generalizing depth with
  | zero =>
    intro c id fn frame args position h
    have hfull : cfg.limit.filter (· ≤ c.depth) = some limit := by
      refine Option.filter_eq_some_iff.mpr ⟨hlimit, decide_eq_true ?_⟩
      rw [h.depth]
      exact hroom
    rw [Context.enter, hfull]
    trivial
  | succ room ih =>
    intro c id fn frame args position h
    unfold Context.enter
    cases cfg.limit.filter (· ≤ c.depth) with
    | some limit => trivial
    | none =>
      have hinner : Enters cfg (depth + 1) := ih (by omega)
      refine evaluates hinner fn.body ⟨_, c.depth + 1, _⟩ _ ⟨congrArg (· + 1) h.depth, ?_⟩
      intro v world
      apply halts_of_step
      intro _ ms
      exact h.accepts v _

end Ready

end Context

theorem ends_of_runTimed_fib {delays : Nat → Nat} {f : Fibonacci} {pending : List Pending}
    {depth : Nat} {world : World} {n : Nat} {g : Finished}
    (h : runTimed cfg delays n ⟨.fib f, pending, depth, world⟩ = .done g) : f.Ends := by
  induction n generalizing delays f world with
  | zero => cases h
  | succ n ih =>
    rw [runTimed, wait, step] at h
    cases hstep : f.step with
    | inr x => exact ⟨1, x, by rw [Fibonacci.run, hstep]⟩
    | inl f' =>
      rw [hstep] at h
      obtain ⟨k, x, hrun⟩ := ih h
      exact ⟨k + 1, x, by rw [Fibonacci.run, hstep]; exact hrun⟩

theorem fib_ends_of_ends {delays : Nat → Nat} {m : Machine} {x : Float} (h : m.Ends cfg delays)
    (hx : m.CallsFib cfg delays x) : (Fibonacci.start x).Ends := by
  obtain ⟨n, g, hrun⟩ := h
  obtain ⟨k, ⟨control, pending, depth, world⟩, hcall, args, position, hcontrol, hargs⟩ := hx
  cases hcontrol
  -- The evaluation is at the call after `k` steps, and at its end `n` steps later at the latest.
  have hend : runTimed cfg (fun i => delays (i + k)) n
      ⟨.apply (.builtin .fib) args position, pending, depth, world⟩ = .done g := by
    have hk := runTimed_add cfg delays k n m
    have hn := runTimed_add cfg delays n k m
    rw [hcall] at hk
    rw [hrun, Nat.add_comm] at hn
    exact hk.symm.trans hn
  cases n with
  | zero => cases hend
  | succ n =>
    rw [runTimed, wait, step, Context.apply, hargs] at hend
    exact ends_of_runTimed_fib hend

/-- With a limit on calls, the evaluation of an expression ends exactly if all the calls of `fib`
that it makes end, in any frame and any state, whatever the clock does. It does not end if `fib` is
called with a number from two on that stays as it is when one is taken away. -/
theorem ends_iff_fib_ends (methods : MethodTable) (limit : Nat) (delays : Nat → Nat) (e : Expr)
    (frame : FrameId) (depth : Nat) (world : World) :
    let m := start (.eval e frame) depth world
    let cfg : Config := ⟨methods, some limit⟩
    (m.Ends cfg delays ↔ ∀ x, m.CallsFib cfg delays x → (Fibonacci.start x).Ends) ∧
      ∀ x, m.CallsFib cfg delays x → ¬ x < 2 → x - 1 = x → ¬ m.Ends cfg delays := by
  intro m cfg
  have henter : Context.Enters cfg depth :=
    Context.Ready.enters rfl limit (Nat.le_add_left limit depth)
  have hhalts : m.Halts cfg :=
    Context.Ready.evaluates henter e _ frame (Context.ready_nil depth world)
  refine ⟨⟨fun h x hx => fib_ends_of_ends h hx, hhalts delays⟩, ?_⟩
  intro x hx hlt heq h
  exact Fibonacci.not_ends_of_sub_one_eq hlt heq (fib_ends_of_ends h hx)

/-- `let f; f = fn() time(f); let a = [f, time]; fib(1); f()`, which without a limit has no end. -/
def runaway : Expr :=
  let call (name : String) (args : List Expr) : Expr := .call .start (.var .start name) args
  .block .start
    [.define .start "f" none,
      .assign .start (.var .start "f") (.lambda .start none [] (call "time" [.var .start "f"])),
      .define .start "a" (some (.array .start [.var .start "f", .var .start "time"])),
      call "fib" [.number .start 1], call "f" []]

/-- A function that has itself timed, through a name that is assigned to. -/
theorem ends_iff_fib_ends_runaway :
    let s := Session.new .standard true ⟨.empty, .captured "", 0⟩
    let m := start (.eval runaway s.root) s.depth s.world
    m.Ends ⟨.standard, some 2⟩ (fun i => i) ∧
      ∀ x, m.CallsFib ⟨.standard, some 2⟩ (fun i => i) x → (Fibonacci.start x).Ends := by
  intro s m
  have hends : m.Ends ⟨.standard, some 2⟩ (fun i => i) := ends_of_isDone 60 (by decide +kernel)
  have hiff := ends_iff_fib_ends .standard 2 (fun i => i) runaway s.root s.depth s.world
  exact ⟨hends, hiff.1.mp hends⟩

end ExprLang.Machine
