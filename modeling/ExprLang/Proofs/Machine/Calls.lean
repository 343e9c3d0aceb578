import ExprLang.Proofs.Machine.Timed
import ExprLang.Proofs.Value.Outcome

namespace ExprLang

/-- The fault of a call that there is no room for. -/
def EvalFault.isOverflow : EvalFault → Bool
  | stackOverflow _ => true
  | _ => false

theorem Value.Operated.isOverflow {v w : Value} {fault : EvalFault}
    (h : Operated v w (.error fault)) : fault.isOverflow = false := by
  cases h <;> rfl

theorem Invoked.isOverflow {receiver : Value} {args : List Value} {fault : EvalFault}
    (h : Invoked receiver args (.error fault)) : fault.isOverflow = false := by
  cases h <;> rfl

namespace Machine

/-- The call of a function made from an expression that is next, if one is. -/
def entering? (m : Machine) : Option Activation :=
  match m.control with
  | .apply (.closure _ fn _) _ _ => some ⟨fn.name, fn.body.position⟩
  | _ => none

/-- A call under way, and how high the stack was when it was made. -/
structure Call where
  height : Nat
  activation : Activation

/-- The calls under way after a step, the innermost first: the one that was made, and of those
before it the ones that have not come back, which the stack is still higher than. -/
def track (calls : List Call) (m m' : Machine) : List Call :=
  (m.entering?.toList.map (Call.mk m.pending.length) ++ calls).filter
    (·.height < m'.pending.length)

/-- The calls under way after at most `n` steps; `delays i` milliseconds pass before step `i`. -/
def callsTimed (cfg : Config) (delays : Nat → Nat) : Nat → Machine → List Call → List Call
  | 0, _, calls => calls
  | n + 1, m, calls =>
    match (m.wait (delays 0)).step cfg with
    | .next m' => callsTimed cfg (fun i => delays (i + 1)) n m' (track calls m m')
    | .done _ => calls

/-- The calls that have an entry on the stack. -/
def callsOn : List Pending → List Call
  | [] => []
  | p :: below => p.activation?.toList.map (Call.mk below.length) ++ callsOn below

theorem activations_append (above below : List Pending) :
    activations (above ++ below) = activations above ++ activations below :=
  List.filterMap_append

theorem activation_callsOn (ps : List Pending) :
    (callsOn ps).map (·.activation) = activations ps := by
  induction ps with
  | nil => rfl
  | cons p ps ih =>
    rw [callsOn, List.map_append, ih, List.map_map]
    cases h : p.activation? <;> simp [activations, h]

theorem callsOn_append {above : List Pending} (h : activations above = []) (below : List Pending) :
    callsOn (above ++ below) = callsOn below := by
  induction above with
  | nil => rfl
  | cons p above ih =>
    obtain ⟨hp, habove⟩ : p.activation? = none ∧ activations above = [] := by
      simpa [activations] using h
    rw [List.cons_append, callsOn, hp]
    exact ih habove

theorem height_lt {ps : List Pending} {call : Call} (h : call ∈ callsOn ps) :
    call.height < ps.length := by
  induction ps with
  | nil => cases h
  | cons p ps ih =>
    rw [List.length_cons]
    rcases List.mem_append.mp h with h | h
    · obtain ⟨activation, -, rfl⟩ := List.mem_map.mp h
      exact Nat.lt_succ_self _
    · exact Nat.lt_succ_of_lt (ih h)

theorem filter_callsOn (ps : List Pending) {height : Nat} (h : ps.length ≤ height) :
    (callsOn ps).filter (·.height < height) = callsOn ps := by
  rw [List.filter_eq_self]
  intro call hcall
  exact decide_eq_true (Nat.lt_of_lt_of_le (height_lt hcall) h)

/-- What a step that neither makes a call nor comes back from one leads to: other entries on the
stack, or an error in the calls under way. -/
inductive Works (pending : List Pending) (depth : Nat) : Transition → Prop
  | next (above : List Pending) {control : Control} {world : World} (h : activations above = []) :
    Works pending depth (.next ⟨control, above ++ pending, depth, world⟩)
  | fail {fault : EvalFault} {position : Option Position} {world : World}
      (h : fault.isOverflow = false) :
    Works pending depth (.done ⟨.error ⟨fault, position, activations pending⟩,
      depth - (activations pending).length, world⟩)

namespace Context

variable (c : Context)

theorem works_fail {fault : EvalFault} (position : Option Position)
    (h : fault.isOverflow = false) : Works c.pending c.depth (c.fail fault position) := by
  rw [fail_eq]
  exact .fail h

theorem works_runBlock (frame : FrameId) (es : List Expr) :
    Works c.pending c.depth (c.runBlock frame es) := by
  rcases es with _ | ⟨e, _ | ⟨e', more⟩⟩
  · exact .next [] rfl
  · exact .next [] rfl
  · exact .next [_] rfl

theorem works_runScope (frame : FrameId) (body : Expr) (bs : List (Binding Expr)) :
    Works c.pending c.depth (c.runScope frame body bs) := by
  induction bs generalizing c frame with
  | nil => exact .next [] rfl
  | cons b bs ih =>
    obtain ⟨name, _ | init⟩ := b
    · exact ih (c.bind frame name .absent).2 _
    · exact .next [_] rfl

theorem works_runMethod (cfg : Config) (frame : FrameId) (receiver method : String)
    (current : Value) (args : List Value) (position : Option Position) :
    Works c.pending c.depth (c.runMethod cfg frame receiver method current args position) := by
  have hinvoked := cfg.methods.invoke_invoked c.world.store.nextId current method args
  unfold runMethod
  dsimp only [Store.fresh]
  cases h : cfg.methods.invoke _ current method args with
  | error fault =>
    rw [h] at hinvoked
    exact works_fail _ _ hinvoked.isOverflow
  | ok v =>
    dsimp only
    cases Store.set? _ frame receiver v with
    | none => exact works_fail _ _ rfl
    | some s => exact .next [] rfl

theorem works_gather (cfg : Config) (frame : FrameId) (purpose : Purpose) (before : List Value)
    (es : List Expr) : Works c.pending c.depth (c.gather cfg frame purpose before es) := by
  cases es with
  | cons e more => exact .next [_] rfl
  | nil =>
    cases purpose with
    | array => exact .next [] rfl
    | call callee position => exact .next [] rfl
    | method receiver method current position => exact c.works_runMethod ..

theorem works_eval (cfg : Config) (frame : FrameId) (e : Expr) :
    Works c.pending c.depth (c.eval cfg frame e) := by
  cases e with
  | number | string | boolean | lambda => exact .next [] rfl
  | array p items => exact c.works_gather cfg ..
  | var p name =>
    rw [eval]
    cases c.world.store.lookup frame name with
    | none => exact works_fail _ _ rfl
    | some v => exact .next [] rfl
  | define p name init =>
    cases init with
    | none => exact .next [] rfl
    | some init => exact .next [_] rfl
  | scope p bindings body => exact c.works_runScope ..
  | assign p target value =>
    cases target with
    | var q name => exact .next [_] rfl
    | _ => exact works_fail _ _ rfl
  | binary p op left right => exact .next [_] rfl
  | call p callee args => exact .next [_] rfl
  | method p receiver method args =>
    rw [eval]
    cases c.world.store.lookup frame receiver with
    | none => exact works_fail _ _ rfl
    | some current => exact c.works_gather cfg ..
  | branch p cond consequent chained alternative => exact .next [_] rfl
  | block p statements => exact c.works_runBlock ..

theorem works_builtin (cfg : Config) (args : List Value) (position : Option Position)
    (b : Builtin) : Works c.pending c.depth (c.apply cfg args position (.builtin b)) := by
  cases b with
  | print | println => exact .next [] rfl
  | time => exact .next [_] rfl
  | fib =>
    rw [apply]
    cases args.headD .absent with
    | number n => exact .next [] rfl
    | _ => exact works_fail _ _ rfl

theorem works_resume (cfg : Config) (v : Value) {p : Pending} (h : p.activation? = none) :
    Works c.pending c.depth (c.resume cfg v p) := by
  cases p with
  | define name frame => exact .next [] rfl
  | scope name more body frame => exact works_runScope (c.bind frame name v).2 ..
  | assign name frame position =>
    rw [resume]
    cases c.world.store.set? frame name v with
    | none => exact works_fail _ _ rfl
    | some s => exact .next [] rfl
  | right op right frame position => exact .next [_] rfl
  | operate op left position =>
    have hoperated := Value.operate_operated op left v
    rw [resume]
    cases h : Value.operate op left v with
    | ok w => exact .next [] rfl
    | error fault =>
      rw [h] at hoperated
      exact works_fail _ _ hoperated.isOverflow
  | callee args frame position => exact c.works_gather cfg ..
  | gather purpose before more frame => exact c.works_gather cfg ..
  | branch consequent chained alternative frame =>
    rw [resume]
    cases v.isTruthy with
    | true => exact .next [] rfl
    | false =>
      cases chained <|> alternative with
      | none => exact .next [] rfl
      | some e => exact .next [] rfl
  | sequence more frame => exact c.works_runBlock ..
  | activation call => cases h
  | timing started => exact .next [] rfl

end Context

/-- What a step does to the calls under way. -/
inductive Steps (cfg : Config) (m : Machine) : Transition → Prop
  /-- No call is made, and none comes back. -/
  | works (before below : List Pending) {t : Transition}
      (hmakes : m.entering? = none) (hpending : m.pending = before ++ below)
      (hbefore : activations before = []) (h : Works below m.depth t) : Steps cfg m t
  | enter (call : Activation) {control : Control} {world : World}
      (hmakes : m.entering? = some call) (hroom : ∀ limit ∈ cfg.limit, m.depth < limit) :
    Steps cfg m (.next ⟨control, .activation call :: m.pending, m.depth + 1, world⟩)
  /-- There is no room for a call. -/
  | overflow (limit : Nat) {position : Option Position} {world : World}
      (hlimit : cfg.limit = some limit) (hfull : limit ≤ m.depth) :
    Steps cfg m (.done ⟨.error ⟨.stackOverflow limit, position, activations m.pending⟩,
      m.depth - (activations m.pending).length, world⟩)
  | leave (call : Activation) (below : List Pending) {control : Control} {world : World}
      (hmakes : m.entering? = none) (hpending : m.pending = .activation call :: below) :
    Steps cfg m (.next ⟨control, below, m.depth - 1, world⟩)
  | finish {v : Value} {world : World} (hpending : m.pending = []) :
    Steps cfg m (.done ⟨.ok v, m.depth, world⟩)

theorem steps_enter (cfg : Config) (c : Context) (id : Nat) (fn : Lambda) (frame : FrameId)
    (args : List Value) (position : Option Position) :
    Steps cfg ⟨.apply (.closure id fn frame) args position, c.pending, c.depth, c.world⟩
      (c.enter cfg id fn frame args position) := by
  unfold Context.enter
  cases hfull : cfg.limit.filter (· ≤ c.depth) with
  | some limit =>
    obtain ⟨hlimit, hle⟩ := Option.filter_eq_some_iff.mp hfull
    dsimp only
    rw [Context.fail_eq]
    exact .overflow limit hlimit (of_decide_eq_true hle)
  | none =>
    refine .enter _ rfl fun limit hlimit => ?_
    have hroom := Option.filter_eq_none_iff.mp hfull limit hlimit
    simpa using hroom

theorem step_steps (cfg : Config) (m : Machine) : Steps cfg m (m.step cfg) := by
  obtain ⟨control, pending, depth, world⟩ := m
  cases control with
  | eval e frame =>
    exact .works [] _ rfl rfl rfl (Context.works_eval ⟨pending, depth, world⟩ cfg frame e)
  | apply callee args position =>
    cases callee with
    | closure id fn frame =>
      exact steps_enter cfg ⟨pending, depth, world⟩ id fn frame args position
    | builtin b =>
      have hworks := Context.works_builtin ⟨pending, depth, world⟩ cfg args position b
      exact .works [] _ rfl rfl rfl hworks
    | _ => exact .works [] _ rfl rfl rfl (Context.works_fail ⟨pending, depth, world⟩ position rfl)
  | fib f =>
    refine .works [] _ rfl rfl rfl ?_
    rw [step]
    cases f.step <;> exact .next [] rfl
  | value v =>
    cases pending with
    | nil => exact .finish rfl
    | cons p below =>
      cases hp : p.activation? with
      | none =>
        refine .works [p] below rfl rfl ?_ (Context.works_resume ⟨below, depth, world⟩ cfg v hp)
        rw [activations, List.filterMap_cons_none hp, List.filterMap_nil]
      | some call =>
        cases p <;> cases hp
        exact .leave call below rfl rfl

theorem track_callsOn {cfg : Config} {m m' : Machine} (h : Steps cfg m (.next m')) :
    track (callsOn m.pending) m m' = callsOn m'.pending := by
  unfold track
  cases h with
  | works before below hmakes hpending hbefore hworks =>
    cases hworks with
    | next above habove =>
      have hheight : below.length ≤ (above ++ below).length := by simp
      rw [hmakes, hpending, callsOn_append hbefore, callsOn_append habove]
      exact filter_callsOn below hheight
  | enter call hmakes hroom =>
    rw [hmakes]
    exact filter_callsOn (.activation call :: m.pending) (Nat.le_refl _)
  | leave call below hmakes hpending =>
    rw [hmakes, hpending]
    -- The stack is as high as when this call was made, and higher than when the others were.
    change List.filter _ (⟨below.length, call⟩ :: callsOn below) = callsOn below
    rw [List.filter_cons_of_neg (by simp), filter_callsOn below (Nat.le_refl _)]

/-- An evaluation that began with `base` calls under way goes on or has ended, after `calls` have
been made and not come back, the innermost first. -/
def Transition.Accounted (cfg : Config) (base : Nat) (calls : List Activation) :
    Transition → Prop
  | next m => m.depth = base + calls.length ∧ ∀ limit ∈ cfg.limit, m.depth ≤ max base limit
  | done f => f.depth = base ∧
    match f.result with
    | .ok _ => calls = []
    | .error e => e.backtrace = calls ∧ ∀ limit, e.fault = .stackOverflow limit →
        cfg.limit = some limit ∧ base + e.backtrace.length = max base limit

/-- The calls that have been made and not come back are those on the stack. -/
structure Tracked (cfg : Config) (base : Nat) (calls : List Call) (m : Machine) : Prop where
  stack : calls = callsOn m.pending
  depth : m.depth = base + calls.length
  room : ∀ limit ∈ cfg.limit, m.depth ≤ max base limit

namespace Tracked

variable {cfg : Config} {base : Nat} {calls : List Call} {m : Machine}

theorem wait (h : Tracked cfg base calls m) (ms : Nat) : Tracked cfg base calls (m.wait ms) :=
  ⟨h.stack, h.depth, h.room⟩

theorem backtrace (h : Tracked cfg base calls m) :
    activations m.pending = calls.map (·.activation) := by
  rw [h.stack, activation_callsOn]

theorem next {m' : Machine} (h : Tracked cfg base calls m) (hstep : m.step cfg = .next m') :
    Tracked cfg base (track calls m m') m' := by
  have hsteps := step_steps cfg m
  rw [hstep] at hsteps
  have hdepth := h.depth
  have hstack := track_callsOn hsteps
  rw [← h.stack] at hstack
  refine ⟨hstack, ?_, ?_⟩
  · rw [hstack]
    rw [h.stack] at hdepth
    cases hsteps with
    | works before below hmakes hpending hbefore hworks =>
      cases hworks with
      | next above habove =>
        rwa [hpending, callsOn_append hbefore, ← callsOn_append habove] at hdepth
    | enter call hmakes hroom =>
      exact congrArg (· + 1) hdepth
    | leave call below hmakes hpending =>
      rw [hpending] at hdepth
      exact congrArg (· - 1) hdepth
  · intro limit hlimit
    have hroom := h.room limit hlimit
    cases hsteps with
    | works before below hmakes hpending hbefore hworks =>
      cases hworks with
      | next above habove => exact hroom
    | enter call hmakes hfree =>
      exact Nat.le_trans (hfree limit hlimit) (Nat.le_max_right base limit)
    | leave call below hmakes hpending => exact Nat.le_trans (Nat.sub_le m.depth 1) hroom

theorem done {f : Finished} (h : Tracked cfg base calls m) (hstep : m.step cfg = .done f) :
    (Transition.done f).Accounted cfg base (calls.map (·.activation)) := by
  have hsteps := step_steps cfg m
  rw [hstep] at hsteps
  have hdepth := h.depth
  have hlength : (activations m.pending).length = calls.length := by
    rw [h.backtrace, List.length_map]
  cases hsteps with
  | works before below hmakes hpending hbefore hworks =>
    cases hworks with
    | fail hfault =>
      have hcalls : activations m.pending = activations below := by
        rw [hpending, activations_append, hbefore, List.nil_append]
      rw [← hcalls]
      refine ⟨?_, h.backtrace, ?_⟩
      · dsimp only
        omega
      · rintro limit rfl
        cases hfault
  | overflow limit hlimit hfull =>
    refine ⟨?_, h.backtrace, ?_⟩
    · dsimp only
      omega
    · rintro limit ⟨⟩
      have := h.room limit hlimit
      refine ⟨hlimit, ?_⟩
      dsimp only
      omega
  | finish hpending =>
    rw [h.stack, hpending] at hdepth ⊢
    exact ⟨hdepth, rfl⟩

end Tracked

/-- The account of an evaluation is kept at every step of it, whatever the clock does. -/
theorem Tracked.runTimed {cfg : Config} {base : Nat} {calls : List Call} {m : Machine}
    (h : Tracked cfg base calls m) (delays : Nat → Nat) (n : Nat) :
    (m.runTimed cfg delays n).Accounted cfg base
      ((m.callsTimed cfg delays n calls).map (·.activation)) := by
  induction n generalizing m calls delays with
  | zero =>
    refine ⟨?_, h.room⟩
    rw [callsTimed, List.length_map]
    exact h.depth
  | succ n ih =>
    rw [Machine.runTimed, callsTimed]
    cases hstep : (m.wait (delays 0)).step cfg with
    | next m' => exact ih ((h.wait _).next hstep) _
    | done f => exact (h.wait _).done hstep

/-- An evaluation or a call, in any state and under any limit, ends with as many calls under way as
it began with. While it runs, their number is above that by the calls that have been made and not
come back, and no higher than the limit; an error has exactly these calls as its backtrace. So a
call that there is no room for finds as many calls under way as the limit allows, if there were
none at the start. -/
theorem accounted_runTimed (cfg : Config) (delays : Nat → Nat) (control : Control) (world : World)
    (n : Nat) :
    (∀ base, ((start control base world).runTimed cfg delays n).Accounted cfg base
      (((start control base world).callsTimed cfg delays n []).map (·.activation))) ∧
    ∀ f e limit, (start control 0 world).runTimed cfg delays n = .done f → f.result = .error e →
      e.fault = .stackOverflow limit → cfg.limit = some limit ∧ e.backtrace.length = limit := by
  have hbase (base : Nat) : ((start control base world).runTimed cfg delays n).Accounted cfg base
      (((start control base world).callsTimed cfg delays n []).map (·.activation)) := by
    have hstart : Tracked cfg base [] (start control base world) :=
      ⟨rfl, rfl, fun limit _ => Nat.le_max_left base limit⟩
    exact hstart.runTimed delays n
  refine ⟨hbase, ?_⟩
  intro f e limit hrun hresult hfault
  have hidle := hbase 0
  rw [hrun, Transition.Accounted, hresult] at hidle
  obtain ⟨-, -, hoverflow⟩ := hidle
  obtain ⟨hlimit, hlength⟩ := hoverflow limit hfault
  exact ⟨hlimit, by omega⟩

/-- `fn f() f()`, which does nothing but call itself. -/
def recursion : Value :=
  .closure 0 ⟨some "f", [], .call .start (.var .start "f") []⟩ 0

/-- With room for two calls, the third one fails, and the backtrace has the two. -/
theorem accounted_runTimed_recursion : ∃ f e,
    (start (.apply recursion [] none) 0 ⟨⟨#[⟨[], []⟩], 1⟩, .silent, 0⟩).runTimed
      ⟨.standard, some 2⟩ (fun i => i) 20 = .done f ∧
    f.result = .error e ∧ e.fault = .stackOverflow 2 ∧ e.backtrace.length = 2 := by
  obtain ⟨f, e, hrun, hresult, hfault⟩ : ∃ f e,
      (start (.apply recursion [] none) 0 ⟨⟨#[⟨[], []⟩], 1⟩, .silent, 0⟩).runTimed
        ⟨.standard, some 2⟩ (fun i => i) 20 = .done f ∧
      f.result = .error e ∧ e.fault = .stackOverflow 2 := ⟨_, _, rfl, rfl, rfl⟩
  have haccount := accounted_runTimed ⟨.standard, some 2⟩ (fun i => i)
    (.apply recursion [] none) ⟨⟨#[⟨[], []⟩], 1⟩, .silent, 0⟩ 20
  exact ⟨f, e, hrun, hresult, hfault, (haccount.2 f e 2 hrun hresult hfault).2⟩

end Machine

end ExprLang
