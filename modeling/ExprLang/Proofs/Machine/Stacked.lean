import ExprLang.Proofs.Machine.Moves

namespace ExprLang.Machine

/-- The same end with more under the stack, which an error passes as well. -/
def Finished.atop (f : Finished) (below : List Pending) : Finished :=
  match f.result with
  | .ok _ => f
  | .error e =>
    let (e, depth) := unwind e f.depth below
    ⟨.error e, depth, f.world⟩

def atop (m : Machine) (below : List Pending) : Machine :=
  ⟨m.control, m.pending ++ below, m.depth, m.world⟩

def Transition.atop (below : List Pending) : Transition → Transition
  | next m => next (m.atop below)
  | done f => done (f.atop below)

theorem unwind_append (e : EvalError) (depth : Nat) (above below : List Pending) :
    unwind e depth (above ++ below) =
      unwind (unwind e depth above).1 (unwind e depth above).2 below := by
  induction above generalizing e depth with
  | nil => rfl
  | cons p above ih => exact ih _ _

namespace Context

def atop (c : Context) (below : List Pending) : Context := ⟨c.pending ++ below, c.depth, c.world⟩

variable (c : Context) (below : List Pending)

theorem atop_fail (fault : EvalFault) (position : Option Position) :
    (c.atop below).fail fault position = (c.fail fault position).atop below := by
  simp only [fail, Transition.atop, Finished.atop]
  rw [atop, unwind_append]

theorem atop_runBlock (frame : FrameId) (es : List Expr) :
    (c.atop below).runBlock frame es = (c.runBlock frame es).atop below := by
  rcases es with _ | ⟨e, _ | ⟨e', more⟩⟩ <;> rfl

theorem atop_runScope (frame : FrameId) (body : Expr) (bs : List (Binding Expr)) :
    (c.atop below).runScope frame body bs = (c.runScope frame body bs).atop below := by
  induction bs generalizing c frame with
  | nil => rfl
  | cons b bs ih =>
    obtain ⟨name, _ | init⟩ := b
    · exact ih (c.bind frame name .absent).2 _
    · rfl

theorem atop_runMethod (cfg : Config) (frame : FrameId) (receiver method : String)
    (current : Value) (args : List Value) (position : Option Position) :
    (c.atop below).runMethod cfg frame receiver method current args position =
      (c.runMethod cfg frame receiver method current args position).atop below := by
  have hworld : (c.atop below).world = c.world := rfl
  unfold runMethod
  rw [hworld]
  dsimp only
  cases cfg.methods.invoke c.world.store.fresh.1 current method args with
  | error fault => exact c.atop_fail below fault position
  | ok v =>
    dsimp only
    cases c.world.store.fresh.2.set? frame receiver v with
    | none => exact c.atop_fail below _ position
    | some s => rfl

theorem atop_gather (cfg : Config) (frame : FrameId) (purpose : Purpose) (before : List Value)
    (es : List Expr) : (c.atop below).gather cfg frame purpose before es =
      (c.gather cfg frame purpose before es).atop below := by
  cases es with
  | cons e more => rfl
  | nil =>
    cases purpose with
    | array | call => rfl
    | method receiver method current position => exact c.atop_runMethod below cfg ..

theorem atop_eval (cfg : Config) (frame : FrameId) (e : Expr) :
    (c.atop below).eval cfg frame e = (c.eval cfg frame e).atop below := by
  have hworld : (c.atop below).world = c.world := rfl
  cases e with
  | number | string | boolean | lambda | binary | call | branch => rfl
  | array p items => exact c.atop_gather below cfg ..
  | var p name =>
    rw [eval, eval, hworld]
    cases c.world.store.lookup frame name with
    | none => exact c.atop_fail below _ _
    | some v => rfl
  | define p name init => cases init <;> rfl
  | scope p bindings body => exact c.atop_runScope below ..
  | assign p target value =>
    cases target with
    | var q name => rfl
    | _ => exact c.atop_fail below _ _
  | method p receiver method args =>
    rw [eval, eval, hworld]
    cases c.world.store.lookup frame receiver with
    | none => exact c.atop_fail below _ _
    | some current => exact c.atop_gather below cfg ..
  | block p statements => exact c.atop_runBlock below ..

theorem atop_apply (cfg : Config) (args : List Value) (position : Option Position)
    (callee : Value) : (c.atop below).apply cfg args position callee =
      (c.apply cfg args position callee).atop below := by
  cases callee with
  | number | string | boolean | array => exact c.atop_fail below _ _
  | closure id fn frame =>
    have hdepth : (c.atop below).depth = c.depth := rfl
    rw [apply, apply, enter, enter, hdepth]
    cases cfg.limit.filter (· ≤ c.depth) with
    | some limit => exact c.atop_fail below _ _
    | none => rfl
  | builtin b =>
    cases b with
    | print | println | time => rfl
    | fib =>
      rw [apply, apply]
      cases args.headD .absent with
      | number n => rfl
      | _ => exact c.atop_fail below _ _

theorem atop_resume (cfg : Config) (v : Value) (p : Pending) :
    (c.atop below).resume cfg v p = (c.resume cfg v p).atop below := by
  have hworld : (c.atop below).world = c.world := rfl
  cases p with
  | define | right | activation | timing => rfl
  | scope name more body frame => exact atop_runScope (c.bind frame name v).2 below ..
  | assign name frame position =>
    rw [resume, resume, hworld]
    cases c.world.store.set? frame name v with
    | none => exact c.atop_fail below _ _
    | some s => rfl
  | operate op left position =>
    rw [resume, resume]
    cases Value.operate op left v with
    | ok w => rfl
    | error fault => exact c.atop_fail below _ _
  | callee args frame position => exact c.atop_gather below cfg ..
  | gather purpose before more frame => exact c.atop_gather below cfg ..
  | branch consequent chained alternative frame =>
    rw [resume, resume]
    cases v.isTruthy with
    | true => rfl
    | false => cases chained <|> alternative <;> rfl
  | sequence more frame => exact c.atop_runBlock below ..

end Context

/-- A machine that has not come to a value with nothing left to do takes the same step. -/
theorem step_atop (cfg : Config) {m : Machine} (below : List Pending)
    (h : ∀ v, m.control = .value v → m.pending ≠ []) :
    (m.atop below).step cfg = (m.step cfg).atop below := by
  obtain ⟨control, pending, depth, world⟩ := m
  cases control with
  | eval e frame => exact Context.atop_eval ⟨pending, depth, world⟩ below cfg frame e
  | apply callee args position =>
    exact Context.atop_apply ⟨pending, depth, world⟩ below cfg args position callee
  | fib f =>
    rw [step, atop, step]
    cases f.step <;> rfl
  | value v =>
    cases pending with
    | nil => exact absurd rfl (h v rfl)
    | cons p pending => exact Context.atop_resume ⟨pending, depth, world⟩ below cfg v p

def Stops (m : Machine) (v : Value) : Prop := m.control = .value v ∧ m.pending = []

theorem Stops.step {m : Machine} {v : Value} (h : m.Stops v) (cfg : Config) :
    m.step cfg = .done ⟨.ok v, m.depth, m.world⟩ := by
  obtain ⟨control, pending, depth, world⟩ := m
  obtain ⟨rfl, rfl⟩ := h
  rfl

/-- An evaluation ends with a value when there is one and nothing is left to do. -/
theorem stops_of_done {cfg : Config} {m : Machine} {f : Finished} {v : Value}
    (h : m.step cfg = .done f) (hv : f.result = .ok v) : m.Stops v := by
  have hmoves := step_moves cfg m
  rw [h] at hmoves
  cases hmoves with
  | proceeds hproceeds =>
    cases hproceeds with
    | fail => cases hv
  | badTarget => cases hv
  | finish hcontrol hpending =>
    cases hv
    exact ⟨hcontrol, hpending⟩

section Run

variable {cfg : Config} {delays : Nat → Nat} {m m' : Machine} (below : List Pending)

theorem step_atop_of_next (h : m.step cfg = .next m') :
    (m.atop below).step cfg = .next (m'.atop below) := by
  rw [step_atop cfg below, h]
  · rfl
  · intro v hcontrol hpending
    rw [Stops.step ⟨hcontrol, hpending⟩] at h
    cases h

theorem runTimed_atop {n : Nat} (h : m.runTimed cfg delays n = .next m') :
    (m.atop below).runTimed cfg delays n = .next (m'.atop below) := by
  induction n generalizing m delays with
  | zero =>
    cases h
    rfl
  | succ n ih =>
    rw [runTimed] at h
    cases hstep : (m.wait (delays 0)).step cfg with
    | done f =>
      rw [hstep] at h
      cases h
    | next m₁ =>
      rw [hstep] at h
      have hatop : ((m.atop below).wait (delays 0)).step cfg = .next (m₁.atop below) :=
        step_atop_of_next below hstep
      rw [runTimed, hatop]
      exact ih h

/-- What comes to a value with more under its stack has come to a value by itself first. -/
theorem stops_of_atop {n : Nat} {f : Finished} {v : Value}
    (h : (m.atop below).runTimed cfg delays n = .done f) (hv : f.result = .ok v) :
    ∃ k m' w, k < n ∧ m.runTimed cfg delays k = .next m' ∧ m'.Stops w := by
  induction n generalizing m delays with
  | zero => cases h
  | succ n ih =>
    by_cases hstops : ∃ w, m.Stops w
    · obtain ⟨w, hw⟩ := hstops
      exact ⟨0, m, w, Nat.succ_pos n, rfl, hw⟩
    · have hgoes : ∀ w, (m.wait (delays 0)).control = .value w →
          (m.wait (delays 0)).pending ≠ [] :=
        fun w hcontrol hpending => hstops ⟨w, hcontrol, hpending⟩
      have hatop := step_atop cfg below hgoes
      change ((m.atop below).wait (delays 0)).step cfg = _ at hatop
      rw [runTimed, hatop] at h
      cases hstep : (m.wait (delays 0)).step cfg with
      | next m₁ =>
        rw [hstep] at h
        obtain ⟨k, m', w, hk, hrun, hw⟩ := ih h
        refine ⟨k + 1, m', w, Nat.succ_lt_succ hk, ?_, hw⟩
        rw [runTimed, hstep]
        exact hrun
      | done f₁ =>
        rw [hstep] at h
        cases h
        cases hresult : f₁.result with
        | ok w =>
          obtain ⟨hcontrol, hpending⟩ := stops_of_done hstep hresult
          exact absurd hpending (hgoes w hcontrol)
        | error e => simp [Finished.atop, hresult] at hv

end Run

end ExprLang.Machine
