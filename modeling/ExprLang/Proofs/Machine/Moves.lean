import ExprLang.Proofs.Expr.Tree
import ExprLang.Proofs.Machine.Timed
import ExprLang.Proofs.Store.Frames
import ExprLang.Proofs.Value.Outcome

namespace ExprLang

/-- The fault of an assignment to something that is not a variable. -/
def EvalFault.isTarget : EvalFault → Bool
  | invalidAssignTarget _ => true
  | _ => false

theorem Value.Operated.isTarget {v w : Value} {fault : EvalFault}
    (h : Operated v w (.error fault)) : fault.isTarget = false := by
  cases h <;> rfl

theorem Invoked.isTarget {receiver : Value} {args : List Value} {fault : EvalFault}
    (h : Invoked receiver args (.error fault)) : fault.isTarget = false := by
  cases h <;> rfl

namespace Expr

/-- What is assigned to and is not a variable. -/
def badTarget? : Expr → Option Expr
  | assign _ (var _ _) _ => none
  | assign _ target _ => some target
  | _ => none

/-- The place of an expression that can fail by itself, besides the expressions in it. -/
def site? : Expr → Option Position
  | var p _ | assign p _ _ | binary p _ _ _ | call p _ _ | method p _ _ _ => some p
  | _ => none

theorem position_of_site? {e : Expr} {q : Position} (h : e.site? = some q) : e.position = q := by
  cases e <;> cases h <;> rfl

theorem mem_children_of_badTarget? {e target : Expr} (h : e.badTarget? = some target) :
    target ∈ e.children := by
  cases e with
  | assign p left value =>
    obtain rfl : left = target := by cases left <;> cases h <;> rfl
    exact List.mem_cons_self
  | _ => cases h

end Expr

namespace Machine

namespace Pending

/-- The frame that an entry of the stack goes on in. -/
def frame? : Pending → Option FrameId
  | define _ g | scope _ _ _ g | assign _ g _ | right _ _ g _ | callee _ g _ | gather _ _ _ g
  | branch _ _ _ g | sequence _ g => some g
  | _ => none

end Pending

def Control.frame? : Control → Option FrameId
  | eval _ g => some g
  | _ => none

/-- How a step goes on that can fail at certain places and runs code in a certain frame: with new
entries that do so too, or in new frames. -/
structure Continues (At : Option Position → Prop) (In : FrameId → Prop) (s : Store)
    (above : List Pending) (control : Control) (s' : Store) : Prop where
  store : s.Extends s'
  sites : ∀ p ∈ above, ∀ q ∈ p.site?, At (some q)
  frames : ∀ p ∈ above, ∀ g ∈ p.frame?, In g ∨ g < s'.frames.size
  position : ∀ callee args q, control = .apply callee args q → At q
  frame : ∀ g ∈ control.frame?, In g ∨ g < s'.frames.size

/-- What such a step comes to. -/
inductive Proceeds (At : Option Position → Prop) (In : FrameId → Prop) (c : Context) :
    Transition → Prop
  | next (above : List Pending) {control : Control} {depth : Nat} {world : World}
      (h : Continues At In c.world.store above control world.store) :
    Proceeds At In c (.next ⟨control, above ++ c.pending, depth, world⟩)
  | fail {fault : EvalFault} {q : Option Position} (hfault : fault.isTarget = false) (hq : At q) :
    Proceeds At In c (c.fail fault q)

variable {At : Option Position → Prop} {In : FrameId → Prop}

namespace Context

variable (c : Context)

theorem proceeds_go {control : Control} (depth : Nat) {world : World}
    (h : c.world.store.Extends world.store)
    (hposition : ∀ callee args q, control = .apply callee args q → At q)
    (hframe : ∀ g ∈ control.frame?, In g ∨ g < world.store.frames.size) :
    Proceeds At In c (.next ⟨control, c.pending, depth, world⟩) :=
  .next [] ⟨h, List.forall_mem_nil _, List.forall_mem_nil _, hposition, hframe⟩

theorem proceeds_value (v : Value) (depth : Nat) {world : World}
    (h : c.world.store.Extends world.store) :
    Proceeds At In c (.next ⟨.value v, c.pending, depth, world⟩) :=
  c.proceeds_go depth h (by rintro _ _ _ ⟨⟩) (by rintro _ ⟨⟩)

theorem proceeds_fib (f : Number.Fibonacci) (depth : Nat) :
    Proceeds At In c (.next ⟨.fib f, c.pending, depth, c.world⟩) :=
  c.proceeds_go depth (.refl _) (by rintro _ _ _ ⟨⟩) (by rintro _ ⟨⟩)

theorem proceeds_eval (e : Expr) {g : FrameId} (depth : Nat) {world : World}
    (h : c.world.store.Extends world.store) (hg : In g ∨ g < world.store.frames.size) :
    Proceeds At In c (.next ⟨.eval e g, c.pending, depth, world⟩) := by
  refine c.proceeds_go depth h (by rintro _ _ _ ⟨⟩) ?_
  rintro _ ⟨⟩
  exact hg

theorem proceeds_evalThen {p : Pending} (e : Expr) {g : FrameId} (depth : Nat) {world : World}
    (h : c.world.store.Extends world.store) (hg : In g ∨ g < world.store.frames.size)
    (hp : ∀ q ∈ p.site?, At (some q)) (hframe : ∀ k ∈ p.frame?, k = g) :
    Proceeds At In c (.next ⟨.eval e g, p :: c.pending, depth, world⟩) := by
  refine .next [p] ⟨h, List.forall_mem_singleton.mpr hp, ?_, by rintro _ _ _ ⟨⟩, ?_⟩
  · refine List.forall_mem_singleton.mpr fun k hk => ?_
    rwa [hframe k hk]
  · rintro _ ⟨⟩
    exact hg

theorem proceeds_runBlock {frame : FrameId} (hframe : In frame) (es : List Expr) :
    Proceeds At In c (c.runBlock frame es) := by
  rcases es with _ | ⟨e, _ | ⟨e', more⟩⟩
  · exact c.proceeds_value _ _ (.refl _)
  · exact c.proceeds_eval _ _ (.refl _) (.inl hframe)
  · exact c.proceeds_evalThen _ _ (.refl _) (.inl hframe) (by rintro _ ⟨⟩) (by rintro _ ⟨⟩; rfl)

theorem extends_bind (frame : FrameId) (name : String) (v : Value) :
    c.world.store.Extends (c.bind frame name v).2.world.store :=
  (Store.Extends.extend ..).trans (.define ..)

theorem bind_lt (frame : FrameId) (name : String) (v : Value) :
    (c.bind frame name v).1 < (c.bind frame name v).2.world.store.frames.size := by
  change c.world.store.frames.size < (Store.define _ _ _ _).frames.size
  rw [Store.size_define, Array.size_push]
  exact Nat.lt_succ_self _

theorem proceeds_runScope {d : Context} (hd : d.pending = c.pending)
    (h : c.world.store.Extends d.world.store) {frame : FrameId}
    (hframe : In frame ∨ frame < d.world.store.frames.size) (body : Expr)
    (bs : List (Binding Expr)) : Proceeds At In c (d.runScope frame body bs) := by
  induction bs generalizing d frame with
  | nil =>
    rw [runScope, go, hd]
    exact c.proceeds_eval _ _ h hframe
  | cons b bs ih =>
    obtain ⟨name, _ | init⟩ := b
    · exact ih (d := (d.bind frame name .absent).2) hd (h.trans (d.extends_bind ..))
        (.inr (d.bind_lt ..))
    · rw [runScope, go, push, hd]
      exact c.proceeds_evalThen _ _ h hframe (by rintro _ ⟨⟩) (by rintro _ ⟨⟩; rfl)

theorem proceeds_runMethod (cfg : Config) (frame : FrameId) (receiver method : String)
    (current : Value) (args : List Value) {q : Option Position} (hq : At q) :
    Proceeds At In c (c.runMethod cfg frame receiver method current args q) := by
  have hinvoked := cfg.methods.invoke_invoked c.world.store.nextId current method args
  unfold runMethod
  dsimp only [Store.fresh]
  cases h : cfg.methods.invoke _ current method args with
  | error fault =>
    rw [h] at hinvoked
    exact .fail hinvoked.isTarget hq
  | ok v =>
    dsimp only
    cases hset : Store.set? _ frame receiver v with
    | none => exact .fail rfl hq
    | some s => exact c.proceeds_value _ _ ((Store.Extends.fresh _).trans (.set? hset))

theorem proceeds_gather (cfg : Config) {frame : FrameId} (hframe : In frame) (purpose : Purpose)
    (hpurpose : ∀ q ∈ purpose.site?, At (some q)) (before : List Value) (es : List Expr) :
    Proceeds At In c (c.gather cfg frame purpose before es) := by
  cases es with
  | cons e more =>
    exact c.proceeds_evalThen _ _ (.refl _) (.inl hframe) hpurpose (by rintro _ ⟨⟩; rfl)
  | nil =>
    cases purpose with
    | array => exact c.proceeds_value _ _ (.fresh _)
    | call callee p =>
      refine c.proceeds_go _ (.refl _) ?_ (by rintro _ ⟨⟩)
      rintro _ _ _ ⟨⟩
      exact hpurpose p rfl
    | method receiver method current p =>
      exact c.proceeds_runMethod cfg frame receiver method current _ (hpurpose p rfl)

theorem proceeds_start (cfg : Config) {frame : FrameId} (hframe : In frame) {e : Expr}
    (h : e.badTarget? = none) (hAt : ∀ q ∈ e.site?, At (some q)) :
    Proceeds At In c (c.eval cfg frame e) := by
  cases e with
  | number | string | boolean => exact c.proceeds_value _ _ (.refl _)
  | lambda => exact c.proceeds_value _ _ (.fresh _)
  | array p items => exact c.proceeds_gather cfg hframe .array (by rintro _ ⟨⟩) _ _
  | var p name =>
    rw [eval]
    cases c.world.store.lookup frame name with
    | none => exact .fail rfl (hAt p rfl)
    | some v => exact c.proceeds_value _ _ (.refl _)
  | define p name init =>
    cases init with
    | none => exact c.proceeds_value _ _ (.define ..)
    | some init =>
      exact c.proceeds_evalThen _ _ (.refl _) (.inl hframe) (by rintro _ ⟨⟩) (by rintro _ ⟨⟩; rfl)
  | scope p bindings body => exact c.proceeds_runScope rfl (.refl _) (.inl hframe) ..
  | assign p target value =>
    cases target with
    | var q name =>
      exact c.proceeds_evalThen _ _ (.refl _) (.inl hframe) hAt (by rintro _ ⟨⟩; rfl)
    | _ => cases h
  | binary p op left right =>
    exact c.proceeds_evalThen _ _ (.refl _) (.inl hframe) hAt (by rintro _ ⟨⟩; rfl)
  | call p callee args =>
    exact c.proceeds_evalThen _ _ (.refl _) (.inl hframe) hAt (by rintro _ ⟨⟩; rfl)
  | method p receiver method args =>
    rw [eval]
    cases c.world.store.lookup frame receiver with
    | none => exact .fail rfl (hAt p rfl)
    | some current =>
      exact c.proceeds_gather cfg hframe (.method receiver method current p) hAt _ _
  | branch p cond consequent chained alternative =>
    exact c.proceeds_evalThen _ _ (.refl _) (.inl hframe) (by rintro _ ⟨⟩) (by rintro _ ⟨⟩; rfl)
  | block p statements => exact c.proceeds_runBlock hframe statements

theorem eval_of_badTarget? (cfg : Config) (frame : FrameId) {e target : Expr}
    (h : e.badTarget? = some target) :
    c.eval cfg frame e = c.fail (.invalidAssignTarget target.kind) (some target.position) := by
  cases e with
  | assign p left value => cases left <;> cases h <;> rfl
  | _ => cases h

theorem proceeds_apply (cfg : Config) (args : List Value) {q : Option Position} (hq : At q)
    (callee : Value) : Proceeds At In c (c.apply cfg args q callee) := by
  cases callee with
  | number | string | boolean | array => exact .fail rfl hq
  | closure id fn frame =>
    rw [apply, enter]
    cases cfg.limit.filter (· ≤ c.depth) with
    | some limit => exact .fail rfl hq
    | none =>
      have hextends := Store.Extends.defineAll (c.world.store.extend frame).2
        (c.world.store.extend frame).1
        (fn.name.toList.map (fun name => (name, .closure id fn frame)) ++ parameters fn.params args)
      have hinner : (c.world.store.extend frame).1 <
          (c.world.store.extend frame).2.frames.size := by
        rw [Store.size_extend]
        exact Nat.lt_succ_self _
      exact c.proceeds_evalThen _ _ ((Store.Extends.extend ..).trans hextends)
        (.inr (Nat.lt_of_lt_of_le hinner hextends.size)) (by rintro _ ⟨⟩) (by rintro _ ⟨⟩)
  | builtin b =>
    cases b with
    | print | println => exact c.proceeds_value _ _ (.refl _)
    | time =>
      refine .next [.timing _] ⟨.refl _, ?_, ?_, ?_, by rintro _ ⟨⟩⟩
      · exact List.forall_mem_singleton.mpr (by rintro _ ⟨⟩)
      · exact List.forall_mem_singleton.mpr (by rintro _ ⟨⟩)
      · rintro _ _ _ ⟨⟩
        exact hq
    | fib =>
      rw [apply]
      cases args.headD .absent with
      | number n => exact c.proceeds_fib _ _
      | _ => exact .fail rfl hq

theorem proceeds_resume (cfg : Config) (v : Value) {p : Pending}
    (hIn : ∀ g ∈ p.frame?, In g) (hAt : ∀ q ∈ p.site?, At (some q)) :
    Proceeds At In c (c.resume cfg v p) := by
  cases p with
  | define name frame => exact c.proceeds_value _ _ (.define ..)
  | scope name more body frame =>
    exact c.proceeds_runScope (d := (c.bind frame name v).2) rfl (c.extends_bind ..)
      (.inr (c.bind_lt ..)) ..
  | assign name frame p =>
    rw [resume]
    cases hset : c.world.store.set? frame name v with
    | none => exact .fail rfl (hAt p rfl)
    | some s => exact c.proceeds_value _ _ (.set? hset)
  | right op right frame p =>
    exact c.proceeds_evalThen _ _ (.refl _) (.inl (hIn frame rfl)) hAt (by rintro _ ⟨⟩)
  | operate op left p =>
    have hoperated := Value.operate_operated op left v
    rw [resume]
    cases h : Value.operate op left v with
    | ok w => exact c.proceeds_value _ _ (.refl _)
    | error fault =>
      rw [h] at hoperated
      exact .fail hoperated.isTarget (hAt p rfl)
  | callee args frame p => exact c.proceeds_gather cfg (hIn frame rfl) (.call v p) hAt _ _
  | gather purpose before more frame =>
    exact c.proceeds_gather cfg (hIn frame rfl) purpose hAt _ _
  | branch consequent chained alternative frame =>
    rw [resume]
    cases v.isTruthy with
    | true => exact c.proceeds_eval _ _ (.refl _) (.inl (hIn frame rfl))
    | false =>
      cases chained <|> alternative with
      | none => exact c.proceeds_value _ _ (.refl _)
      | some e => exact c.proceeds_eval _ _ (.refl _) (.inl (hIn frame rfl))
  | sequence more frame => exact c.proceeds_runBlock (hIn frame rfl) more
  | activation call => exact c.proceeds_value _ _ (.refl _)
  | timing started => exact c.proceeds_value _ _ (.refl _)

end Context

/-- The places where the next step can fail, assignments to bad targets apart. -/
def CanFail (m : Machine) (q : Option Position) : Prop :=
  match m.control, m.pending with
  | .eval e _, _ => q.isSome = true ∧ q = e.site?
  | .apply _ _ position, _ => q = position
  | .value _, p :: _ => q.isSome = true ∧ q = p.site?
  | _, _ => False

/-- The frame that the next step runs code in. -/
def RunsIn (m : Machine) (g : FrameId) : Prop :=
  match m.control, m.pending with
  | .eval _ frame, _ => g = frame
  | .value _, p :: _ => p.frame? = some g
  | _, _ => False

def base (m : Machine) : Context :=
  match m.control, m.pending with
  | .value _, _ :: below => ⟨below, m.depth, m.world⟩
  | _, _ => m.context

/-- What one step comes to. -/
inductive Moves (m : Machine) : Transition → Prop
  | proceeds {t : Transition} (h : Proceeds m.CanFail m.RunsIn m.base t) : Moves m t
  | badTarget {e target : Expr} {frame : FrameId} (hcontrol : m.control = .eval e frame)
      (htarget : e.badTarget? = some target) :
    Moves m (m.base.fail (.invalidAssignTarget target.kind) (some target.position))
  | finish {v : Value} (hcontrol : m.control = .value v) (hpending : m.pending = []) :
    Moves m (.done ⟨.ok v, m.depth, m.world⟩)

theorem step_moves (cfg : Config) (m : Machine) : m.Moves (m.step cfg) := by
  obtain ⟨control, pending, depth, world⟩ := m
  cases control with
  | eval e frame =>
    rw [step]
    cases htarget : e.badTarget? with
    | none =>
      refine .proceeds (Context.proceeds_start _ cfg ?_ htarget ?_)
      · exact rfl
      · intro q hq
        exact ⟨rfl, hq.symm⟩
    | some target =>
      rw [Context.eval_of_badTarget? _ cfg frame htarget]
      exact .badTarget (e := e) rfl htarget
  | apply callee args position =>
    refine .proceeds (Context.proceeds_apply _ cfg args ?_ callee)
    exact rfl
  | fib f =>
    refine .proceeds ?_
    rw [step]
    cases f.step with
    | inl f => exact Context.proceeds_fib ⟨pending, depth, world⟩ f depth
    | inr x => exact Context.proceeds_value ⟨pending, depth, world⟩ (.number x) depth (.refl _)
  | value v =>
    cases pending with
    | nil => exact .finish rfl rfl
    | cons p below =>
      refine .proceeds (Context.proceeds_resume _ cfg v ?_ ?_)
      · intro g hg
        exact hg
      · intro q hq
        exact ⟨rfl, hq.symm⟩

theorem world_base (m : Machine) : m.base.world = m.world := by
  unfold base
  split <;> rfl

theorem continues_of_next {cfg : Config} {m m' : Machine} (h : m.step cfg = .next m') :
    ∃ above, m'.pending = above ++ m.base.pending ∧
      Continues m.CanFail m.RunsIn m.world.store above m'.control m'.world.store := by
  have hmoves := step_moves cfg m
  rw [h] at hmoves
  cases hmoves with
  | proceeds hproceeds =>
    cases hproceeds with
    | next above hcontinues =>
      rw [m.world_base] at hcontinues
      exact ⟨above, rfl, hcontinues⟩

/-- A step gives out frames and identities, and takes none back. -/
theorem extends_of_next {cfg : Config} {m m' : Machine} (h : m.step cfg = .next m') :
    m.world.store.Extends m'.world.store := by
  obtain ⟨above, -, hcontinues⟩ := continues_of_next h
  exact hcontinues.store

/-- The last step of an evaluation gives the value that is there, or fails, and changes nothing. -/
theorem world_of_done {cfg : Config} {m : Machine} {f : Finished} (h : m.step cfg = .done f) :
    f.world = m.world ∧ ∀ v, f.result = .ok v → m.control = .value v := by
  have hmoves := step_moves cfg m
  rw [h] at hmoves
  cases hmoves with
  | proceeds hproceeds =>
    cases hproceeds with
    | fail => exact ⟨m.world_base, by rintro v ⟨⟩⟩
  | badTarget => exact ⟨m.world_base, by rintro v ⟨⟩⟩
  | finish hcontrol =>
    refine ⟨rfl, ?_⟩
    rintro w ⟨⟩
    exact hcontrol

end Machine

end ExprLang
