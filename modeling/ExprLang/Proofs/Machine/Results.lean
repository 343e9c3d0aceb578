import ExprLang.Proofs.Machine.Timed
import ExprLang.Proofs.Number.Fibonacci
import ExprLang.Proofs.Store.Frames

namespace ExprLang

namespace Store

def entered (s : Store) (id : Nat) (fn : Lambda) (frame : FrameId) (args : List Value) : Store :=
  (s.extend frame).2.defineAll s.frames.size
    (fn.name.toList.map (fun name => (name, .closure id fn frame)) ++
      Machine.Context.parameters fn.params args)

variable (s : Store) (id : Nat) (fn : Lambda) (frame : FrameId) (args : List Value)

theorem keeps_entered : s.Keeps (s.entered id fn frame args) where
  size := by
    rw [entered, size_defineAll, size_extend]
    exact Nat.le_succ _
  frame g hg := by
    rw [entered, frame_defineAll_of_ne _ _ (Nat.ne_of_gt hg), frame_extend,
      if_neg (Nat.ne_of_lt hg)]

theorem find?_entered (name : String) :
    ((s.entered id fn frame args).frame s.frames.size).find? name =
      (fn.name.toList.map (fun name => (name, Value.closure id fn frame)) ++
        Machine.Context.parameters fn.params args).reverse.lookup name := by
  have hinner : s.frames.size < (s.extend frame).2.frames.size := s.extend_lt frame
  rw [entered, find?_defineAll hinner, frame_extend, if_pos rfl]
  exact Option.or_none

end Store

namespace Machine

variable {cfg : Config}

theorem Transition.runTimed_add {delays : Nat → Nat} {k : Nat} {t : Transition} {m : Machine}
    (h : t.runTimed cfg delays k = .next m) (n : Nat) :
    t.runTimed cfg delays (k + n) = m.runTimed cfg (fun i => delays (i + k)) n := by
  cases t with
  | next m' =>
    have hrun : m'.runTimed cfg delays k = .next m := h
    refine (Machine.runTimed_add ..).trans ?_
    rw [hrun]
  | done f => cases h

/-- Taken from scopes `s`, the step `next` and those after it come to a value and leave other
scopes. They leave the stack and the output as they were. -/
def Gives (cfg : Config) (s : Store) (next : Context → Transition) (v : Value) (s' : Store) :
    Prop :=
  ∀ pending depth output now delays, ∃ n now',
    (next ⟨pending, depth, ⟨s, output, now⟩⟩).runTimed cfg delays n =
      .next ⟨.value v, pending, depth, ⟨s', output, now'⟩⟩

namespace Gives

variable {s s₁ s₂ s' : Store} {next : Context → Transition} {frame : FrameId} {p : Position}
  {u v w : Value} {args : List Value} {position : Option Position}

theorem give : Gives cfg s (·.give v) v s := fun _ _ _ now _ => ⟨0, now, rfl⟩

theorem congr {next' : Context → Transition} (h : Gives cfg s next' v s')
    (heq : ∀ c : Context, c.world.store = s → next c = next' c) : Gives cfg s next v s' := by
  intro pending depth output now delays
  rw [heq _ rfl]
  exact h pending depth output now delays

theorem withStore (h : Gives cfg s₁ next v s') (s : Store) :
    Gives cfg s (fun c => next (c.withStore s₁)) v s' := h

theorem go {control : Control} (h : Gives cfg s next v s')
    (hstep : ∀ c : Context, step cfg ⟨control, c.pending, c.depth, c.world⟩ = next c) :
    Gives cfg s (·.go control) v s' := by
  intro pending depth output now delays
  obtain ⟨n, now', hrun⟩ := h pending depth output (now + delays 0) fun i => delays (i + 1)
  rw [← hstep] at hrun
  exact ⟨n + 1, now', (runTimed_succ ..).trans hrun⟩

theorem eval {e : Expr} (h : Gives cfg s (·.eval cfg frame e) v s') :
    Gives cfg s (·.go (.eval e frame)) v s' := h.go fun _ => rfl

theorem apply {callee : Value} (h : Gives cfg s (·.apply cfg args position callee) v s') :
    Gives cfg s (·.go (.apply callee args position)) v s' := h.go fun _ => rfl

theorem push {control : Control} {p : Pending} (hpart : Gives cfg s (·.go control) w s₁)
    (h : Gives cfg s₁ (·.resume cfg w p) v s') :
    Gives cfg s (fun c => (c.push p).go control) v s' := by
  intro pending depth output now delays
  obtain ⟨k, now₁, hpart⟩ := hpart (p :: pending) depth output now delays
  obtain ⟨n, now', hrun⟩ :=
    h pending depth output (now₁ + delays (0 + k)) fun i => delays (i + 1 + k)
  have hadd := Transition.runTimed_add hpart (n + 1)
  exact ⟨k + (n + 1), now', hadd.trans ((runTimed_succ ..).trans hrun)⟩

theorem number (x : Float) : Gives cfg s (·.go (.eval (.number p x) frame)) (.number x) s :=
  eval give

theorem var {name : String} (h : s.lookup frame name = some v) :
    Gives cfg s (·.go (.eval (.var p name) frame)) v s := by
  refine eval (give.congr fun c hc => ?_)
  rw [Context.eval, hc, h]

theorem binary {op : Operator} {left right : Expr}
    (hleft : Gives cfg s (·.go (.eval left frame)) v s₁)
    (hright : Gives cfg s₁ (·.go (.eval right frame)) w s')
    (hop : Value.operate op v w = .ok u) :
    Gives cfg s (·.go (.eval (.binary p op left right) frame)) u s' := by
  refine eval (push hleft (push hright (give.congr fun c _ => ?_)))
  rw [Context.resume, hop]

theorem branch {cond consequent alternative : Expr} {b : Bool}
    (hcond : Gives cfg s (·.go (.eval cond frame)) (.boolean b) s₁)
    (hbranch : Gives cfg s₁ (·.go (.eval (if b then consequent else alternative) frame)) v s') :
    Gives cfg s (·.go (.eval (.branch p cond consequent none (some alternative)) frame)) v s' := by
  cases b <;> exact eval (push hcond hbranch)

theorem call {callee arg : Expr} (hcallee : Gives cfg s (·.go (.eval callee frame)) v s₁)
    (harg : Gives cfg s₁ (·.go (.eval arg frame)) w s₂)
    (happly : Gives cfg s₂ (·.go (.apply v [w] (some p))) u s') :
    Gives cfg s (·.go (.eval (.call p callee [arg]) frame)) u s' :=
  eval (push hcallee (push harg happly))

theorem closure {id : Nat} {fn : Lambda} (hlimit : cfg.limit = none)
    (hbody : Gives cfg (s.entered id fn frame args)
      (·.go (.eval fn.body s.frames.size)) v s') :
    Gives cfg s (·.go (.apply (.closure id fn frame) args position)) v s' := by
  have henter (c : Context) : c.apply cfg args position (.closure id fn frame) =
      .next ⟨.eval fn.body c.world.store.frames.size,
        .activation ⟨fn.name, fn.body.position⟩ :: c.pending, c.depth + 1,
        ⟨c.world.store.entered id fn frame args, c.world.output, c.world.now⟩⟩ := by
    rw [Context.apply, Context.enter, hlimit]
    rfl
  refine apply (congr (fun pending depth output now delays => ?_) fun c _ => henter c)
  obtain ⟨k, now₁, hbody⟩ := hbody (.activation ⟨fn.name, fn.body.position⟩ :: pending) (depth + 1)
    output now delays
  have hadd := Transition.runTimed_add hbody 1
  exact ⟨k + 1, _, hadd.trans (runTimed_succ ..)⟩

theorem fib_of_run {k : Nat} {f : Number.Fibonacci} {y : Float} (h : f.run k = .inr y) :
    Gives cfg s (·.go (.fib f)) (.number y) s := by
  induction k generalizing f with
  | zero => cases h
  | succ k ih =>
    rw [Number.Fibonacci.run] at h
    cases hstep : f.step with
    | inl f' =>
      rw [hstep] at h
      refine go (ih h) fun c => ?_
      rw [step, hstep]
      rfl
    | inr x =>
      rw [hstep] at h
      cases h
      refine go give fun c => ?_
      rw [step, hstep]
      rfl

theorem fib {k : Nat} {x y : Float} (h : (Number.Fibonacci.start x).run k = .inr y) :
    Gives cfg s (·.go (.apply (.builtin .fib) [.number x] position)) (.number y) s :=
  apply (fib_of_run h)

theorem ends {control : Control} (h : Gives cfg s (·.go control) v s') (depth : Nat)
    (output : Output) (now : Nat) (delays : Nat → Nat) :
    ∃ n now', (⟨control, [], depth, ⟨s, output, now⟩⟩ : Machine).runTimed cfg delays n =
      .done ⟨.ok v, depth, ⟨s', output, now'⟩⟩ := by
  obtain ⟨n, now', hrun⟩ := h [] depth output now delays
  have hadd := Transition.runTimed_add hrun 1
  exact ⟨n + 1, _, hadd.trans (runTimed_succ ..)⟩

end Gives

end Machine

end ExprLang
