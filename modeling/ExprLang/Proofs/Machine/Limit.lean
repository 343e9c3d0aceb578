import ExprLang.Proofs.Machine.Timed
import ExprLang.Session

namespace ExprLang

/-- One limit allows no more calls than another one; `none` is no limit. -/
def LimitLe (n m : Option Nat) : Prop := ∀ k ∈ m, ∃ j ∈ n, j ≤ k

namespace Machine

/-- The evaluation ended because too many calls were under way. -/
def Finished.Overflowed (f : Finished) : Prop :=
  ∃ limit position calls, f.result = .error ⟨.stackOverflow limit, position, calls⟩

def Transition.Overflows (t : Transition) : Prop := ∃ f, t = .done f ∧ f.Overflowed

section Steps

variable {n m : Option Nat} (hle : LimitLe n m) (methods : MethodTable)

namespace Context

theorem overflows_fail (c : Context) (limit : Nat) (position : Option Position) :
    (c.fail (.stackOverflow limit) position).Overflows := by
  rw [fail_eq]
  exact ⟨_, rfl, limit, _, _, rfl⟩

include hle in
theorem filter_limit {depth : Nat} (h : n.filter (· ≤ depth) = none) :
    m.filter (· ≤ depth) = none := by
  cases m with
  | none => rfl
  | some k =>
    -- The higher limit is a number, so the lower one is a number too, and no larger.
    obtain ⟨j, rfl, hjk⟩ := hle k rfl
    simp only [Option.filter_eq_none_iff, Option.some.injEq, forall_eq', decide_eq_true_eq,
      Nat.not_le] at h ⊢
    omega

include hle in
theorem enter_limit (c : Context) (id : Nat) (fn : Lambda) (frame : FrameId) (args : List Value)
    (position : Option Position) :
    c.enter ⟨methods, n⟩ id fn frame args position =
        c.enter ⟨methods, m⟩ id fn frame args position ∨
      (c.enter ⟨methods, n⟩ id fn frame args position).Overflows := by
  unfold enter
  dsimp only
  cases h : n.filter (· ≤ c.depth) with
  | some limit => exact .inr (overflows_fail c limit position)
  | none =>
    left
    rw [filter_limit hle h]

include hle in
theorem apply_limit (c : Context) (args : List Value) (position : Option Position)
    (callee : Value) :
    c.apply ⟨methods, n⟩ args position callee = c.apply ⟨methods, m⟩ args position callee ∨
      (c.apply ⟨methods, n⟩ args position callee).Overflows := by
  cases callee with
  | closure id fn frame => exact enter_limit hle methods c id fn frame args position
  | builtin b => cases b <;> exact .inl rfl
  | _ => exact .inl rfl

theorem eval_limit (c : Context) (n m : Option Nat) (frame : FrameId) (e : Expr) :
    c.eval ⟨methods, n⟩ frame e = c.eval ⟨methods, m⟩ frame e := rfl

theorem resume_limit (c : Context) (n m : Option Nat) (v : Value) (p : Pending) :
    c.resume ⟨methods, n⟩ v p = c.resume ⟨methods, m⟩ v p := rfl

end Context

include hle

/-- One step: the same under both limits, or the lower one ends the evaluation. -/
theorem step_limit (machine : Machine) :
    machine.step ⟨methods, n⟩ = machine.step ⟨methods, m⟩ ∨
      (machine.step ⟨methods, n⟩).Overflows := by
  obtain ⟨control, pending, depth, world⟩ := machine
  cases control with
  | apply callee args position =>
    exact Context.apply_limit hle methods ⟨pending, depth, world⟩ args position callee
  | eval e frame => exact .inl (Context.eval_limit methods ⟨pending, depth, world⟩ n m frame e)
  | fib f => exact .inl rfl
  | value v =>
    left
    cases pending with
    | nil => rfl
    | cons p pending => exact Context.resume_limit methods ⟨pending, depth, world⟩ n m v p

theorem runTimed_limit (delays : Nat → Nat) (k : Nat) (machine : Machine) :
    machine.runTimed ⟨methods, n⟩ delays k = machine.runTimed ⟨methods, m⟩ delays k ∨
      (machine.runTimed ⟨methods, n⟩ delays k).Overflows := by
  induction k generalizing delays machine with
  | zero => exact .inl rfl
  | succ k ih =>
    rw [runTimed, runTimed]
    rcases step_limit hle methods (machine.wait (delays 0)) with heq | ⟨f, hdone, hf⟩
    · rw [← heq]
      cases (machine.wait (delays 0)).step ⟨methods, n⟩ with
      | next machine => exact ih _ machine
      | done f => exact .inl rfl
    · rw [hdone]
      exact .inr ⟨f, rfl, hf⟩

end Steps

/-- An evaluation, of a program or a call in any state, that the limit does not end has the same end
under every higher limit: the same value or error, the same number of calls under way, the same
frames, and the same text apart from measured times. The clock need not go the same way. -/
theorem runTimed_of_limit_le {n m : Option Nat} (hle : LimitLe n m) (methods : MethodTable)
    (delays delays' : Nat → Nat) (start : Machine) {k : Nat} {f : Finished}
    (hrun : start.runTimed ⟨methods, n⟩ delays k = .done f) (hf : ¬ f.Overflowed) :
    ∃ g, start.runTimed ⟨methods, m⟩ delays' k = .done g ∧ f.Alike g := by
  -- First the limit is raised on the same clock, then the clock is exchanged.
  have heq : start.runTimed ⟨methods, m⟩ delays k = .done f := by
    rcases runTimed_limit hle methods delays k start with heq | ⟨g, hdone, hg⟩
    · rw [← heq, hrun]
    · rw [hrun] at hdone
      cases hdone
      exact absurd hg hf
  have halike := (Alike.refl start).runTimed ⟨methods, m⟩ delays delays' k
  rw [heq] at halike
  cases hg : start.runTimed ⟨methods, m⟩ delays' k with
  | next machine =>
    rw [hg] at halike
    cases halike
  | done g =>
    rw [hg] at halike
    cases halike with
    | done h => exact ⟨g, rfl, h⟩

/-- `time(fn() print("a"))` in a new session. -/
def timedCall : Machine :=
  (Session.new .standard true ⟨.empty, .captured "", 0⟩).evaluate
    (.call .start (.var .start "time")
      [.lambda .start none [] (.call .start (.var .start "print") [.string .start "a"])])

/-- A call that is measured, with room for one call and with room for all. -/
theorem runTimed_of_limit_le_timedCall : ∃ f, LimitLe (some 1) none ∧
    timedCall.runTimed ⟨.standard, some 1⟩ (fun i => i) 20 = .done f ∧ ¬ f.Overflowed ∧
    ∃ g, timedCall.runTimed ⟨.standard, none⟩ (fun _ => 0) 20 = .done g ∧ f.Alike g := by
  have hle : LimitLe (some 1) none := by
    intro k hk
    cases hk
  obtain ⟨f, hrun, hresult⟩ :
      ∃ f, timedCall.runTimed ⟨.standard, some 1⟩ (fun i => i) 20 = .done f ∧
        f.result = .ok .absent := ⟨_, rfl, rfl⟩
  have hf : ¬ f.Overflowed := by
    rintro ⟨limit, position, calls, h⟩
    rw [hresult] at h
    cases h
  exact ⟨f, hle, hrun, hf,
    runTimed_of_limit_le hle .standard (fun i => i) (fun _ => 0) timedCall hrun hf⟩

end Machine

end ExprLang
