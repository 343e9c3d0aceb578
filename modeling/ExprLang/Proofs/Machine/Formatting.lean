import ExprLang.Command
import ExprLang.Proofs.Expr.Canonical
import ExprLang.Proofs.Machine.Erase

namespace ExprLang

/-- Results that agree apart from places: values of the same type and text that are equal but for
the places in functions, or the same fault in the same calls. -/
inductive ResultsAgree : Except EvalError Value → Except EvalError Value → Prop
  | ok {v w : Value} (typeName : v.typeName = w.typeName) (display : v.display = w.display)
      (value : v.erase = w.erase) : ResultsAgree (.ok v) (.ok w)
  | error {e e' : EvalError} (fault : e.fault = e'.fault)
      (calls : e.backtrace.map (·.name) = e'.backtrace.map (·.name))
      (located : e.position.isSome = e'.position.isSome) : ResultsAgree (.error e) (.error e')

namespace Machine

/-- Ends of two evaluations in the scope `root` that agree apart from places and measured times. -/
structure Finished.Agrees (root : FrameId) (f g : Finished) : Prop where
  result : ResultsAgree f.result g.result
  depth : f.depth = g.depth
  output : f.world.output.SameAside g.world.output
  /-- The global frame binds the same names. -/
  names : f.world.store.names root = g.world.store.names root
  /-- They are bound to values that are equal but for the places in functions. -/
  values : ∀ name, ((f.world.store.frame root).find? name).map Value.erase =
    ((g.world.store.frame root).find? name).map Value.erase
  /-- So are all names in the frames that these functions use. -/
  frames : f.world.store.erase = g.world.store.erase

/-- Neither evaluation has ended, or both have, in agreement. -/
inductive Transition.Agree (root : FrameId) : Transition → Transition → Prop
  | next {m m' : Machine} : Agree root (.next m) (.next m')
  | done {f g : Finished} (h : f.Agrees root g) : Agree root (.done f) (.done g)

section Agreement

variable {root : FrameId}

theorem resultsAgree_of_erase {f g : Finished} (h : f.erase.result = g.erase.result) :
    ResultsAgree f.result g.result := by
  unfold Finished.erase at h
  dsimp only at h
  cases hf : f.result with
  | ok v =>
    cases hg : g.result with
    | ok w =>
      rw [hf, hg] at h
      have heq : v.erase = w.erase := Except.ok.inj h
      refine .ok ?_ ?_ heq
      · rw [← v.typeName_erase, heq, w.typeName_erase]
      · rw [← v.display_erase, heq, w.display_erase]
    | error e =>
      rw [hf, hg] at h
      cases h
  | error e =>
    cases hg : g.result with
    | ok w =>
      rw [hf, hg] at h
      cases h
    | error e' =>
      rw [hf, hg] at h
      have heq : e.erase = e'.erase := Except.error.inj h
      have hname : (fun a : Activation => a.name) = (fun a => a.name) ∘ Activation.erase := rfl
      have hcalls := congrArg (fun e => e.backtrace.map fun a => a.name) heq
      have hlocated := congrArg (fun e => e.position.isSome) heq
      refine .error (congrArg (fun e => e.fault) heq) ?_ ?_
      · simpa only [EvalError.erase, List.map_map, ← hname] using hcalls
      · simpa only [EvalError.erase, erasePlace, Option.isSome_map] using hlocated

theorem names_erase (s : Store) : s.erase.names root = s.names root := by
  unfold Store.names
  rw [Store.frame_erase, Frame.erase, List.map_map]
  rfl

theorem Finished.agrees_of_erase {f g : Finished} (h : f.erase.Alike g.erase) :
    f.Agrees root g := by
  have hframes : f.world.store.erase = g.world.store.erase := h.store
  refine ⟨resultsAgree_of_erase h.result, h.depth, h.output, ?_, ?_, hframes⟩
  · rw [← names_erase, hframes, names_erase]
  · intro name
    rw [← Frame.find?_erase, ← Frame.find?_erase, ← Store.frame_erase, ← Store.frame_erase, hframes]

theorem Transition.agree_of_erase {t t' : Transition} (h : t.erase.Alike t'.erase) :
    t.Agree root t' := by
  cases t with
  | next m =>
    cases t' with
    | next m' => exact .next
    | done g => cases h
  | done f =>
    cases t' with
    | next m' => cases h
    | done g =>
      cases h with
      | done h => exact .done (Finished.agrees_of_erase h)

/-- Machines that are equal without places keep in step. -/
theorem runTimed_agree {m m' : Machine} (h : m'.erase = m.erase) (cfg : Config)
    (delays delays' : Nat → Nat) (k : Nat) :
    (m.runTimed cfg delays k).Agree root (m'.runTimed cfg delays' k) := by
  apply Transition.agree_of_erase
  -- Without places there is one machine, on two clocks.
  rw [← runTimed_erase, ← runTimed_erase, h]
  exact (Alike.refl m.erase).runTimed cfg delays delays' k

end Agreement

end Machine

/-- A text that can be parsed and its formatted form are programs that do the same in every state
of a session, as long as no literal is infinite: neither ends, or both do after as many steps, with
the same type and text of the value or the same fault and calls, with the same printed text apart
from measured times, and with corresponding values in the global frame. -/
theorem evaluate_format {source : String} {e : Expr} (h : parse source = .ok e)
    (hfinite : e.FiniteNumbers) :
    ∃ text e', Command.formatReport source = .ok text ∧ parse text = .ok e' ∧
      ∀ (s : Session) (delays delays' : Nat → Nat) (k : Nat),
        ((s.evaluate e).runTimed s.config delays k).Agree s.root
          ((s.evaluate e').runTimed s.config delays' k) := by
  obtain ⟨e', hparse, herase⟩ := parse_printProgram_of_parse h hfinite
  have hformat : Command.formatReport source = .ok e.printProgram := by
    unfold Command.formatReport
    rw [h]
  refine ⟨e.printProgram, e', hformat, hparse, ?_⟩
  intro s delays delays' k
  have hstart (e : Expr) : (s.evaluate e).erase =
      ⟨.eval e.erase s.root, [], s.depth, s.world.erase⟩ := rfl
  apply Machine.runTimed_agree
  rw [hstart, hstart, herase]

/-- `let f(x)=print(x); time(f)` -/
def Expr.measured : Expr :=
  .block .start
    [.define ⟨1, 1⟩ "f" (some (.lambda ⟨1, 1⟩ (some "f") ["x"]
      (.call ⟨1, 10⟩ (.var ⟨1, 10⟩ "print") [.var ⟨1, 16⟩ "x"]))),
    .call ⟨1, 20⟩ (.var ⟨1, 20⟩ "time") [.var ⟨1, 25⟩ "f"]]

/-- A definition that is printed in another form, and a call that is measured. -/
theorem evaluate_format_measured :
    parse "let f(x)=print(x); time(f)" = .ok Expr.measured ∧ Expr.measured.FiniteNumbers ∧
      ∃ text e', Command.formatReport "let f(x)=print(x); time(f)" = .ok text ∧
        parse text = .ok e' ∧ ∀ (s : Session) (delays delays' : Nat → Nat) (k : Nat),
          ((s.evaluate Expr.measured).runTimed s.config delays k).Agree s.root
            ((s.evaluate e').runTimed s.config delays' k) := by
  have hparse : parse "let f(x)=print(x); time(f)" = .ok Expr.measured := by
    with_unfolding_all rfl
  have hcall (p q : Position) (callee arg : String) :
      (Expr.call p (.var p callee) [.var q arg]).FiniteNumbers := by
    refine .node trivial (List.forall_mem_cons.mpr ⟨.leaf trivial rfl, ?_⟩)
    exact List.forall_mem_singleton.mpr (.leaf trivial rfl)
  have hfinite : Expr.measured.FiniteNumbers := by
    refine .node trivial (List.forall_mem_cons.mpr ⟨.node trivial ?_, ?_⟩)
    · refine List.forall_mem_singleton.mpr (.node trivial ?_)
      exact List.forall_mem_singleton.mpr (hcall ⟨1, 10⟩ ⟨1, 16⟩ "print" "x")
    · exact List.forall_mem_singleton.mpr (hcall ⟨1, 20⟩ ⟨1, 25⟩ "time" "f")
  exact ⟨hparse, hfinite, evaluate_format hparse hfinite⟩

end ExprLang
