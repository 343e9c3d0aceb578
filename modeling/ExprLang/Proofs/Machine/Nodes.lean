import ExprLang.Proofs.Expr.Located
import ExprLang.Proofs.Machine.Custody
import ExprLang.Proofs.Machine.Moves

namespace ExprLang

/-- The place that is blamed for a fault of an expression: its own, or that of the target of an
assignment that is not a variable. -/
def Expr.blamed (e : Expr) (fault : EvalFault) : Position :=
  match fault, e with
  | .invalidAssignTarget _, .assign _ target _ => target.position
  | _, _ => e.position

theorem Expr.blamed_of_isTarget {fault : EvalFault} (e : Expr) (h : fault.isTarget = false) :
    e.blamed fault = e.position := by
  cases fault with
  | invalidAssignTarget => cases h
  | _ => rfl

theorem Expr.blamed_of_badTarget? {e target : Expr} (kind : String)
    (h : e.badTarget? = some target) :
    e.blamed (.invalidAssignTarget kind) = target.position := by
  cases e with
  | assign p left value => cases left <;> cases h <;> rfl
  | _ => cases h

namespace Machine

/-- An expression that is being evaluated, and how high the stack was when this began. -/
structure Node where
  expr : Expr
  height : Nat

/-- The expressions being evaluated in a state, the innermost first, given those in the state
before. -/
def opened (m : Machine) (nodes : List Node) : List Node :=
  match m.control with
  | .eval e _ => ⟨e, m.pending.length⟩ :: nodes
  | .value _ => nodes.filter (·.height < m.pending.length)
  | _ => nodes

/-- The expressions being evaluated after at most `n` steps; `delays i` milliseconds pass before
step `i`. -/
def nodesTimed (cfg : Config) (delays : Nat → Nat) : Nat → Machine → List Node → List Node
  | 0, _, nodes => nodes
  | n + 1, m, nodes =>
    match (m.wait (delays 0)).step cfg with
    | .next m' => nodesTimed cfg (fun i => delays (i + 1)) n m' (m'.opened nodes)
    | .done _ => nodes

/-- The innermost of the expressions that began when the stack was no higher than this. -/
def innermost (nodes : List Node) (height : Nat) : Option Node :=
  nodes.find? (·.height ≤ height)

theorem innermost_eq_head? {nodes : List Node} {height : Nat}
    (h : ∀ node ∈ nodes, node.height ≤ height) : innermost nodes height = nodes.head? := by
  cases nodes with
  | nil => rfl
  | cons node nodes =>
    exact List.find?_cons_of_pos (decide_eq_true (h node List.mem_cons_self))

theorem low_append {nodes : List Node} {ps : List Pending}
    (h : ∀ node ∈ nodes, node.height ≤ ps.length) (above : List Pending) :
    ∀ node ∈ nodes, node.height ≤ (above ++ ps).length := by
  intro node hnode
  have hlow := h node hnode
  rw [List.length_append]
  omega

/-- What begins or ends on top of the stack does not concern the entries below. -/
theorem innermost_opened (m : Machine) (nodes : List Node) {height : Nat}
    (h : height < m.pending.length) :
    innermost (m.opened nodes) height = innermost nodes height := by
  unfold innermost opened
  split
  · rw [List.find?_cons_of_neg]
    simpa using h
  · rw [List.find?_filter]
    congr 1
    funext node
    by_cases hnode : node.height ≤ height
    · simp [hnode, Nat.lt_of_le_of_lt hnode h]
    · simp [hnode]
  · rfl

/-- Each entry of the stack knows the place of the innermost expression below it. -/
def Blames (nodes : List Node) : List Pending → Prop
  | [] => True
  | p :: below =>
    (∀ q ∈ p.site?, ∃ node ∈ innermost nodes below.length, node.expr.site? = some q) ∧
      Blames nodes below

theorem Blames.congr {nodes nodes' : List Node} {ps : List Pending} (h : Blames nodes ps)
    (heq : ∀ height < ps.length, innermost nodes' height = innermost nodes height) :
    Blames nodes' ps := by
  induction ps with
  | nil => exact h
  | cons p below ih =>
    obtain ⟨hp, hbelow⟩ := h
    refine ⟨?_, ih hbelow fun height hlt => heq height (Nat.lt_succ_of_lt hlt)⟩
    rw [heq below.length (Nat.lt_succ_self _)]
    exact hp

/-- The place where the innermost expression can fail. -/
def Sited (nodes : List Node) (q : Option Position) : Prop :=
  ∃ node ∈ nodes.head?, q.isSome = true ∧ q = node.expr.site?

theorem Blames.append {nodes : List Node} {ps : List Pending} (h : Blames nodes ps)
    (hlow : ∀ node ∈ nodes, node.height ≤ ps.length) {above : List Pending}
    (habove : ∀ p ∈ above, ∀ q ∈ p.site?, Sited nodes (some q)) :
    Blames nodes (above ++ ps) := by
  induction above with
  | nil => exact h
  | cons p above ih =>
    obtain ⟨hp, habove⟩ := List.forall_mem_cons.mp habove
    refine ⟨?_, ih habove⟩
    intro q hq
    obtain ⟨node, hnode, -, hsite⟩ := hp q hq
    -- All of them began at or below `ps`, so the innermost one is the same everywhere above it.
    rw [← innermost_eq_head? (low_append hlow above)] at hnode
    exact ⟨node, hnode, hsite.symm⟩

/-- What is known about the next thing to do: an expression is the innermost one, and a call
belongs to the innermost one. -/
def Control.Belongs (nodes : List Node) : Control → Prop
  | eval e _ => ∃ node ∈ nodes.head?, node.expr = e
  | apply _ _ q => Sited nodes q
  | _ => True

/-- The expressions being evaluated fit the state of the machine. -/
structure Tracks (nodes : List Node) (m : Machine) : Prop where
  low : ∀ node ∈ nodes, node.height ≤ m.base.pending.length
  blames : Blames nodes m.pending
  belongs : m.control.Belongs nodes

namespace Tracks

variable {nodes : List Node} {m : Machine}

theorem wait (h : Tracks nodes m) (ms : Nat) : Tracks nodes (m.wait ms) := by
  refine ⟨?_, h.blames, h.belongs⟩
  have hbase : (m.wait ms).base.pending = m.base.pending := by
    obtain ⟨control, pending, depth, world⟩ := m
    cases control <;> cases pending <;> rfl
  rw [hbase]
  exact h.low

/-- All places where the next step can fail are that of the innermost expression. -/
theorem sited (h : Tracks nodes m) {q : Option Position} (hq : m.CanFail q) : Sited nodes q := by
  obtain ⟨hlow, hblames, hbelongs⟩ := h
  obtain ⟨control, pending, depth, world⟩ := m
  cases control with
  | eval e frame =>
    obtain ⟨node, hnode, rfl⟩ := hbelongs
    exact ⟨node, hnode, hq⟩
  | apply callee args position =>
    obtain rfl : q = position := hq
    exact hbelongs
  | fib f => exact hq.elim
  | value v =>
    cases pending with
    | nil => exact hq.elim
    | cons p below =>
      obtain ⟨hsome, rfl⟩ := hq
      obtain ⟨place, hplace⟩ := Option.isSome_iff_exists.mp hsome
      obtain ⟨node, hnode, hsite⟩ := hblames.1 place hplace
      have hhead : innermost nodes below.length = nodes.head? := innermost_eq_head? hlow
      exact ⟨node, hhead ▸ hnode, hsome, hplace.trans hsite.symm⟩

theorem blames_base (h : Tracks nodes m) : Blames nodes m.base.pending := by
  obtain ⟨-, hblames, -⟩ := h
  obtain ⟨control, pending, depth, world⟩ := m
  cases control with
  | value v =>
    cases pending with
    | nil => exact hblames
    | cons p below => exact hblames.2
  | _ => exact hblames

theorem low_opened {m : Machine} (h : ∀ node ∈ nodes, node.height ≤ m.pending.length) :
    ∀ node ∈ m.opened nodes, node.height ≤ m.base.pending.length := by
  obtain ⟨control, pending, depth, world⟩ := m
  cases control with
  | eval e frame => exact List.forall_mem_cons.mpr ⟨Nat.le_refl _, h⟩
  | apply | fib => exact h
  | value v =>
    intro node hnode
    -- What began on top of the entry that gets the value has ended, so the rest is below it.
    have hlt : node.height < pending.length := of_decide_eq_true (List.mem_filter.mp hnode).2
    cases pending with
    | nil => cases hlt
    | cons p below => exact Nat.le_of_lt_succ hlt

theorem belongs_opened {m : Machine}
    (h : ∀ callee args q, m.control = .apply callee args q → Sited nodes q) :
    m.control.Belongs (m.opened nodes) := by
  obtain ⟨control, pending, depth, world⟩ := m
  cases control with
  | eval e frame => exact ⟨_, rfl, rfl⟩
  | apply callee args q => exact h callee args q rfl
  | fib | value => exact trivial

theorem next {cfg : Config} {m' : Machine} (h : Tracks nodes m) (hstep : m.step cfg = .next m') :
    Tracks (m'.opened nodes) m' := by
  obtain ⟨above, hpending, hcontinues⟩ := continues_of_next hstep
  have hlow : ∀ node ∈ nodes, node.height ≤ m'.pending.length := by
    rw [hpending]
    exact low_append h.low above
  have hblames : Blames nodes m'.pending := by
    rw [hpending]
    exact h.blames_base.append h.low fun p hp q hq => h.sited (hcontinues.sites p hp q hq)
  refine ⟨low_opened hlow, hblames.congr fun _ => innermost_opened m' nodes, belongs_opened ?_⟩
  exact fun callee args q hcontrol => h.sited (hcontinues.position callee args q hcontrol)

theorem fail {cfg : Config} {f : Finished} {err : EvalError} (h : Tracks nodes m)
    (hstep : m.step cfg = .done f) (herr : f.result = .error err) :
    ∃ node ∈ nodes.head?, err.position = some (node.expr.blamed err.fault) ∧
      (node.expr.site? = err.position ∨
        ∃ target ∈ node.expr.children, err.position = some target.position) := by
  have hmoves := step_moves cfg m
  rw [hstep] at hmoves
  cases hmoves with
  | proceeds hproceeds =>
    cases hproceeds with
    | fail hfault hq =>
      cases herr
      obtain ⟨node, hnode, hsome, rfl⟩ := h.sited hq
      obtain ⟨place, hplace⟩ := Option.isSome_iff_exists.mp hsome
      rw [hplace, unwind_located]
      refine ⟨node, hnode, ?_, .inl hplace⟩
      rw [node.expr.blamed_of_isTarget hfault, Expr.position_of_site? hplace]
  | badTarget hcontrol htarget =>
    cases herr
    have hbelongs := h.belongs
    rw [hcontrol] at hbelongs
    obtain ⟨node, hnode, rfl⟩ := hbelongs
    rw [unwind_located]
    refine ⟨node, hnode, ?_, .inr ⟨_, Expr.mem_children_of_badTarget? htarget, rfl⟩⟩
    rw [Expr.blamed_of_badTarget? _ htarget]
  | finish => cases herr

end Tracks

theorem mem_opened {m : Machine} {nodes : List Node} {node : Node} (h : node ∈ m.opened nodes) :
    node ∈ nodes ∨ node.expr ∈ m.control.code := by
  unfold opened at h
  split at h
  · next hcontrol =>
    rcases List.mem_cons.mp h with rfl | h
    · rw [hcontrol]
      exact .inr List.mem_cons_self
    · exact .inl h
  · exact .inl (List.mem_filter.mp h).1
  · exact .inl h

/-- Code from a program: its nodes are run, and the bodies of functions are below its root. -/
def codeOf (program : Expr) : Custody where
  Code e := e.Sub program
  Held v := ∀ id fn frame, (Value.closure id fn frame).Part v → fn.body.Inner program
  Called call := ∃ e : Expr, e.Inner program ∧ e.position = call.position
  code_child he hc := (he.child hc).sub
  held_plain hv id fn frame hpart := by
    cases Value.part_of_identity? hpart hv
    cases hv
  entered h := ⟨(h _ _ _ .self).sub, _, h _ _ _ .self, rfl⟩

theorem Made.codeOf {program : Expr} {m : Machine} {v : Value} (h : m.Made v)
    (hm : m.Kept (codeOf program)) : (codeOf program).Held v := by
  intro id fn frame hpart
  cases h with
  | closure hcontrol =>
    cases Value.part_closure hpart
    have hcode := hm.control.code
    rw [hcontrol] at hcode
    exact (hcode _ List.mem_cons_self).child List.mem_cons_self
  | array hitems =>
    rcases Value.part_array hpart with heq | ⟨w, hw, hpart⟩
    · cases heq
    · obtain ⟨u, hu, hwu⟩ := hitems w hw
      exact hm.held hu id fn frame (hpart.trans hwu)

/-- An error of a program: it blames the innermost expression being evaluated, and it and the calls
in its backtrace are at places of nodes below the root. -/
structure Diagnosed (program : Expr) (nodes : List Node) (err : EvalError) : Prop where
  innermost : ∃ node ∈ nodes.head?, node.expr.Sub program ∧
    err.position = some (node.expr.blamed err.fault)
  place : ∃ e : Expr, e.Inner program ∧ err.position = some e.position
  calls : ∀ call ∈ err.backtrace, ∃ e : Expr, e.Inner program ∧ e.position = call.position

/-- All that is known of a run of a program. -/
structure Follows (program : Expr) (nodes : List Node) (m : Machine) : Prop where
  tracks : Tracks nodes m
  kept : m.Kept (codeOf program)
  nodes : ∀ node ∈ nodes, node.expr.Sub program

namespace Follows

variable {program : Expr} {nodes : List Node} {m : Machine} {cfg : Config}

theorem wait (h : Follows program nodes m) (ms : Nat) : Follows program nodes (m.wait ms) :=
  ⟨h.tracks.wait ms, h.kept.wait ms, h.nodes⟩

theorem step (h : Follows program nodes m) (cfg : Config) : (m.step cfg).Kept (codeOf program) :=
  h.kept.step cfg fun _ hv => (made_of_made? hv).codeOf h.kept

theorem next {m' : Machine} (h : Follows program nodes m) (hstep : m.step cfg = .next m') :
    Follows program (m'.opened nodes) m' := by
  have hkept := h.step cfg
  rw [hstep] at hkept
  refine ⟨h.tracks.next hstep, hkept, fun node hnode => ?_⟩
  rcases mem_opened hnode with hnode | hcode
  · exact h.nodes node hnode
  · exact hkept.control.code _ hcode

theorem done {f : Finished} {err : EvalError} (h : Follows program nodes m)
    (hroot : program.site? = none) (hstep : m.step cfg = .done f) (herr : f.result = .error err) :
    Diagnosed program nodes err := by
  have hkept := h.step cfg
  rw [hstep] at hkept
  obtain ⟨node, hnode, hblamed, hplace⟩ := h.tracks.fail hstep herr
  have hsub := h.nodes node (List.mem_of_head? hnode)
  refine ⟨⟨node, hnode, hsub, hblamed⟩, ?_, hkept.called err herr⟩
  rcases hplace with hsite | ⟨target, htarget, hposition⟩
  · have hsome : node.expr.site? = some (node.expr.blamed err.fault) := hsite.trans hblamed
    rcases hsub.eq_or_inner with heq | hinner
    · rw [heq, hroot] at hsome
      cases hsome
    · exact ⟨node.expr, hinner, hblamed.trans (congrArg some (Expr.position_of_site? hsome).symm)⟩
  · exact ⟨target, hsub.child htarget, hposition⟩

theorem runTimed (h : Follows program nodes m) (hroot : program.site? = none)
    (delays : Nat → Nat) {n : Nat} {f : Finished} {err : EvalError}
    (hrun : m.runTimed cfg delays n = .done f) (herr : f.result = .error err) :
    Diagnosed program (m.nodesTimed cfg delays n nodes) err := by
  induction n generalizing m nodes delays with
  | zero => cases hrun
  | succ n ih =>
    rw [Machine.runTimed] at hrun
    rw [nodesTimed]
    cases hstep : (m.wait (delays 0)).step cfg with
    | next m' =>
      rw [hstep] at hrun
      exact ih ((h.wait _).next hstep) _ hrun
    | done g =>
      rw [hstep] at hrun
      cases hrun
      exact (h.wait _).done hroot hstep herr

theorem evaluate (s : Session) (program : Expr)
    (hs : ∀ v, s.world.store.Holds v → v.identity? = none) :
    Follows program ((s.evaluate program).opened []) (s.evaluate program) := by
  refine ⟨⟨?_, trivial, _, rfl, rfl⟩, ⟨.eval _ .self, List.forall_mem_nil _, ?_⟩, ?_⟩
  · exact List.forall_mem_singleton.mpr (Nat.le_refl _)
  · exact fun v hv => (codeOf program).held_plain (hs v hv)
  · exact List.forall_mem_singleton.mpr .self

end Follows

end Machine

end ExprLang
