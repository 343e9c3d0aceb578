import ExprLang.Proofs.Machine.Custody
import ExprLang.Proofs.Machine.Moves

namespace ExprLang.Machine

/-- Code runs in frames that are there. -/
structure Grounded (m : Machine) : Prop where
  control : ∀ g ∈ m.control.frame?, g < m.world.store.frames.size
  pending : ∀ p ∈ m.pending, ∀ g ∈ p.frame?, g < m.world.store.frames.size

namespace Grounded

variable {m m' : Machine}

theorem runsIn (h : m.Grounded) {g : FrameId} (hg : m.RunsIn g) :
    g < m.world.store.frames.size := by
  obtain ⟨control, pending, depth, world⟩ := m
  cases control with
  | eval e frame => exact h.control g (congrArg some hg.symm)
  | apply | fib => exact hg.elim
  | value v =>
    cases pending with
    | nil => exact hg.elim
    | cons p below => exact h.pending p List.mem_cons_self g hg

theorem base_subset (m : Machine) : m.base.pending ⊆ m.pending := by
  obtain ⟨control, pending, depth, world⟩ := m
  cases control with
  | value v =>
    cases pending with
    | nil => exact List.Subset.refl _
    | cons p below => exact List.subset_cons_self p below
  | _ => exact List.Subset.refl _

theorem next {cfg : Config} (h : m.Grounded) (hstep : m.step cfg = .next m') : m'.Grounded := by
  obtain ⟨above, hpending, hcontinues⟩ := continues_of_next hstep
  have hsize := hcontinues.store.size
  have hold (g : FrameId) (hg : m.RunsIn g ∨ g < m'.world.store.frames.size) :
      g < m'.world.store.frames.size := by
    rcases hg with hruns | hg
    · exact Nat.lt_of_lt_of_le (h.runsIn hruns) hsize
    · exact hg
  refine ⟨fun g hg => hold g (hcontinues.frame g hg), fun p hp g hg => ?_⟩
  rw [hpending] at hp
  rcases List.mem_append.mp hp with hp | hp
  · exact hold g (hcontinues.frames p hp g hg)
  · exact Nat.lt_of_lt_of_le (h.pending p (base_subset m hp) g hg) hsize

end Grounded

theorem Context.value_of_gathered? {cfg : Config} {c : Context} {frame : FrameId}
    {purpose : Purpose} {before : List Value} {es : List Expr} {m : Machine} {v : Value}
    (h : c.gather cfg frame purpose before es = .next m)
    (hv : v ∈ purpose.gathered? cfg c.world.store.nextId before es) :
    m.control = .value v ∧ m.world.store.nextId = c.world.store.nextId + 1 := by
  cases es with
  | cons e more => cases hv
  | nil =>
    cases purpose with
    | array =>
      cases hv
      cases h
      exact ⟨rfl, rfl⟩
    | call callee p => cases hv
    | method receiver name current p =>
      dsimp only [Purpose.gathered?, Purpose.made?] at hv
      split at hv
      · next i items hinvoke =>
        cases hv
        dsimp only [gather, runMethod, Store.fresh] at h
        rw [hinvoke] at h
        dsimp only at h
        split at h
        · next s hset =>
          obtain ⟨owner, -, -, rfl⟩ := Store.define_of_set? hset
          cases h
          exact ⟨rfl, rfl⟩
        · cases h
      · cases hv

/-- What a step makes is what it gives, and takes one identity. -/
theorem value_of_made? {cfg : Config} {m m' : Machine} {v : Value} (h : m.step cfg = .next m')
    (hv : v ∈ m.made? cfg) :
    m'.control = .value v ∧ m'.world.store.nextId = m.world.store.nextId + 1 := by
  obtain ⟨control, pending, depth, world⟩ := m
  cases control with
  | apply | fib => cases hv
  | eval e frame =>
    cases e with
    | array p items => exact Context.value_of_gathered? h hv
    | lambda p name params body =>
      cases hv
      cases h
      exact ⟨rfl, rfl⟩
    | method p receiver name args =>
      obtain ⟨current, hlookup, hgathered⟩ := Option.bind_eq_some_iff.mp hv
      rw [step, Context.eval, hlookup] at h
      exact Context.value_of_gathered? h hgathered
    | _ => cases hv
  | value w =>
    cases pending with
    | nil => cases hv
    | cons p below =>
      cases p with
      | gather purpose before more frame => exact Context.value_of_gathered? h hv
      | _ => cases hv

/-- What is handed on in a step, to whom it may be. -/
structure HandsOver (cfg : Config) (m m' : Machine) : Prop where
  /-- A variable gives the value it is bound to. -/
  read : ∀ v p name frame, m.control = .eval (.var p name) frame →
    m.world.store.lookup frame name = some v → m'.control = .value v
  /-- `let` gives the value and binds it. -/
  define : ∀ v name frame below, m.control = .value v → m.pending = .define name frame :: below →
    m'.control = .value v ∧ m'.world.store.lookup frame name = some v
  /-- A `let` list binds the value in a new frame. -/
  scope : ∀ v name more body frame below, m.control = .value v →
    m.pending = .scope name more body frame :: below →
    (m'.world.store.frame m.world.store.frames.size).find? name = some v
  /-- An assignment gives the value and sets the variable to it. -/
  assign : ∀ v name frame p below, m.control = .value v →
    m.pending = .assign name frame p :: below →
    m'.control = .value v ∧ m'.world.store.lookup frame name = some v
  /-- The values gathered for a call are its arguments. -/
  passed : ∀ v callee p before frame below, m.control = .value v →
    m.pending = .gather (.call callee p) before [] frame :: below →
    m'.control = .apply callee (before.reverse ++ [v]) (some p)
  /-- A call binds parameters to arguments; of two parameters with one name the last counts. -/
  argument : ∀ id fn frame args p, m.control = .apply (.closure id fn frame) args p →
    ∃ inner, m'.control = .eval fn.body inner ∧
      ∀ before name after, fn.params = before ++ name :: after → name ∉ after →
        m'.world.store.lookup inner name = some (args.getD before.length .absent)
  /-- A value waits for the others it was gathered with. -/
  gathered : ∀ v purpose before e more frame below, m.control = .value v →
    m.pending = .gather purpose before (e :: more) frame :: below →
    m'.pending = .gather purpose (v :: before) more frame :: below
  /-- An array literal has the values as its items. -/
  item : ∀ v before frame below, m.control = .value v →
    m.pending = .gather .array before [] frame :: below →
    ∃ id, m'.control = .value (.array id (before.reverse ++ [v]))
  /-- The method that adds to an array keeps its items, adds the values, and sets the receiver to
  the array it gives. -/
  added : ∀ v receiver name i old p before frame below, m.control = .value v →
    m.pending = .gather (.method receiver name (.array i old) p) before [] frame :: below →
    cfg.methods.find? "array" name = some .add →
    ∃ id, m'.control = .value (.array id (old ++ (before.reverse ++ [v]))) ∧
      m'.world.store.lookup frame receiver = some (.array id (old ++ (before.reverse ++ [v])))
  /-- A function gives the value of its body. -/
  result : ∀ v call below, m.control = .value v → m.pending = .activation call :: below →
    m'.control = .value v

theorem parameters_cons (name : String) (names : List String) (args : List Value) :
    Context.parameters (name :: names) args =
      (name, args.headD .absent) :: Context.parameters names args.tail := by
  cases args <;> rfl

theorem lookup_parameters_eq_none {names : List String} {name : String} (h : name ∉ names)
    (args : List Value) : (Context.parameters names args).reverse.lookup name = none := by
  induction names generalizing args with
  | nil => rfl
  | cons other names ih =>
    obtain ⟨hne, hnames⟩ := not_or.mp (mt List.mem_cons.mpr h)
    have hbeq : (name == other) = false := by simpa using hne
    rw [parameters_cons, List.reverse_cons, List.lookup_append, ih hnames]
    simp [List.lookup_cons, hbeq]

theorem lookup_parameters {before after : List String} {name : String} (h : name ∉ after)
    (args : List Value) :
    (Context.parameters (before ++ name :: after) args).reverse.lookup name =
      some (args.getD before.length .absent) := by
  induction before generalizing args with
  | nil =>
    rw [List.nil_append, parameters_cons, List.reverse_cons, List.lookup_append,
      lookup_parameters_eq_none h]
    cases args <;> simp
  | cons other before ih =>
    rw [List.cons_append, parameters_cons, List.reverse_cons, List.lookup_append, ih]
    cases args <;> simp

theorem frame_runScope (c : Context) (frame : FrameId) (body : Expr) (bs : List (Binding Expr))
    {g : FrameId} (hg : g < c.world.store.frames.size) :
    (c.runScope frame body bs).world.store.frame g = c.world.store.frame g := by
  induction bs generalizing c frame with
  | nil => rfl
  | cons b bs ih =>
    obtain ⟨name, _ | init⟩ := b
    · rw [Context.runScope, ih _ _ (Nat.lt_of_lt_of_le hg (c.extends_bind frame name .absent).size)]
      change (Store.define (c.world.store.extend frame).2 _ _ _).frame g = _
      have hne : c.world.store.frames.size ≠ g := Nat.ne_of_gt hg
      rw [Store.frame_define, if_neg fun heq => hne heq.1, Store.frame_extend, if_neg hne.symm]
    · rfl

theorem find?_bind (c : Context) (frame : FrameId) (name : String) (v : Value) :
    ((c.bind frame name v).2.world.store.frame c.world.store.frames.size).find? name = some v := by
  change ((Store.define (c.world.store.extend frame).2 _ name v).frame _).find? name = some v
  have hinner : c.world.store.frames.size < (c.world.store.extend frame).2.frames.size := by
    rw [Store.size_extend]
    exact Nat.lt_succ_self _
  rw [Store.frame_define, if_pos ⟨rfl, hinner⟩, Frame.find?_insert_self]

theorem find?_scoped (c : Context) (cfg : Config) (v : Value) (name : String)
    (more : List (Binding Expr)) (body : Expr) (frame : FrameId) :
    ((c.resume cfg v (.scope name more body frame)).world.store.frame
      c.world.store.frames.size).find? name = some v := by
  have hframe := frame_runScope (c.bind frame name v).2 (c.bind frame name v).1 body more
    (c.bind_lt frame name v)
  exact (congrArg (·.find? name) hframe).trans (find?_bind c frame name v)

theorem lookup_entered (s : Store) (frame : FrameId) (self : List (String × Value))
    {params before after : List String} {name : String} (hparams : params = before ++ name :: after)
    (hafter : name ∉ after) (args : List Value) :
    ((s.extend frame).2.defineAll (s.extend frame).1
      (self ++ Context.parameters params args)).lookup (s.extend frame).1 name =
        some (args.getD before.length .absent) := by
  apply Store.lookup_of_find?
  rw [Store.find?_defineAll (s.extend_lt frame), List.reverse_append, List.lookup_append, hparams,
    lookup_parameters hafter]
  rfl

theorem added_of_next (c : Context) {cfg : Config} {frame : FrameId} {receiver name : String}
    {i : Nat} {old args : List Value} {p : Option Position} {m : Machine}
    (hfind : cfg.methods.find? "array" name = some .add)
    (h : c.runMethod cfg frame receiver name (.array i old) args p = .next m) :
    m.control = .value (.array c.world.store.nextId (old ++ args)) ∧
      m.world.store.lookup frame receiver =
        some (.array c.world.store.nextId (old ++ args)) := by
  have hinvoke : cfg.methods.invoke c.world.store.nextId (.array i old) name args =
      .ok (.array c.world.store.nextId (old ++ args)) := by
    unfold MethodTable.invoke Value.typeName
    rw [hfind]
    rfl
  dsimp only [Context.runMethod, Store.fresh] at h
  rw [hinvoke] at h
  dsimp only at h
  split at h
  · next s hset =>
    cases h
    exact ⟨rfl, Store.lookup_of_set? hset⟩
  · cases h

theorem Grounded.handsOver {cfg : Config} {m m' : Machine} (h : m.Grounded)
    (hstep : m.step cfg = .next m') : HandsOver cfg m m' := by
  obtain ⟨control, pending, depth, world⟩ := m
  constructor
  case read =>
    rintro v p name frame ⟨⟩ hlookup
    rw [step, Context.eval, hlookup] at hstep
    cases hstep
    rfl
  case define =>
    rintro v name frame below ⟨⟩ ⟨⟩
    cases hstep
    have hframe := h.pending _ List.mem_cons_self frame rfl
    exact ⟨rfl, Store.lookup_define_self name v hframe⟩
  case scope =>
    rintro v name more body frame below ⟨⟩ ⟨⟩
    have hbound := find?_scoped ⟨below, depth, world⟩ cfg v name more body frame
    have hworld : (Context.resume cfg ⟨below, depth, world⟩ v (.scope name more body frame)).world =
      m'.world := congrArg Transition.world hstep
    rwa [hworld] at hbound
  case assign =>
    rintro v name frame p below ⟨⟩ ⟨⟩
    rw [step, Context.resume] at hstep
    split at hstep
    · next s hset =>
      cases hstep
      exact ⟨rfl, Store.lookup_of_set? hset⟩
    · cases hstep
  case passed =>
    rintro v callee p before frame below ⟨⟩ ⟨⟩
    cases hstep
    rw [← List.reverse_cons]
  case argument =>
    rintro id fn frame args p ⟨⟩
    rw [step, Context.apply, Context.enter] at hstep
    split at hstep
    · cases hstep
    · cases hstep
      refine ⟨_, rfl, ?_⟩
      intro before name after hparams hafter
      exact lookup_entered world.store frame _ hparams hafter args
  case gathered =>
    rintro v purpose before e more frame below ⟨⟩ ⟨⟩
    cases hstep
    rfl
  case item =>
    rintro v before frame below ⟨⟩ ⟨⟩
    cases hstep
    refine ⟨world.store.nextId, ?_⟩
    rw [← List.reverse_cons]
  case added =>
    rintro v receiver name i old p before frame below ⟨⟩ ⟨⟩ hfind
    refine ⟨world.store.nextId, ?_⟩
    rw [← List.reverse_cons]
    exact added_of_next ⟨below, depth, world⟩ hfind hstep
  case result =>
    rintro v call below ⟨⟩ ⟨⟩
    cases hstep
    rfl

end ExprLang.Machine
