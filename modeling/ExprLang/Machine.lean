import ExprLang.Number.Fibonacci
import ExprLang.Store
import ExprLang.Value.Method
import ExprLang.Value.Operate

namespace ExprLang

inductive Output where
  | captured (text : String)
  | silent
deriving DecidableEq, Repr

namespace Output

def write (o : Output) (text : String) : Output :=
  match o with
  | captured before => captured (before ++ text)
  | silent => silent

def text : Output → String
  | captured text => text
  | silent => ""

def clear : Output → Output
  | captured _ => captured ""
  | silent => silent

end Output

/-- What an evaluation can change: the scopes and identities, the printed text, and the clock,
which runs outside of the machine. -/
structure World where
  store : Store
  output : Output
  /-- Milliseconds on the clock. -/
  now : Nat

/-- What an evaluation cannot change. -/
structure Config where
  methods : MethodTable
  /-- How many function calls may be under way at once. -/
  limit : Option Nat

def Config.standard : Config := ⟨.standard, none⟩

namespace Machine

/-- What a list of values is gathered for. -/
inductive Purpose where
  | array
  | call (callee : Value) (position : Position)
  | method (receiver method : String) (current : Value) (position : Position)

/-- What to do with a value once it is there. -/
inductive Pending where
  | define (name : String) (frame : FrameId)
  | scope (name : String) (more : List (Binding Expr)) (body : Expr) (frame : FrameId)
  | assign (name : String) (frame : FrameId) (position : Position)
  | right (op : Operator) (right : Expr) (frame : FrameId) (position : Position)
  | operate (op : Operator) (left : Value) (position : Position)
  | callee (args : List Expr) (frame : FrameId) (position : Position)
  | gather (purpose : Purpose) (before : List Value) (more : List Expr) (frame : FrameId)
  | branch (consequent : Expr) (chained alternative : Option Expr) (frame : FrameId)
  | sequence (more : List Expr) (frame : FrameId)
  | activation (call : Activation)
  | timing (started : Nat)

def Purpose.site? : Purpose → Option Position
  | array => none
  | call _ p | method _ _ _ p => some p

namespace Pending

def activation? : Pending → Option Activation
  | activation call => some call
  | _ => none

def site? : Pending → Option Position
  | assign _ _ p | right _ _ _ p | operate _ _ p | callee _ _ p => some p
  | gather purpose _ _ _ => purpose.site?
  | _ => none

/-- An error passes an entry of the stack. A function call is over then, and the error goes on from
the call; any other entry says where the error is, unless something inside of it has. -/
def unwind (e : EvalError) (depth : Nat) : Pending → EvalError × Nat
  | activation call => (e.leave call, depth - 1)
  | p => (e.locate p.site?, depth)

theorem unwind_eq (e : EvalError) (depth : Nat) (p : Pending) :
    p.unwind e depth =
      (⟨e.fault, e.position <|> p.site?, e.backtrace ++ p.activation?.toList⟩,
        depth - p.activation?.toList.length) := by
  cases p with
  | activation call => simp [unwind, EvalError.leave, site?, activation?]
  | _ => simp [unwind, EvalError.locate, activation?]

end Pending

inductive Control where
  | eval (e : Expr) (frame : FrameId)
  | apply (callee : Value) (args : List Value) (position : Option Position)
  | fib (f : Number.Fibonacci)
  | value (v : Value)

end Machine

structure Machine where
  control : Machine.Control
  pending : List Machine.Pending
  depth : Nat
  world : World

namespace Machine

/-- How an evaluation ends: the value or the error, the number of calls still under way, and the
world it leaves. -/
structure Finished where
  result : Except EvalError Value
  depth : Nat
  world : World

inductive Transition where
  | next (m : Machine)
  | done (f : Finished)

def activations (pending : List Pending) : List Activation := pending.filterMap (·.activation?)

/-- The place that the entries of a stack attach to an error that has none. -/
def site? (pending : List Pending) : Option Position := pending.findSome? (·.site?)

theorem activations_cons (p : Pending) (below : List Pending) :
    activations (p :: below) = p.activation?.toList ++ activations below := by
  cases h : p.activation? <;> simp [activations, h]

theorem site?_cons (p : Pending) (below : List Pending) :
    site? (p :: below) = (p.site? <|> site? below) := by
  cases h : p.site? <;> simp [site?, h]

def unwind (e : EvalError) (depth : Nat) : List Pending → EvalError × Nat
  | [] => (e, depth)
  | p :: below =>
    let (e, depth) := p.unwind e depth
    unwind e depth below

theorem unwind_eq (e : EvalError) (depth : Nat) (pending : List Pending) :
    unwind e depth pending =
      (⟨e.fault, e.position <|> site? pending, e.backtrace ++ activations pending⟩,
        depth - (activations pending).length) := by
  induction pending generalizing e depth with
  | nil => simp [unwind, site?, activations]
  | cons p below ih =>
    rw [unwind, p.unwind_eq]
    dsimp only
    rw [ih, activations_cons, site?_cons, List.append_assoc, List.length_append, Nat.sub_sub]
    simp [Option.or_assoc]

/-- No expression around the one that fails has a say in where the error is. -/
theorem unwind_located (fault : EvalFault) (p : Position) (depth : Nat) (pending : List Pending) :
    (unwind ((EvalError.ofFault fault).locate (some p)) depth pending).1 =
      ⟨fault, some p, activations pending⟩ := by
  simp [unwind_eq, EvalError.ofFault, EvalError.locate]

/-- What a step needs besides what it does: the stack, the depth and the world. -/
structure Context where
  pending : List Pending
  depth : Nat
  world : World

namespace Context

def go (c : Context) (control : Control) : Transition :=
  .next ⟨control, c.pending, c.depth, c.world⟩

def give (c : Context) (v : Value) : Transition := c.go (.value v)

def push (c : Context) (p : Pending) : Context := ⟨p :: c.pending, c.depth, c.world⟩

/-- Ends in an error of the innermost expression, which passes all the entries of the stack. -/
def fail (c : Context) (fault : EvalFault) (position : Option Position) : Transition :=
  let (e, depth) := unwind ((EvalError.ofFault fault).locate position) c.depth c.pending
  .done ⟨.error e, depth, c.world⟩

theorem fail_eq (c : Context) (fault : EvalFault) (position : Option Position) :
    c.fail fault position =
      .done ⟨.error ⟨fault, position <|> site? c.pending, activations c.pending⟩,
        c.depth - (activations c.pending).length, c.world⟩ := by
  simp [fail, unwind_eq, EvalError.ofFault, EvalError.locate]

def withStore (c : Context) (s : Store) : Context :=
  ⟨c.pending, c.depth, ⟨s, c.world.output, c.world.now⟩⟩

def write (c : Context) (text : String) : Context :=
  ⟨c.pending, c.depth, ⟨c.world.store, c.world.output.write text, c.world.now⟩⟩

def runBlock (c : Context) (frame : FrameId) : List Expr → Transition
  | [] => c.give .absent
  | [e] => c.go (.eval e frame)
  | e :: more => (c.push (.sequence more frame)).go (.eval e frame)

def bind (c : Context) (frame : FrameId) (name : String) (v : Value) : FrameId × Context :=
  let (inner, s) := c.world.store.extend frame
  (inner, c.withStore (s.define inner name v))

def runScope (c : Context) (frame : FrameId) (body : Expr) : List (Binding Expr) → Transition
  | [] => c.go (.eval body frame)
  | ⟨name, some init⟩ :: more => (c.push (.scope name more body frame)).go (.eval init frame)
  | ⟨name, none⟩ :: more =>
    let (inner, c) := c.bind frame name .absent
    c.runScope inner body more

def runMethod (cfg : Config) (c : Context) (frame : FrameId) (receiver method : String)
    (current : Value) (args : List Value) (position : Option Position) : Transition :=
  let (id, s) := c.world.store.fresh
  match cfg.methods.invoke id current method args with
  | .error fault => c.fail fault position
  | .ok v =>
    match s.set? frame receiver v with
    | some s => (c.withStore s).give v
    | none => c.fail (.undefinedVariable receiver) position

/-- Goes on with a list of expressions; `before` holds their values so far, the last one first. -/
def gather (cfg : Config) (c : Context) (frame : FrameId) (purpose : Purpose)
    (before : List Value) : List Expr → Transition
  | e :: more => (c.push (.gather purpose before more frame)).go (.eval e frame)
  | [] =>
    match purpose with
    | .array =>
      let (id, s) := c.world.store.fresh
      (c.withStore s).give (.array id before.reverse)
    | .call callee position => c.go (.apply callee before.reverse (some position))
    | .method receiver method current position =>
      c.runMethod cfg frame receiver method current before.reverse (some position)

def eval (cfg : Config) (c : Context) (frame : FrameId) : Expr → Transition
  | .number _ x => c.give (.number x)
  | .string _ text => c.give (.string text)
  | .boolean _ b => c.give (.boolean b)
  | .array _ items => c.gather cfg frame .array [] items
  | .var p name =>
    match c.world.store.lookup frame name with
    | some v => c.give v
    | none => c.fail (.undefinedVariable name) (some p)
  | .define _ name (some init) => (c.push (.define name frame)).go (.eval init frame)
  | .define _ name none =>
    (c.withStore (c.world.store.define frame name .absent)).give .absent
  | .scope _ bindings body => c.runScope frame body bindings
  | .assign p (.var _ name) value => (c.push (.assign name frame p)).go (.eval value frame)
  | .assign _ target _ => c.fail (.invalidAssignTarget target.kind) (some target.position)
  | .binary p op left right => (c.push (.right op right frame p)).go (.eval left frame)
  | .lambda _ name params body =>
    let (id, s) := c.world.store.fresh
    (c.withStore s).give (.closure id ⟨name, params, body⟩ frame)
  | .call p callee args => (c.push (.callee args frame p)).go (.eval callee frame)
  | .method p receiver method args =>
    match c.world.store.lookup frame receiver with
    | some current => c.gather cfg frame (.method receiver method current p) [] args
    | none => c.fail (.undefinedVariable receiver) (some p)
  | .branch _ cond consequent chained alternative =>
    (c.push (.branch consequent chained alternative frame)).go (.eval cond frame)
  | .block _ statements => c.runBlock frame statements

/-- Parameters with their arguments; a missing argument is `false`, and more are ignored. -/
def parameters : List String → List Value → List (String × Value)
  | [], _ => []
  | name :: names, [] => (name, .absent) :: parameters names []
  | name :: names, v :: vs => (name, v) :: parameters names vs

/-- Calls a function made from an expression, in a new frame inside the one it was made in. It sees
itself under its name, unless a parameter has that name. -/
def enter (cfg : Config) (c : Context) (id : Nat) (fn : Lambda) (frame : FrameId)
    (args : List Value) (position : Option Position) : Transition :=
  match cfg.limit.filter (· ≤ c.depth) with
  | some limit => c.fail (.stackOverflow limit) position
  | none =>
    let (inner, s) := c.world.store.extend frame
    let self := fn.name.toList.map fun name => (name, .closure id fn frame)
    let s := s.defineAll inner (self ++ parameters fn.params args)
    .next ⟨.eval fn.body inner, .activation ⟨fn.name, fn.body.position⟩ :: c.pending,
      c.depth + 1, ⟨s, c.world.output, c.world.now⟩⟩

/-- Calls a value. A missing first argument of a builtin is `false`. -/
def apply (cfg : Config) (c : Context) (args : List Value) (position : Option Position) :
    Value → Transition
  | .closure id fn frame => c.enter cfg id fn frame args position
  | .builtin .print => (c.write (args.headD .absent).display).give .absent
  | .builtin .println => (c.write ((args.headD .absent).display.push '\n')).give .absent
  | .builtin .time =>
    (c.push (.timing c.world.now)).go (.apply (args.headD .absent) [] position)
  | .builtin .fib =>
    match args.headD .absent with
    | .number n => c.go (.fib (.start n))
    | other => c.fail (.typeError "fib" "number" other.typeName) position
  | other => c.fail (.notCallable other.typeName) position

/-- Goes on with a value that an entry of the stack was waiting for. -/
def resume (cfg : Config) (c : Context) (v : Value) : Pending → Transition
  | .define name frame => (c.withStore (c.world.store.define frame name v)).give v
  | .scope name more body frame =>
    let (inner, c) := c.bind frame name v
    c.runScope inner body more
  | .assign name frame p =>
    match c.world.store.set? frame name v with
    | some s => (c.withStore s).give v
    | none => c.fail (.undefinedVariable name) (some p)
  | .right op right frame p => (c.push (.operate op v p)).go (.eval right frame)
  | .operate op left p =>
    match Value.operate op left v with
    | .ok w => c.give w
    | .error fault => c.fail fault (some p)
  | .callee args frame p => c.gather cfg frame (.call v p) [] args
  | .gather purpose before more frame => c.gather cfg frame purpose (v :: before) more
  | .branch consequent chained alternative frame =>
    if v.isTruthy then c.go (.eval consequent frame)
    else match chained <|> alternative with
      | some e => c.go (.eval e frame)
      | none => c.give .absent
  | .sequence more frame => c.runBlock frame more
  | .activation _ => .next ⟨.value v, c.pending, c.depth - 1, c.world⟩
  | .timing started =>
    (c.write ("Time: " ++ toString (c.world.now - started) ++ "ms\n")).give v

end Context

def step (cfg : Config) (m : Machine) : Transition :=
  match m with
  | ⟨.eval e frame, pending, depth, world⟩ => Context.eval cfg ⟨pending, depth, world⟩ frame e
  | ⟨.apply callee args position, pending, depth, world⟩ =>
    Context.apply cfg ⟨pending, depth, world⟩ args position callee
  | ⟨.fib f, pending, depth, world⟩ =>
    match f.step with
    | .inl f => .next ⟨.fib f, pending, depth, world⟩
    | .inr x => .next ⟨.value (.number x), pending, depth, world⟩
  | ⟨.value v, [], depth, world⟩ => .done ⟨.ok v, depth, world⟩
  | ⟨.value v, p :: pending, depth, world⟩ => Context.resume cfg ⟨pending, depth, world⟩ v p

def run (cfg : Config) : Nat → Machine → Transition
  | 0, m => .next m
  | n + 1, m =>
    match m.step cfg with
    | .next m => run cfg n m
    | .done f => .done f

end Machine

end ExprLang
