import ExprLang.Machine

namespace ExprLang

/-- A new root frame, with the builtins in it if it has a prelude. -/
def Store.newGlobal (s : Store) (prelude : Bool) : FrameId × Store :=
  let (root, s) := s.newRoot
  let names := if prelude then Builtin.all.map fun b => (b.name, Value.builtin b) else []
  (root, s.defineAll root names)

structure Session where
  config : Config
  root : FrameId
  /-- The number of function calls under way. -/
  depth : Nat
  world : World

namespace Session

/-- A session with a global scope of its own in a given world. -/
def new (config : Config) (prelude : Bool) (world : World) : Session :=
  let (root, s) := world.store.newGlobal prelude
  ⟨config, root, 0, ⟨s, world.output, world.now⟩⟩

def evaluate (s : Session) (program : Expr) : Machine :=
  ⟨.eval program s.root, [], s.depth, s.world⟩

def call (s : Session) (callee : Value) (args : List Value) : Machine :=
  ⟨.apply callee args none, [], s.depth, s.world⟩

def resume (s : Session) (f : Machine.Finished) : Session :=
  ⟨s.config, s.root, f.depth, f.world⟩

def withWorld (s : Session) (world : World) : Session := ⟨s.config, s.root, s.depth, world⟩

def withStore (s : Session) (store : Store) : Session :=
  s.withWorld ⟨store, s.world.output, s.world.now⟩

def get (s : Session) (name : String) : Except EvalFault Value := s.world.store.get s.root name

def set (s : Session) (name : String) (v : Value) : Except EvalFault Session :=
  match s.world.store.set? s.root name v with
  | some store => .ok (s.withStore store)
  | none => .error (.undefinedVariable name)

def define (s : Session) (name : String) (v : Value) : Session :=
  s.withStore (s.world.store.define s.root name v)

def invoke (s : Session) (receiver : Value) (method : String) (args : List Value) :
    Except EvalFault Value × Session :=
  let (id, store) := s.world.store.fresh
  (s.config.methods.invoke id receiver method args, s.withStore store)

def alias? (s : Session) (typeName name fromType fromName : String) : Option Session :=
  match s.config.methods.find? fromType fromName with
  | some method =>
    let methods := s.config.methods.insert typeName name method
    some ⟨⟨methods, s.config.limit⟩, s.root, s.depth, s.world⟩
  | none => none

def takeOutput (s : Session) : String × Session :=
  (s.world.output.text, s.withWorld ⟨s.world.store, s.world.output.clear, s.world.now⟩)

end Session

end ExprLang
