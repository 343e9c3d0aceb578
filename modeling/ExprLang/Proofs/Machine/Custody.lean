import ExprLang.Proofs.Expr.Tree
import ExprLang.Proofs.Machine.Timed
import ExprLang.Proofs.Store.Frames
import ExprLang.Proofs.Value.Outcome
import ExprLang.Session

namespace ExprLang

namespace Value

/-- The identity of an array or of a function made from an expression. -/
def identity? : Value → Option Nat
  | array id _ | closure id _ _ => some id
  | _ => none

/-- A value inside another one: this one itself, or inside one of its items. -/
inductive Part (w : Value) : Value → Prop
  | self : Part w w
  | item {id : Nat} {items : List Value} {v : Value} (hv : v ∈ items) (h : Part w v) :
    Part w (.array id items)

theorem Part.trans {u v w : Value} (huv : Part u v) (hvw : Part v w) : Part u w := by
  induction hvw with
  | self => exact huv
  | item hv _ ih => exact .item hv ih

theorem part_array {w : Value} {id : Nat} {items : List Value} (h : Part w (.array id items)) :
    w = .array id items ∨ ∃ v ∈ items, Part w v := by
  cases h with
  | self => exact .inl rfl
  | item hv h => exact .inr ⟨_, hv, h⟩

theorem part_of_identity? {v w : Value} (h : Part w v) (hv : v.identity? = none) : w = v := by
  cases h with
  | self => rfl
  | item => cases hv

theorem part_closure {w : Value} {id : Nat} {fn : Lambda} {frame : FrameId}
    (h : Part w (.closure id fn frame)) : w = .closure id fn frame := by
  cases h
  rfl

end Value

theorem MethodTable.identity_of_invoke {t : MethodTable} {id i : Nat} {receiver : Value}
    {name : String} {args items : List Value}
    (h : t.invoke id receiver name args = .ok (.array i items)) : i = id := by
  unfold invoke at h
  split at h
  · next m _ =>
    cases m <;> cases receiver <;> cases h <;> rfl
  · cases h

def Store.Holds (s : Store) (v : Value) : Prop := ∃ g, ∃ b ∈ (s.frame g).bindings, b.2 = v

namespace Store

variable {s : Store} {v w : Value}

theorem holds_of_lookup {g : FrameId} {name : String} (h : s.lookup g name = some v) :
    s.Holds v := by
  obtain ⟨owner, -, hfind⟩ := Option.bind_eq_some_iff.mp h
  exact ⟨owner, (name, v), Frame.mem_of_find? _ name hfind, rfl⟩

theorem holds_of_define {g : FrameId} {name : String} (h : (s.define g name v).Holds w) :
    w = v ∨ s.Holds w := by
  obtain ⟨k, b, hb, rfl⟩ := h
  rw [frame_define] at hb
  split at hb
  · exact (Frame.mem_insert _ name v hb).imp_right fun hb => ⟨k, b, hb, rfl⟩
  · exact .inr ⟨k, b, hb, rfl⟩

theorem holds_of_defineAll {g : FrameId} {bs : List (String × Value)}
    (h : (s.defineAll g bs).Holds w) : (∃ b ∈ bs, b.2 = w) ∨ s.Holds w := by
  induction bs generalizing s with
  | nil => exact .inr h
  | cons b bs ih =>
    rcases ih h with ⟨c, hc, rfl⟩ | h
    · exact .inl ⟨c, List.mem_cons_of_mem _ hc, rfl⟩
    · rcases holds_of_define h with rfl | h
      · exact .inl ⟨b, List.mem_cons_self, rfl⟩
      · exact .inr h

theorem holds_of_extend {g : FrameId} (h : (s.extend g).2.Holds w) : s.Holds w := by
  obtain ⟨k, b, hb, rfl⟩ := h
  rw [frame_extend] at hb
  split at hb
  · cases hb
  · exact ⟨k, b, hb, rfl⟩

theorem holds_of_set? {s' : Store} {g : FrameId} {name : String} (h : s.set? g name v = some s')
    (hw : s'.Holds w) : w = v ∨ s.Holds w := by
  obtain ⟨owner, -, -, rfl⟩ := define_of_set? h
  exact holds_of_define hw

theorem holds_of_newGlobal {prelude : Bool} (h : (s.newGlobal prelude).2.Holds w) :
    s.Holds w ∨ w.identity? = none := by
  have hnames : (s.newRoot.2.defineAll s.newRoot.1
      (if prelude then Builtin.all.map fun b => (b.name, Value.builtin b) else [])).Holds w := h
  rcases holds_of_defineAll hnames with ⟨b, hb, rfl⟩ | ⟨k, b, hb, rfl⟩
  · right
    split at hb
    · obtain ⟨builtin, -, rfl⟩ := List.mem_map.mp hb
      rfl
    · cases hb
  · left
    rw [frame_newRoot] at hb
    exact ⟨k, b, hb, rfl⟩

end Store

namespace Machine

def Purpose.values : Purpose → List Value
  | array => []
  | call callee _ => [callee]
  | method _ _ current _ => [current]

namespace Pending

/-- The values that an entry of the stack keeps. -/
def values : Pending → List Value
  | operate _ left _ => [left]
  | gather purpose before _ _ => purpose.values ++ before
  | _ => []

/-- The expressions that are still to be evaluated. -/
def code : Pending → List Expr
  | scope _ more body _ => more.filterMap (·.init) ++ [body]
  | right _ operand _ _ => [operand]
  | callee args _ _ => args
  | gather _ _ more _ => more
  | branch consequent chained alternative _ =>
    consequent :: (chained.toList ++ alternative.toList)
  | sequence more _ => more
  | _ => []

end Pending

namespace Control

def values : Control → List Value
  | apply callee args _ => callee :: args
  | value v => [v]
  | _ => []

def code : Control → List Expr
  | eval e _ => [e]
  | _ => []

end Control

/-- A value in the hands of a machine, not inside of an array. -/
def Has (m : Machine) (v : Value) : Prop :=
  v ∈ m.control.values ∨ (∃ p ∈ m.pending, v ∈ p.values) ∨ m.world.store.Holds v

/-- The array that is made of values once they are gathered; `id` is the next identity. -/
def Purpose.made? (cfg : Config) (id : Nat) (values : List Value) : Purpose → Option Value
  | array => some (.array id values)
  | call _ _ => none
  | method _ name current _ =>
    match cfg.methods.invoke id current name values with
    | .ok (.array id items) => some (.array id items)
    | _ => none

/-- The same, if no expression is left to evaluate. -/
def Purpose.gathered? (cfg : Config) (id : Nat) (purpose : Purpose) (before : List Value) :
    List Expr → Option Value
  | [] => purpose.made? cfg id before.reverse
  | _ :: _ => none

/-- The array or function that starting on an expression makes at once. -/
def Context.opened? (cfg : Config) (c : Context) (frame : FrameId) : Expr → Option Value
  | .array _ items => Purpose.array.gathered? cfg c.world.store.nextId [] items
  | .lambda _ name params body => some (.closure c.world.store.nextId ⟨name, params, body⟩ frame)
  | .method p receiver method args =>
    (c.world.store.lookup frame receiver).bind fun current =>
      (Purpose.method receiver method current p).gathered? cfg c.world.store.nextId [] args
  | _ => none

/-- The array that an entry of the stack makes with the value it was waiting for. -/
def Context.closed? (cfg : Config) (c : Context) (v : Value) : Pending → Option Value
  | .gather purpose before more _ => purpose.gathered? cfg c.world.store.nextId (v :: before) more
  | _ => none

/-- The array or function that the next step makes, by an array literal, a function expression or
a method of arrays. -/
def made? (cfg : Config) (m : Machine) : Option Value :=
  match m with
  | ⟨.eval e frame, pending, depth, world⟩ => Context.opened? cfg ⟨pending, depth, world⟩ frame e
  | ⟨.value v, p :: pending, depth, world⟩ => Context.closed? cfg ⟨pending, depth, world⟩ v p
  | _ => none

end Machine

/-- Code that may be run, values that may be held, and calls that may be under way. -/
structure Custody where
  Code : Expr → Prop
  Held : Value → Prop
  Called : Activation → Prop
  code_child {e c : Expr} : Code e → c ∈ e.children → Code c
  held_plain {v : Value} : v.identity? = none → Held v
  entered {id : Nat} {fn : Lambda} {frame : FrameId} : Held (.closure id fn frame) →
    Code fn.body ∧ Called ⟨fn.name, fn.body.position⟩

theorem Custody.held_absent (K : Custody) : K.Held .absent := K.held_plain rfl

namespace Machine

variable (K : Custody)

structure Pending.Kept (p : Pending) : Prop where
  values : ∀ v ∈ p.values, K.Held v
  code : ∀ e ∈ p.code, K.Code e
  called : ∀ call ∈ p.activation?, K.Called call

structure Control.Kept (control : Control) : Prop where
  values : ∀ v ∈ control.values, K.Held v
  code : ∀ e ∈ control.code, K.Code e

structure Context.Kept (c : Context) : Prop where
  pending : ∀ p ∈ c.pending, p.Kept K
  store : ∀ v, c.world.store.Holds v → K.Held v

structure Kept (m : Machine) : Prop where
  control : m.control.Kept K
  context : m.context.Kept K

/-- What an evaluation gives back or leaves behind. -/
structure Finished.Kept (f : Finished) : Prop where
  value : ∀ v, f.result = .ok v → K.Held v
  called : ∀ e, f.result = .error e → ∀ call ∈ e.backtrace, K.Called call
  store : ∀ v, f.world.store.Holds v → K.Held v

def Transition.Kept : Transition → Prop
  | next m => m.Kept K
  | done f => f.Kept K

variable {K}

theorem Control.Kept.eval {e : Expr} (frame : FrameId) (h : K.Code e) :
    (Control.eval e frame).Kept K :=
  ⟨List.forall_mem_nil _, List.forall_mem_singleton.mpr h⟩

theorem Control.Kept.value {v : Value} (h : K.Held v) : (Control.value v).Kept K :=
  ⟨List.forall_mem_singleton.mpr h, List.forall_mem_nil _⟩

theorem Pending.Kept.ofCode {p : Pending} (hvalues : p.values = []) (hcalled : p.activation? = none)
    (hcode : ∀ e ∈ p.code, K.Code e) : p.Kept K := by
  refine ⟨?_, hcode, ?_⟩
  · rw [hvalues]
    exact List.forall_mem_nil _
  · rw [hcalled]
    rintro call ⟨⟩

theorem Kept.wait {m : Machine} (h : m.Kept K) (ms : Nat) : (m.wait ms).Kept K :=
  ⟨h.control, h.context.pending, h.context.store⟩

theorem Kept.held {m : Machine} (h : m.Kept K) {v : Value} (hv : m.Has v) : K.Held v := by
  rcases hv with hv | ⟨p, hp, hv⟩ | hv
  · exact h.control.values v hv
  · exact (h.context.pending p hp).values v hv
  · exact h.context.store v hv

namespace Context.Kept

variable {c : Context} (h : c.Kept K)
include h

theorem go {control : Control} (hcontrol : control.Kept K) : (c.go control).Kept K :=
  ⟨hcontrol, h.pending, h.store⟩

theorem give {v : Value} (hv : K.Held v) : (c.give v).Kept K := h.go (.value hv)

theorem run {e : Expr} (frame : FrameId) (he : K.Code e) : (c.go (.eval e frame)).Kept K :=
  h.go (.eval frame he)

theorem push {p : Pending} (hp : p.Kept K) : (c.push p).Kept K :=
  ⟨List.forall_mem_cons.mpr ⟨hp, h.pending⟩, h.store⟩

theorem evalThen {p : Pending} {e : Expr} {frame : FrameId} (hvalues : p.values = [])
    (hcalled : p.activation? = none) (he : K.Code e) (hcode : ∀ e ∈ p.code, K.Code e) :
    ((c.push p).go (.eval e frame)).Kept K :=
  (h.push (.ofCode hvalues hcalled hcode)).run frame he

theorem fail (fault : EvalFault) (position : Option Position) : (c.fail fault position).Kept K := by
  rw [fail_eq]
  refine ⟨by rintro v ⟨⟩, ?_, h.store⟩
  rintro e ⟨⟩ call hcall
  obtain ⟨p, hp, hcall⟩ := List.mem_filterMap.mp hcall
  exact (h.pending p hp).called call hcall

theorem withStore {s : Store} (hs : ∀ v, s.Holds v → K.Held v) : (c.withStore s).Kept K :=
  ⟨h.pending, hs⟩

theorem write (text : String) : (c.write text).Kept K := ⟨h.pending, h.store⟩

theorem define (frame : FrameId) (name : String) {v : Value} (hv : K.Held v) :
    (c.withStore (c.world.store.define frame name v)).Kept K := by
  refine h.withStore fun w hw => ?_
  rcases Store.holds_of_define hw with rfl | hw
  · exact hv
  · exact h.store w hw

theorem set? {s : Store} {frame : FrameId} {name : String} {v : Value}
    (hset : c.world.store.set? frame name v = some s) (hv : K.Held v) : (c.withStore s).Kept K := by
  obtain ⟨owner, -, -, rfl⟩ := Store.define_of_set? hset
  exact h.define owner name hv

theorem runBlock (frame : FrameId) {es : List Expr} (hes : ∀ e ∈ es, K.Code e) :
    (c.runBlock frame es).Kept K := by
  rcases es with _ | ⟨e, _ | ⟨e', more⟩⟩
  · exact h.give K.held_absent
  · exact h.run frame (hes e List.mem_cons_self)
  · obtain ⟨he, hmore⟩ := List.forall_mem_cons.mp hes
    exact h.evalThen rfl rfl he hmore

theorem bind (frame : FrameId) (name : String) {v : Value} (hv : K.Held v) :
    (c.bind frame name v).2.Kept K := by
  have hextend : (c.withStore (c.world.store.extend frame).2).Kept K :=
    h.withStore fun w hw => h.store w (Store.holds_of_extend hw)
  exact hextend.define _ name hv

omit h in
theorem runScope {c : Context} (h : c.Kept K) (frame : FrameId) {body : Expr}
    {bs : List (Binding Expr)} (hcode : ∀ e ∈ bs.filterMap (·.init) ++ [body], K.Code e) :
    (c.runScope frame body bs).Kept K := by
  induction bs generalizing c frame with
  | nil => exact h.run frame (hcode body List.mem_cons_self)
  | cons b bs ih =>
    obtain ⟨name, _ | init⟩ := b
    · exact ih (h.bind frame name K.held_absent) _ hcode
    · obtain ⟨hinit, hmore⟩ := List.forall_mem_cons.mp hcode
      exact h.evalThen rfl rfl hinit hmore

theorem runMethod (cfg : Config) (frame : FrameId) (receiver method : String) (current : Value)
    (args : List Value) (position : Position)
    (hmade : ∀ v ∈ (Purpose.method receiver method current position).made? cfg
      c.world.store.nextId args, K.Held v) :
    (c.runMethod cfg frame receiver method current args (some position)).Kept K := by
  have hinvoked := cfg.methods.invoke_invoked c.world.store.nextId current method args
  unfold Context.runMethod Store.fresh
  dsimp only
  dsimp only [Purpose.made?] at hmade
  cases hinvoke : cfg.methods.invoke c.world.store.nextId current method args with
  | error fault => exact h.fail _ _
  | ok v =>
    rw [hinvoke] at hinvoked hmade
    have hv : K.Held v := by
      cases hinvoked with
      | array id items _ => exact hmade _ rfl
      -- A method that gives a string takes an identity too, but nothing has it.
      | string text => exact K.held_plain rfl
    have hfresh : (c.withStore ⟨c.world.store.frames, c.world.store.nextId + 1⟩).Kept K :=
      h.withStore h.store
    dsimp only
    cases hset : Store.set? _ frame receiver v with
    | none => exact h.fail _ _
    | some s => exact (hfresh.set? hset hv).give hv

theorem gather (cfg : Config) (frame : FrameId) (purpose : Purpose)
    (hpurpose : ∀ v ∈ purpose.values, K.Held v) {before : List Value}
    (hbefore : ∀ v ∈ before, K.Held v) {es : List Expr} (hes : ∀ e ∈ es, K.Code e)
    (hmade : ∀ v ∈ purpose.gathered? cfg c.world.store.nextId before es, K.Held v) :
    (c.gather cfg frame purpose before es).Kept K := by
  cases es with
  | cons e more =>
    obtain ⟨he, hmore⟩ := List.forall_mem_cons.mp hes
    have hpending : (Pending.gather purpose before more frame).Kept K :=
      ⟨List.forall_mem_append.mpr ⟨hpurpose, hbefore⟩, hmore, by rintro call ⟨⟩⟩
    exact (h.push hpending).run frame he
  | nil =>
    cases purpose with
    | array => exact (h.withStore (s := c.world.store.fresh.2) h.store).give (hmade _ rfl)
    | call callee position =>
      have hcallee : K.Held callee := hpurpose callee List.mem_cons_self
      refine h.go ⟨List.forall_mem_cons.mpr ⟨hcallee, ?_⟩, List.forall_mem_nil _⟩
      simpa using hbefore
    | method receiver method current position =>
      exact h.runMethod cfg frame receiver method current _ position hmade

theorem eval (cfg : Config) (frame : FrameId) {e : Expr} (he : K.Code e)
    (hmade : ∀ v ∈ c.opened? cfg frame e, K.Held v) : (c.eval cfg frame e).Kept K := by
  have hcode : ∀ child ∈ e.children, K.Code child := fun child => K.code_child he
  cases e with
  | number | string | boolean => exact h.give (K.held_plain rfl)
  | array p items =>
    exact h.gather cfg frame .array (List.forall_mem_nil _) (List.forall_mem_nil _) hcode hmade
  | var p name =>
    rw [Context.eval]
    cases hlookup : c.world.store.lookup frame name with
    | none => exact h.fail _ _
    | some v => exact h.give (h.store v (Store.holds_of_lookup hlookup))
  | define p name init =>
    cases init with
    | none => exact (h.define frame name K.held_absent).give K.held_absent
    | some init =>
      exact h.evalThen rfl rfl (hcode init List.mem_cons_self) (List.forall_mem_nil _)
  | scope p bindings body => exact h.runScope frame hcode
  | assign p target value =>
    cases target with
    | var q name =>
      have hvalue : K.Code value := hcode value (List.mem_cons_of_mem _ List.mem_cons_self)
      exact h.evalThen rfl rfl hvalue (List.forall_mem_nil _)
    | _ => exact h.fail _ _
  | binary p op left right =>
    obtain ⟨hleft, hright⟩ := List.forall_mem_cons.mp hcode
    exact h.evalThen rfl rfl hleft hright
  | lambda p name params body =>
    exact (h.withStore (s := c.world.store.fresh.2) h.store).give (hmade _ rfl)
  | call p callee args =>
    obtain ⟨hcallee, hargs⟩ := List.forall_mem_cons.mp hcode
    exact h.evalThen rfl rfl hcallee hargs
  | method p receiver method args =>
    rw [Context.eval]
    rw [Context.opened?] at hmade
    cases hlookup : c.world.store.lookup frame receiver with
    | none => exact h.fail _ _
    | some current =>
      rw [hlookup] at hmade
      have hcurrent : K.Held current := h.store current (Store.holds_of_lookup hlookup)
      exact h.gather cfg frame (.method receiver method current p)
        (List.forall_mem_singleton.mpr hcurrent) (List.forall_mem_nil _) hcode hmade
  | branch p cond consequent chained alternative =>
    obtain ⟨hcond, hmore⟩ := List.forall_mem_cons.mp hcode
    exact h.evalThen rfl rfl hcond hmore
  | block p statements => exact h.runBlock frame hcode

omit h in
theorem held_parameters (names : List String) {args : List Value}
    (hargs : ∀ v ∈ args, K.Held v) : ∀ b ∈ parameters names args, K.Held b.2 := by
  induction names generalizing args with
  | nil => exact List.forall_mem_nil _
  | cons name names ih =>
    cases args with
    | nil => exact List.forall_mem_cons.mpr ⟨K.held_absent, ih hargs⟩
    | cons v vs =>
      obtain ⟨hv, hvs⟩ := List.forall_mem_cons.mp hargs
      exact List.forall_mem_cons.mpr ⟨hv, ih hvs⟩

theorem enter (cfg : Config) {id : Nat} {fn : Lambda} {frame : FrameId}
    (hfunction : K.Held (.closure id fn frame)) {args : List Value}
    (hargs : ∀ v ∈ args, K.Held v) (position : Option Position) :
    (c.enter cfg id fn frame args position).Kept K := by
  unfold Context.enter
  cases cfg.limit.filter (· ≤ c.depth) with
  | some limit => exact h.fail _ _
  | none =>
    obtain ⟨hbody, hcalled⟩ := K.entered hfunction
    refine ⟨.eval _ hbody, List.forall_mem_cons.mpr ⟨?_, h.pending⟩, fun w hw => ?_⟩
    · refine ⟨List.forall_mem_nil _, List.forall_mem_nil _, ?_⟩
      rintro call ⟨⟩
      exact hcalled
    · rcases Store.holds_of_defineAll hw with ⟨b, hb, rfl⟩ | hw
      · rcases List.mem_append.mp hb with hb | hb
        · obtain ⟨name, -, rfl⟩ := List.mem_map.mp hb
          exact hfunction
        · exact held_parameters fn.params hargs b hb
      · exact h.store w (Store.holds_of_extend hw)

theorem apply (cfg : Config) {args : List Value} (hargs : ∀ v ∈ args, K.Held v)
    (position : Option Position) {callee : Value} (hcallee : K.Held callee) :
    (c.apply cfg args position callee).Kept K := by
  cases callee with
  | number | string | boolean | array => exact h.fail _ _
  | closure id fn frame => exact h.enter cfg hcallee hargs position
  | builtin b =>
    cases b with
    | print | println => exact (h.write _).give K.held_absent
    | time =>
      have hfirst : K.Held (args.headD .absent) := by
        cases args with
        | nil => exact K.held_absent
        | cons v vs => exact hargs v List.mem_cons_self
      refine (h.push (.ofCode rfl rfl (List.forall_mem_nil _))).go ⟨?_, List.forall_mem_nil _⟩
      exact List.forall_mem_singleton.mpr hfirst
    | fib =>
      rw [Context.apply]
      cases args.headD .absent with
      | number n => exact h.go ⟨List.forall_mem_nil _, List.forall_mem_nil _⟩
      | _ => exact h.fail _ _

omit h in
theorem held_operated {v w u : Value} (hoperated : Value.Operated v w (.ok u)) (hv : K.Held v)
    (hw : K.Held w) : K.Held u := by
  cases hoperated with
  | left => exact hv
  | right => exact hw
  | number | boolean => exact K.held_plain rfl

theorem resume (cfg : Config) {v : Value} (hv : K.Held v) {p : Pending} (hp : p.Kept K)
    (hmade : ∀ w ∈ c.closed? cfg v p, K.Held w) : (c.resume cfg v p).Kept K := by
  obtain ⟨hvalues, hcode, -⟩ := hp
  cases p with
  | define name frame => exact (h.define frame name hv).give hv
  | scope name more body frame => exact (h.bind frame name hv).runScope _ hcode
  | assign name frame position =>
    rw [Context.resume]
    cases hset : c.world.store.set? frame name v with
    | none => exact h.fail _ _
    | some s => exact (h.set? hset hv).give hv
  | right op right frame position =>
    have hpending : (Pending.operate op v position).Kept K :=
      ⟨List.forall_mem_singleton.mpr hv, List.forall_mem_nil _, by rintro call ⟨⟩⟩
    exact (h.push hpending).run frame (hcode right List.mem_cons_self)
  | operate op left position =>
    have hoperated := Value.operate_operated op left v
    rw [Context.resume]
    cases hoperate : Value.operate op left v with
    | ok w =>
      rw [hoperate] at hoperated
      exact h.give (held_operated hoperated (hvalues left List.mem_cons_self) hv)
    | error fault => exact h.fail _ _
  | callee args frame position =>
    refine h.gather cfg frame (.call v position) (List.forall_mem_singleton.mpr hv)
      (List.forall_mem_nil _) hcode ?_
    cases args <;> rintro w ⟨⟩
  | gather purpose before more frame =>
    obtain ⟨hpurpose, hbefore⟩ := List.forall_mem_append.mp hvalues
    exact h.gather cfg frame purpose hpurpose (List.forall_mem_cons.mpr ⟨hv, hbefore⟩) hcode hmade
  | branch consequent chained alternative frame =>
    obtain ⟨hconsequent, hmore⟩ := List.forall_mem_cons.mp hcode
    rw [Context.resume]
    cases v.isTruthy with
    | true => exact h.run frame hconsequent
    | false =>
      cases chained with
      | some e => exact h.run frame (hmore e (by simp))
      | none =>
        cases alternative with
        | some e => exact h.run frame (hmore e (by simp))
        | none => exact h.give K.held_absent
  | sequence more frame => exact h.runBlock frame hcode
  | activation call => exact ⟨.value hv, h.pending, h.store⟩
  | timing started => exact (h.write _).give hv

end Context.Kept

theorem Kept.step {m : Machine} (h : m.Kept K) (cfg : Config)
    (hmade : ∀ v ∈ m.made? cfg, K.Held v) : (m.step cfg).Kept K := by
  obtain ⟨control, pending, depth, world⟩ := m
  obtain ⟨hcontrol, hcontext⟩ := h
  cases control with
  | eval e frame =>
    exact hcontext.eval cfg frame (hcontrol.code e List.mem_cons_self) hmade
  | apply callee args position =>
    obtain ⟨hcallee, hargs⟩ := List.forall_mem_cons.mp hcontrol.values
    exact hcontext.apply cfg hargs position hcallee
  | fib f =>
    rw [Machine.step]
    cases f.step with
    | inl f => exact ⟨⟨List.forall_mem_nil _, List.forall_mem_nil _⟩, hcontext⟩
    | inr x => exact ⟨.value (K.held_plain rfl), hcontext⟩
  | value v =>
    have hv : K.Held v := hcontrol.values v List.mem_cons_self
    cases pending with
    | nil =>
      refine ⟨?_, by rintro e ⟨⟩, hcontext.store⟩
      rintro w ⟨⟩
      exact hv
    | cons p pending =>
      obtain ⟨hp, hpending⟩ := List.forall_mem_cons.mp hcontext.pending
      have hrest : Context.Kept K ⟨pending, depth, world⟩ := ⟨hpending, hcontext.store⟩
      exact hrest.resume cfg hv hp hmade

/-- An array or a function that the next step makes: it has the next identity, and all in it was
there. -/
inductive Made (m : Machine) : Value → Prop
  | closure {p : Position} {name : Option String} {params : List String} {body : Expr}
      {frame : FrameId} (h : m.control = .eval (.lambda p name params body) frame) :
    Made m (.closure m.world.store.nextId ⟨name, params, body⟩ frame)
  | array {items : List Value} (h : ∀ w ∈ items, ∃ u, m.Has u ∧ w.Part u) :
    Made m (.array m.world.store.nextId items)

theorem Purpose.items_of_gathered? {cfg : Config} {id : Nat} {purpose : Purpose}
    {before : List Value} {es : List Expr} {v : Value}
    (h : v ∈ purpose.gathered? cfg id before es) :
    ∃ items, v = .array id items ∧ ∀ w ∈ items, ∃ u ∈ purpose.values ++ before, w.Part u := by
  cases es with
  | cons e more => cases h
  | nil =>
    cases purpose with
    | array =>
      cases h
      exact ⟨_, rfl, fun w hw => ⟨w, List.mem_reverse.mp hw, .self⟩⟩
    | call callee p => cases h
    | method receiver name current p =>
      have hinvoked := cfg.methods.invoke_invoked id current name before.reverse
      dsimp only [gathered?, made?] at h
      split at h
      · next i items hinvoke =>
        cases h
        obtain rfl := MethodTable.identity_of_invoke hinvoke
        rw [hinvoke] at hinvoked
        cases hinvoked with
        | array _ _ hitems =>
          refine ⟨items, rfl, fun w hw => ?_⟩
          rcases hitems w hw with hw | ⟨id, old, rfl, hw⟩
          · exact ⟨w, List.mem_cons_of_mem _ (List.mem_reverse.mp hw), .self⟩
          · exact ⟨_, List.mem_cons_self, .item hw .self⟩
      · cases h

theorem made_of_made? {cfg : Config} {m : Machine} {v : Value} (h : v ∈ m.made? cfg) :
    m.Made v := by
  obtain ⟨control, pending, depth, world⟩ := m
  cases control with
  | apply | fib => cases h
  | eval e frame =>
    cases e with
    | array p items =>
      obtain ⟨made, rfl, hmade⟩ := Purpose.items_of_gathered? h
      refine .array fun w hw => ?_
      obtain ⟨u, hu, -⟩ := hmade w hw
      cases hu
    | lambda p name params body =>
      cases h
      exact .closure rfl
    | method p receiver name args =>
      obtain ⟨current, hlookup, hgathered⟩ := Option.bind_eq_some_iff.mp h
      obtain ⟨made, rfl, hmade⟩ := Purpose.items_of_gathered? hgathered
      refine .array fun w hw => ?_
      obtain ⟨u, hu, hpart⟩ := hmade w hw
      obtain rfl := List.mem_singleton.mp hu
      exact ⟨u, .inr (.inr (Store.holds_of_lookup hlookup)), hpart⟩
    | _ => cases h
  | value v =>
    cases pending with
    | nil => cases h
    | cons p below =>
      cases p with
      | gather purpose before more frame =>
        obtain ⟨made, rfl, hmade⟩ := Purpose.items_of_gathered? h
        refine .array fun w hw => ?_
        obtain ⟨u, hu, hpart⟩ := hmade w hw
        refine ⟨u, ?_, hpart⟩
        rcases List.mem_append.mp hu with hu | hu
        · exact .inr (.inl ⟨_, List.mem_cons_self, List.mem_append_left _ hu⟩)
        · rcases List.mem_cons.mp hu with rfl | hu
          · exact .inl List.mem_cons_self
          · exact .inr (.inl ⟨_, List.mem_cons_self, List.mem_append_right _ hu⟩)
      | _ => cases h

/-- All that is there now, what has no identity, and what the next step makes. -/
def origins (cfg : Config) (m : Machine) : Custody where
  Code _ := True
  Held v := m.Has v ∨ v.identity? = none ∨ v ∈ m.made? cfg
  Called _ := True
  code_child _ _ := trivial
  held_plain h := .inr (.inl h)
  entered _ := ⟨trivial, trivial⟩

/-- Values do not come from nowhere: what is there after a step was there before, has no identity,
or is what the step has made. -/
theorem origin_of_next {cfg : Config} {m m' : Machine} (h : m.step cfg = .next m') {v : Value}
    (hv : m'.Has v) : m.Has v ∨ v.identity? = none ∨ v ∈ m.made? cfg := by
  have hkept : m.Kept (m.origins cfg) := by
    refine ⟨⟨fun v hv => .inl (.inl hv), fun _ _ => trivial⟩, ?_, fun v hv => .inl (.inr (.inr hv))⟩
    intro p hp
    exact ⟨fun v hv => .inl (.inr (.inl ⟨p, hp, hv⟩)), fun _ _ => trivial, fun _ _ => trivial⟩
  have hnext := hkept.step cfg fun v hv => .inr (.inr hv)
  rw [h] at hnext
  exact Kept.held hnext hv

end Machine

end ExprLang
