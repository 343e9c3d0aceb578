import ExprLang.Proofs.Machine.Timed
import ExprLang.Proofs.Store.Frames
import ExprLang.Proofs.Value.Outcome

namespace ExprLang

namespace Value

mutual

/-- The frames that the functions in a value were made in. -/
def frames : Value → List FrameId
  | number _ | string _ | boolean _ | builtin _ => []
  | array _ items => framesAll items
  | closure _ _ frame => [frame]

def framesAll : List Value → List FrameId
  | [] => []
  | v :: vs => frames v ++ framesAll vs

end

/-- The functions in a value were made in frames of a certain kind. -/
def Within (P : FrameId → Prop) (v : Value) : Prop := ∀ g ∈ v.frames, P g

variable {P : FrameId → Prop}

theorem Within.imp {Q : FrameId → Prop} {v : Value} (h : v.Within P) (hPQ : ∀ g, P g → Q g) :
    v.Within Q := fun g hg => hPQ g (h g hg)

theorem within_absent : absent.Within P := List.forall_mem_nil P

theorem within_closure {id : Nat} {fn : Lambda} {frame : FrameId} :
    (closure id fn frame).Within P ↔ P frame := List.forall_mem_singleton

theorem within_array {id : Nat} {items : List Value} :
    (array id items).Within P ↔ ∀ v ∈ items, v.Within P := by
  change (∀ g ∈ framesAll items, P g) ↔ _
  induction items with
  | nil => simp [framesAll]
  | cons v vs ih => rw [framesAll, List.forall_mem_append, List.forall_mem_cons, ih, Within]

theorem within_headD {vs : List Value} (h : ∀ v ∈ vs, v.Within P) : (vs.headD absent).Within P := by
  cases vs with
  | nil => exact within_absent
  | cons v vs => exact h v List.mem_cons_self

theorem Operated.within {v w u : Value} (h : Operated v w (.ok u)) (hv : v.Within P)
    (hw : w.Within P) : u.Within P := by
  cases h with
  | left => exact hv
  | right => exact hw
  | number | boolean => exact List.forall_mem_nil P

end Value

theorem Invoked.within {P : FrameId → Prop} {receiver u : Value} {args : List Value}
    (h : Invoked receiver args (.ok u)) (hreceiver : receiver.Within P)
    (hargs : ∀ v ∈ args, v.Within P) : u.Within P := by
  cases h with
  | string => exact List.forall_mem_nil P
  | array id items hitems =>
    refine Value.within_array.mpr fun v hv => ?_
    rcases hitems v hv with hv | ⟨id, before, rfl, hv⟩
    · exact hargs v hv
    · exact Value.within_array.mp hreceiver v hv

/-- Where code runs and functions are made, and a property of scopes that is kept there. -/
structure Discipline where
  /-- The frames that code runs in. -/
  Scope : Store → FrameId → Prop
  /-- The frames that functions are made in. -/
  Captured : Store → FrameId → Prop
  Sound : Store → Prop
  scope_mono {s s' : Store} {g : FrameId} : s.Extends s' → Scope s g → Scope s' g
  captured_mono {s s' : Store} {g : FrameId} : s.Extends s' → Captured s g → Captured s' g
  captured_of_scope {s : Store} {g : FrameId} : Scope s g → Captured s g
  within_of_lookup {s : Store} {g : FrameId} {name : String} {v : Value} :
    Sound s → Scope s g → s.lookup g name = some v → v.Within (Captured s)
  sound_fresh {s : Store} : Sound s → Sound s.fresh.2
  sound_define {s : Store} {g : FrameId} (name : String) {v : Value} :
    Sound s → Scope s g → v.Within (Captured s) → Sound (s.define g name v)
  sound_set? {s s' : Store} {g : FrameId} {name : String} {v : Value} :
    Sound s → Scope s g → v.Within (Captured s) → s.set? g name v = some s' → Sound s'
  /-- A frame for code, inside a frame that a function was made in. -/
  sound_extend {s : Store} {g : FrameId} :
    Sound s → Captured s g → Scope (s.extend g).2 (s.extend g).1 ∧ Sound (s.extend g).2

namespace Discipline

variable (D : Discipline)

def Holds (s : Store) (v : Value) : Prop := v.Within (D.Captured s)

variable {D} {s s' : Store}

theorem Holds.mono {v : Value} (h : D.Holds s v) (hs : s.Extends s') : D.Holds s' v :=
  Value.Within.imp h fun _ => D.captured_mono hs

theorem holds_absent : D.Holds s .absent := Value.within_absent

theorem sound_defineAll {g : FrameId} {bs : List (String × Value)} (hs : D.Sound s)
    (hg : D.Scope s g) (hbs : ∀ b ∈ bs, D.Holds s b.2) : D.Sound (s.defineAll g bs) := by
  induction bs generalizing s with
  | nil => exact hs
  | cons b bs ih =>
    obtain ⟨hb, hbs⟩ := List.forall_mem_cons.mp hbs
    have hext : s.Extends (s.define g b.1 b.2) := .define ..
    exact ih (D.sound_define b.1 hs hg hb) (D.scope_mono hext hg) fun c hc => (hbs c hc).mono hext

end Discipline

namespace Machine

variable (D : Discipline) (s : Store)

def Purpose.Obeys : Purpose → Prop
  | array => True
  | call callee _ => D.Holds s callee
  | method _ _ current _ => D.Holds s current

def Pending.Obeys : Pending → Prop
  | define _ frame | scope _ _ _ frame | assign _ frame _ | right _ _ frame _ | callee _ frame _
  | branch _ _ _ frame | sequence _ frame => D.Scope s frame
  | operate _ left _ => D.Holds s left
  | gather purpose before _ frame =>
    D.Scope s frame ∧ purpose.Obeys D s ∧ ∀ v ∈ before, D.Holds s v
  | activation _ | timing _ => True

def Control.Obeys : Control → Prop
  | eval _ frame => D.Scope s frame
  | apply callee args _ => D.Holds s callee ∧ ∀ v ∈ args, D.Holds s v
  | fib _ => True
  | value v => D.Holds s v

/-- The stack and the scopes keep to a discipline. -/
structure Context.Obeys (c : Context) : Prop where
  pending : ∀ p ∈ c.pending, p.Obeys D c.world.store
  sound : D.Sound c.world.store

/-- What is done next keeps to a discipline, as do the stack and the scopes. -/
structure Obeys (m : Machine) : Prop where
  control : m.control.Obeys D m.world.store
  context : m.context.Obeys D

def Transition.Obeys : Transition → Prop
  | next m => m.Obeys D
  | done f => D.Sound f.world.store

variable {D} {s} {s' : Store}

theorem Pending.Obeys.mono {p : Pending} (h : p.Obeys D s) (hs : s.Extends s') :
    p.Obeys D s' := by
  cases p with
  | operate op left position => exact Discipline.Holds.mono h hs
  | gather purpose before more frame =>
    obtain ⟨hframe, hpurpose, hbefore⟩ := h
    refine ⟨D.scope_mono hs hframe, ?_, fun v hv => (hbefore v hv).mono hs⟩
    cases purpose with
    | array => exact trivial
    | call | method => exact Discipline.Holds.mono hpurpose hs
  | activation | timing => exact trivial
  | _ => exact D.scope_mono hs h

theorem Transition.Obeys.sound {t : Transition} (h : t.Obeys D) : D.Sound t.world.store := by
  cases t with
  | next m => exact h.context.sound
  | done f => exact h

theorem Obeys.wait {m : Machine} (h : m.Obeys D) (ms : Nat) : (m.wait ms).Obeys D :=
  ⟨h.control, h.context.pending, h.context.sound⟩

namespace Context.Obeys

variable {c : Context} (h : c.Obeys D)
include h

theorem go {control : Control} (hcontrol : control.Obeys D c.world.store) :
    (c.go control).Obeys D :=
  ⟨hcontrol, h.pending, h.sound⟩

theorem give {v : Value} (hv : D.Holds c.world.store v) : (c.give v).Obeys D := h.go hv

theorem push (p : Pending) (hp : p.Obeys D c.world.store) : (c.push p).Obeys D :=
  ⟨List.forall_mem_cons.mpr ⟨hp, h.pending⟩, h.sound⟩

theorem evalThen {p : Pending} {e : Expr} {frame : FrameId} (hframe : D.Scope c.world.store frame)
    (hp : p.Obeys D c.world.store = D.Scope c.world.store frame) :
    ((c.push p).go (.eval e frame)).Obeys D :=
  (h.push p (hp.mpr hframe)).go hframe

theorem fail (fault : EvalFault) (position : Option Position) :
    (c.fail fault position).Obeys D := by
  rw [fail_eq]
  exact h.sound

theorem withStore {s : Store} (hext : c.world.store.Extends s) (hs : D.Sound s) :
    (c.withStore s).Obeys D :=
  ⟨fun p hp => (h.pending p hp).mono hext, hs⟩

theorem write (text : String) : (c.write text).Obeys D := ⟨h.pending, h.sound⟩

theorem giveIn {s : Store} {v : Value} (hext : c.world.store.Extends s) (hs : D.Sound s)
    (hv : D.Holds c.world.store v) : ((c.withStore s).give v).Obeys D :=
  (h.withStore hext hs).give (hv.mono hext)

theorem runBlock {frame : FrameId} (hframe : D.Scope c.world.store frame) (es : List Expr) :
    (c.runBlock frame es).Obeys D := by
  rcases es with _ | ⟨e, _ | ⟨e', more⟩⟩
  · exact h.give D.holds_absent
  · exact h.go hframe
  · exact h.evalThen hframe rfl

theorem bind {frame : FrameId} (hframe : D.Scope c.world.store frame) (name : String) {v : Value}
    (hv : D.Holds c.world.store v) :
    D.Scope (c.bind frame name v).2.world.store (c.bind frame name v).1 ∧
      (c.bind frame name v).2.Obeys D := by
  obtain ⟨hinner, hsound⟩ := D.sound_extend h.sound (D.captured_of_scope hframe)
  have hextend := Store.Extends.extend c.world.store frame
  have hdefine := Store.Extends.define (c.world.store.extend frame).2
    (c.world.store.extend frame).1 name v
  exact ⟨D.scope_mono hdefine hinner, h.withStore (hextend.trans hdefine)
    (D.sound_define name hsound hinner (hv.mono hextend))⟩

omit h in
theorem runScope {c : Context} (h : c.Obeys D) {frame : FrameId}
    (hframe : D.Scope c.world.store frame) (body : Expr) (bs : List (Binding Expr)) :
    (c.runScope frame body bs).Obeys D := by
  induction bs generalizing c frame with
  | nil => exact h.go hframe
  | cons b bs ih =>
    obtain ⟨name, _ | init⟩ := b
    · obtain ⟨hinner, hcontext⟩ := h.bind hframe name D.holds_absent
      exact ih hcontext hinner
    · exact h.evalThen hframe rfl

theorem runMethod (cfg : Config) {frame : FrameId} (hframe : D.Scope c.world.store frame)
    (receiver method : String) {current : Value} (hcurrent : D.Holds c.world.store current)
    {args : List Value} (hargs : ∀ v ∈ args, D.Holds c.world.store v)
    (position : Option Position) :
    (c.runMethod cfg frame receiver method current args position).Obeys D := by
  have hinvoked := cfg.methods.invoke_invoked c.world.store.nextId current method args
  have hfresh := Store.Extends.fresh c.world.store
  unfold Context.runMethod
  dsimp only
  cases hinvoke : cfg.methods.invoke _ current method args with
  | error fault => exact h.fail _ _
  | ok v =>
    dsimp only
    have hv : D.Holds c.world.store v := (hinvoke ▸ hinvoked).within hcurrent hargs
    cases hset : Store.set? _ frame receiver v with
    | none => exact h.fail _ _
    | some s =>
      exact h.giveIn (hfresh.trans (.set? hset))
        (D.sound_set? (D.sound_fresh h.sound) (D.scope_mono hfresh hframe) (hv.mono hfresh) hset) hv

theorem gather (cfg : Config) {frame : FrameId} (hframe : D.Scope c.world.store frame)
    (purpose : Purpose) (hpurpose : purpose.Obeys D c.world.store) {before : List Value}
    (hbefore : ∀ v ∈ before, D.Holds c.world.store v) (es : List Expr) :
    (c.gather cfg frame purpose before es).Obeys D := by
  have hvalues : ∀ v ∈ before.reverse, D.Holds c.world.store v := by simpa using hbefore
  cases es with
  | cons e more =>
    exact (h.push (.gather purpose before more frame) ⟨hframe, hpurpose, hbefore⟩).go hframe
  | nil =>
    cases purpose with
    | array =>
      exact h.giveIn (.fresh _) (D.sound_fresh h.sound) (Value.within_array.mpr hvalues)
    | call callee position => exact h.go ⟨hpurpose, hvalues⟩
    | method receiver method current position =>
      exact h.runMethod cfg hframe receiver method hpurpose hvalues _

theorem eval (cfg : Config) {frame : FrameId} (hframe : D.Scope c.world.store frame) (e : Expr) :
    (c.eval cfg frame e).Obeys D := by
  cases e with
  | number | string | boolean => exact h.give (List.forall_mem_nil _)
  | array p items => exact h.gather cfg hframe .array trivial (List.forall_mem_nil _) items
  | var p name =>
    rw [Context.eval]
    cases hlookup : c.world.store.lookup frame name with
    | none => exact h.fail _ _
    | some v => exact h.give (D.within_of_lookup h.sound hframe hlookup)
  | define p name init =>
    cases init with
    | none =>
      exact h.giveIn (.define ..) (D.sound_define name h.sound hframe D.holds_absent)
        D.holds_absent
    | some init => exact h.evalThen hframe rfl
  | scope p bindings body => exact h.runScope hframe body bindings
  | assign p target value =>
    cases target with
    | var q name => exact h.evalThen hframe rfl
    | _ => exact h.fail _ _
  | binary p op left right => exact h.evalThen hframe rfl
  | lambda p name params body =>
    exact h.giveIn (.fresh _) (D.sound_fresh h.sound)
      (Value.within_closure.mpr (D.captured_of_scope hframe))
  | call p callee args => exact h.evalThen hframe rfl
  | method p receiver method args =>
    rw [Context.eval]
    cases hlookup : c.world.store.lookup frame receiver with
    | none => exact h.fail _ _
    | some current =>
      have hcurrent : (Purpose.method receiver method current p).Obeys D c.world.store :=
        D.within_of_lookup h.sound hframe hlookup
      exact h.gather cfg hframe _ hcurrent (List.forall_mem_nil _) args
  | branch p cond consequent chained alternative => exact h.evalThen hframe rfl
  | block p statements => exact h.runBlock hframe statements

omit h in
theorem within_parameters {P : FrameId → Prop} (names : List String) {args : List Value}
    (hargs : ∀ v ∈ args, v.Within P) : ∀ b ∈ parameters names args, b.2.Within P := by
  induction names generalizing args with
  | nil => exact List.forall_mem_nil _
  | cons name names ih =>
    cases args with
    | nil => exact List.forall_mem_cons.mpr ⟨Value.within_absent, ih hargs⟩
    | cons v vs =>
      obtain ⟨hv, hvs⟩ := List.forall_mem_cons.mp hargs
      exact List.forall_mem_cons.mpr ⟨hv, ih hvs⟩

theorem enter (cfg : Config) {id : Nat} {fn : Lambda} {frame : FrameId}
    (hfunction : D.Holds c.world.store (.closure id fn frame)) {args : List Value}
    (hargs : ∀ v ∈ args, D.Holds c.world.store v) (position : Option Position) :
    (c.enter cfg id fn frame args position).Obeys D := by
  unfold Context.enter
  cases cfg.limit.filter (· ≤ c.depth) with
  | some limit => exact h.fail _ _
  | none =>
    obtain ⟨hinner, hsound⟩ := D.sound_extend h.sound (Value.within_closure.mp hfunction)
    have hextend := Store.Extends.extend c.world.store frame
    have hbindings : ∀ b ∈ (fn.name.toList.map fun name => (name, Value.closure id fn frame)) ++
        parameters fn.params args, D.Holds (c.world.store.extend frame).2 b.2 := by
      refine List.forall_mem_append.mpr ⟨fun b hb => ?_, ?_⟩
      · obtain ⟨name, -, rfl⟩ := List.mem_map.mp hb
        exact hfunction.mono hextend
      · exact within_parameters fn.params fun v hv => (hargs v hv).mono hextend
    have hdefine := Store.Extends.defineAll (c.world.store.extend frame).2
      (c.world.store.extend frame).1 ((fn.name.toList.map fun name =>
        (name, Value.closure id fn frame)) ++ parameters fn.params args)
    refine ⟨D.scope_mono hdefine hinner, List.forall_mem_cons.mpr ⟨trivial, fun p hp => ?_⟩, ?_⟩
    · exact (h.pending p hp).mono (hextend.trans hdefine)
    · exact D.sound_defineAll hsound hinner hbindings

theorem apply (cfg : Config) {args : List Value} (hargs : ∀ v ∈ args, D.Holds c.world.store v)
    (position : Option Position) {callee : Value} (hcallee : D.Holds c.world.store callee) :
    (c.apply cfg args position callee).Obeys D := by
  cases callee with
  | number | string | boolean | array => exact h.fail _ _
  | closure id fn frame => exact h.enter cfg hcallee hargs position
  | builtin b =>
    cases b with
    | print | println => exact (h.write _).give D.holds_absent
    | time =>
      exact (h.push (.timing _) trivial).go ⟨Value.within_headD hargs, List.forall_mem_nil _⟩
    | fib =>
      rw [Context.apply]
      cases args.headD .absent with
      | number n => exact h.go trivial
      | _ => exact h.fail _ _

theorem resume (cfg : Config) {v : Value} (hv : D.Holds c.world.store v) {p : Pending}
    (hp : p.Obeys D c.world.store) : (c.resume cfg v p).Obeys D := by
  cases p with
  | define name frame =>
    exact h.giveIn (.define ..) (D.sound_define name h.sound hp hv) hv
  | scope name more body frame =>
    obtain ⟨hinner, hcontext⟩ := h.bind hp name hv
    exact hcontext.runScope hinner body more
  | assign name frame position =>
    rw [Context.resume]
    cases hset : c.world.store.set? frame name v with
    | none => exact h.fail _ _
    | some s => exact h.giveIn (.set? hset) (D.sound_set? h.sound hp hv hset) hv
  | right op right frame position => exact (h.push (.operate op v position) hv).go hp
  | operate op left position =>
    have hoperated := Value.operate_operated op left v
    rw [Context.resume]
    cases hoperate : Value.operate op left v with
    | ok w => exact h.give ((hoperate ▸ hoperated).within hp hv)
    | error fault => exact h.fail _ _
  | callee args frame position =>
    exact h.gather cfg hp (.call v position) hv (List.forall_mem_nil _) args
  | gather purpose before more frame =>
    obtain ⟨hframe, hpurpose, hbefore⟩ := hp
    exact h.gather cfg hframe purpose hpurpose (List.forall_mem_cons.mpr ⟨hv, hbefore⟩) more
  | branch consequent chained alternative frame =>
    rw [Context.resume]
    cases v.isTruthy with
    | true => exact h.go hp
    | false =>
      cases chained <|> alternative with
      | none => exact h.give Value.within_absent
      | some e => exact h.go hp
  | sequence more frame => exact h.runBlock hp more
  | activation call => exact ⟨hv, h.pending, h.sound⟩
  | timing started => exact (h.write _).give hv

end Context.Obeys

theorem Obeys.step {m : Machine} (h : m.Obeys D) (cfg : Config) : (m.step cfg).Obeys D := by
  obtain ⟨control, pending, depth, world⟩ := m
  obtain ⟨hcontrol, hcontext⟩ := h
  cases control with
  | eval e frame => exact hcontext.eval cfg hcontrol e
  | apply callee args position => exact hcontext.apply cfg hcontrol.2 position hcontrol.1
  | fib f =>
    rw [Machine.step]
    cases f.step with
    | inl f => exact ⟨trivial, hcontext⟩
    | inr x => exact ⟨List.forall_mem_nil _, hcontext⟩
  | value v =>
    cases pending with
    | nil => exact hcontext.sound
    | cons p pending =>
      obtain ⟨hp, hpending⟩ := List.forall_mem_cons.mp hcontext.pending
      have hrest : Context.Obeys D ⟨pending, depth, world⟩ := ⟨hpending, hcontext.sound⟩
      exact hrest.resume cfg hcontrol hp

/-- An evaluation that begins within a discipline keeps to it, whatever the clock does. -/
theorem Obeys.runTimed {m : Machine} (h : m.Obeys D) (cfg : Config) (delays : Nat → Nat)
    (n : Nat) : (m.runTimed cfg delays n).Obeys D := by
  induction n generalizing m delays with
  | zero => exact h
  | succ n ih =>
    have hstep := (h.wait (delays 0)).step cfg
    rw [Machine.runTimed]
    cases ht : (m.wait (delays 0)).step cfg with
    | next m' =>
      rw [ht] at hstep
      exact ih hstep _
    | done f =>
      rw [ht] at hstep
      exact hstep

end Machine

end ExprLang
