import ExprLang.Expr.Parser
import ExprLang.Proofs.Machine.Identity
import ExprLang.Proofs.Machine.Results
import ExprLang.Session

namespace ExprLang

namespace Interpreted
open Number Number.Fibonacci Machine

def source : String :=
  "let fibonacci(n) = if (n < 2) \x7b n \x7d else \x7b fibonacci(n - 1) + fibonacci(n - 2) \x7d"

/-- `fibonacci(n - x)` -/
def callLess (p q r : Position) (x : Float) : Expr :=
  .call p (.var p "fibonacci") [.binary q .subtract (.var q "n") (.number r x)]

def function : Lambda where
  name := some "fibonacci"
  params := ["n"]
  body := .branch ⟨1, 20⟩
    (.binary ⟨1, 24⟩ .less (.var ⟨1, 24⟩ "n") (.number ⟨1, 28⟩ (ofRatio false 2 1)))
    (.var ⟨1, 33⟩ "n") none
    (some (.binary ⟨1, 44⟩ .add (callLess ⟨1, 44⟩ ⟨1, 54⟩ ⟨1, 58⟩ (ofRatio false 1 1))
      (callLess ⟨1, 63⟩ ⟨1, 73⟩ ⟨1, 77⟩ (ofRatio false 2 1))))

def program : Expr :=
  .block .start
    [.define ⟨1, 1⟩ "fibonacci" (some (.lambda ⟨1, 1⟩ function.name function.params function.body))]

theorem parse_source : parse source = .ok program := by
  with_unfolding_all rfl

theorem ofRatio_one : ofRatio false 1 1 = 1 := by decide +kernel

theorem ofRatio_two : ofRatio false 2 1 = 2 := by decide +kernel

variable {cfg : Config} {s s' : Store} {g : FrameId} {x y : Float}

/-- The scope of a call: it binds the argument and the function. -/
structure Binds (s : Store) (g : FrameId) (v : Value) (x : Float) : Prop where
  argument : (s.frame g).find? "n" = some (.number x)
  self : (s.frame g).find? "fibonacci" = some v

theorem Binds.keep {v : Value} (h : Binds s g v x) (hkeeps : s.Keeps s') : Binds s' g v x :=
  ⟨hkeeps.find? h.argument, hkeeps.find? h.self⟩

theorem binds_entered (s : Store) (id : Nat) (frame : FrameId) (x : Float) :
    Binds (s.entered id function frame [.number x]) s.frames.size (.closure id function frame) x :=
  ⟨Store.find?_entered .., Store.find?_entered ..⟩

section Parts

variable {v : Value} (h : Binds s g v x) (p q r : Position)
include h

theorem gives_argument : Gives cfg s (·.go (.eval (.var p "n") g)) (.number x) s :=
  .var (Store.lookup_of_find? h.argument)

theorem gives_condition :
    Gives cfg s (·.go (.eval (.binary p .less (.var q "n") (.number r (ofRatio false 2 1))) g))
      (.boolean (x < 2)) s := by
  rw [ofRatio_two]
  exact .binary (gives_argument h q) (.number 2) rfl

theorem gives_callLess (less : Float)
    (happly : Gives cfg s (·.go (.apply v [.number (x - less)] (some p))) (.number y) s') :
    Gives cfg s (·.go (.eval (callLess p q r less) g)) (.number y) s' :=
  .call (.var (Store.lookup_of_find? h.self))
    (.binary (gives_argument h q) (.number less) rfl) happly

end Parts

theorem gives_function (id : Nat) (frame : FrameId) (hlimit : cfg.limit = none) (h : IsFib x y)
    (s : Store) : ∃ s', s.Keeps s' ∧ ∀ position, Gives cfg s
      (·.go (.apply (.closure id function frame) [.number x] position)) (.number y) s' := by
  induction h generalizing s with
  | @small n hn =>
    have hbinds := binds_entered s id frame n
    have hcond : Gives cfg _ _ _ _ := gives_condition hbinds ⟨1, 24⟩ ⟨1, 24⟩ ⟨1, 28⟩
    rw [decide_eq_true hn] at hcond
    exact ⟨_, s.keeps_entered .., fun _ =>
      .closure hlimit (.branch hcond (gives_argument hbinds ⟨1, 33⟩))⟩
  | @sum n a b hn _ _ iha ihb =>
    have hbinds := binds_entered s id frame n
    have hcond : Gives cfg _ _ _ _ := gives_condition hbinds ⟨1, 24⟩ ⟨1, 24⟩ ⟨1, 28⟩
    rw [decide_eq_false hn] at hcond
    obtain ⟨s₁, hkeeps₁, ha⟩ := iha (s.entered id function frame [.number n])
    obtain ⟨s₂, hkeeps₂, hb⟩ := ihb s₁
    rw [← ofRatio_one] at ha
    rw [← ofRatio_two] at hb
    have hleft := gives_callLess hbinds ⟨1, 44⟩ ⟨1, 54⟩ ⟨1, 58⟩ _ (ha _)
    have hright := gives_callLess (hbinds.keep hkeeps₁) ⟨1, 63⟩ ⟨1, 73⟩ ⟨1, 77⟩ _ (hb _)
    exact ⟨s₂, ((s.keeps_entered ..).trans hkeeps₁).trans hkeeps₂, fun _ =>
      .closure hlimit (.branch hcond (.binary hleft hright rfl))⟩

theorem gives_program (s : Store) (root : FrameId) :
    Gives cfg s (·.go (.eval program root)) (.closure s.nextId function root)
      (s.fresh.2.define root "fibonacci" (.closure s.nextId function root)) := by
  have hlambda : Gives cfg s
      (·.go (.eval (.lambda ⟨1, 1⟩ function.name function.params function.body) root))
      (.closure s.nextId function root) s.fresh.2 := by
    refine .eval ((Gives.give.withStore s).congr fun c hc => ?_)
    rw [Context.eval, hc]
    rfl
  refine .eval (.eval (.push hlambda ((Gives.give.withStore s.fresh.2).congr fun c hc => ?_)))
  rw [Context.resume, hc]

end Interpreted

namespace Session
open Machine Number

/-- What the machine of a session ends with, whatever the clock does, is a number, and the global
scope is then as it was. -/
def Comes (s : Session) (m : Machine) (y : Float) : Prop :=
  ∀ delays, ∃ n f, m.runTimed s.config delays n = .done f ∧ f.result = .ok (.number y) ∧
    f.world.store.frame s.root = s.world.store.frame s.root

/-- The function with a name of the global scope takes a number to a number, when it is called from
outside and when a program calls it. -/
structure Maps (s : Session) (name : String) (v : Value) (x y : Float) : Prop where
  call : s.Comes (s.call v [.number x]) y
  evaluate (p q r : Position) : s.Comes (s.evaluate (.call p (.var q name) [.number r x])) y

variable {s : Session} {name : String} {v : Value} {x y : Float}

theorem comes_of_gives {control : Control} {store : Store}
    (hroot : s.root < s.world.store.frames.size) (hkeeps : s.world.store.Keeps store)
    (h : Gives s.config s.world.store (·.go control) (.number y) store) :
    s.Comes ⟨control, [], s.depth, s.world⟩ y := by
  intro delays
  obtain ⟨n, now, hrun⟩ := h.ends s.depth s.world.output s.world.now delays
  exact ⟨n, _, hrun, rfl, hkeeps.frame s.root hroot⟩

theorem maps_of_gives {store : Store} (hroot : s.root < s.world.store.frames.size)
    (hkeeps : s.world.store.Keeps store) (hlookup : s.world.store.lookup s.root name = some v)
    (h : ∀ position, Gives s.config s.world.store (·.go (.apply v [.number x] position))
      (.number y) store) : s.Maps name v x y where
  call := comes_of_gives hroot hkeeps (h none)
  evaluate p _ _ := comes_of_gives hroot hkeeps (.call (.var hlookup) (.number x) (h (some p)))

theorem get_of_lookup (h : s.world.store.lookup s.root name = some v) : s.get name = .ok v := by
  rw [get, Store.get, h]

theorem find?_newGlobal_fib (s : Store) :
    ((s.newGlobal true).2.frame (s.newGlobal true).1).find? "fib" = some (.builtin .fib) := by
  refine (Store.find?_defineAll s.newRoot_lt).trans ?_
  rfl

theorem maps_fibonacci {id : Nat} {frame : FrameId} (hlimit : s.config.limit = none)
    (hroot : s.root < s.world.store.frames.size)
    (hfibonacci : s.world.store.lookup s.root "fibonacci" =
      some (.closure id Interpreted.function frame))
    (hfib : s.world.store.lookup s.root "fib" = some (.builtin .fib)) {k : Nat}
    (hrun : (Fibonacci.start x).run k = .inr y) :
    s.Maps "fibonacci" (.closure id Interpreted.function frame) x y ∧
      s.Maps "fib" (.builtin .fib) x y := by
  have hsum := Fibonacci.isFib_of_run_start hrun
  obtain ⟨store, hkeeps, hgives⟩ :=
    Interpreted.gives_function id frame hlimit hsum s.world.store
  exact ⟨maps_of_gives hroot hkeeps hfibonacci hgives,
    maps_of_gives hroot (.refl _) hfib fun _ => .fib hrun⟩

/-- In a new session without a limit on calls, the program defines a function that agrees with the
builtin `fib` on every number for which the recursion ends. -/
theorem fibonacci_agrees (methods : MethodTable) (world : World) (delays : Nat → Nat) :
    parse Interpreted.source = .ok Interpreted.program ∧
    ∃ n f, ((new ⟨methods, none⟩ true world).evaluate Interpreted.program).runTimed
        ⟨methods, none⟩ delays n = .done f ∧
      ∃ v, f.result = .ok v ∧
        let s := (new ⟨methods, none⟩ true world).resume f
        s.get "fibonacci" = .ok v ∧ s.get "fib" = .ok (.builtin .fib) ∧
          ∀ x, (Fibonacci.start x).Ends →
            ∃ y, s.Maps "fibonacci" v x y ∧ s.Maps "fib" (.builtin .fib) x y := by
  have hnew : new ⟨methods, none⟩ true world = ⟨⟨methods, none⟩, (world.store.newGlobal true).1, 0,
      ⟨(world.store.newGlobal true).2, world.output, world.now⟩⟩ := rfl
  have hroot := world.store.newGlobal_lt true
  have hbuiltin := find?_newGlobal_fib world.store
  rw [hnew]
  generalize world.store.newGlobal true = g at hroot hbuiltin ⊢
  obtain ⟨root, store⟩ := g
  let v : Value := .closure store.nextId Interpreted.function root
  have hprogram : Gives ⟨methods, none⟩ store (·.go (.eval Interpreted.program root)) v
      (store.fresh.2.define root "fibonacci" v) := Interpreted.gives_program store root
  obtain ⟨n, now, hrun⟩ := hprogram.ends 0 world.output world.now delays
  -- The scopes that the program leaves.
  have hfibonacci : (store.fresh.2.define root "fibonacci" v).lookup root "fibonacci" = some v :=
    Store.lookup_define_self "fibonacci" v hroot
  have hfib : (store.fresh.2.define root "fibonacci" v).lookup root "fib" =
      some (.builtin .fib) := by
    apply Store.lookup_of_find?
    rw [Store.frame_define, if_pos ⟨rfl, hroot⟩, Frame.find?_insert_of_ne _ _ (by decide)]
    exact hbuiltin
  refine ⟨Interpreted.parse_source, n, _, hrun, v, rfl, get_of_lookup hfibonacci,
    get_of_lookup hfib, ?_⟩
  rintro x ⟨k, y, hx⟩
  have hsize : root < (store.fresh.2.define root "fibonacci" v).frames.size := by
    rwa [Store.size_define]
  exact ⟨y, maps_fibonacci rfl hsize hfibonacci hfib hx⟩

/-- A number with a fraction. -/
theorem fibonacci_agrees_half : (Fibonacci.start 4.5).Ends ∧
    ∃ s v y, get s "fibonacci" = .ok v ∧ s.Maps "fibonacci" v 4.5 y ∧
      s.Maps "fib" (.builtin .fib) 4.5 y := by
  have hends : (Fibonacci.start 4.5).Ends :=
    ⟨40, 5.5, Sum.getRight?_eq_some_iff.mp (by decide +kernel)⟩
  obtain ⟨-, _, _, -, v, -, hget, -, hmaps⟩ :=
    fibonacci_agrees .standard ⟨.empty, .captured "", 0⟩ fun _ => 0
  obtain ⟨y, hy⟩ := hmaps 4.5 hends
  exact ⟨hends, _, v, y, hget, hy⟩

end Session

end ExprLang
