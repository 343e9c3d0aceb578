import ExprLang.Proofs.Machine.Scoping
import ExprLang.Proofs.Machine.Stacked
import ExprLang.Proofs.Store.Lookup
import Mathlib.Data.List.Find

namespace ExprLang

namespace Store

variable {s s' : Store} {f g : FrameId} {name : String}

theorem Nested.le_of_mem_chain (hs : s.Nested) (h : g ∈ s.chain f) : g ≤ f := by
  induction f using hs.induction with
  | root f hchain =>
    rw [hchain, List.mem_singleton] at h
    exact Nat.le_of_eq h
  | inner f p hparent hchain ih =>
    rw [hchain, List.mem_cons] at h
    rcases h with rfl | h
    · exact Nat.le_refl _
    · exact Nat.le_trans (ih h) (Nat.le_of_lt (hs.older f p hparent))

theorem lt_size_of_resolve? (h : s.resolve? f name = some g) : f < s.frames.size := by
  refine Nat.lt_of_not_le fun hf => ?_
  obtain ⟨hmem, hbinds⟩ := resolve?_spec h
  rw [chain, frame_of_size_le s f hf, List.mem_singleton] at hmem
  rw [hmem, binds, frame_of_size_le s f hf] at hbinds
  cases hbinds

/-- Where scopes have grown, a name is found in the frame it was found in before, or else in the one
frame that may bind more names. -/
theorem Grown.resolve? {owner owner' : FrameId} (h : s.Grown (· = f) s') (hs : s.Nested)
    (howner : s.resolve? f name = some owner) (howner' : s'.resolve? f name = some owner') :
    owner' = owner ∨ owner' = f ∧ s.binds name f = false := by
  have hf := lt_size_of_resolve? howner
  have hchain : s'.chain f = s.chain f := by rw [chain, chain, h.outer f hf]
  rw [Store.resolve?] at howner
  rw [Store.resolve?, hchain] at howner'
  by_cases hbinds : s.binds name f = true
  · have hbinds' := h.kept f hf name hbinds
    rw [chain, List.find?_cons_of_pos hbinds] at howner
    rw [chain, List.find?_cons_of_pos hbinds'] at howner'
    exact .inl (Option.some.inj (howner'.symm.trans howner))
  · by_cases hbinds' : s'.binds name f = true
    · rw [chain, List.find?_cons_of_pos hbinds'] at howner'
      exact .inr ⟨(Option.some.inj howner').symm, eq_false_of_ne_true hbinds⟩
    · -- Neither binds the name in `f`, and the other frames bind what they did.
      have hsame : ∀ g ∈ s.chain f, s'.binds name g = s.binds name g := by
        intro g hg
        have hlt := Nat.lt_of_le_of_lt (hs.le_of_mem_chain hg) hf
        refine Bool.eq_iff_iff.mpr ⟨fun hg' => ?_, h.kept g hlt name⟩
        rcases h.added g hlt name hg' with hg | rfl
        · exact hg
        · exact absurd hg' hbinds'
      rw [List.find?_congr hsame, howner] at howner'
      exact .inl (Option.some.inj howner').symm

end Store

namespace Machine

/-- The value of one expression goes to a list of values that is gathered, whatever that is for. -/
theorem runTimed_gather {cfg : Config} {delays : Nat → Nat} {e : Expr} {frame : FrameId}
    {depth : Nat} {world : World} {k : Nat} {m : Machine} {w : Value}
    (h : (start (.eval e frame) depth world).runTimed cfg delays k = .next m) (hw : m.Stops w)
    (purpose : Purpose) (before : List Value) (more : List Expr) (n : Nat) :
    Transition.runTimed cfg delays (k + (n + 1))
        ((Context.mk [] depth world).gather cfg frame purpose before (e :: more)) =
      Transition.runTimed cfg (fun i => delays (i + 1 + k)) n
        ((Context.mk [] m.depth (m.wait (delays (0 + k))).world).gather cfg frame purpose
          (w :: before) more) := by
  have hatop := runTimed_atop [.gather purpose before more frame] h
  obtain ⟨control, pending, depth', world'⟩ := m
  obtain ⟨rfl, rfl⟩ := hw
  change Machine.runTimed cfg delays (k + (n + 1))
    ((start (.eval e frame) depth world).atop [.gather purpose before more frame]) = _
  rw [runTimed_add, hatop]
  exact runTimed_succ ..

/-- A method is applied to the values that the same expressions have in an array, and the name is
set in the scopes that they leave. -/
theorem gather_method {cfg : Config} {frame : FrameId} {receiver method : String} {current : Value}
    {position : Position} {es : List Expr} {before : List Value} {depth : Nat} {world : World}
    {delays : Nat → Nat} {n : Nat} {f : Finished} {v : Value}
    (h : Transition.runTimed cfg delays n ((Context.mk [] depth world).gather cfg frame
      (.method receiver method current position) before es) = .done f) (hv : f.result = .ok v) :
    ∃ id vs mid, Transition.runTimed cfg delays n ((Context.mk [] depth world).gather cfg frame
        .array before es) = .done ⟨.ok (.array id vs), f.depth, mid⟩ ∧
      cfg.methods.invoke id current method vs = .ok v ∧
      mid.store.set? frame receiver v = some f.world.store ∧
      f.world.output = mid.output ∧ f.world.now = mid.now := by
  induction es generalizing before depth world delays n with
  | nil =>
    have hfresh : (Context.mk [] depth world).world.store.fresh = world.store.fresh := rfl
    rw [Context.gather, Context.runMethod, hfresh] at h
    dsimp only at h
    cases hinvoke : cfg.methods.invoke world.store.fresh.1 current method before.reverse with
    | error fault =>
      rw [hinvoke] at h
      cases h
      cases hv
    | ok u =>
      rw [hinvoke] at h
      dsimp only at h
      cases hset : world.store.fresh.2.set? frame receiver u with
      | none =>
        rw [hset] at h
        cases h
        cases hv
      | some s =>
        rw [hset] at h
        cases n with
        | zero => cases h
        | succ n =>
          cases h
          cases hv
          exact ⟨_, _, _, rfl, hinvoke, hset, rfl, rfl⟩
  | cons e more ih =>
    have hatop : ((start (.eval e frame) depth world).atop
        [.gather (.method receiver method current position) before more frame]).runTimed cfg
          delays n = .done f := h
    obtain ⟨k, m, w, hk, hrun, hw⟩ := stops_of_atop _ hatop hv
    obtain ⟨j, rfl⟩ : ∃ j, n = k + (j + 1) := ⟨n - (k + 1), by omega⟩
    rw [runTimed_gather hrun hw] at h ⊢
    exact ih h

theorem grown_of_done {cfg : Config} {delays : Nat → Nat} {depth : Nat} {world : World} {n : Nat}
    {e : Expr} {frame : FrameId} {f : Finished}
    (h : (start (.eval e frame) depth world).runTimed cfg delays n = .done f) :
    world.store.Grown (· = frame) f.world.store := by
  have hstart : (start (.eval e frame) depth world).Obeys (growth (· = frame) world.store) :=
    ⟨.inl rfl, List.forall_mem_nil _, .refl _ _⟩
  have hsound := (hstart.runTimed cfg delays n).sound
  rw [h] at hsound
  exact hsound

/-- What a method call writes. The method is applied to the value that the receiver's name has when
the call begins, and to the values of the arguments, and what it makes is bound to the name where
that is found once the arguments have been evaluated: in the frame where it was found when the call
began, unless the arguments have defined it in the frame of the call, which did not bind it. What
the arguments do to that binding is lost. -/
theorem method_writes {cfg : Config} {delays : Nat → Nat} {depth : Nat} {world : World} {n : Nat}
    {frame : FrameId} {receiver method : String} {args : List Expr} {position : Position}
    {f : Finished} {v : Value} (hs : world.store.Reachable)
    (h : (start (.eval (.method position receiver method args) frame) depth world).runTimed cfg
      delays n = .done f) (hv : f.result = .ok v) :
    ∃ owner owner' current id vs mid,
      world.store.resolve? frame receiver = some owner ∧
      (world.store.frame owner).find? receiver = some current ∧
      (start (.eval (.array position args) frame) depth world).runTimed cfg delays n =
        .done ⟨.ok (.array id vs), f.depth, mid⟩ ∧
      mid.store.resolve? frame receiver = some owner' ∧
      (owner' = owner ∨ owner' = frame ∧ world.store.binds receiver frame = false) ∧
      cfg.methods.invoke id current method vs = .ok v ∧
      f.world = ⟨mid.store.define owner' receiver v, mid.output, mid.now⟩ := by
  cases n with
  | zero => cases h
  | succ n =>
    rw [runTimed_succ, start, wait, step, Context.eval] at h
    cases hlookup : world.store.lookup frame receiver with
    | none =>
      rw [hlookup] at h
      cases h
      cases hv
    | some current =>
      rw [hlookup] at h
      obtain ⟨id, vs, mid, harray, hinvoke, hset, houtput, hnow⟩ := gather_method h hv
      rw [Store.lookup] at hlookup
      obtain ⟨owner, howner, hcurrent⟩ := Option.bind_eq_some_iff.mp hlookup
      have hrun : (start (.eval (.array position args) frame) depth world).runTimed cfg delays
          (n + 1) = .done ⟨.ok (.array id vs), f.depth, mid⟩ := (runTimed_succ ..).trans harray
      have hgrown := grown_of_done hrun
      rw [Store.set?] at hset
      cases howner' : mid.store.resolve? frame receiver with
      | none =>
        rw [howner'] at hset
        cases hset
      | some owner' =>
        rw [howner'] at hset
        refine ⟨owner, owner', current, id, vs, mid, howner, hcurrent, hrun, howner',
          hgrown.resolve? (.of_reachable hs) howner howner', hinvoke, ?_⟩
        rw [Option.some.inj hset, ← houtput, ← hnow]

/-- A frame inside of one where `xs` is `["a"]`. -/
def listed : World :=
  ⟨((Store.empty.newRoot.2.fresh.2.define 0 "xs" (.array 0 [.string "a"])).extend 0).2, .silent, 0⟩

theorem reachable_listed : listed.store.Reachable := by
  have hroot : Store.Reachable Store.empty.newRoot.2 := .tail .refl (.newRoot _)
  have hxs := (hroot.tail (.fresh _)).tail
    (.define (f := 0) (by decide) "xs" (.array 0 [.string "a"]))
  exact hxs.tail (.extend (f := 0) (by decide))

/-- The argument of `xs.add({ xs = ["b"]; "c" })`. -/
def overwriting : Expr :=
  .block .start [.assign .start (.var .start "xs") (.array .start [.string .start "b"]),
    .string .start "c"]

def shadowing : Expr := .define .start "xs" (some (.array .start [.string .start "b"]))

/-- The assignment in the argument is lost: `xs` was found with `["a"]`. -/
theorem method_writes_listed : ∃ id mid,
    (start (.eval (.array .start [overwriting]) 0) 0 listed).runTimed .standard (fun _ => 0) 20 =
      .done ⟨.ok (.array id [.string "c"]), 0, mid⟩ ∧
    (start (.eval (.method .start "xs" "add" [overwriting]) 0) 0 listed).runTimed .standard
      (fun _ => 0) 20 = .done ⟨.ok (.array id [.string "a", .string "c"]), 0,
        ⟨mid.store.define 0 "xs" (.array id [.string "a", .string "c"]), mid.output, mid.now⟩⟩ := by
  obtain ⟨world, hf⟩ : ∃ world, (start (.eval (.method .start "xs" "add" [overwriting]) 0) 0
      listed).runTimed .standard (fun _ => 0) 20 =
        .done ⟨.ok (.array 2 [.string "a", .string "c"]), 0, world⟩ := ⟨_, rfl⟩
  obtain ⟨owner, owner', current, id, vs, mid, howner, hcurrent, hrun, -, howner', hinvoke,
    hworld⟩ := method_writes reachable_listed hf rfl
  have hroot : listed.store.resolve? 0 "xs" = some 0 := rfl
  cases hroot.symm.trans howner
  cases hcurrent
  cases (howner'.elim (fun h => h) And.left : owner' = 0)
  cases vs with
  | nil => cases hinvoke
  | cons v vs =>
    cases hinvoke
    exact ⟨_, mid, hrun, by rw [hf, ← hworld]⟩

/-- What is written is not what the method makes of the value that the name has just before, and not
always where the name was found at first. -/
theorem method_writes_overwritten :
    (∃ f v id mid,
      (start (.eval (.method .start "xs" "add" [overwriting]) 1) 0 listed).runTimed .standard
        (fun _ => 0) 20 = .done f ∧ f.result = .ok v ∧
      (start (.eval (.array .start [overwriting]) 1) 0 listed).runTimed .standard (fun _ => 0) 20 =
        .done ⟨.ok (.array id [.string "c"]), f.depth, mid⟩ ∧
      mid.store.resolve? 1 "xs" = listed.store.resolve? 1 "xs" ∧
      mid.store.lookup 1 "xs" = some (.array 1 [.string "b"]) ∧
      ∀ id', MethodTable.standard.invoke id' (.array 1 [.string "b"]) "add" [.string "c"] ≠ .ok v) ∧
    ∃ f v,
      (start (.eval (.method .start "xs" "add" [shadowing]) 1) 0 listed).runTimed .standard
        (fun _ => 0) 20 = .done f ∧ f.result = .ok v ∧
      listed.store.resolve? 1 "xs" = some 0 ∧
      (f.world.store.frame 0).find? "xs" = (listed.store.frame 0).find? "xs" ∧
      (f.world.store.frame 1).find? "xs" = some v := by
  refine ⟨⟨_, _, _, _, rfl, rfl, rfl, rfl, rfl, fun id' h => ?_⟩, _, _, rfl, rfl, rfl, rfl, rfl⟩
  have hitems := (Value.array.inj (Except.ok.inj h)).2
  simp at hitems

end Machine

end ExprLang
