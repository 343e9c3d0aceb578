import ExprLang.Proofs.Machine.Discipline
import ExprLang.Proofs.Store.Frames
import Mathlib.Logic.Relation

namespace ExprLang

namespace Store

/-- The second frame is around the first one, or a function that the first one binds was made in
it. -/
def Leads (s : Store) (g k : FrameId) : Prop :=
  k ∈ (s.frame g).outer ∨ ∃ b ∈ (s.frame g).bindings, k ∈ b.2.frames

def Reaches (s : Store) : FrameId → FrameId → Prop := Relation.ReflTransGen s.Leads

/-- The frames that cannot be reached from the roots have stayed as they were. -/
def SameBeyond (roots : FrameId → Prop) (s s' : Store) : Prop :=
  ∀ g < s.frames.size, (∀ r, roots r → ¬ s.Reaches r g) → s'.frame g = s.frame g

section Leads

variable {s : Store} {g k : FrameId}

theorem not_leads_of_size_le (h : s.frames.size ≤ g) : ¬ s.Leads g k := by
  rw [Leads, frame_of_size_le s g h]
  rintro (h | ⟨b, h, -⟩) <;> cases h

theorem leads_of_lookup {name : String} {v : Value} (h : s.lookup g name = some v)
    (hk : k ∈ v.frames) : ∃ owner ∈ s.chain g, s.Leads owner k := by
  obtain ⟨owner, howner, hfind⟩ := Option.bind_eq_some_iff.mp h
  exact ⟨owner, (resolve?_spec howner).1, .inr ⟨(name, v), Frame.mem_of_find? _ name hfind, hk⟩⟩

theorem leads_of_define {owner : FrameId} {name : String} {v : Value}
    (h : (s.define owner name v).Leads g k) : s.Leads g k ∨ owner = g ∧ k ∈ v.frames := by
  rw [Leads, frame_define] at h
  by_cases howner : owner = g ∧ g < s.frames.size
  · rw [if_pos howner, Frame.outer_insert] at h
    rcases h with h | ⟨b, hb, hk⟩
    · exact .inl (.inl h)
    · rcases Frame.mem_insert _ name v hb with rfl | hb
      · exact .inr ⟨howner.1, hk⟩
      · exact .inl (.inr ⟨b, hb, hk⟩)
  · rw [if_neg howner] at h
    exact .inl h

theorem leads_of_extend {inside : FrameId} (h : (s.extend inside).2.Leads g k) :
    s.Leads g k ∨ k ∈ s.chain inside := by
  rw [Leads, frame_extend] at h
  split at h
  · rcases h with h | ⟨b, hb, -⟩
    · exact .inr h
    · cases hb
  · exact .inl h

end Leads

/-- What could be reached from the roots, and all that is new. -/
def Accessible (roots : FrameId → Prop) (s : Store) (g : FrameId) : Prop :=
  (∃ r, roots r ∧ s.Reaches r g) ∨ s.frames.size ≤ g

/-- Frames that were accessible lead to such frames only, whatever they bind now, and all others
are as they were. -/
structure Enclosed (roots : FrameId → Prop) (s s' : Store) : Prop where
  size : s.frames.size ≤ s'.frames.size
  closed : ∀ g k, s.Accessible roots g → s'.Leads g k → s.Accessible roots k
  same : ∀ g, ¬ s.Accessible roots g → s'.frame g = s.frame g

namespace Enclosed

variable {roots : FrameId → Prop} {s s' : Store}

theorem refl (roots : FrameId → Prop) (s : Store) : s.Enclosed roots s := by
  refine ⟨Nat.le_refl _, ?_, fun _ _ => rfl⟩
  rintro g k (⟨r, hr, hreaches⟩ | hnew) hleads
  · exact .inl ⟨r, hr, hreaches.tail hleads⟩
  · exact absurd hleads (not_leads_of_size_le hnew)

theorem fresh (h : s.Enclosed roots s') : s.Enclosed roots s'.fresh.2 := ⟨h.size, h.closed, h.same⟩

theorem accessible_chain (h : s.Enclosed roots s') {g owner : FrameId}
    (hg : s.Accessible roots g) (howner : owner ∈ s'.chain g) : s.Accessible roots owner := by
  rcases List.mem_cons.mp howner with rfl | houter
  · exact hg
  · exact h.closed g owner hg (.inl houter)

theorem define (h : s.Enclosed roots s') {g : FrameId} (name : String) {v : Value}
    (hg : s.Accessible roots g) (hv : v.Within (s.Accessible roots)) :
    s.Enclosed roots (s'.define g name v) := by
  refine ⟨by rw [size_define]; exact h.size, ?_, ?_⟩
  · intro i k hi hleads
    rcases leads_of_define hleads with hleads | ⟨-, hk⟩
    · exact h.closed i k hi hleads
    · exact hv k hk
  · intro i hi
    have hne : ¬ (g = i ∧ i < s'.frames.size) := fun heq => hi (heq.1 ▸ hg)
    rw [frame_define, if_neg hne, h.same i hi]

theorem extend (h : s.Enclosed roots s') {g : FrameId} (hg : s.Accessible roots g) :
    s.Enclosed roots (s'.extend g).2 := by
  refine ⟨by rw [size_extend]; exact Nat.le_succ_of_le h.size, ?_, ?_⟩
  · intro i k hi hleads
    rcases leads_of_extend hleads with hleads | hk
    · exact h.closed i k hi hleads
    · exact h.accessible_chain hg hk
  · intro i hi
    have hne : i ≠ s'.frames.size := fun heq => hi (.inr (heq ▸ h.size))
    rw [frame_extend, if_neg hne, h.same i hi]

theorem sameBeyond (h : s.Enclosed roots s') : s.SameBeyond roots s' := by
  intro g hg hbeyond
  refine h.same g ?_
  rintro (⟨r, hr, hreaches⟩ | hnew)
  · exact hbeyond r hr hreaches
  · exact Nat.not_le_of_lt hg hnew

end Enclosed

end Store

namespace Machine

/-- Code runs and functions are made in accessible frames. -/
def enclosure (roots : FrameId → Prop) (s₀ : Store) : Discipline where
  Scope _ := s₀.Accessible roots
  Captured _ := s₀.Accessible roots
  Sound := s₀.Enclosed roots
  scope_mono _ := id
  captured_mono _ := id
  captured_of_scope h := h
  within_of_lookup h hg hlookup k hk := by
    obtain ⟨owner, howner, hleads⟩ := Store.leads_of_lookup hlookup hk
    exact h.closed owner k (h.accessible_chain hg howner) hleads
  sound_fresh h := h.fresh
  sound_define name := fun h hg hv => h.define name hg hv
  sound_set? h hg hv hset := by
    obtain ⟨owner, howner, -, rfl⟩ := Store.define_of_set? hset
    exact h.define _ (h.accessible_chain hg howner) hv
  sound_extend h hg := ⟨.inr h.size, h.extend hg⟩

/-- Whatever an evaluation comes to, the frames that could not be reached from the one it runs in
are as they were; a call leaves those alone that could not be reached from the functions among, or
inside, its callee and its arguments. -/
theorem sameBeyond_runTimed (cfg : Config) (delays : Nat → Nat) (depth : Nat) (world : World)
    (n : Nat) :
    (∀ e frame, world.store.SameBeyond (· = frame)
      ((start (.eval e frame) depth world).runTimed cfg delays n).world.store) ∧
    ∀ callee args position, world.store.SameBeyond (fun r => ∃ v ∈ callee :: args, r ∈ v.frames)
      ((start (.apply callee args position) depth world).runTimed cfg delays n).world.store := by
  have hcontext (roots : FrameId → Prop) :
      Context.Obeys (enclosure roots world.store) ⟨[], depth, world⟩ :=
    ⟨List.forall_mem_nil _, .refl roots world.store⟩
  constructor
  · intro e frame
    have hstart : (start (.eval e frame) depth world).Obeys
        (enclosure (· = frame) world.store) := ⟨.inl ⟨frame, rfl, .refl⟩, hcontext _⟩
    have hsound : world.store.Enclosed _ _ := (hstart.runTimed cfg delays n).sound
    exact hsound.sameBeyond
  · intro callee args position
    have hvalues : ∀ v ∈ callee :: args, v.Within
        (world.store.Accessible fun r => ∃ v ∈ callee :: args, r ∈ v.frames) :=
      fun v hv r hr => .inl ⟨r, ⟨v, hv, hr⟩, .refl⟩
    have hstart : (start (.apply callee args position) depth world).Obeys
        (enclosure (fun r => ∃ v ∈ callee :: args, r ∈ v.frames) world.store) :=
      ⟨List.forall_mem_cons.mp hvalues, hcontext _⟩
    have hsound : world.store.Enclosed _ _ := (hstart.runTimed cfg delays n).sound
    exact hsound.sameBeyond

/-- Two frames in a third one, which does not know about them, and each with an `n` of its own. -/
def counters : Store :=
  ⟨#[⟨[], []⟩, ⟨[0], [("n", .boolean true)]⟩, ⟨[0], [("n", .boolean true)]⟩], 1⟩

/-- `fn() n = false`, made in the first of the two. -/
def counter : Value :=
  .closure 0 ⟨none, [], .assign .start (.var .start "n") (.boolean .start false)⟩ 1

/-- A call of the function changes its own `n`, and leaves the other one alone. -/
theorem sameBeyond_runTimed_counters :
    let m := start (.apply counter [] none) 0 ⟨counters, .silent, 0⟩
    let after := (m.runTimed .standard (fun i => i) 10).world.store
    (∀ r ∈ counter.frames, ¬ counters.Reaches r 2) ∧
      after.frame 1 = ⟨[0], [("n", .boolean false)]⟩ ∧ after.frame 2 = counters.frame 2 := by
  intro m after
  have hprivate : ∀ r ∈ counter.frames, ¬ counters.Reaches r 2 := by
    intro r hr hreaches
    obtain rfl : r = 1 := List.mem_singleton.mp hr
    -- The frames that can be reached are this one and the one around it.
    have hin : ∀ g, counters.Reaches 1 g → g ≤ 1 := by
      intro g hg
      induction hg with
      | refl => exact Nat.le_refl 1
      | @tail i k _ hleads ih =>
        rcases Nat.le_one_iff_eq_zero_or_eq_one.mp ih with rfl | rfl
        · simp [Store.Leads, Store.frame, counters] at hleads
        · obtain rfl : k = 0 := by
            simpa [Store.Leads, Store.frame, counters, Value.frames] using hleads
          exact Nat.zero_le 1
    exact absurd (hin 2 hreaches) (by decide)
  refine ⟨hprivate, rfl, ?_⟩
  have hsame := (sameBeyond_runTimed .standard (fun i => i) 0 ⟨counters, .silent, 0⟩ 10).2
    counter [] none
  refine hsame 2 (by decide) ?_
  rintro r ⟨v, hv, hr⟩
  obtain rfl : v = counter := List.mem_singleton.mp hv
  exact hprivate r hr

end Machine

end ExprLang
