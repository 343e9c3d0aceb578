import ExprLang.Proofs.Machine.Discipline
import ExprLang.Proofs.Store.Frames

namespace ExprLang

namespace Store

/-- How scopes may grow: all frames stay, inside the same frames and with the names they bind, and
only those of a certain kind bind more. -/
structure Grown (P : FrameId → Prop) (s s' : Store) : Prop where
  size : s.frames.size ≤ s'.frames.size
  outer : ∀ g < s.frames.size, (s'.frame g).outer = (s.frame g).outer
  kept : ∀ g < s.frames.size, ∀ name, s.binds name g = true → s'.binds name g = true
  added : ∀ g < s.frames.size, ∀ name, s'.binds name g = true → s.binds name g = true ∨ P g
  /-- What can be seen from a frame can still be seen from it. -/
  visible : ∀ g < s.frames.size, ∀ name, (s.lookup g name).isSome = true →
    (s'.lookup g name).isSome = true

namespace Grown

variable {P : FrameId → Prop} {s s' : Store}

theorem mk' (size : s.frames.size ≤ s'.frames.size)
    (outer : ∀ g < s.frames.size, (s'.frame g).outer = (s.frame g).outer)
    (kept : ∀ g < s.frames.size, ∀ name, s.binds name g = true → s'.binds name g = true)
    (added : ∀ g < s.frames.size, ∀ name, s'.binds name g = true → s.binds name g = true ∨ P g) :
    s.Grown P s' := by
  refine ⟨size, outer, kept, added, ?_⟩
  intro g hg name h
  obtain ⟨owner, howner, hbinds⟩ := isSome_lookup.mp h
  have hchain : s'.chain g = s.chain g := by rw [chain, chain, outer g hg]
  have hlt : owner < s.frames.size := lt_size_of_binds s owner name hbinds
  exact isSome_lookup.mpr ⟨owner, hchain ▸ howner, kept owner hlt name hbinds⟩

theorem refl (P : FrameId → Prop) (s : Store) : s.Grown P s :=
  .mk' (Nat.le_refl _) (fun _ _ => rfl) (fun _ _ _ h => h) (fun _ _ _ h => .inl h)

theorem fresh (h : s.Grown P s') : s.Grown P s'.fresh.2 :=
  ⟨h.size, h.outer, h.kept, h.added, h.visible⟩

/-- A name may be bound in a frame that may bind more, in a new one, and where it is bound. -/
theorem define (h : s.Grown P s') {g : FrameId} {name : String} (v : Value)
    (hg : P g ∨ s.frames.size ≤ g ∨ s'.binds name g = true) : s.Grown P (s'.define g name v) := by
  have hbinds (k : FrameId) (hk : k < s.frames.size) (other : String) :
      (s'.define g name v).binds other k = true ↔
        g = k ∧ other = name ∨ s'.binds other k = true := by
    have hlt : k < s'.frames.size := Nat.lt_of_lt_of_le hk h.size
    rw [binds, frame_define]
    split
    · simp_all [Frame.binds_insert, binds]
    · simp_all [binds]
  refine .mk' (by rw [size_define]; exact h.size) ?_ ?_ ?_
  · intro k hk
    rw [← h.outer k hk, frame_define]
    split <;> simp
  · intro k hk other hother
    exact (hbinds k hk other).mpr (.inr (h.kept k hk other hother))
  · intro k hk other hother
    rcases (hbinds k hk other).mp hother with ⟨rfl, rfl⟩ | hother
    · rcases hg with hg | hnew | hbound
      · exact .inr hg
      · exact absurd hnew (Nat.not_le_of_lt hk)
      · exact h.added g hk other hbound
    · exact h.added k hk other hother

theorem extend (h : s.Grown P s') (g : FrameId) : s.Grown P (s'.extend g).2 := by
  have hframe (k : FrameId) (hk : k < s.frames.size) :
      (s'.extend g).2.frame k = s'.frame k := by
    rw [frame_extend, if_neg (Nat.ne_of_lt (Nat.lt_of_lt_of_le hk h.size))]
  refine .mk' (by rw [size_extend]; exact Nat.le_succ_of_le h.size) ?_ ?_ ?_
  · intro k hk
    rw [hframe k hk, h.outer k hk]
  · intro k hk name hname
    rw [binds, hframe k hk]
    exact h.kept k hk name hname
  · intro k hk name hname
    rw [binds, hframe k hk] at hname
    exact h.added k hk name hname

end Grown

end Store

namespace Machine

/-- Code runs in the frames that may bind more names and in new ones; functions may have been made
anywhere. -/
def growth (P : FrameId → Prop) (s₀ : Store) : Discipline where
  Scope _ g := P g ∨ s₀.frames.size ≤ g
  Captured _ _ := True
  Sound s := s₀.Grown P s
  scope_mono _ := id
  captured_mono _ := id
  captured_of_scope _ := trivial
  within_of_lookup _ _ _ := fun _ _ => trivial
  sound_fresh h := h.fresh
  sound_define _ := fun h hg _ => h.define _ (hg.imp_right .inl)
  sound_set? h _ _ hset := by
    obtain ⟨owner, -, hbinds, rfl⟩ := Store.define_of_set? hset
    exact h.define _ (.inr (.inr hbinds))
  sound_extend h _ := ⟨.inr h.size, h.extend _⟩

/-- Whatever an evaluation comes to, scopes have only grown: of the frames that were there, none
but the one that it ran in can bind a name that it did not bind before. A call runs in a frame of
its own, and binds new names neither around the function nor where it was made from. -/
theorem grown_runTimed (cfg : Config) (delays : Nat → Nat) (depth : Nat) (world : World) (n : Nat) :
    (∀ e frame, world.store.Grown (· = frame)
      ((start (.eval e frame) depth world).runTimed cfg delays n).world.store) ∧
    ∀ callee args position, world.store.Grown (fun _ => False)
      ((start (.apply callee args position) depth world).runTimed cfg delays n).world.store := by
  have hcontext (P : FrameId → Prop) : Context.Obeys (growth P world.store) ⟨[], depth, world⟩ :=
    ⟨List.forall_mem_nil _, .refl P world.store⟩
  constructor
  · intro e frame
    have hstart : (start (.eval e frame) depth world).Obeys (growth (· = frame) world.store) :=
      ⟨.inl rfl, hcontext _⟩
    exact (hstart.runTimed cfg delays n).sound
  · intro callee args position
    have hstart : (start (.apply callee args position) depth world).Obeys
        (growth (fun _ => False) world.store) :=
      ⟨⟨fun _ _ => trivial, fun _ _ _ _ => trivial⟩, hcontext _⟩
    exact (hstart.runTimed cfg delays n).sound

/-- `let (x = true) x` binds `x` in a frame of its own. -/
example :
    let e : Expr := .scope .start [⟨"x", some (.boolean .start true)⟩] (.var .start "x")
    let m := start (.eval e 0) 0 ⟨⟨#[⟨[], []⟩], 0⟩, .silent, 0⟩
    let after := (m.runTimed .standard (fun i => i) 10).world.store
    after.binds "x" 0 = false ∧ after.binds "x" 1 = true := by
  decide +kernel

end Machine

end ExprLang
