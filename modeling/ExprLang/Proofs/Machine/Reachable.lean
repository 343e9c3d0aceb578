import ExprLang.Proofs.Machine.Custody
import ExprLang.Proofs.Machine.Discipline
import ExprLang.Proofs.Store.Lookup

namespace ExprLang

/-- Scopes that have come about by operations on scopes, with functions that were made in frames
that are there. -/
structure Store.Settled (s : Store) : Prop where
  reachable : s.Reachable
  captured : ∀ v, s.Holds v → v.Within (· < s.frames.size)

namespace Store.Settled

variable {s s' : Store} {g : FrameId} {v : Value}

theorem fresh (h : s.Settled) : s.fresh.2.Settled := ⟨h.reachable.tail (.fresh s), h.captured⟩

theorem define (h : s.Settled) (hg : g < s.frames.size) (name : String)
    (hv : v.Within (· < s.frames.size)) : (s.define g name v).Settled := by
  refine ⟨h.reachable.tail (.define hg name v), fun w hw => ?_⟩
  rw [size_define]
  rcases holds_of_define hw with rfl | hw
  · exact hv
  · exact h.captured w hw

theorem set? (h : s.Settled) {name : String} (hv : v.Within (· < s.frames.size))
    (hset : s.set? g name v = some s') : s'.Settled := by
  obtain ⟨owner, -, hbinds, rfl⟩ := define_of_set? hset
  exact h.define (lt_size_of_binds s owner name hbinds) name hv

theorem extend (h : s.Settled) (hg : g < s.frames.size) : (s.extend g).2.Settled := by
  refine ⟨h.reachable.tail (.extend hg), fun w hw => ?_⟩
  rw [size_extend]
  exact (h.captured w (holds_of_extend hw)).imp fun k hk => Nat.lt_succ_of_lt hk

end Store.Settled

namespace Machine

/-- Code runs, and functions are made, in frames that are there. -/
def settlement : Discipline where
  Scope s g := g < s.frames.size
  Captured s g := g < s.frames.size
  Sound := Store.Settled
  scope_mono hs hg := Nat.lt_of_lt_of_le hg hs.size
  captured_mono hs hg := Nat.lt_of_lt_of_le hg hs.size
  captured_of_scope hg := hg
  within_of_lookup h _ hlookup := h.captured _ (Store.holds_of_lookup hlookup)
  sound_fresh h := h.fresh
  sound_define name := fun h hg hv => h.define hg name hv
  sound_set? h _ hv hset := h.set? hv hset
  sound_extend h hg := ⟨Store.extend_lt .., h.extend hg⟩

/-- An evaluation leaves scopes that have come about by operations on scopes, whatever it comes to.
So does a call, if the functions among, or inside, its callee and its arguments were made in frames
that are there. -/
theorem settled_runTimed (cfg : Config) (delays : Nat → Nat) (depth : Nat) {world : World}
    (h : world.store.Settled) (n : Nat) :
    (∀ e, ∀ frame < world.store.frames.size,
      ((start (.eval e frame) depth world).runTimed cfg delays n).world.store.Settled) ∧
    ∀ callee args position, (∀ v ∈ callee :: args, v.Within (· < world.store.frames.size)) →
      ((start (.apply callee args position) depth world).runTimed cfg delays n).world.store.Settled
    := by
  have hcontext : Context.Obeys settlement ⟨[], depth, world⟩ := ⟨List.forall_mem_nil _, h⟩
  constructor
  · intro e frame hframe
    have hstart : (start (.eval e frame) depth world).Obeys settlement := ⟨hframe, hcontext⟩
    exact (hstart.runTimed cfg delays n).sound
  · intro callee args position hvalues
    have hstart : (start (.apply callee args position) depth world).Obeys settlement :=
      ⟨List.forall_mem_cons.mp hvalues, hcontext⟩
    exact (hstart.runTimed cfg delays n).sound

end Machine

/-- The scopes of a new session have come about by operations on scopes. -/
theorem Session.settled_new (cfg : Config) (prelude : Bool) (output : Output) (now : Nat) :
    (new cfg prelude ⟨.empty, output, now⟩).world.store.Settled := by
  have hroot : Store.empty.newRoot.2.Settled := by
    refine ⟨.tail .refl (.newRoot _), ?_⟩
    rintro v ⟨g, b, hb, -⟩
    rw [Store.frame_newRoot] at hb
    cases hb
  apply Discipline.sound_defineAll (D := Machine.settlement) hroot (Store.newRoot_lt .empty)
  intro b hb
  cases prelude with
  | false => cases hb
  | true =>
    obtain ⟨builtin, -, rfl⟩ := List.mem_map.mp hb
    exact List.forall_mem_nil _

end ExprLang
