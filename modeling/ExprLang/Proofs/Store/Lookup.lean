import ExprLang.Proofs.Store.Frames
import Mathlib.Logic.Relation

namespace ExprLang

namespace Store

/-- What can be done to scopes. The frames that it is done to are there. -/
inductive Change : Store → Store → Prop
  | fresh (s : Store) : Change s s.fresh.2
  | newRoot (s : Store) : Change s s.newRoot.2
  | extend {s : Store} {f : FrameId} (hf : f < s.frames.size) : Change s (s.extend f).2
  | define {s : Store} {f : FrameId} (hf : f < s.frames.size) (name : String) (v : Value) :
      Change s (s.define f name v)
  | set {s : Store} {f : FrameId} (hf : f < s.frames.size) (name : String) (v : Value) :
      Change s (s.set f name v).2

/-- Scopes that have come about by any sequence of operations. -/
def Reachable (s : Store) : Prop := Relation.ReflTransGen Change .empty s

/-- The second frame is met on the way from the first one to its root. -/
def Within (s : Store) : FrameId → FrameId → Prop :=
  Relation.ReflTransGen fun g p => s.parent? g = some p

/-- `Meets s P g o`: on the way from `g` to its root, `o` is the first frame that `P` holds of. -/
inductive Meets (s : Store) (P : FrameId → Prop) : FrameId → FrameId → Prop
  | here {g : FrameId} (h : P g) : Meets s P g g
  | outer {g p o : FrameId} (h : ¬ P g) (hparent : s.parent? g = some p) (hmeets : Meets s P p o) :
      Meets s P g o

variable {s s' : Store} {f g o p : FrameId} {x y : String} {v : Value}

section Chain

theorem parent?_eq (s : Store) (g : FrameId) : s.parent? g = (s.chain g).tail.head? := rfl

theorem chain_newRoot (s : Store) (g : FrameId) : s.newRoot.2.chain g = s.chain g := by
  rw [chain, chain, frame_newRoot]

theorem chain_extend (s : Store) (f g : FrameId) : (s.extend f).2.chain g =
    if g = s.frames.size then g :: s.chain f else s.chain g := by
  rw [chain, frame_extend]
  split <;> rfl

theorem set_cases (s : Store) (f : FrameId) (x : String) (v : Value) :
    (s.resolve? f x = none ∧ s.set f x v = (.error (.undefinedVariable x), s)) ∨
    ∃ o, s.resolve? f x = some o ∧ s.set f x v = (.ok v, s.define o x v) := by
  unfold set set?
  cases s.resolve? f x with
  | none => exact .inl ⟨rfl, rfl⟩
  | some o => exact .inr ⟨o, rfl, rfl⟩

theorem chain_set (s : Store) (f g : FrameId) (x : String) (v : Value) :
    (s.set f x v).2.chain g = s.chain g := by
  rcases set_cases s f x v with ⟨-, h⟩ | ⟨o, -, h⟩
  · rw [h]
  · rw [h]
    exact chain_define s o g x v

theorem Change.chain (h : Change s s') (hg : g < s.frames.size) : s'.chain g = s.chain g := by
  cases h with
  | fresh => rfl
  | newRoot => exact chain_newRoot s g
  | extend hf => rw [chain_extend, if_neg (Nat.ne_of_lt hg)]
  | define hf x v => exact chain_define s _ g x v
  | set hf x v => exact chain_set s _ g x v

theorem Change.size (h : Change s s') : s.frames.size ≤ s'.frames.size := by
  cases h with
  | fresh => exact Nat.le_refl _
  | newRoot => simp [Store.newRoot]
  | extend hf => simp
  | define hf x v => simp
  | @set f hf x v =>
    rcases set_cases s f x v with ⟨-, h⟩ | ⟨o, -, h⟩
    · simp [h]
    · simp [h]

theorem chain_of_changes (h : Relation.ReflTransGen Change s s') (hg : g < s.frames.size) :
    s'.chain g = s.chain g := by
  have hsize : s'.chain g = s.chain g ∧ g < s'.frames.size := by
    induction h with
    | refl => exact ⟨rfl, hg⟩
    | tail _ hchange ih =>
      exact ⟨(hchange.chain ih.2).trans ih.1, Nat.lt_of_lt_of_le ih.2 hchange.size⟩
  exact hsize.1

end Chain

/-- A frame is newer than the next one around it, and the others around it are around that one. -/
structure Nested (s : Store) : Prop where
  older : ∀ g p, s.parent? g = some p → p < g
  chain : ∀ g p, s.parent? g = some p → s.chain g = g :: s.chain p

namespace Nested

theorem of_chain (hs : s.Nested) (h : ∀ g, s'.chain g = s.chain g) : s'.Nested := by
  have hparent (g : FrameId) : s'.parent? g = s.parent? g := by rw [parent?_eq, parent?_eq, h]
  refine ⟨fun g p hp => ?_, fun g p hp => ?_⟩
  · exact hs.older g p (hparent g ▸ hp)
  · rw [h, h, hs.chain g p (hparent g ▸ hp)]

theorem extend (hs : s.Nested) (hf : f < s.frames.size) : (s.extend f).2.Nested := by
  have hold {p : FrameId} (hp : p < s.frames.size) : (s.extend f).2.chain p = s.chain p := by
    rw [chain_extend, if_neg (Nat.ne_of_lt hp)]
  have hcases {g p : FrameId} (h : (s.extend f).2.parent? g = some p) :
      g = s.frames.size ∧ p = f ∨ g < s.frames.size ∧ s.parent? g = some p := by
    rw [parent?_eq, chain_extend] at h
    split at h
    · next hg => exact .inl ⟨hg, (Option.some.inj h).symm⟩
    · refine .inr ⟨Nat.lt_of_not_le fun hg => ?_, h⟩
      rw [← parent?_eq, parent?, frame_of_size_le s g hg] at h
      cases h
  refine ⟨fun g p h => ?_, fun g p h => ?_⟩
  · rcases hcases h with ⟨rfl, rfl⟩ | ⟨-, h⟩
    · exact hf
    · exact hs.older g p h
  · rcases hcases h with ⟨rfl, rfl⟩ | ⟨hg, h⟩
    · rw [hold hf, chain_extend, if_pos rfl]
    · rw [hold hg, hold (Nat.lt_trans (hs.older g p h) hg), hs.chain g p h]

theorem of_change (hs : s.Nested) (h : Change s s') : s'.Nested := by
  cases h with
  | fresh => exact hs.of_chain fun _ => rfl
  | newRoot => exact hs.of_chain (chain_newRoot s)
  | extend hf => exact hs.extend hf
  | define hf x v => exact hs.of_chain fun g => chain_define s _ g x v
  | set hf x v => exact hs.of_chain fun g => chain_set s _ g x v

theorem of_reachable (h : s.Reachable) : s.Nested := by
  induction h with
  | refl => exact ⟨nofun, nofun⟩
  | tail _ hchange ih => exact ih.of_change hchange

theorem induction (hs : s.Nested) {motive : FrameId → Prop}
    (root : ∀ g, s.chain g = [g] → motive g)
    (inner : ∀ g p, s.parent? g = some p → s.chain g = g :: s.chain p → motive p → motive g)
    (g : FrameId) : motive g := by
  induction g using Nat.strongRecOn with
  | ind g ih =>
    cases hparent : s.parent? g with
    | none => exact root g (congrArg _ (List.head?_eq_none_iff.mp hparent))
    | some p => exact inner g p hparent (hs.chain g p hparent) (ih p (hs.older g p hparent))

theorem within_iff (hs : s.Nested) : s.Within f g ↔ g ∈ s.chain f := by
  constructor
  · intro h
    induction h using Relation.ReflTransGen.head_induction_on with
    | refl => exact List.mem_cons_self
    | head hparent _ ih =>
      rw [hs.chain _ _ hparent]
      exact List.mem_cons_of_mem _ ih
  · intro h
    induction f using hs.induction with
    | root f hchain =>
      rw [hchain, List.mem_singleton] at h
      rw [h]
      exact .refl
    | inner f p hparent hchain ih =>
      rw [hchain, List.mem_cons] at h
      rcases h with rfl | h
      · exact .refl
      · exact .head hparent (ih h)

theorem meets_iff (hs : s.Nested) (q : FrameId → Bool) :
    s.Meets (q · = true) g o ↔ (s.chain g).find? q = some o := by
  constructor
  · intro h
    induction h with
    | here hq => exact List.find?_cons_of_pos hq
    | outer hq hparent _ ih => rwa [hs.chain _ _ hparent, List.find?_cons_of_neg hq]
  · intro h
    induction g using hs.induction with
    | root g hchain =>
      rw [hchain, List.find?_singleton] at h
      split at h
      · next hq =>
        cases h
        exact .here hq
      · cases h
    | inner g p hparent hchain ih =>
      by_cases hq : q g = true
      · rw [hchain, List.find?_cons_of_pos hq] at h
        cases h
        exact .here hq
      · rw [hchain, List.find?_cons_of_neg hq] at h
        exact .outer hq hparent (ih h)

end Nested

section Lookup

theorem binds_define (hf : f < s.frames.size) (x y : String) (v : Value) (g : FrameId) :
    (s.define f x v).binds y g = (y == x && g == f || s.binds y g) := by
  rw [binds, frame_define]
  by_cases hg : f = g
  · subst hg
    rw [if_pos ⟨rfl, hf⟩, Frame.binds_insert, beq_self_eq_true, Bool.and_true]
    rfl
  · have hne : (g == f) = false := beq_false_of_ne (Ne.symm hg)
    rw [if_neg fun h => hg h.1, hne, Bool.and_false, Bool.false_or]
    rfl

theorem binds_define_self (hf : f < s.frames.size) (x : String) (v : Value) :
    (s.define f x v).binds x = fun k => k == f || s.binds x k := by
  funext k
  rw [binds_define hf, beq_self_eq_true, Bool.true_and]

theorem find?_define (s : Store) (f : FrameId) (x : String) (v : Value) (h : y ≠ x ∨ g ≠ f) :
    ((s.define f x v).frame g).find? y = (s.frame g).find? y := by
  rw [frame_define]
  split
  · next hg =>
    exact Frame.find?_insert_of_ne _ v (h.resolve_right fun hne => hne hg.1.symm)
  · rfl

theorem lookup_define_of_find? (hf : f < s.frames.size) (v : Value)
    (h : (s.chain g).find? (fun k => k == f || s.binds x k) = some f) :
    (s.define f x v).lookup g x = some v := by
  rw [lookup, resolve?, chain_define, binds_define_self hf, h, Option.bind_some, frame_define,
    if_pos ⟨rfl, hf⟩, Frame.find?_insert_self]

theorem find?_eq_of_ne {q : FrameId → Bool} {l : List FrameId}
    (h : l.find? (fun k => k == f || q k) ≠ some f) :
    l.find? (fun k => k == f || q k) = l.find? q := by
  induction l with
  | nil => rfl
  | cons k l ih =>
    by_cases hk : k = f
    · rw [List.find?_cons_of_pos (by simp [hk]), hk] at h
      exact absurd rfl h
    · have hne : (k == f) = false := beq_false_of_ne hk
      rw [List.find?_cons, hne, Bool.false_or] at h ⊢
      rw [List.find?_cons]
      cases hq : q k with
      | true => rfl
      | false =>
        rw [hq] at h
        exact ih h

theorem lookup_define_of_ne (hf : f < s.frames.size) (v : Value)
    (h : y = x → (s.chain g).find? (fun k => k == f || s.binds x k) ≠ some f) :
    (s.define f x v).lookup g y = s.lookup g y := by
  rw [lookup, lookup, resolve?, resolve?, chain_define]
  by_cases hy : y = x
  · subst hy
    have hfind := find?_eq_of_ne (h rfl)
    rw [binds_define_self hf, hfind]
    cases howner : (s.chain g).find? (s.binds y) with
    | none => rfl
    | some o =>
      have hne : o ≠ f := by
        rintro rfl
        exact h rfl (hfind.trans howner)
      exact find?_define s f y v (.inr hne)
  · have hbinds : (s.define f x v).binds y = s.binds y := by
      funext k
      rw [binds_define hf, beq_false_of_ne hy, Bool.false_and, Bool.false_or]
    have hfind : (fun o => ((s.define f x v).frame o).find? y) = fun o => (s.frame o).find? y := by
      funext o
      exact find?_define s f x v (.inl hy)
    rw [hbinds, hfind]

theorem eq_or_binds (h : s.binds x o = true) : (fun k => k == o || s.binds x k) = s.binds x := by
  funext k
  by_cases hk : k = o
  · rw [hk, h, Bool.or_true]
  · rw [beq_false_of_ne hk, Bool.false_or]

theorem binds_set (s : Store) (f : FrameId) (x : String) (v : Value) (y : String) (g : FrameId) :
    (s.set f x v).2.binds y g = s.binds y g := by
  rcases set_cases s f x v with ⟨-, h⟩ | ⟨o, howner, h⟩
  · rw [h]
  · have hbinds : s.binds x o = true := (resolve?_spec howner).2
    rw [h, binds_define (lt_size_of_binds s o x hbinds)]
    cases hy : y == x && g == o with
    | false => rw [Bool.false_or]
    | true =>
      rw [Bool.and_eq_true, beq_iff_eq, beq_iff_eq] at hy
      rw [hy.1, hy.2, hbinds, Bool.or_true]

/-- Looking up a name depends on the way to the root and the bindings there. -/
theorem lookup_eq_of_bindings (hchain : s'.chain g = s.chain g)
    (hbindings : ∀ k, (s'.frame k).bindings = (s.frame k).bindings) (y : String) :
    s'.lookup g y = s.lookup g y := by
  have hfind (k : FrameId) : (s'.frame k).find? y = (s.frame k).find? y := by
    rw [Frame.find?, hbindings k]
    rfl
  have hbinds : s'.binds y = s.binds y := by
    funext k
    rw [binds, Frame.binds, hfind]
    rfl
  simp only [lookup, resolve?, hchain, hbinds, hfind]

theorem lookup_extend (s : Store) (f : FrameId) (hg : g < s.frames.size) (y : String) :
    (s.extend f).2.lookup g y = s.lookup g y := by
  refine lookup_eq_of_bindings ?_ (fun k => ?_) y
  · rw [chain_extend, if_neg (Nat.ne_of_lt hg)]
  · rw [frame_extend]
    split
    · next hk => rw [frame_of_size_le s k (Nat.le_of_eq hk.symm)]
    · rfl

theorem lookup_newRoot (s : Store) (g : FrameId) (y : String) :
    s.newRoot.2.lookup g y = s.lookup g y :=
  lookup_eq_of_bindings (chain_newRoot s g) (fun k => by rw [frame_newRoot]) y

end Lookup

/-- In both frames a name is that of the same frame. -/
def Shares (s : Store) (x : String) (g f : FrameId) : Prop :=
  ∃ o, s.Meets (s.binds x · = true) g o ∧ s.Meets (s.binds x · = true) f o

/-- The laws of scopes. Setting a name that no frame around binds is an error and changes nothing.
Otherwise it gives the value back and leaves the names of all frames as they are; those that share
the name see the value, and nothing else changes. Defining a name is seen where the frame is met
before another one that binds the name. A new frame changes nothing for the others, and is one
deeper than the frame it is in; how deep a frame is never changes. -/
theorem scope_laws {s : Store} (hs : s.Reachable) {f g : FrameId} (hf : f < s.frames.size)
    (hg : g < s.frames.size) (x y : String) (v : Value) :
    ((∀ h, s.Within f h → s.binds x h = false) →
      s.set f x v = (.error (.undefinedVariable x), s)) ∧
    ((∃ h, s.Within f h ∧ s.binds x h = true) →
      (s.set f x v).1 = .ok v ∧
      (∀ name h, (s.set f x v).2.binds name h = s.binds name h) ∧
      (y = x ∧ s.Shares x g f → (s.set f x v).2.lookup g y = some v) ∧
      (¬ (y = x ∧ s.Shares x g f) → (s.set f x v).2.lookup g y = s.lookup g y)) ∧
    (y = x ∧ s.Meets (fun h => h = f ∨ s.binds x h = true) g f →
      (s.define f x v).lookup g y = some v) ∧
    (¬ (y = x ∧ s.Meets (fun h => h = f ∨ s.binds x h = true) g f) →
      (s.define f x v).lookup g y = s.lookup g y) ∧
    (s.extend f).2.lookup g y = s.lookup g y ∧
    s.newRoot.2.lookup g y = s.lookup g y ∧
    (s.extend f).2.depth (s.extend f).1 = s.depth f + 1 ∧
    ∀ s', Relation.ReflTransGen Change s s' → s'.depth f = s.depth f := by
  have hs := Nested.of_reachable hs
  have hmeets : s.Meets (fun h => h = f ∨ s.binds x h = true) g f ↔
      (s.chain g).find? (fun k => k == f || s.binds x k) = some f := by
    rw [← hs.meets_iff]
    simp only [Bool.or_eq_true, beq_iff_eq]
  refine ⟨fun hnone => ?_, fun hsome => ?_, fun ⟨hy, hfirst⟩ => ?_, fun hnot => ?_,
    lookup_extend s f hg y, lookup_newRoot s g y, ?_, fun s' hchanges => ?_⟩
  · rcases set_cases s f x v with ⟨-, hset⟩ | ⟨o, howner, -⟩
    · exact hset
    · obtain ⟨hmem, hbinds⟩ := resolve?_spec howner
      rw [hnone o (hs.within_iff.mpr hmem)] at hbinds
      cases hbinds
  · obtain ⟨h, hwithin, hbound⟩ := hsome
    have hisSome : (s.resolve? f x).isSome = true :=
      isSome_resolve?.mpr ⟨h, hs.within_iff.mp hwithin, hbound⟩
    rcases set_cases s f x v with ⟨hnone, -⟩ | ⟨o, howner, hset⟩
    · rw [hnone] at hisSome
      cases hisSome
    have hbinds : s.binds x o = true := (resolve?_spec howner).2
    have ho : o < s.frames.size := lt_size_of_binds s o x hbinds
    have hshares : s.Shares x g f ↔ (s.chain g).find? (s.binds x) = some o := by
      simp only [Shares, hs.meets_iff]
      exact ⟨fun ⟨_, hg, hf⟩ => hg.trans (hf.symm.trans howner), fun h => ⟨o, h, howner⟩⟩
    rw [hshares, ← eq_or_binds hbinds]
    refine ⟨by rw [hset], binds_set s f x v, fun ⟨hy, hfirst⟩ => ?_, fun hnot => ?_⟩
    · rw [hset, hy]
      exact lookup_define_of_find? ho v hfirst
    · rw [hset]
      exact lookup_define_of_ne ho v fun hy hfirst => hnot ⟨hy, hfirst⟩
  · rw [hy]
    exact lookup_define_of_find? hf v (hmeets.mp hfirst)
  · exact lookup_define_of_ne hf v fun hy hfirst => hnot ⟨hy, hmeets.mpr hfirst⟩
  · rw [depth, depth, chain_extend]
    exact congrArg List.length (if_pos rfl)
  · rw [depth, depth, chain_of_changes hchanges hf]

/-- Two frames in one that binds a name, which the second one binds anew. -/
def siblings : Store :=
  (((Store.empty.newRoot.2.extend 0).2.extend 0).2.define 0 "x" (.string "a")).define 2 "x"
    (.string "b")

theorem reachable_siblings : siblings.Reachable := by
  have hroot : Reachable Store.empty.newRoot.2 := .tail .refl (.newRoot _)
  have hframes := (hroot.tail (.extend (f := 0) (by decide))).tail (.extend (f := 0) (by decide))
  exact (hframes.tail (.define (f := 0) (by decide) _ _)).tail (.define (f := 2) (by decide) _ _)

/-- A name that is set in the first of two frames changes around both of them, but not in the second
one, which has its own. -/
theorem scope_laws_siblings :
    siblings.set 1 "y" (.string "c") = (.error (.undefinedVariable "y"), siblings) ∧
    (siblings.set 1 "x" (.string "c")).2.lookup 0 "x" = some (.string "c") ∧
    (siblings.set 1 "x" (.string "c")).2.lookup 2 "x" = siblings.lookup 2 "x" ∧
    (siblings.define 0 "x" (.string "c")).lookup 1 "x" = some (.string "c") ∧
    (siblings.define 0 "x" (.string "c")).lookup 2 "x" = siblings.lookup 2 "x" := by
  have hs := Nested.of_reachable reachable_siblings
  have hlaws (f g : FrameId) (hf : f < 3) (hg : g < 3) (x : String) :=
    scope_laws reachable_siblings (f := f) (g := g) hf hg x x (.string "c")
  have hroot : siblings.Meets (siblings.binds "x" · = true) 0 0 := .here rfl
  have hfirst : siblings.Meets (siblings.binds "x" · = true) 1 0 := .outer (by decide) rfl hroot
  have hbound : ∃ h, siblings.Within 1 h ∧ siblings.binds "x" h = true :=
    ⟨0, hs.within_iff.mpr (by decide), rfl⟩
  refine ⟨?_, ?_, ?_, ?_, ?_⟩
  · refine (hlaws 1 0 (by decide) (by decide) "y").1 fun h hwithin => ?_
    have hall : ∀ h ∈ siblings.chain 1, siblings.binds "y" h = false := by decide
    exact hall h (hs.within_iff.mp hwithin)
  · exact ((hlaws 1 0 (by decide) (by decide) "x").2.1 hbound).2.2.1 ⟨rfl, 0, hroot, hfirst⟩
  · refine ((hlaws 1 2 (by decide) (by decide) "x").2.1 hbound).2.2.2 ?_
    rintro ⟨-, o, hsecond, hfirst⟩
    have hown : (siblings.chain 2).find? (siblings.binds "x") = some 2 := by decide
    have houter : (siblings.chain 1).find? (siblings.binds "x") = some 0 := by decide
    cases hown.symm.trans ((hs.meets_iff _).mp hsecond)
    cases houter.symm.trans ((hs.meets_iff _).mp hfirst)
  · exact (hlaws 0 1 (by decide) (by decide) "x").2.2.1
      ⟨rfl, .outer (by decide) rfl (.here (.inl rfl))⟩
  · refine (hlaws 0 2 (by decide) (by decide) "x").2.2.2.1 ?_
    rintro ⟨-, hmeets⟩
    cases hmeets with
    | outer hnot _ _ => exact hnot (.inr rfl)

end Store

end ExprLang
