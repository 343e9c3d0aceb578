import ExprLang.Store

namespace ExprLang

namespace Frame

variable (f : Frame) (name other : String) (v : Value)

theorem binds_insert : (f.insert name v).binds other = (other == name || f.binds other) := by
  unfold binds
  by_cases h : other = name
  · simp [h, find?_insert_self]
  · simp [h, find?_insert_of_ne]

theorem mem_replace {b : String × Value} {bs : List (String × Value)}
    (h : b ∈ replace name v bs) : b.2 = v ∨ b ∈ bs := by
  induction bs with
  | nil => exact .inr h
  | cons c bs ih =>
    rw [replace] at h
    split at h
    · rcases List.mem_cons.mp h with rfl | h
      · exact .inl rfl
      · exact .inr (List.mem_cons_of_mem _ h)
    · rcases List.mem_cons.mp h with rfl | h
      · exact .inr List.mem_cons_self
      · exact (ih h).imp_right (List.mem_cons_of_mem _)

theorem mem_insert {b : String × Value} (h : b ∈ (f.insert name v).bindings) :
    b.2 = v ∨ b ∈ f.bindings := by
  unfold insert at h
  split at h
  · exact mem_replace name v h
  · rcases List.mem_cons.mp h with rfl | h
    · exact .inl rfl
    · exact .inr h

theorem mem_of_find? {v : Value} (h : f.find? name = some v) : (name, v) ∈ f.bindings := by
  obtain ⟨_, _, heq, _⟩ := List.lookup_eq_some_iff.mp h
  simp [heq]

end Frame

namespace Store

variable (s : Store) (id g : FrameId) (name : String) (v : Value)

@[simp] theorem size_define : (s.define id name v).frames.size = s.frames.size :=
  Array.size_modify

@[simp] theorem size_extend : (s.extend id).2.frames.size = s.frames.size + 1 :=
  Array.size_push _

@[simp] theorem size_newRoot : s.newRoot.2.frames.size = s.frames.size + 1 :=
  Array.size_push _

theorem extend_lt : (s.extend id).1 < (s.extend id).2.frames.size := by
  rw [size_extend]
  exact Nat.lt_succ_self _

theorem newRoot_lt : s.newRoot.1 < s.newRoot.2.frames.size := by
  rw [size_newRoot]
  exact Nat.lt_succ_self _

theorem frame_of_size_le (h : s.frames.size ≤ g) : s.frame g = ⟨[], []⟩ := by
  rw [frame, Array.getElem?_eq_none h]
  rfl

theorem lt_size_of_binds (h : s.binds name g = true) : g < s.frames.size := by
  refine Nat.lt_of_not_le fun hg => ?_
  rw [binds, frame_of_size_le s g hg] at h
  cases h

theorem frame_define : (s.define id name v).frame g =
    if id = g ∧ g < s.frames.size then (s.frame g).insert name v else s.frame g := by
  unfold define frame
  rw [Array.getElem?_modify]
  by_cases hg : g < s.frames.size
  · by_cases hid : id = g
    · simp [hg, hid]
    · simp [hid]
  · simp [hg]

theorem chain_define : (s.define id name v).chain g = s.chain g := by
  rw [chain, chain, frame_define]
  split
  · rw [Frame.outer_insert]
  · rfl

theorem frame_extend : (s.extend id).2.frame g =
    if g = s.frames.size then ⟨s.chain id, []⟩ else s.frame g := by
  unfold extend frame
  rw [Array.getElem?_push]
  split <;> rfl

theorem frame_newRoot : s.newRoot.2.frame g = s.frame g := by
  unfold newRoot frame
  rw [Array.getElem?_push]
  split
  · next hg => rw [hg, Array.getElem?_eq_none (Nat.le_refl _)]; rfl
  · rfl

variable {s id g name v}

theorem resolve?_spec (h : s.resolve? id name = some g) : g ∈ s.chain id ∧ s.binds name g = true :=
  ⟨List.mem_of_find?_eq_some h, List.find?_some h⟩

theorem define_of_set? {s' : Store} (h : s.set? id name v = some s') :
    ∃ g ∈ s.chain id, s.binds name g = true ∧ s' = s.define g name v := by
  rw [set?] at h
  cases howner : s.resolve? id name with
  | none =>
    rw [howner] at h
    cases h
  | some owner =>
    rw [howner] at h
    obtain ⟨hmem, hbinds⟩ := resolve?_spec howner
    exact ⟨owner, hmem, hbinds, (Option.some.inj h).symm⟩

theorem isSome_resolve? : (s.resolve? id name).isSome = true ↔
    ∃ g ∈ s.chain id, s.binds name g = true := by
  rw [resolve?, List.find?_isSome]

theorem isSome_lookup : (s.lookup id name).isSome = true ↔
    ∃ g ∈ s.chain id, s.binds name g = true := by
  rw [← isSome_resolve?, lookup]
  cases h : s.resolve? id name with
  | none => rfl
  | some owner =>
    have hbinds : ((s.frame owner).find? name).isSome = true := (resolve?_spec h).2
    simpa using hbinds

theorem binds_define_of_binds (v : Value) (h : s.binds name id = true) :
    (s.define id name v).binds name = s.binds name := by
  funext g
  rw [binds, frame_define]
  split
  · next hg =>
    obtain ⟨rfl, -⟩ := hg
    rw [h, Frame.binds_insert, beq_self_eq_true, Bool.true_or]
  · rfl

theorem lookup_of_find? (h : (s.frame id).find? name = some v) : s.lookup id name = some v := by
  have hbinds : s.binds name id = true := Option.isSome_iff_exists.mpr ⟨v, h⟩
  rw [lookup, resolve?, chain, List.find?_cons_of_pos hbinds]
  exact h

theorem lookup_define_self (name : String) (v : Value) (h : id < s.frames.size) :
    (s.define id name v).lookup id name = some v := by
  apply lookup_of_find?
  rw [frame_define, if_pos ⟨rfl, h⟩, Frame.find?_insert_self]

theorem lookup_of_set? {s' : Store} (h : s.set? id name v = some s') :
    s'.lookup id name = some v := by
  rw [set?] at h
  cases howner : s.resolve? id name with
  | none =>
    rw [howner] at h
    cases h
  | some owner =>
    rw [howner] at h
    cases h
    have hbound : s.binds name owner = true := (resolve?_spec howner).2
    have hlt : owner < s.frames.size := lt_size_of_binds s owner name hbound
    have hresolve : (s.define owner name v).resolve? id name = some owner := by
      rw [resolve?, binds_define_of_binds v hbound, chain_define]
      exact howner
    rw [lookup, hresolve]
    change ((s.define owner name v).frame owner).find? name = some v
    rw [frame_define, if_pos ⟨rfl, hlt⟩, Frame.find?_insert_self]

theorem find?_defineAll {bs : List (String × Value)} (h : id < s.frames.size) :
    ((s.defineAll id bs).frame id).find? name =
      (bs.reverse.lookup name).or ((s.frame id).find? name) := by
  induction bs generalizing s with
  | nil => rfl
  | cons b bs ih =>
    obtain ⟨other, w⟩ := b
    have hsize : id < (s.define id other w).frames.size := by rwa [size_define]
    rw [defineAll, ih hsize, frame_define, if_pos ⟨rfl, h⟩, List.reverse_cons, List.lookup_append,
      Option.or_assoc]
    congr 1
    by_cases hname : name = other
    · rw [hname, Frame.find?_insert_self]
      simp
    · have hne : (name == other) = false := by simpa using hname
      rw [Frame.find?_insert_of_ne _ w hname]
      simp [List.lookup_cons, hne]

@[simp] theorem size_defineAll (s : Store) (id : FrameId) (bs : List (String × Value)) :
    (s.defineAll id bs).frames.size = s.frames.size := by
  induction bs generalizing s with
  | nil => rfl
  | cons b bs ih => rw [defineAll, ih, size_define]

theorem frame_defineAll_of_ne (s : Store) (bs : List (String × Value)) (h : id ≠ g) :
    (s.defineAll id bs).frame g = s.frame g := by
  induction bs generalizing s with
  | nil => rfl
  | cons b bs ih => rw [defineAll, ih, frame_define, if_neg fun heq => h heq.1]

/-- All frames stay as they are, and there may be more. -/
structure Keeps (s s' : Store) : Prop where
  size : s.frames.size ≤ s'.frames.size
  frame : ∀ g < s.frames.size, s'.frame g = s.frame g

namespace Keeps

theorem refl (s : Store) : s.Keeps s := ⟨Nat.le_refl _, fun _ _ => rfl⟩

theorem trans {s s' s'' : Store} (h : s.Keeps s') (h' : s'.Keeps s'') : s.Keeps s'' :=
  ⟨Nat.le_trans h.size h'.size, fun g hg =>
    (h'.frame g (Nat.lt_of_lt_of_le hg h.size)).trans (h.frame g hg)⟩

theorem find? {s s' : Store} (h : s.Keeps s') (hfind : (s.frame id).find? name = some v) :
    (s'.frame id).find? name = some v := by
  have hbinds : s.binds name id = true := Option.isSome_iff_exists.mpr ⟨v, hfind⟩
  rw [h.frame id (lt_size_of_binds s id name hbinds), hfind]

end Keeps

/-- Frames and identities are given out, and never taken back. -/
structure Extends (s s' : Store) : Prop where
  size : s.frames.size ≤ s'.frames.size
  nextId : s.nextId ≤ s'.nextId

namespace Extends

variable {s s' : Store}

theorem refl (s : Store) : s.Extends s := ⟨Nat.le_refl _, Nat.le_refl _⟩

theorem trans {s'' : Store} (h : s.Extends s') (h' : s'.Extends s'') : s.Extends s'' :=
  ⟨Nat.le_trans h.size h'.size, Nat.le_trans h.nextId h'.nextId⟩

theorem fresh (s : Store) : s.Extends s.fresh.2 := ⟨Nat.le_refl _, Nat.le_succ _⟩

theorem define (s : Store) (g : FrameId) (name : String) (v : Value) :
    s.Extends (s.define g name v) :=
  ⟨Nat.le_of_eq (size_define ..).symm, Nat.le_refl _⟩

theorem defineAll (s : Store) (g : FrameId) (bs : List (String × Value)) :
    s.Extends (s.defineAll g bs) := by
  induction bs generalizing s with
  | nil => exact refl s
  | cons b bs ih => exact (define s g b.1 b.2).trans (ih _)

theorem set? {g : FrameId} {name : String} {v : Value} (h : s.set? g name v = some s') :
    s.Extends s' := by
  obtain ⟨owner, -, -, rfl⟩ := define_of_set? h
  exact define s owner name v

theorem extend (s : Store) (g : FrameId) : s.Extends (s.extend g).2 :=
  ⟨Nat.le_of_lt (by rw [size_extend]; exact Nat.lt_succ_self _), Nat.le_refl _⟩

end Extends

end Store

end ExprLang
