import ExprLang.Proofs.Machine.Identity
import ExprLang.Proofs.Number.Bits

namespace ExprLang

namespace Value

mutual

/-- Loose equality without regard to identity: arrays are equal exactly when their items are. -/
def plainEqual : Value → Value → Bool
  | array _ as, array _ bs => plainEqualAll as bs
  | v, w => v.identical w

def plainEqualAll : List Value → List Value → Bool
  | [], [] => true
  | a :: as, b :: bs => plainEqual a b && plainEqualAll as bs
  | _, _ => false

end

def NoNaN (v : Value) : Prop := ∀ x, (number x).Part v → x.isNaN = false

variable {v w : Value}

theorem NoNaN.item {id : Nat} {items : List Value} (h : (array id items).NoNaN) (hv : v ∈ items) :
    v.NoNaN := fun x hx => h x (.item hv hx)

/-- Induction on two values: either both are arrays, or they are compared as `===` compares them. -/
theorem pair_induction {P : Value → Value → Prop}
    (arrays : ∀ a as b bs, (∀ v ∈ as, ∀ w ∈ bs, P v w) → P (array a as) (array b bs))
    (others : ∀ v w, v.typeName ≠ "array" ∨ w.typeName ≠ "array" → P v w)
    (v w : Value) : P v w := by
  cases v with
  | array a as =>
    cases w with
    | array b bs => exact arrays a as b bs fun v _ w _ => pair_induction arrays others v w
    | _ => exact others _ _ (.inr (by simp [typeName]))
  | _ => exact others _ _ (.inl (by simp [typeName]))

section Others

variable (h : v.typeName ≠ "array" ∨ w.typeName ≠ "array")
include h

theorem equal_of_typeName : v.equal w = v.identical w := by
  cases v <;> cases w <;> first | rfl | simp [typeName] at h

theorem plainEqual_of_typeName : v.plainEqual w = v.identical w := by
  cases v <;> cases w <;> first | rfl | simp [typeName] at h

end Others

theorem isEqv_iff {as bs : List Value} {r : Value → Value → Bool} : as.isEqv bs r = true ↔
    as.length = bs.length ∧
      ∀ i (h : i < as.length) (h' : i < bs.length), r as[i] bs[i] = true := by
  rw [List.isEqv_eq_decide]
  split
  · next hlength =>
    rw [decide_eq_true_iff]
    exact ⟨fun hall => ⟨hlength, fun i h _ => hall i h⟩, fun h i hi => h.2 i hi (hlength ▸ hi)⟩
  · next hlength => exact ⟨fun h => absurd h Bool.false_ne_true, fun h => absurd h.1 hlength⟩

theorem eq_isEqv {r : Value → Value → Bool} {walk : List Value → List Value → Bool}
    (nil : walk [] [] = true) (left : ∀ a as, walk (a :: as) [] = false)
    (right : ∀ b bs, walk [] (b :: bs) = false)
    (cons : ∀ a as b bs, walk (a :: as) (b :: bs) = (r a b && walk as bs)) (as bs : List Value) :
    walk as bs = as.isEqv bs r := by
  induction as generalizing bs with
  | nil =>
    cases bs with
    | nil => exact nil
    | cons b bs => exact right b bs
  | cons a as ih =>
    cases bs with
    | nil => exact left a as
    | cons b bs =>
      rw [cons, ih bs]
      rfl

theorem equalAll_eq_isEqv (as bs : List Value) : equalAll as bs = as.isEqv bs equal :=
  eq_isEqv rfl (fun _ _ => rfl) (fun _ _ => rfl) (fun _ _ _ _ => by rw [equalAll]) as bs

theorem plainEqualAll_eq_isEqv (as bs : List Value) :
    plainEqualAll as bs = as.isEqv bs plainEqual :=
  eq_isEqv rfl (fun _ _ => rfl) (fun _ _ => rfl) (fun _ _ _ _ => by rw [plainEqualAll]) as bs

theorem equal_array {a b : Nat} {as bs : List Value} :
    (array a as).equal (array b bs) = true ↔ a = b ∨ as.length = bs.length ∧
      ∀ i (h : i < as.length) (h' : i < bs.length), as[i].equal bs[i] = true := by
  rw [equal, Bool.or_eq_true, beq_iff_eq, equalAll_eq_isEqv, isEqv_iff]

theorem plainEqual_array {a b : Nat} {as bs : List Value} :
    (array a as).plainEqual (array b bs) = true ↔ as.length = bs.length ∧
      ∀ i (h : i < as.length) (h' : i < bs.length), as[i].plainEqual bs[i] = true := by
  rw [plainEqual, plainEqualAll_eq_isEqv, isEqv_iff]

theorem equal_of_plainEqual (h : v.plainEqual w = true) : v.equal w = true := by
  induction v, w using pair_induction with
  | arrays a as b bs ih =>
    obtain ⟨hlength, hitems⟩ := plainEqual_array.mp h
    refine equal_array.mpr (.inr ⟨hlength, fun i hi hi' => ?_⟩)
    exact ih _ (List.getElem_mem hi) _ (List.getElem_mem hi') (hitems i hi hi')
  | others v w hne =>
    rw [plainEqual_of_typeName hne] at h
    rw [equal_of_typeName hne, h]

theorem NoNaN.of_plainEqual (h : v.plainEqual w = true) : v.NoNaN := by
  induction v, w using pair_induction with
  | arrays a as b bs ih =>
    obtain ⟨hlength, hitems⟩ := plainEqual_array.mp h
    intro x hx
    obtain hx | ⟨u, hu, hx⟩ := part_array hx
    · cases hx
    · obtain ⟨i, hi, rfl⟩ := List.getElem_of_mem hu
      have hi' : i < bs.length := hlength ▸ hi
      exact ih _ hu _ (List.getElem_mem hi') (hitems i hi hi') x hx
  | others v w hne =>
    rw [plainEqual_of_typeName hne] at h
    intro x hx
    cases v with
    | number y =>
      cases part_of_identity? hx rfl
      cases w with
      | number z => exact Number.isNaN_of_beq h
      | _ => cases h
    | array a as =>
      cases w with
      | array b bs => simp [typeName] at hne
      | _ => cases h
    | _ => cases hx

theorem identical_self (h : v.NoNaN) : v.identical v = true := by
  cases v with
  | number x => exact Number.beq_self_of_isNaN (h x .self)
  | _ => exact beq_self_eq_true _

theorem plainEqual_self (h : v.NoNaN) : v.plainEqual v = true := by
  suffices hpair : ∀ v w : Value, v = w → v.NoNaN → v.plainEqual w = true from hpair v v rfl h
  intro v w
  induction v, w using pair_induction with
  | arrays a as b bs ih =>
    intro heq hv
    cases heq
    refine plainEqual_array.mpr ⟨rfl, fun i hi _ => ?_⟩
    have hmem := List.getElem_mem hi
    exact ih _ hmem _ hmem rfl (hv.item hmem)
  | others v w hne =>
    rintro rfl hv
    rw [plainEqual_of_typeName hne, identical_self hv]

/-- Where an identity in two values stands for the same items in both, they are equal by their items
exactly when they are equal and there is no NaN in them. -/
theorem plainEqual_iff
    (hsame : ∀ id as bs, (array id as).Part v → (array id bs).Part w → as = bs) :
    v.plainEqual w = true ↔ v.equal w = true ∧ v.NoNaN := by
  refine ⟨fun h => ⟨equal_of_plainEqual h, .of_plainEqual h⟩, ?_⟩
  rintro ⟨h, hv⟩
  induction v, w using pair_induction with
  | arrays a as b bs ih =>
    rcases equal_array.mp h with rfl | ⟨hlength, hitems⟩
    · cases hsame a as bs .self .self
      exact plainEqual_self hv
    · refine plainEqual_array.mpr ⟨hlength, fun i hi hi' => ?_⟩
      have hleft := List.getElem_mem hi
      have hright := List.getElem_mem hi'
      refine ih _ hleft _ hright ?_ (hitems i hi hi') (hv.item hleft)
      exact fun id xs ys hx hy => hsame id xs ys (.item hleft hx) (.item hright hy)
  | others v w hne =>
    rw [equal_of_typeName hne] at h
    rw [plainEqual_of_typeName hne, h]

end Value

namespace Session

/-- Of two values that have come up in the life of a session, loose equality says what the
comparison by items alone says, unless they are equal and there is a NaN in them. -/
theorem equal_eq_plainEqual_iff {stage : Stage} {past : Value → Prop} (h : Reached stage past)
    {v w : Value} (hv : Known past v) (hw : Known past w) :
    v.equal w = v.plainEqual w ↔ (v.equal w = true → v.NoNaN) := by
  obtain ⟨contents, hcontents⟩ := h.sound.registers_of_known
  have hplain : v.plainEqual w = true ↔ v.equal w = true ∧ v.NoNaN := by
    refine Value.plainEqual_iff fun id as bs has hbs => ?_
    have hleft := (hcontents v hv _ has id rfl).2
    have hright := (hcontents w hw _ hbs id rfl).2
    exact (Value.array.inj (hleft.symm.trans hright)).2
  rw [Bool.eq_iff_iff, hplain]
  constructor
  · exact fun heq htrue => (heq.mp htrue).2
  · exact fun hnan => ⟨fun htrue => ⟨htrue, hnan htrue⟩, And.left⟩

theorem reached_sharing {v : Value} (hv : v.identity? = none) : ∃ stage past, Reached stage past ∧
    Known past (.array 1 [.array 0 [v]]) ∧ Known past (.array 2 [.array 0 [v]]) := by
  have hnew := Reached.new .standard false .silent 0
  have hinner := hnew.move (.array _ (List.forall_mem_singleton.mpr (.inl hv)))
  have hleft := hinner.move
    (.array _ (List.forall_mem_singleton.mpr (given_of_past (.inr (.inl rfl)))))
  have hright := hleft.move
    (.array _ (List.forall_mem_singleton.mpr (given_of_past (.inl (.inr (.inl rfl))))))
  exact ⟨_, _, hright, ⟨_, .inl (.inr (.inl rfl)), .self⟩, ⟨_, .inr (.inl rfl), .self⟩⟩

theorem equal_eq_plainEqual_sharing : ∃ stage past v w, Reached stage past ∧
    Known past v ∧ Known past w ∧ v.equal w = true ∧ v.equal w = v.plainEqual w := by
  obtain ⟨stage, past, hreached, hleft, hright⟩ := reached_sharing (v := .string "a") rfl
  refine ⟨stage, past, _, _, hreached, hleft, hright, by decide, ?_⟩
  refine (equal_eq_plainEqual_iff hreached hleft hright).mpr fun _ => ?_
  exact .of_plainEqual (w := .array 2 [.array 0 [.string "a"]]) (by decide)

/-- Two arrays that hold the same array with a NaN are equal, though their items are not. -/
theorem equal_ne_plainEqual_sharing : ∃ stage past v w, Reached stage past ∧
    Known past v ∧ Known past w ∧ v.equal w = true ∧ v.plainEqual w = false := by
  obtain ⟨stage, past, hreached, hleft, hright⟩ := reached_sharing (v := .number (0 / 0)) rfl
  exact ⟨stage, past, _, _, hreached, hleft, hright, by decide +kernel, by decide +kernel⟩

end Session

end ExprLang
