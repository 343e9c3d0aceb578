import ExprLang.Proofs.Value.Equality

namespace ExprLang

namespace Value

variable {u v w : Value}

theorem typeName_of_identical (h : v.identical w = true) : v.typeName = w.typeName := by
  cases v <;> cases w <;> first | rfl | cases h

theorem identical_symm (h : v.identical w = true) : w.identical v = true := by
  cases v <;> cases w <;> first | cases h | skip
  case number.number => exact Number.beq_symm h
  all_goals exact beq_iff_eq.mpr (beq_iff_eq.mp h).symm

theorem identical_trans (huv : u.identical v = true) (hvw : v.identical w = true) :
    u.identical w = true := by
  cases u <;> cases v <;> first | cases huv | skip
  all_goals cases w <;> first | cases hvw | skip
  case number.number.number => exact Number.beq_trans huv hvw
  all_goals exact beq_iff_eq.mpr ((beq_iff_eq.mp huv).trans (beq_iff_eq.mp hvw))

theorem identical_self_iff : v.identical v = true ↔ ∀ x, v = .number x → x.isNaN = false := by
  cases v with
  | number x =>
    refine ⟨?_, fun h => Number.beq_self_of_isNaN (h x rfl)⟩
    rintro h _ ⟨⟩
    exact Number.isNaN_of_beq h
  | _ => exact iff_of_true (beq_self_eq_true _) (by rintro x ⟨⟩)

theorem typeName_of_equal (h : v.equal w = true) : v.typeName = w.typeName := by
  by_cases hne : v.typeName ≠ "array" ∨ w.typeName ≠ "array"
  · rw [equal_of_typeName hne] at h
    exact typeName_of_identical h
  · obtain ⟨hv, hw⟩ := not_or.mp hne
    exact (not_not.mp hv).trans (not_not.mp hw).symm

theorem equal_of_identical (h : v.identical w = true) : v.equal w = true := by
  induction v, w using pair_induction with
  | arrays a as b bs => exact equal_array.mpr (.inl (beq_iff_eq.mp h))
  | others v w hne => rw [equal_of_typeName hne, h]

theorem equal_symm (h : v.equal w = true) : w.equal v = true := by
  induction v, w using pair_induction with
  | arrays a as b bs ih =>
    rcases equal_array.mp h with heq | ⟨hlength, hitems⟩
    · exact equal_array.mpr (.inl heq.symm)
    · refine equal_array.mpr (.inr ⟨hlength.symm, fun i hi hi' => ?_⟩)
      exact ih _ (List.getElem_mem hi') _ (List.getElem_mem hi) (hitems i hi' hi)
  | others v w hne =>
    rw [equal_of_typeName hne] at h
    rw [equal_of_typeName hne.symm, identical_symm h]

theorem equal_self_iff : v.equal v = true ↔ ∀ x, v = .number x → x.isNaN = false := by
  by_cases hne : v.typeName = "array"
  · obtain ⟨id, items, rfl⟩ : ∃ id items, v = .array id items := by
      cases v <;> first | exact ⟨_, _, rfl⟩ | simp [typeName] at hne
    exact iff_of_true (equal_array.mpr (.inl rfl)) (by rintro x ⟨⟩)
  · rw [equal_of_typeName (.inl hne)]
    exact identical_self_iff

end Value

namespace Session
open Value

/-- Where an identity stands for one content, loose equality is transitive. Identical arrays have
the same items, so they are one value, and else the items are compared one by one. -/
theorem Registers.equal_trans {contents : Nat → Value} {n : Nat} {u v w : Value}
    (hu : Registers contents n u) (hv : Registers contents n v) (hw : Registers contents n w)
    (huv : u.equal v = true) (hvw : v.equal w = true) : u.equal w = true := by
  have hone {id : Nat} {as bs : List Value} (ha : Registers contents n (.array id as))
      (hb : Registers contents n (.array id bs)) : as = bs :=
    (Value.array.inj ((ha _ .self id rfl).2.symm.trans (hb _ .self id rfl).2)).2
  induction u, v using pair_induction generalizing w with
  | arrays a as b bs ih =>
    cases w with
    | array c cs =>
      rcases equal_array.mp huv with rfl | ⟨hlength, hitems⟩
      · rw [hone hu hv]
        exact hvw
      · rcases equal_array.mp hvw with rfl | ⟨hlength', hitems'⟩
        · rw [← hone hv hw]
          exact huv
        · refine equal_array.mpr (.inr ⟨hlength.trans hlength', fun i hi hi'' => ?_⟩)
          have hi' : i < bs.length := hlength ▸ hi
          have ha := List.getElem_mem hi
          have hb := List.getElem_mem hi'
          have hc := List.getElem_mem hi''
          exact ih _ ha _ hb (hu.part (.item ha .self)) (hv.part (.item hb .self))
            (hw.part (.item hc .self)) (hitems i hi hi') (hitems' i hi' hi'')
    | _ => exact absurd (typeName_of_equal hvw) (by simp [typeName])
  | others u v hne =>
    have htype := typeName_of_equal huv
    rw [equal_of_typeName hne] at huv
    rw [equal_of_typeName (.inl (hne.elim (htype ▸ ·) id))] at hvw
    exact equal_of_identical (identical_trans huv hvw)

/-- Both equalities of values that have come up in the life of a session, or have no identity, are
symmetric and transitive, strict equality implies loose equality, values of different types are not
equal, and every value but a NaN is equal to itself, also an array with a NaN in it. -/
theorem equality_laws {stage : Stage} {past : Value → Prop} (h : Reached stage past)
    {u v w : Value} (hu : Given past u) (hv : Given past v) (hw : Given past w) :
    u.equal v = v.equal u ∧ u.identical v = v.identical u ∧
    (u.equal v = true → v.equal w = true → u.equal w = true) ∧
    (u.identical v = true → v.identical w = true → u.identical w = true) ∧
    (u.identical v = true → u.equal v = true) ∧
    (u.typeName ≠ v.typeName → u.equal v = false ∧ u.identical v = false) ∧
    (u.equal u = true ↔ ∀ x, u = .number x → x.isNaN = false) ∧
    (u.identical u = true ↔ ∀ x, u = .number x → x.isNaN = false) := by
  obtain ⟨contents, hcontents⟩ := h.sound.registers_of_known
  have hregisters {v : Value} (hv : Given past v) : Registers contents stage.store.nextId v :=
    hv.elim .plain (hcontents v)
  refine ⟨Bool.eq_iff_iff.mpr ⟨equal_symm, equal_symm⟩,
    Bool.eq_iff_iff.mpr ⟨identical_symm, identical_symm⟩,
    (hregisters hu).equal_trans (hregisters hv) (hregisters hw), identical_trans,
    equal_of_identical, fun hne => ⟨?_, ?_⟩, equal_self_iff, identical_self_iff⟩
  · exact Bool.eq_false_iff.mpr (mt typeName_of_equal hne)
  · exact Bool.eq_false_iff.mpr (mt typeName_of_identical hne)

/-- An array that holds the array with the first identity, which holds a NaN. -/
def holder (id : Nat) : Value := .array id [.array 0 [.number (0 / 0)]]

theorem reached_holders : ∃ stage past, Reached stage past ∧
    Given past (holder 1) ∧ Given past (holder 2) ∧ Given past (holder 3) := by
  have hnan : (Value.number (0 / 0)).identity? = none := rfl
  have hnew := Reached.new .standard false .silent 0
  have hinner := hnew.move (.array _ (List.forall_mem_singleton.mpr (.inl hnan)))
  have hfirst := hinner.move
    (.array _ (List.forall_mem_singleton.mpr (given_of_past (.inr (.inl rfl)))))
  have hsecond := hfirst.move
    (.array _ (List.forall_mem_singleton.mpr (given_of_past (.inl (.inr (.inl rfl))))))
  have hthird := hsecond.move
    (.array _ (List.forall_mem_singleton.mpr (given_of_past (.inl (.inl (.inr (.inl rfl)))))))
  exact ⟨_, _, hthird, given_of_past (.inl (.inl (.inr (.inl rfl)))),
    given_of_past (.inl (.inr (.inl rfl))), given_of_past (.inr (.inl rfl))⟩

/-- Three arrays that share their only item are equal, the first and the third by transitivity,
though they are not identical and not equal by their items. -/
theorem equality_laws_holders : ∃ stage past, Reached stage past ∧
    Given past (holder 1) ∧ Given past (holder 2) ∧ Given past (holder 3) ∧
    (holder 1).identical (holder 3) = false ∧ (holder 1).plainEqual (holder 3) = false ∧
    (holder 1).equal (holder 2) = true ∧ (holder 2).equal (holder 3) = true ∧
    (holder 1).equal (holder 3) = true := by
  obtain ⟨stage, past, hreached, h1, h2, h3⟩ := reached_holders
  have h12 : (holder 1).equal (holder 2) = true := by decide +kernel
  have h23 : (holder 2).equal (holder 3) = true := by decide +kernel
  obtain ⟨-, -, htrans, -⟩ := equality_laws hreached h1 h2 h3
  exact ⟨stage, past, hreached, h1, h2, h3, by decide +kernel, by decide +kernel, h12, h23,
    htrans h12 h23⟩

end Session

end ExprLang
