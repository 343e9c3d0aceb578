import ExprLang.Number.Shortest
import ExprLang.Proofs.Number.Bits
import Mathlib.Tactic.Ring

namespace ExprLang.Number

/-- A quotient at most a half away from a whole number is rounded to it, when an exact half is
allowed for even numbers only. -/
theorem roundDiv_eq {n d M : Nat} (hd : 0 < d) (hlow : 2 * (M * d) ≤ 2 * n + d)
    (hhigh : 2 * n ≤ 2 * (M * d) + d)
    (htie : M % 2 = 0 ∨ (2 * (M * d) < 2 * n + d ∧ 2 * n < 2 * (M * d) + d)) :
    roundDiv n d = M := by
  have hdiv := Nat.div_add_mod n d
  have hmod := Nat.mod_lt n hd
  unfold roundDiv
  dsimp only
  -- The quotient is `M` or the number below it, as `n` lies above or below `M * d`.
  by_cases hle : M * d ≤ n
  · have hq : n / d = M := by
      apply Nat.div_eq_of_lt_le hle
      rw [Nat.succ_mul]
      omega
    rw [hq, Nat.mul_comm d M] at hdiv
    rw [hq]
    split
    · rfl
    · rw [if_neg (by omega), if_pos (by omega)]
  · obtain ⟨K, rfl⟩ : ∃ K, M = K + 1 := by
      cases M with
      | zero => simp at hle
      | succ K => exact ⟨K, rfl⟩
    have hsucc : (K + 1) * d = K * d + d := Nat.succ_mul K d
    have hq : n / d = K := by
      apply Nat.div_eq_of_lt_le
      · omega
      · omega
    rw [hq, Nat.mul_comm d K] at hdiv
    rw [hq, if_neg (by omega)]
    split
    · rfl
    · rw [if_neg (by omega)]

/-- The magnitudes of finite doubles: only the smallest shift has short mantissas. -/
structure Magnitude.Valid (m : Magnitude) : Prop where
  mantissa_lt : m.mantissa < 2 ^ 53
  leading : 2 ^ 52 ≤ m.mantissa ∨ m.shift = 0
  shift_le : m.shift ≤ 2045

theorem Magnitude.valid_ofBits {bits : Nat} (h : bits < infinityBits) :
    (Magnitude.ofBits bits).Valid := by
  rw [infinityBits_eq] at h
  unfold Magnitude.ofBits
  rw [twoTo_eq]
  split
  · exact ⟨by dsimp only; omega, .inr rfl, Nat.zero_le _⟩
  · exact ⟨by dsimp only; omega, .inl (by dsimp only; omega), by dsimp only; omega⟩

theorem Magnitude.Valid.toBits_lt {m : Magnitude} (h : m.Valid) : m.toBits < infinityBits := by
  have := h.mantissa_lt
  have := h.shift_le
  rw [infinityBits_eq, Magnitude.toBits, twoTo_eq]
  omega

namespace Magnitude

variable (m : Magnitude)

theorem interval_value : m.interval.value = 4 * m.units := rfl

theorem interval_high : m.interval.high = 4 * m.units + 2 * 2 ^ m.shift := rfl

theorem interval_closed : m.interval.closed = decide (m.mantissa % 2 = 0) := rfl

theorem interval_low_power (h : m.mantissa = 2 ^ 52 ∧ 0 < m.shift) :
    m.interval.low = 4 * m.units - 2 ^ m.shift := by
  rw [interval]
  dsimp only
  rw [if_pos (show m.mantissa = twoTo 52 ∧ 0 < m.shift from h)]
  rfl

theorem interval_low (h : ¬ (m.mantissa = 2 ^ 52 ∧ 0 < m.shift)) :
    m.interval.low = 4 * m.units - 2 * 2 ^ m.shift := by
  rw [interval]
  dsimp only
  rw [if_neg (show ¬ (m.mantissa = twoTo 52 ∧ 0 < m.shift) from h)]
  rfl

end Magnitude

/-- A shift that leaves a quotient of units with 53 bits, or less at the smallest shift. -/
theorem log2_div_sub {n d shift : Nat} (hd : 0 < d) (hlt : n < 2 ^ 53 * (d * 2 ^ shift))
    (hle : 2 ^ 52 * (d * 2 ^ shift) ≤ n ∨ shift = 0) : (n / d).log2 - 52 = shift := by
  have hassoc (c : Nat) : c * 2 ^ shift * d = c * (d * 2 ^ shift) := by ring
  have hup : n / d < 2 ^ (52 + shift + 1) := by
    rw [show 52 + shift + 1 = 53 + shift by omega, pow_add, Nat.div_lt_iff_lt_mul hd, hassoc]
    exact hlt
  rcases hle with hle | rfl
  · have hlow : 2 ^ (52 + shift) ≤ n / d := by
      rw [pow_add, Nat.le_div_iff_mul_le hd, hassoc]
      exact hle
    rw [log2_eq_of_bounds hlow hup]
    omega
  · by_cases hz : n / d = 0
    · simp [hz]
    · have := (Nat.log2_lt hz).mpr hup
      omega

section Interval

variable {m : Magnitude} (hv : m.Valid) {n d : Nat} (hd : 0 < d)
include hv hd

theorem nearestUnits_of_shift (hshift : (n / d).log2 - 52 = m.shift)
    (hlow : 4 * (m.mantissa * (d * 2 ^ m.shift)) ≤ 4 * n + 2 * (d * 2 ^ m.shift))
    (hhigh : 4 * n ≤ 4 * (m.mantissa * (d * 2 ^ m.shift)) + 2 * (d * 2 ^ m.shift))
    (htie : m.mantissa % 2 = 0 ∨
      (4 * (m.mantissa * (d * 2 ^ m.shift)) < 4 * n + 2 * (d * 2 ^ m.shift) ∧
        4 * n < 4 * (m.mantissa * (d * 2 ^ m.shift)) + 2 * (d * 2 ^ m.shift))) :
    nearestUnits n d = m.toBits := by
  have hround : roundDiv n (d * twoTo m.shift) = m.mantissa := by
    rw [twoTo_eq]
    apply roundDiv_eq (Nat.mul_pos hd (Nat.two_pow_pos _)) <;> omega
  unfold nearestUnits
  dsimp only
  rw [hshift, hround]
  exact Nat.min_eq_left hv.toBits_lt.le

theorem nearestUnits_below_power (hm : m.mantissa = 2 ^ 52) (hs : 0 < m.shift)
    (hlow : 4 * (2 ^ 52 * (d * 2 ^ m.shift)) ≤ 4 * n + d * 2 ^ m.shift)
    (hlt : n < 2 ^ 52 * (d * 2 ^ m.shift)) : nearestUnits n d = m.toBits := by
  obtain ⟨s, hs'⟩ : ∃ s, m.shift = s + 1 := ⟨m.shift - 1, by omega⟩
  have htwice : d * 2 ^ m.shift = 2 * (d * 2 ^ s) := by rw [hs', pow_succ]; ring
  rw [htwice] at hlow hlt
  have hshift : (n / d).log2 - 52 = s := log2_div_sub hd (by omega) (.inl (by omega))
  have hround : roundDiv n (d * twoTo s) = 2 ^ 53 := by
    rw [twoTo_eq]
    exact roundDiv_eq (Nat.mul_pos hd (Nat.two_pow_pos _)) (by omega) (by omega) (.inl (by decide))
  have hbits : Magnitude.toBits ⟨2 ^ 53, s⟩ = m.toBits := by
    simp only [Magnitude.toBits, twoTo_eq, hm, hs']
    omega
  unfold nearestUnits
  dsimp only
  rw [hshift, hround, hbits]
  exact Nat.min_eq_left hv.toBits_lt.le

/-- What lies in the interval of a double is rounded to that double. -/
theorem nearestUnits_of_interval (hpos : 0 < m.mantissa) (hlow : m.interval.low * d ≤ 4 * n)
    (hhigh : 4 * n ≤ m.interval.high * d)
    (hopen : m.interval.closed = true ∨
      (m.interval.low * d < 4 * n ∧ 4 * n < m.interval.high * d)) :
    nearestUnits n d = m.toBits := by
  have hvalue : 4 * m.units * d = 4 * (m.mantissa * (d * 2 ^ m.shift)) := by
    rw [Magnitude.units, twoTo_eq]
    ring
  have hstep : d * 2 ^ m.shift ≤ m.mantissa * (d * 2 ^ m.shift) :=
    Nat.le_mul_of_pos_left _ hpos
  have hcomm : 2 ^ m.shift * d = d * 2 ^ m.shift := Nat.mul_comm _ _
  have hunit : 0 < d * 2 ^ m.shift := Nat.mul_pos hd (Nat.two_pow_pos _)
  have hmax : m.mantissa * (d * 2 ^ m.shift) ≤ (2 ^ 53 - 1) * (d * 2 ^ m.shift) :=
    Nat.mul_le_mul_right _ (by have := hv.mantissa_lt; omega)
  rw [m.interval_high, Nat.add_mul, hvalue, Nat.mul_assoc 2, hcomm] at hhigh hopen
  rw [m.interval_closed, decide_eq_true_eq] at hopen
  by_cases hp : m.mantissa = 2 ^ 52 ∧ 0 < m.shift
  · rw [m.interval_low_power hp, Nat.sub_mul, hvalue, hcomm] at hlow hopen
    rw [hp.1] at hlow hhigh hopen hstep
    -- Below a power of two the numbers are closer together, so the quotient has a smaller shift.
    by_cases hlt : n < 2 ^ 52 * (d * 2 ^ m.shift)
    · exact nearestUnits_below_power hv hd hp.1 hp.2 (by omega) hlt
    · have hshift : (n / d).log2 - 52 = m.shift :=
        log2_div_sub hd (by omega) (.inl (by omega))
      apply nearestUnits_of_shift hv hd hshift <;> rw [hp.1]
      · omega
      · omega
      · exact .inl (by decide)
  · rw [m.interval_low hp, Nat.sub_mul, hvalue, Nat.mul_assoc 2, hcomm] at hlow hopen
    -- Half a step below a mantissa that is no power of two there are still 53 bits.
    have hle : 2 ^ 52 * (d * 2 ^ m.shift) ≤ n ∨ m.shift = 0 := by
      by_cases hz : m.shift = 0
      · exact .inr hz
      · have hlead : 2 ^ 52 + 1 ≤ m.mantissa := by
          have := hv.leading
          omega
        have := Nat.mul_le_mul_right (d * 2 ^ m.shift) hlead
        exact .inl (by omega)
    have hshift : (n / d).log2 - 52 = m.shift := log2_div_sub hd (by omega) hle
    apply nearestUnits_of_shift hv hd hshift <;> omega

end Interval

end ExprLang.Number
