import ExprLang.Number.Literal
import ExprLang.Number.Numeral
import ExprLang.Proofs.Number.Nearest

namespace ExprLang.Number

theorem tenTo_pos (n : Nat) : 0 < tenTo n := Nat.pow_pos (by decide)

theorem nearestUnits_of_contains {m : Magnitude} (hv : m.Valid) (hpos : 0 < m.mantissa)
    {d : Decimal} (h : m.interval.contains d = true) :
    nearestUnits (d.digits * tenTo d.exponent.toNat * unitsPerOne) (tenTo (-d.exponent).toNat) =
      m.toBits := by
  have hpoint : d.digits * tenTo d.exponent.toNat * quartersPerOne =
      4 * (d.digits * tenTo d.exponent.toNat * unitsPerOne) := by
    rw [quartersPerOne]
    ring
  unfold Interval.contains at h
  dsimp only at h
  rw [hpoint] at h
  split at h
  · rename_i hc
    simp only [Bool.and_eq_true, decide_eq_true_eq] at h
    exact nearestUnits_of_interval hv (tenTo_pos _) hpos h.1 h.2 (.inl hc)
  · simp only [Bool.and_eq_true, decide_eq_true_eq] at h
    exact nearestUnits_of_interval hv (tenTo_pos _) hpos h.1.le h.2.le (.inr h)

/-- A point strictly between the ends lies in an interval, whether it is closed or not. -/
theorem contains_of_lt {i : Interval} {d : Decimal}
    (hlow : i.low * tenTo (-d.exponent).toNat < d.digits * tenTo d.exponent.toNat * quartersPerOne)
    (hhigh : d.digits * tenTo d.exponent.toNat * quartersPerOne <
      i.high * tenTo (-d.exponent).toNat) : i.contains d = true := by
  unfold Interval.contains
  dsimp only
  split
  · simp only [Bool.and_eq_true, decide_eq_true_eq]
    exact ⟨hlow.le, hhigh.le⟩
  · simp only [Bool.and_eq_true, decide_eq_true_eq]
    exact ⟨hlow, hhigh⟩

theorem contains_of_onGrid? {i : Interval} {e : Int} {d : Decimal} (h : i.onGrid? e = some d) :
    i.contains d = true := by
  unfold Interval.onGrid? at h
  dsimp only at h
  split at h
  · rename_i hb
    split at h
    · rename_i ha
      cases h
      rw [Bool.and_eq_true] at ha
      exact ha.1
    · cases h
      exact hb
  · split at h
    · rename_i ha
      cases h
      exact ha
    · cases h

theorem contains_mul_ten (i : Interval) (k : Nat) (e : Int) :
    i.contains ⟨10 * k, e⟩ = i.contains ⟨k, e + 1⟩ := by
  unfold Interval.contains
  dsimp only
  by_cases he : 0 ≤ e
  · have h₁ : (e + 1).toNat = e.toNat + 1 := by omega
    have h₂ : (-(e + 1)).toNat = (-e).toNat := by omega
    have hpoint : 10 * k * tenTo e.toNat * quartersPerOne =
        k * tenTo (e.toNat + 1) * quartersPerOne := by
      rw [tenTo_eq, tenTo_eq, pow_succ]
      ring
    rw [h₁, h₂, hpoint]
  · have h₁ : (e + 1).toNat = e.toNat := by omega
    have h₂ : (-e).toNat = (-(e + 1)).toNat + 1 := by omega
    have hscale (n : Nat) : n * tenTo ((-(e + 1)).toNat + 1) =
        10 * (n * tenTo (-(e + 1)).toNat) := by
      rw [tenTo_eq, tenTo_eq, pow_succ]
      ring
    rw [h₁, h₂, hscale, hscale, Nat.mul_assoc 10, Nat.mul_assoc 10]
    simp only [Nat.mul_le_mul_left_iff (by decide : 0 < 10),
      Nat.mul_lt_mul_left (by decide : 0 < 10)]

theorem contains_trim (i : Interval) (d : Decimal) : i.contains d.trim = i.contains d := by
  fun_induction Decimal.trim d with
  | case1 d hd ih =>
    obtain ⟨digits, exponent⟩ := d
    have hten : digits = 10 * (digits / 10) := by
      have hlast : digits % 10 = 0 := hd.2
      omega
    rw [ih, ← contains_mul_ten, ← hten]
  | case2 d hd => rfl

theorem digitCount_pos (n : Nat) : 0 < digitCount n := Nat.length_toDigits_pos

theorem lt_tenTo_digitCount (n : Nat) : n < tenTo (digitCount n) :=
  (Nat.length_toDigits_le_iff (by decide) (digitCount_pos n)).mp le_rfl

theorem tenTo_digitCount_le {n : Nat} (h : 0 < n) : tenTo (digitCount n - 1) ≤ n := by
  by_cases hone : digitCount n = 1
  · rw [hone]
    exact h
  · have hpos := digitCount_pos n
    by_contra! hlt
    have hle := (Nat.length_toDigits_le_iff (b := 10) (n := n) (k := digitCount n - 1)
      (by decide) (by omega)).mpr hlt
    have : digitCount n ≤ digitCount n - 1 := hle
    omega

theorem leadingExponent_le {v : Nat} (hv : 0 < v) :
    quartersPerOne * tenTo (leadingExponent v).toNat ≤ v * tenTo (-leadingExponent v).toNat := by
  unfold leadingExponent
  split
  · rename_i hle
    have hq : 0 < quartersPerOne := by decide +kernel
    have hpos := digitCount_pos (v / quartersPerOne)
    have h₁ : ((digitCount (v / quartersPerOne) : Int) - 1).toNat =
        digitCount (v / quartersPerOne) - 1 := by omega
    have h₂ : (-((digitCount (v / quartersPerOne) : Int) - 1)).toNat = 0 := by omega
    rw [h₁, h₂]
    have hdigits := tenTo_digitCount_le (Nat.div_pos hle hq)
    calc quartersPerOne * tenTo (digitCount (v / quartersPerOne) - 1)
        ≤ quartersPerOne * (v / quartersPerOne) := Nat.mul_le_mul_left _ hdigits
      _ ≤ v := Nat.mul_div_le _ _
      _ = v * tenTo 0 := (Nat.mul_one v).symm
  · have h₁ : (-(digitCount ((quartersPerOne - 1) / v) : Int)).toNat = 0 := by omega
    have h₂ : (-(-(digitCount ((quartersPerOne - 1) / v) : Int))).toNat =
        digitCount ((quartersPerOne - 1) / v) := by omega
    rw [h₁, h₂]
    have hlt := lt_tenTo_digitCount ((quartersPerOne - 1) / v)
    rw [Nat.div_lt_iff_lt_mul hv, Nat.mul_comm] at hlt
    rw [show tenTo 0 = 1 from rfl, Nat.mul_one]
    omega

/-- Sixteen places below the leading one a grid step is that much smaller than the value. -/
theorem grid_step_le {v : Nat} {p : Int}
    (h : quartersPerOne * tenTo p.toNat ≤ v * tenTo (-p).toNat) :
    quartersPerOne * tenTo (p - 16).toNat * 10 ^ 16 ≤ v * tenTo (-(p - 16)).toNat := by
  simp only [tenTo_eq] at h ⊢
  by_cases hp : 16 ≤ p
  · have h₁ : p.toNat = (p - 16).toNat + 16 := by omega
    have h₂ : (-p).toNat = (-(p - 16)).toNat := by omega
    rw [h₁, h₂, pow_add, ← Nat.mul_assoc] at h
    exact h
  · obtain ⟨k, hk, hk'⟩ : ∃ k, p.toNat + k = 16 ∧ (-(p - 16)).toNat = (-p).toNat + k :=
      ⟨16 - p.toNat, by omega, by omega⟩
    have hz : (p - 16).toNat = 0 := by omega
    rw [hz, hk', pow_add, pow_zero, Nat.mul_one, ← hk, pow_add, ← Nat.mul_assoc, ← Nat.mul_assoc]
    exact Nat.mul_le_mul_right _ h

theorem onGrid?_isSome_of_contains {i : Interval} {e : Int} {k : Nat}
    (hk : k = i.value * tenTo (-e).toNat / (quartersPerOne * tenTo e.toNat))
    (h : i.contains ⟨k, e⟩ = true ∨ i.contains ⟨k + 1, e⟩ = true) :
    (i.onGrid? e).isSome = true := by
  unfold Interval.onGrid?
  dsimp only
  rw [← hk]
  rcases h with h | h
  · rw [if_pos h]
    split <;> rfl
  · split
    · split <;> rfl
    · rfl

/-- Of the two multiples of `d` around `N` one is within reach, where reaching up is always
possible by half of what `d` stays below. -/
theorem neighbour_within {N d low high T : Nat} (hd : 0 < d) (hhigh : high = N + 2 * T)
    (h : (low + 2 * T = N ∧ d < 4 * T) ∨ (low + T = N ∧ d < 2 * T)) :
    (low < N / d * d ∧ N / d * d < high) ∨ (low < (N / d + 1) * d ∧ (N / d + 1) * d < high) := by
  have hdiv := Nat.div_add_mod' N d
  have hmod := Nat.mod_lt N hd
  rw [Nat.add_mul, Nat.one_mul]
  omega

theorem onGrid?_isSome {m : Magnitude} {e : Int} (hpos : 0 < m.mantissa)
    (hstep : quartersPerOne * tenTo e.toNat < 4 * (2 ^ m.shift * tenTo (-e).toNat))
    (hpower : m.mantissa = 2 ^ 52 →
      quartersPerOne * tenTo e.toNat < 2 * (2 ^ m.shift * tenTo (-e).toNat)) :
    (m.interval.onGrid? e).isSome = true := by
  have hq : 0 < quartersPerOne := by decide +kernel
  have hd : 0 < quartersPerOne * tenTo e.toNat := Nat.mul_pos hq (tenTo_pos _)
  have hpoint (k : Nat) : k * tenTo e.toNat * quartersPerOne =
      k * (quartersPerOne * tenTo e.toNat) := by ring
  have hvalue : 4 * (2 ^ m.shift * tenTo (-e).toNat) ≤ m.interval.value * tenTo (-e).toNat := by
    rw [m.interval_value, Magnitude.units, twoTo_eq, Nat.mul_assoc 4, Nat.mul_assoc]
    exact Nat.mul_le_mul_left _ (Nat.le_mul_of_pos_left _ hpos)
  have hhigh : m.interval.high * tenTo (-e).toNat =
      m.interval.value * tenTo (-e).toNat + 2 * (2 ^ m.shift * tenTo (-e).toNat) := by
    rw [m.interval_high, m.interval_value, Nat.add_mul, Nat.mul_assoc 2]
  -- How far the interval reaches down: less at a power of two.
  have hreach : (m.interval.low * tenTo (-e).toNat + 2 * (2 ^ m.shift * tenTo (-e).toNat) =
        m.interval.value * tenTo (-e).toNat ∧
        quartersPerOne * tenTo e.toNat < 4 * (2 ^ m.shift * tenTo (-e).toNat)) ∨
      (m.interval.low * tenTo (-e).toNat + 2 ^ m.shift * tenTo (-e).toNat =
        m.interval.value * tenTo (-e).toNat ∧
        quartersPerOne * tenTo e.toNat < 2 * (2 ^ m.shift * tenTo (-e).toNat)) := by
    by_cases hp : m.mantissa = 2 ^ 52 ∧ 0 < m.shift
    · right
      refine ⟨?_, hpower hp.1⟩
      rw [m.interval_low_power hp, ← m.interval_value, Nat.sub_mul]
      omega
    · left
      refine ⟨?_, hstep⟩
      rw [m.interval_low hp, ← m.interval_value, Nat.sub_mul, Nat.mul_assoc 2]
      omega
  apply onGrid?_isSome_of_contains rfl
  rcases neighbour_within hd hhigh hreach with ⟨hlow, hup⟩ | ⟨hlow, hup⟩
  · exact .inl (contains_of_lt (by rw [hpoint]; exact hlow) (by rw [hpoint]; exact hup))
  · exact .inr (contains_of_lt (by rw [hpoint]; exact hlow) (by rw [hpoint]; exact hup))

/-- The shortest decimal of a double lies in its interval. -/
theorem contains_shortest {m : Magnitude} (hv : m.Valid) (hpos : 0 < m.mantissa) :
    m.interval.contains (shortest m) = true := by
  have hvalue : 0 < m.interval.value := by
    rw [m.interval_value, Magnitude.units, twoTo_eq]
    exact Nat.mul_pos (by decide) (Nat.mul_pos hpos (Nat.two_pow_pos _))
  have hle := grid_step_le (leadingExponent_le hvalue)
  generalize he : leadingExponent m.interval.value - 16 = e at hle
  have hmul : m.interval.value * tenTo (-e).toNat =
      4 * (m.mantissa * (2 ^ m.shift * tenTo (-e).toNat)) := by
    rw [m.interval_value, Magnitude.units, twoTo_eq]
    ring
  rw [hmul] at hle
  have hmax := Nat.mul_le_mul_right (2 ^ m.shift * tenTo (-e).toNat) (Nat.le_of_lt hv.mantissa_lt)
  have hunit : 0 < 2 ^ m.shift * tenTo (-e).toNat := Nat.mul_pos (Nat.two_pow_pos _) (tenTo_pos _)
  -- Seventeen digits are enough: the last grid that is tried is fine enough for every double.
  have hsome : (m.interval.onGrid? e).isSome = true := by
    apply onGrid?_isSome hpos
    · omega
    · intro hm
      rw [hm] at hle
      omega
  have hfind : ((List.range 17).findSome? fun (k : Nat) =>
      m.interval.onGrid? (leadingExponent m.interval.value - k)).isSome = true := by
    rw [List.isSome_findSome?]
    rw [List.any_eq_true]
    exact ⟨16, by decide, by simpa [he] using hsome⟩
  unfold shortest
  dsimp only
  rw [if_neg (by omega)]
  obtain ⟨d, hd⟩ := Option.isSome_iff_exists.mp hfind
  rw [hd]
  dsimp only
  rw [contains_trim]
  obtain ⟨k, -, hk⟩ := List.exists_of_findSome?_eq_some hd
  exact contains_of_onGrid? hk

section Digits

variable {ds ps : List Char}

theorem takeWhile_append_stop {test : Char → Bool} (hds : ∀ c ∈ ds, test c = true)
    (hps : ∀ c, ps.head? = some c → test c = false) : (ds ++ ps).takeWhile test = ds := by
  rw [List.takeWhile_append_of_pos hds]
  cases ps with
  | nil => simp
  | cons c ps => simp [hps c rfl]

theorem ofLiteral?_digits (hne : ds ≠ []) (hds : ∀ c ∈ ds, isDecimalDigit c = true) :
    ofLiteral? (String.ofList ds) = some (ofRatio false (ofDigits ds) 1) := by
  have htake : ds.takeWhile isDecimalDigit = ds := by
    simpa using takeWhile_append_stop hds (show ∀ c, [].head? = some c → _ by simp)
  simp [ofLiteral?, htake, hne]

theorem ofLiteral?_point (hne : ds ≠ []) (hds : ∀ c ∈ ds, isDecimalDigit c = true)
    (hps : ∀ c ∈ ps, isDecimalDigit c = true) :
    ofLiteral? (String.ofList (ds ++ '.' :: ps)) =
      some (ofRatio false (ofDigits (ds ++ ps)) (tenTo ps.length)) := by
  have htake : (ds ++ '.' :: ps).takeWhile isDecimalDigit = ds :=
    takeWhile_append_stop hds (by simp [isDecimalDigit])
  simp [ofLiteral?, htake, hne, List.all_eq_true.mpr hps]

end Digits

/-- Digits, perhaps with a point between them. -/
inductive IsNumeral : List Char → Prop
  | whole {ds : List Char} (hne : ds ≠ []) (hds : ∀ c ∈ ds, isDecimalDigit c = true) :
    IsNumeral ds
  | places {ds ps : List Char} (hne : ds ≠ []) (hds : ∀ c ∈ ds, isDecimalDigit c = true)
    (hps : ∀ c ∈ ps, isDecimalDigit c = true) (hlast : ps ≠ []) : IsNumeral (ds ++ '.' :: ps)

theorem digitText_digits (d : Decimal) : ∀ c ∈ d.digitText, isDecimalDigit c = true := by
  intro c hc
  have h := Nat.isDigit_of_mem_toDigits (by decide) (by decide) hc
  simpa [isDecimalDigit, Char.isDigit, Char.le_def] using h

theorem ofDigits_digitText (d : Decimal) : ofDigits d.digitText = d.digits :=
  Nat.ofDigitChars_ten_toDigits

theorem digitText_ne_nil (d : Decimal) : d.digitText ≠ [] := Nat.toDigits_ne_nil

theorem isDecimalDigit_zeros (n : Nat) : ∀ c ∈ List.replicate n '0', isDecimalDigit c = true := by
  intro c hc
  rw [List.eq_of_mem_replicate hc]
  decide

theorem ofDigits_append_zeros (d : Decimal) (n : Nat) :
    ofDigits (d.digitText ++ List.replicate n '0') = d.digits * tenTo n := by
  change Nat.ofDigitChars 10 (Nat.toDigits 10 d.digits ++ _) 0 = _
  rw [Nat.ofDigitChars_append, Nat.ofDigitChars_ten_toDigits, Nat.ofDigitChars_replicate_zero,
    tenTo_eq, Nat.mul_comm]

theorem ofDigits_zeros_append (d : Decimal) (n : Nat) :
    ofDigits (List.replicate n '0' ++ d.digitText) = d.digits := by
  change Nat.ofDigitChars 10 (_ ++ Nat.toDigits 10 d.digits) 0 = _
  rw [Nat.ofDigitChars_append, Nat.ofDigitChars_replicate_zero, Nat.mul_zero]
  exact Nat.ofDigitChars_ten_toDigits

/-- A text is a numeral with the value `n / d`. -/
def Denotes (text : List Char) (n d : Nat) : Prop :=
  IsNumeral text ∧ ofLiteral? (String.ofList text) = some (ofRatio false n d)

theorem denotes_digits {ds : List Char} (hne : ds ≠ []) (hds : ∀ c ∈ ds, isDecimalDigit c = true) :
    Denotes ds (ofDigits ds) 1 :=
  ⟨.whole hne hds, ofLiteral?_digits hne hds⟩

theorem denotes_point {ds ps : List Char} (hne : ds ≠ [])
    (hds : ∀ c ∈ ds, isDecimalDigit c = true) (hps : ∀ c ∈ ps, isDecimalDigit c = true)
    (hlast : ps ≠ []) : Denotes (ds ++ '.' :: ps) (ofDigits (ds ++ ps)) (tenTo ps.length) :=
  ⟨.places hne hds hps hlast, ofLiteral?_point hne hds hps⟩

theorem denotes_positional (d : Decimal) : Denotes (d.positional false)
    (d.digits * tenTo d.exponent.toNat) (tenTo (-d.exponent).toNat) := by
  have hdigits := digitText_digits d
  have hne := digitText_ne_nil d
  unfold Decimal.positional
  dsimp only
  split
  · have hall : ∀ c ∈ d.digitText ++ List.replicate d.exponent.toNat '0',
        isDecimalDigit c = true :=
      List.forall_mem_append.mpr ⟨hdigits, isDecimalDigit_zeros _⟩
    have hscale : (-d.exponent).toNat = 0 := by omega
    have h := denotes_digits (by simp [hne]) hall
    rw [ofDigits_append_zeros] at h
    rw [if_neg (by decide), List.append_nil, hscale]
    exact h
  · have hwhole : d.exponent.toNat = 0 := by omega
    rw [hwhole, show tenTo 0 = 1 from rfl, Nat.mul_one]
    generalize hplaces : (-d.exponent).toNat = places
    split
    · -- The point stands between two digits.
      have htake : ∀ c ∈ d.digitText.take (d.digitText.length - places), isDecimalDigit c = true :=
        fun c hc => hdigits c (List.mem_of_mem_take hc)
      have hdrop : ∀ c ∈ d.digitText.drop (d.digitText.length - places), isDecimalDigit c = true :=
        fun c hc => hdigits c (List.mem_of_mem_drop hc)
      have h := denotes_point
        (by rw [ne_eq, List.take_eq_nil_iff]; simp only [hne, or_false]; omega)
        htake hdrop (by rw [ne_eq, List.drop_eq_nil_iff]; omega)
      rw [List.take_append_drop, ofDigits_digitText, List.length_drop,
        Nat.sub_sub_self (by omega)] at h
      exact h
    · -- The point stands before all digits, with zeros between.
      have hall : ∀ c ∈ List.replicate (places - d.digitText.length) '0' ++ d.digitText,
          isDecimalDigit c = true :=
        List.forall_mem_append.mpr ⟨isDecimalDigit_zeros _, hdigits⟩
      have h :=
        denotes_point (List.cons_ne_nil '0' []) (isDecimalDigit_zeros 1) hall (by simp [hne])
      have hvalue := ofDigits_zeros_append d (places - d.digitText.length + 1)
      rw [List.replicate_succ, List.cons_append] at hvalue
      rw [List.singleton_append, List.singleton_append, hvalue, List.length_append,
        List.length_replicate, Nat.sub_add_cancel (by omega)] at h
      rw [List.append_assoc]
      exact h

/-- The text of a finite number without a sign is a numeral that reads back as the number. -/
theorem render_readsBack {x : Float} (h : x.toBits.toNat < infinityBits) :
    IsNumeral (Style.source.render x).toList ∧
      ofLiteral? (Style.source.render x) = some x := by
  have hsmall : x.toBits.toNat < twoTo 63 := h.trans (by decide +kernel)
  have hparts : parts x = .finite false (.ofBits x.toBits.toNat) := by
    unfold parts
    dsimp only
    rw [Nat.mod_eq_of_lt hsmall, if_pos h]
    simp [Nat.not_le.mpr hsmall]
  have hrender : Style.source.render x = String.ofList
      ((shortest (.ofBits x.toBits.toNat)).positional false) := by
    simp [Style.render, hparts, Style.magnitude, Style.source]
  obtain ⟨hshape, hread⟩ := denotes_positional (shortest (.ofBits x.toBits.toNat))
  rw [hrender, String.toList_ofList]
  refine ⟨hshape, hread.trans ?_⟩
  have hv := Magnitude.valid_ofBits h
  have hbits := Magnitude.toBits_ofBits x.toBits.toNat
  generalize Magnitude.ofBits x.toBits.toNat = m at hv hbits
  rw [Option.some.injEq, ofRatio]
  have hnearest : nearestUnits ((shortest m).digits * tenTo (shortest m).exponent.toNat *
      unitsPerOne) (tenTo (-(shortest m).exponent).toNat) = m.toBits := by
    -- Zero is written without looking for an interval, and is read back by evaluation.
    by_cases hpos : 0 < m.mantissa
    · exact nearestUnits_of_contains hv hpos (contains_shortest hv hpos)
    · have hzero : m = ⟨0, 0⟩ := by
        obtain ⟨mantissa, shift⟩ := m
        have hm : mantissa = 0 := Nat.eq_zero_of_not_pos hpos
        have hs : shift = 0 := hv.leading.resolve_left (by simp [hm])
        rw [hm, hs]
      rw [hzero]
      decide +kernel
  rw [hnearest, hbits, ofSignBits_toBits h.le]

end ExprLang.Number
