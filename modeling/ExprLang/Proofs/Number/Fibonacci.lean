import ExprLang.Number.Fibonacci

namespace ExprLang.Number.Fibonacci

def run : Nat → Fibonacci → Fibonacci ⊕ Float
  | 0, f => .inl f
  | n + 1, f =>
    match f.step with
    | .inl f => run n f
    | .inr x => .inr x

def Ends (f : Fibonacci) : Prop := ∃ n x, f.run n = .inr x

theorem run_of_sub_one_eq {x : Float} (hx : ¬ x < 2) (heq : x - 1 = x) (n : Nat)
    (pending : List Pending) : ∃ more, run n ⟨x, false, pending⟩ = .inl ⟨x, false, more⟩ := by
  induction n generalizing pending with
  | zero => exact ⟨pending, rfl⟩
  | succ n ih =>
    have hstep : step ⟨x, false, pending⟩ = .inl ⟨x, false, .second (x - 2) :: pending⟩ := by
      simp [step, hx, heq]
    rw [run, hstep]
    exact ih _

theorem not_ends_of_sub_one_eq {x : Float} (hx : ¬ x < 2) (heq : x - 1 = x) : ¬ (start x).Ends := by
  rintro ⟨n, y, hrun⟩
  obtain ⟨more, hmore⟩ := run_of_sub_one_eq hx heq n []
  rw [start, hmore] at hrun
  cases hrun

-- No number at all, infinity, and the first whole number that stays as it is.
example : ∀ x ∈ ([0 / 0, 1 / 0, 9007199254740996] : List Float), ¬ x < 2 ∧ x - 1 = x := by
  decide +kernel

/-- The recursion as it is meant: what it says about a number, and that it ends there. -/
inductive IsFib : Float → Float → Prop
  | small {n : Float} (h : n < 2) : IsFib n n
  | sum {n a b : Float} (h : ¬ n < 2) (ha : IsFib (n - 1) a) (hb : IsFib (n - 2) b) :
    IsFib n (a + b)

/-- A computation finds the number it is to find before it does what is left to do. -/
theorem isFib_of_run {k : Nat} {n y : Float} {pending : List Pending}
    (h : run k ⟨n, false, pending⟩ = .inr y) :
    ∃ a j, IsFib n a ∧ j < k ∧ run j ⟨a, true, pending⟩ = .inr y := by
  induction k using Nat.strongRecOn generalizing n pending with
  | ind k ih =>
    cases k with
    | zero => cases h
    | succ k =>
      by_cases hn : n < 2
      · have hstep : step ⟨n, false, pending⟩ = .inl ⟨n, true, pending⟩ := by simp [step, hn]
        rw [run, hstep] at h
        exact ⟨n, k, .small hn, Nat.lt_succ_self k, h⟩
      · have hstep : step ⟨n, false, pending⟩ =
            .inl ⟨n - 1, false, .second (n - 2) :: pending⟩ := by
          simp [step, hn]
        rw [run, hstep] at h
        obtain ⟨a, j, ha, hj, h⟩ := ih k (Nat.lt_succ_self k) h
        -- Then the second number is found, and the two are added.
        obtain _ | j := j
        · cases h
        obtain ⟨b, i, hb, hi, h⟩ := ih j (by omega) h
        obtain _ | i := i
        · cases h
        exact ⟨a + b, i, .sum hn ha hb, by omega, h⟩

theorem isFib_of_run_start {k : Nat} {n y : Float} (h : run k (start n) = .inr y) : IsFib n y := by
  obtain ⟨a, j, ha, -, h⟩ := isFib_of_run h
  obtain _ | j := j
  · cases h
  · cases h
    exact ha

end ExprLang.Number.Fibonacci
