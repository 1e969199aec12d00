import Mathlib.Tactic

/-!
`step` is the body of a loop: it gives the next state or leaves with a result.
`run` iterates it at most `n` times.
-/

namespace Loop

variable {σ τ : Type} (step : σ → σ ⊕ τ)

def run : ℕ → σ → Option τ
  | 0, _ => none
  | n + 1, s => match step s with
    | .inl s' => run n s'
    | .inr t => some t

variable {step}

theorem run_of_inr {s : σ} {t : τ} (n : ℕ) (h : step s = .inr t) :
    run step (n + 1) s = some t := by
  rw [run, h]

theorem run_of_inl {s s' : σ} (n : ℕ) (h : step s = .inl s') :
    run step (n + 1) s = run step n s' := by
  rw [run, h]

theorem eq_of_inr {n : ℕ} {s : σ} {t t' : τ} (hrun : run step n s = some t)
    (h : step s = .inr t') : t = t' := by
  cases n with
  | zero => cases hrun
  | succ n =>
    rw [run_of_inr n h] at hrun
    injection hrun with hrun
    exact hrun.symm

theorem exists_of_inl {n : ℕ} {s s' : σ} {t : τ} (hrun : run step n s = some t)
    (h : step s = .inl s') : ∃ k, run step k s' = some t := by
  cases n with
  | zero => cases hrun
  | succ n =>
    rw [run_of_inl n h] at hrun
    exact ⟨n, hrun⟩

theorem run_mono {n k : ℕ} {s : σ} {t : τ} (h : run step n s = some t) (hnk : n ≤ k) :
    run step k s = some t := by
  induction n generalizing k s with
  | zero => cases h
  | succ n ih =>
    obtain ⟨k, rfl⟩ : ∃ j, k = j + 1 := ⟨k - 1, by omega⟩
    cases hs : step s with
    | inl s' =>
      rw [run_of_inl n hs] at h
      rw [run_of_inl k hs]
      exact ih h (by omega)
    | inr t' =>
      rw [run_of_inr n hs] at h
      rw [run_of_inr k hs]
      exact h

/-- A loop whose measure goes down ends within as many iterations. -/
theorem run_total (μ : σ → ℕ) (hμ : ∀ s s', step s = .inl s' → μ s' < μ s) {n : ℕ} {s : σ}
    (h : μ s < n) : ∃ t, run step n s = some t := by
  induction n generalizing s with
  | zero => omega
  | succ n ih =>
    cases hs : step s with
    | inl s' =>
      rw [run_of_inl n hs]
      exact ih (by have := hμ s s' hs; omega)
    | inr t => exact ⟨t, run_of_inr n hs⟩

/-- What every iteration keeps and every exit turns into `Q` holds of the result. -/
theorem run_invariant {I : σ → Prop} {Q : τ → Prop} (hI : ∀ s s', I s → step s = .inl s' → I s')
    (hQ : ∀ s t, I s → step s = .inr t → Q t) {n : ℕ} {s : σ} {t : τ} (hs : I s)
    (h : run step n s = some t) : Q t := by
  induction n generalizing s with
  | zero => cases h
  | succ n ih =>
    cases hstep : step s with
    | inl s' =>
      rw [run_of_inl n hstep] at h
      exact ih (hI s s' hs hstep) h
    | inr t' =>
      rw [run_of_inr n hstep] at h
      injection h with h
      exact h ▸ hQ s t' hs hstep

theorem run_chain (states : ℕ → σ) {n : ℕ} {t : τ}
    (hnext : ∀ i < n, step (states i) = .inl (states (i + 1))) (hexit : step (states n) = .inr t)
    {fuel : ℕ} (hfuel : n < fuel) : run step fuel (states 0) = some t := by
  have hfrom : ∀ k i, i + k = n → run step (k + 1) (states i) = some t := by
    intro k
    induction k with
    | zero =>
      rintro i rfl
      exact run_of_inr 0 hexit
    | succ k ih =>
      intro i hi
      rw [run_of_inl (k + 1) (hnext i (by omega))]
      exact ih (i + 1) (by omega)
  exact run_mono (hfrom n 0 (Nat.zero_add n)) hfuel

/-- A loop that cannot leave the states of `I` does not end. -/
theorem run_eq_none {I : σ → Prop} (hI : ∀ s, I s → ∃ s', step s = .inl s' ∧ I s') {s : σ}
    (hs : I s) (n : ℕ) : run step n s = none := by
  induction n generalizing s with
  | zero => rfl
  | succ n ih =>
    obtain ⟨s', hstep, hs'⟩ := hI s hs
    rw [run_of_inl n hstep]
    exact ih hs'

end Loop
