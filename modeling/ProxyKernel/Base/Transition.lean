import Mathlib.Tactic

/-!
Runs of a system whose steps are labelled by actions, with the rule that carries
an invariant along a run.  For a system with free choices, `Ensures` says that
every way of running it comes to a final state, and to one with a given property.
-/

namespace Transition

variable {σ α : Type}

def run (step : α → σ → Option σ) : List α → σ → Option σ
  | [], s => some s
  | a :: as, s => (step a s).bind (run step as)

variable {step : α → σ → Option σ}

def Along (C : α → σ → Prop) (step : α → σ → Option σ) : List α → σ → Prop
  | [], _ => True
  | a :: as, s => C a s ∧ ∀ s' ∈ step a s, Along C step as s'

instance Along.decidable {C : α → σ → Prop} [∀ a s, Decidable (C a s)] :
    ∀ as s, Decidable (Along C step as s)
  | [], _ => .isTrue trivial
  | a :: as, s =>
    have : DecidablePred (Along C step as) := Along.decidable as
    inferInstanceAs (Decidable (C a s ∧ ∀ s' ∈ step a s, Along C step as s'))

/-- What every allowed step preserves holds along every such run. -/
theorem run_invariant {I : σ → Prop} {C : α → σ → Prop}
    (hstep : ∀ a s s', I s → C a s → step a s = some s' → I s') {as : List α} {s t : σ}
    (hs : I s) (hC : Along C step as s) (h : run step as s = some t) : I t := by
  induction as generalizing s with
  | nil =>
    injection h with h
    exact h ▸ hs
  | cons a as ih =>
    obtain ⟨u, hu, hrest⟩ := Option.bind_eq_some_iff.mp h
    exact ih (hstep a s u hs hC.1 hu) (hC.2 u hu) hrest

theorem run_append (as bs : List α) (s : σ) :
    run step (as ++ bs) s = (run step as s).bind (run step bs) := by
  induction as generalizing s with
  | nil => rfl
  | cons a as ih =>
    cases hu : step a s with
    | none => simp [run, hu]
    | some u => simp [run, hu, ih]

theorem run_singleton (a : α) (s : σ) : run step [a] s = step a s := by
  cases hu : step a s with
  | none => simp [run, hu]
  | some u => simp [run, hu]

theorem along_true (as : List α) (s : σ) : Along (fun _ _ => True) step as s := by
  induction as generalizing s with
  | nil => trivial
  | cons a as ih => exact ⟨trivial, fun s' _ => ih s'⟩

section Simulation

variable {τ β κ : Type} {astep : β → τ → Option τ}

def trace (visible : α → σ → List κ) (step : α → σ → Option σ) : List α → σ → List κ
  | [], _ => []
  | a :: as, s => visible a s ++ ((step a s).map (trace visible step as)).getD []

theorem trace_append (visible : α → σ → List κ) {as : List α} {s t : σ}
    (h : run step as s = some t) (bs : List α) :
    trace visible step (as ++ bs) s = trace visible step as s ++ trace visible step bs t := by
  induction as generalizing s with
  | nil =>
    obtain rfl := Option.some.inj h
    rfl
  | cons a as ih =>
    obtain ⟨u, hu, hrest⟩ := Option.bind_eq_some_iff.mp h
    simp only [List.cons_append, trace, hu, Option.map_some, Option.getD_some, ih hrest,
      List.append_assoc]

/-- A run of the lower system is one of the upper system with the same trace.  `R`
relates the two states and what has been seen below and has not yet happened above. -/
theorem run_simulation {visible : α → σ → List κ} {avisible : β → τ → List κ}
    {R : σ → List κ → τ → Prop} {C : α → σ → Prop}
    (hsim : ∀ a s s' w t, R s w t → C a s → step a s = some s' →
      ∃ bs w' t', run astep bs t = some t' ∧
        trace avisible astep bs t ++ w' = w ++ visible a s ∧ R s' w' t')
    {as : List α} {s s' : σ} {w : List κ} {t : τ} (hR : R s w t) (hC : Along C step as s)
    (h : run step as s = some s') :
    ∃ bs w' t', run astep bs t = some t' ∧
      trace avisible astep bs t ++ w' = w ++ trace visible step as s ∧ R s' w' t' := by
  induction as generalizing s w t with
  | nil =>
    obtain rfl := Option.some.inj h
    exact ⟨[], w, t, rfl, by simp [trace], hR⟩
  | cons a as ih =>
    obtain ⟨u, hu, hrest⟩ := Option.bind_eq_some_iff.mp h
    obtain ⟨bs, w₁, t₁, hbs, hw, hR₁⟩ := hsim a s u w t hR hC.1 hu
    obtain ⟨bs', w', t', hbs', hw', hR'⟩ := ih hR₁ (hC.2 u hu) hrest
    refine ⟨bs ++ bs', w', t', ?_, ?_, hR'⟩
    · rw [run_append, hbs]
      exact hbs'
    · rw [trace_append avisible hbs, List.append_assoc, hw', ← List.append_assoc, hw, trace, hu,
        List.append_assoc]
      rfl

/-- What goes in comes out, once and in the same order, when every step keeps the
account of what is inside. -/
theorem run_conserves {I : σ → Prop} {visible released : α → σ → List κ} {inside : σ → List κ}
    (hstep : ∀ a s s', I s → step a s = some s' →
      I s' ∧ inside s ++ visible a s = released a s ++ inside s')
    {as : List α} {s t : σ} (hs : I s) (h : run step as s = some t) :
    inside s ++ trace visible step as s = trace released step as s ++ inside t := by
  induction as generalizing s with
  | nil =>
    obtain rfl := Option.some.inj h
    simp [trace]
  | cons a as ih =>
    obtain ⟨u, hu, hrest⟩ := Option.bind_eq_some_iff.mp h
    obtain ⟨hIu, hflow⟩ := hstep a s u hs hu
    simp only [trace, hu, Option.map_some, Option.getD_some, List.append_assoc, ← ih hIu hrest]
    rw [← List.append_assoc, hflow, List.append_assoc]

/-- A total to which every step adds what it takes in has in the end what it had, and
all that was taken in. -/
theorem run_collects {I : σ → Prop} {C : α → σ → Prop} {visible : α → σ → List κ}
    {total : σ → Multiset κ}
    (hstep : ∀ a s s', I s → C a s → step a s = some s' →
      I s' ∧ total s' = total s + Multiset.ofList (visible a s))
    {as : List α} {s t : σ} (hs : I s) (hC : Along C step as s) (h : run step as s = some t) :
    I t ∧ total t = total s + Multiset.ofList (trace visible step as s) := by
  induction as generalizing s with
  | nil =>
    obtain rfl := Option.some.inj h
    exact ⟨hs, by simp [trace]⟩
  | cons a as ih =>
    obtain ⟨u, hu, hrest⟩ := Option.bind_eq_some_iff.mp h
    obtain ⟨hIu, htotal⟩ := hstep a s u hs hC.1 hu
    obtain ⟨hIt, hend⟩ := ih hIu (hC.2 u hu) hrest
    refine ⟨hIt, ?_⟩
    rw [hend, htotal, add_assoc, Multiset.coe_add, trace, hu]
    rfl

end Simulation

/-- However the choices fall, the system gets to a final state, and `Q` holds there. -/
inductive Ensures (next : σ → σ → Prop) (final Q : σ → Prop) : σ → Prop
  | final {s : σ} (hf : final s) (hq : Q s) : Ensures next final Q s
  | step {s : σ} (hf : ¬ final s) (hgo : ∃ s', next s s')
      (hall : ∀ s', next s s' → Ensures next final Q s') : Ensures next final Q s

variable {next : σ → σ → Prop} {final P Q : σ → Prop}

theorem Ensures.mono {s : σ} (h : Ensures next final P s) (hPQ : ∀ t, P t → Q t) :
    Ensures next final Q s := by
  induction h with
  | final hf hq => exact .final hf (hPQ _ hq)
  | step hf hgo _ ih => exact .step hf hgo ih

/-- Two properties that must hold at the end hold together at some end. -/
theorem Ensures.exists_and {s : σ} (hP : Ensures next final P s) (hQ : Ensures next final Q s) :
    ∃ t, P t ∧ Q t := by
  induction hP with
  | final hf hp =>
    cases hQ with
    | final _ hq => exact ⟨_, hp, hq⟩
    | step hf' => exact absurd hf hf'
  | step hf hgo _ ih =>
    cases hQ with
    | final hf' => exact absurd hf' hf
    | step _ _ hall =>
      obtain ⟨t, ht⟩ := hgo
      exact ih t ht (hall t ht)

theorem Ensures.of_eq {s t : σ} (hf : ¬ final s) (hnext : ∀ s', next s s' ↔ s' = t)
    (ht : Ensures next final Q t) : Ensures next final Q s :=
  .step hf ⟨t, (hnext t).mpr rfl⟩ fun _ h => (hnext _).mp h ▸ ht

end Transition
