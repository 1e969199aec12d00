import Mathlib.Tactic

/-!
`EStateM ε σ` keeps the state that was reached when a computation stops with an
error.  The rules below take a sequence of such computations apart, either at a
normal end (`bind_eq_ok`) or at whatever end it has (`Always`).
-/

namespace Effect

variable {ε σ α β : Type}

def finalState : EStateM.Result ε σ α → σ
  | .ok _ s => s
  | .error _ s => s

def returned : EStateM.Result ε σ α → Option α
  | .ok a _ => some a
  | .error _ _ => none

theorem eq_ok_of_returned {r : EStateM.Result ε σ α} {a : α} (h : returned r = some a) :
    r = .ok a (finalState r) := by
  cases r with
  | ok b s =>
    injection h with h
    rw [h]
    rfl
  | error e s => cases h

@[simp] theorem finalState_ok (a : α) (s : σ) :
    finalState (.ok a s : EStateM.Result ε σ α) = s := rfl

@[simp] theorem finalState_error (e : ε) (s : σ) :
    finalState (.error e s : EStateM.Result ε σ α) = s := rfl

@[simp] theorem pure_run (a : α) (s : σ) : (pure a : EStateM ε σ α) s = .ok a s := rfl

@[simp] theorem throw_run (e : ε) (s : σ) : (throw e : EStateM ε σ α) s = .error e s := rfl

theorem bind_run (x : EStateM ε σ α) (f : α → EStateM ε σ β) (s : σ) :
    (x >>= f) s = match x s with
      | .ok a s' => f a s'
      | .error e s' => .error e s' := rfl

theorem get_bind (f : σ → EStateM ε σ β) (s : σ) : (get >>= f) s = f s s := rfl

theorem bind_of_ok {x : EStateM ε σ α} {f : α → EStateM ε σ β} {s s' : σ} {a : α}
    (h : x s = .ok a s') : (x >>= f) s = f a s' := by
  rw [bind_run, h]

theorem bind_eq_ok {x : EStateM ε σ α} {f : α → EStateM ε σ β} {s s' : σ} {b : β} :
    (x >>= f) s = .ok b s' ↔ ∃ a t, x s = .ok a t ∧ f a t = .ok b s' := by
  rw [bind_run]
  cases x s with
  | ok a t => simp
  | error e t => simp

/-- Wherever the computation ends, it has moved the state along `R`. -/
def Always (R : σ → σ → Prop) (x : EStateM ε σ α) : Prop := ∀ s, R s (finalState (x s))

theorem Always.bind {R : σ → σ → Prop} (htrans : ∀ a b c, R a b → R b c → R a c)
    {x : EStateM ε σ α} {f : α → EStateM ε σ β} (hx : Always R x)
    (hf : ∀ a, Always R (f a)) : Always R (x >>= f) := by
  intro s
  have h := hx s
  rw [bind_run]
  cases hr : x s with
  | ok a t =>
    rw [hr] at h
    exact htrans _ _ _ h (hf a t)
  | error e t =>
    rw [hr] at h
    exact h

end Effect
