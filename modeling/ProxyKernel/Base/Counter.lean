import Mathlib.Order.WellQuasiOrder
import Mathlib.Tactic

/-!
A deterministic machine with finitely many control states and a counter, for
which a larger counter never disables a step.  Such a machine runs for ever
exactly when it comes back to a control state with a counter that is no smaller.
-/

namespace Counter

variable {Q : Type} (step : Q × ℕ → Option (Q × ℕ))

def after : ℕ → Q × ℕ → Option (Q × ℕ)
  | 0, s => some s
  | n + 1, s => (step s).bind (after n)

def Upward : Prop :=
  ∀ q n q' n', step (q, n) = some (q', n') → ∀ e, step (q, n + e) = some (q', n' + e)

/-- A control state comes back with a counter that is no smaller. -/
def Recurs (s : Q × ℕ) : Prop :=
  ∃ i j q n e, i < j ∧ after step i s = some (q, n) ∧ after step j s = some (q, n + e)

variable {step}

theorem after_add (i j : ℕ) (s : Q × ℕ) :
    after step (i + j) s = (after step i s).bind (after step j) := by
  induction i generalizing s with
  | zero => rw [Nat.zero_add, after, Option.bind_some]
  | succ i ih =>
    rw [Nat.succ_add, after, after, Option.bind_assoc]
    congr 1
    funext s'
    exact ih s'

theorem after_none_of_le {i j : ℕ} {s : Q × ℕ} (h : after step i s = none) (hij : i ≤ j) :
    after step j s = none := by
  obtain ⟨k, rfl⟩ := Nat.exists_eq_add_of_le hij
  rw [after_add, h, Option.bind_none]

theorem Upward.after (hup : Upward step) {i : ℕ} {q q' : Q} {n n' : ℕ}
    (h : after step i (q, n) = some (q', n')) (e : ℕ) :
    Counter.after step i (q, n + e) = some (q', n' + e) := by
  induction i generalizing q n with
  | zero =>
    injection h with h
    injection h with hq hn
    rw [hq, hn]
    rfl
  | succ i ih =>
    obtain ⟨⟨q₁, n₁⟩, hstep, hrest⟩ := Option.bind_eq_some_iff.mp h
    rw [Counter.after, hup q n q₁ n₁ hstep e, Option.bind_some]
    exact ih hrest

theorem Upward.after_mul (hup : Upward step) {p : ℕ} {q : Q} {n e : ℕ}
    (h : Counter.after step p (q, n) = some (q, n + e)) (k : ℕ) :
    Counter.after step (k * p) (q, n) = some (q, n + k * e) := by
  induction k with
  | zero => simp [Counter.after]
  | succ k ih =>
    have hround := hup.after h (k * e)
    rw [Nat.succ_mul, Nat.succ_mul, after_add, ih, Option.bind_some, hround]
    congr 2
    omega

theorem Upward.not_recurs_of_stop (hup : Upward step) {s : Q × ℕ} {n : ℕ}
    (hstop : Counter.after step n s = none) : ¬ Recurs step s := by
  rintro ⟨i, j, q, c, e, hij, hi, hj⟩
  obtain ⟨p, rfl⟩ := Nat.exists_eq_add_of_le hij.le
  rw [after_add, hi, Option.bind_some] at hj
  -- after `n` rounds the machine has made more than `n` steps
  have hrounds : Counter.after step (i + n * p) s = some (q, c + n * e) := by
    rw [after_add, hi, Option.bind_some, hup.after_mul hj]
  have hle : n ≤ i + n * p := by
    have : n * 1 ≤ n * p := Nat.mul_le_mul_left n (by omega)
    omega
  rw [after_none_of_le hstop hle] at hrounds
  cases hrounds

theorem exists_stop_of_not_recurs [Finite Q] {s : Q × ℕ} (h : ¬ Recurs step s) :
    ∃ n, after step n s = none := by
  by_contra hgo
  have hsome : ∀ n, ∃ s', after step n s = some s' :=
    fun n => Option.ne_none_iff_exists'.mp fun hnone => hgo ⟨n, hnone⟩
  choose f hf using hsome
  have hwqo := (Finite.wellQuasiOrdered (α := Q) (· = ·)).prod (wellQuasiOrdered_le (α := ℕ))
  obtain ⟨i, j, hij, hq, hn⟩ := hwqo f
  obtain ⟨e, he⟩ := Nat.exists_eq_add_of_le hn
  refine h ⟨i, j, (f i).1, (f i).2, e, hij, hf i, ?_⟩
  rw [hf j, hq, ← he]

theorem Upward.exists_stop_iff [Finite Q] (hup : Upward step) (s : Q × ℕ) :
    (∃ n, Counter.after step n s = none) ↔ ¬ Recurs step s :=
  ⟨fun ⟨_, h⟩ => hup.not_recurs_of_stop h, exists_stop_of_not_recurs⟩

end Counter
