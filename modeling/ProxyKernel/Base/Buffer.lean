import Mathlib.Tactic

/-!
A writer of the `snprintf` kind moves its position with every character and keeps
only the characters that leave room for one more cell.  What such writes amount to
is `place`: the buffer after a whole text, from which the order of the single
writes has gone.
-/

namespace Buffer

variable {α : Type}

/-- Write `c` at `pos` if another cell follows in the first `n`. -/
def put (n : ℕ) (buf : ℕ → α) (pos : ℕ) (c : α) : ℕ → α :=
  if pos + 1 < n then Function.update buf pos c else buf

/-- The buffer with the text `t` from `pos` on, cut before the last of `n` cells. -/
def place (n : ℕ) (buf : ℕ → α) (pos : ℕ) (t : List α) : ℕ → α := fun j =>
  if pos ≤ j ∧ j + 1 < n then t[j - pos]?.getD (buf j) else buf j

@[simp] theorem place_nil (n : ℕ) (buf : ℕ → α) (pos : ℕ) : place n buf pos [] = buf := by
  funext j
  simp [place]

theorem place_append (n : ℕ) (buf : ℕ → α) (pos : ℕ) (t t' : List α) :
    place n (place n buf pos t) (pos + t.length) t' = place n buf pos (t ++ t') := by
  funext j
  unfold place
  by_cases hn : j + 1 < n
  · by_cases h1 : pos ≤ j
    · by_cases h2 : pos + t.length ≤ j
      · have hout : t.length ≤ j - pos := by omega
        have hsub : j - pos - t.length = j - (pos + t.length) := by omega
        simp [h1, h2, hn, List.getElem?_append_right hout, hsub, List.getElem?_eq_none hout]
      · have hin : j - pos < t.length := by omega
        simp [h1, h2, hn, List.getElem?_append_left hin]
    · have h2 : ¬ pos + t.length ≤ j := by omega
      simp [h1, h2]
  · simp [hn]

theorem put_eq_place (n : ℕ) (buf : ℕ → α) (pos : ℕ) (c : α) :
    put n buf pos c = place n buf pos [c] := by
  funext j
  unfold put place
  by_cases hj : j = pos
  · subst hj
    by_cases hn : j + 1 < n
    · simp [hn]
    · simp [hn]
  · have hother : pos ≤ j → [c][j - pos]? = none := fun h =>
      List.getElem?_eq_none (by simp; omega)
    by_cases hn : pos + 1 < n
    · by_cases h1 : pos ≤ j ∧ j + 1 < n
      · simp [hn, hj, h1, hother h1.1]
      · simp only [hn, if_true, Function.update_of_ne hj, if_neg h1]
    · by_cases h1 : pos ≤ j ∧ j + 1 < n
      · omega
      · simp [hn, h1]

theorem place_comm (n : ℕ) (buf : ℕ → α) (pos : ℕ) (t t' : List α) :
    place n (place n buf (pos + t.length) t') pos t =
      place n (place n buf pos t) (pos + t.length) t' := by
  funext j
  unfold place
  by_cases h : pos + t.length ≤ j
  · have hout : t[j - pos]? = none := List.getElem?_eq_none (by omega)
    simp [h, hout]
  · simp [h]

theorem place_put (n : ℕ) (buf : ℕ → α) (pos : ℕ) (t : List α) (c : α) :
    place n (put n buf (pos + t.length) c) pos t = place n buf pos (t ++ [c]) := by
  rw [put_eq_place, place_comm, place_append]

theorem place_of_lt {n : ℕ} {buf : ℕ → α} {t : List α} {i : ℕ} (hi : i < t.length)
    (hn : i + 1 < n) : place n buf 0 t i = t[i] := by
  simp [place, hn, hi]

end Buffer
