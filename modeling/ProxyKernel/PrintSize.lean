import ProxyKernel.Print

namespace ProxyKernel.Print
open ByteMem Buffer

variable {n n₁ n₂ pos : ℕ} {f : Spec} {s : List Byte} {va : VaList}

/-- The positions in the whole text, from `pos` on, at which a `%c` puts its character. -/
def Spec.charPositions (va : VaList) : ℕ → Spec → List Byte → List ℕ
  | _, _, [] => []
  | pos, f, c :: s =>
    (if f.format ∧ c = chr 'c' then [pos] else []) ++
      charPositions va (pos + (f.emit va c).length) (f.next c) s

theorem le_of_mem_charPositions {p : ℕ} (h : p ∈ f.charPositions va pos s) : pos ≤ p := by
  induction s generalizing f pos with
  | nil => cases h
  | cons c s ih =>
    rw [Spec.charPositions, List.mem_append] at h
    rcases h with h | h
    · split_ifs at h
      · exact (List.mem_singleton.mp h).ge
      · cases h
    · have := ih h
      omega

theorem nextIn_congr {c : Byte} (h : f.format ∧ c = chr 'c' → (n₁ ≤ pos + 1 ↔ n₂ ≤ pos + 1)) :
    f.nextIn n₁ pos c = f.nextIn n₂ pos c := by
  have hcond : (f.format ∧ c = chr 'c' ∧ n₁ ≤ pos + 1) ↔ (f.format ∧ c = chr 'c' ∧ n₂ ≤ pos + 1) := by
    constructor
    · rintro ⟨hf, hc, hfull⟩
      exact ⟨hf, hc, (h ⟨hf, hc⟩).mp hfull⟩
    · rintro ⟨hf, hc, hfull⟩
      exact ⟨hf, hc, (h ⟨hf, hc⟩).mpr hfull⟩
  simp only [Spec.nextIn, hcond]

/-- Behind the end of both buffers there is no difference. -/
theorem callIn_congr_of_full (h₁ : n₁ ≤ pos + 1) (h₂ : n₂ ≤ pos + 1) :
    f.renderIn n₁ va pos s = f.renderIn n₂ va pos s ∧
      f.endIn n₁ va pos s = f.endIn n₂ va pos s := by
  induction s generalizing f pos with
  | nil => exact ⟨rfl, rfl⟩
  | cons c s ih =>
    have hnext : f.nextIn n₁ pos c = f.nextIn n₂ pos c := nextIn_congr fun _ => iff_of_true h₁ h₂
    rw [Spec.renderIn, Spec.renderIn, Spec.endIn, Spec.endIn, hnext]
    obtain ⟨hrender, hend⟩ := @ih (pos + (f.emit va c).length) (f.nextIn n₂ pos c)
      (by omega) (by omega)
    exact ⟨by rw [hrender], hend⟩

theorem callIn_congr (h : n₁ ≤ n₂)
    (hchars : ∀ p ∈ f.charPositions va pos s, ¬ (n₁ ≤ p + 1 ∧ p + 1 < n₂)) :
    f.renderIn n₁ va pos s = f.renderIn n₂ va pos s ∧
      f.endIn n₁ va pos s = f.endIn n₂ va pos s := by
  induction s generalizing f pos with
  | nil => exact ⟨rfl, rfl⟩
  | cons c s ih =>
    by_cases hchar : f.format ∧ c = chr 'c'
    · have hhere : ¬ (n₁ ≤ pos + 1 ∧ pos + 1 < n₂) :=
        hchars pos (List.mem_append_left _ (by rw [if_pos hchar]; exact List.mem_singleton_self pos))
      by_cases hfull : n₁ ≤ pos + 1
      · exact callIn_congr_of_full hfull (by omega)
      · have hroom (n : ℕ) (hn : ¬ n ≤ pos + 1) : f.nextIn n pos c = f.next c :=
          if_neg fun h => hn h.2.2
        obtain ⟨hrender, hend⟩ := ih fun p hp => hchars p (List.mem_append_right _ hp)
        simp only [Spec.renderIn, Spec.endIn, hroom n₁ hfull, hroom n₂ (by omega), hrender, hend,
          and_self]
    · have hplain (n : ℕ) : f.nextIn n pos c = f.next c := if_neg fun h => hchar ⟨h.1, h.2.1⟩
      obtain ⟨hrender, hend⟩ := ih fun p hp => hchars p (List.mem_append_right _ hp)
      simp only [Spec.renderIn, Spec.endIn, hplain, hrender, hend, and_self]

def EndsSpec (c : Byte) : Prop :=
  c = chr 'p' ∨ c = chr 'x' ∨ c = chr 'd' ∨ c = chr 's' ∨ c = chr 'c'

instance (c : Byte) : Decidable (EndsSpec c) := inferInstanceAs (Decidable (_ ∨ _))

/-- The flag that decides on the specifiers does not depend on the room.  The end
of a specifier takes an argument, but for a `%c` without room. -/
theorem nextIn_fields (c : Byte) :
    (f.nextIn n pos c).format =
        (if f.format then !decide (EndsSpec c) else decide (c = chr '%')) ∧
      (f.nextIn n pos c).arg =
        f.arg + if f.format ∧ EndsSpec c ∧ ¬ (c = chr 'c' ∧ n ≤ pos + 1) then 1 else 0 := by
  obtain ⟨format, longarg, arg⟩ := f
  cases format with
  | false =>
    by_cases hpct : c = chr '%' <;> simp [Spec.nextIn, Spec.next, hpct]
  | true =>
    by_cases hc : c = chr 'c'
    · subst hc
      have hl : ¬ chr 'c' = chr 'l' := by decide
      have hends : EndsSpec (chr 'c') := by decide
      by_cases hfull : n ≤ pos + 1 <;>
        simp [Spec.nextIn, Spec.next, Spec.skip, Spec.done, hl, hends, hfull]
    · have hnext : Spec.nextIn n pos ⟨true, longarg, arg⟩ c = Spec.next ⟨true, longarg, arg⟩ c :=
        if_neg fun h => hc h.2.1
      rw [hnext]
      by_cases hl : c = chr 'l'
      · subst hl
        have hends : ¬ EndsSpec (chr 'l') := by decide
        simp [Spec.next, hends]
      · have hplain : Spec.next ⟨true, longarg, arg⟩ c =
            if EndsSpec c then Spec.done ⟨true, longarg, arg⟩ else ⟨true, longarg, arg⟩ := by
          rw [Spec.next, if_pos rfl, if_neg hl]
          rfl
        by_cases hends : EndsSpec c <;> simp [hplain, Spec.done, hends, hc]

/-- Once there is no room, a call that has taken fewer arguments does not catch up. -/
theorem endIn_arg_lt {f₁ f₂ : Spec} {pos₁ pos₂ : ℕ} (hfull : n₁ ≤ pos₁ + 1)
    (h : f₁.format = f₂.format) (harg : f₁.arg < f₂.arg) :
    (f₁.endIn n₁ va pos₁ s).arg < (f₂.endIn n₂ va pos₂ s).arg := by
  induction s generalizing f₁ f₂ pos₁ pos₂ with
  | nil => exact harg
  | cons c s ih =>
    rw [Spec.endIn, Spec.endIn]
    apply ih
    · omega
    · rw [(nextIn_fields c).1, (nextIn_fields c).1, h]
    · rw [(nextIn_fields c).2, (nextIn_fields c).2, h]
      split_ifs with hends₁ hends₂
      · exact Nat.succ_lt_succ harg
      · exact absurd ⟨hends₁.1, hends₁.2.1, fun hc => hends₁.2.2 ⟨hc.1, hfull⟩⟩ hends₂
      · exact Nat.lt_succ_of_lt harg
      · exact harg

/-- A `%c` between the two sizes leaves the calls with different numbers of arguments. -/
theorem endIn_arg_lt_of_char {p : ℕ} (hp : p ∈ f.charPositions va pos s) (h₁ : n₁ ≤ p + 1)
    (h₂ : p + 1 < n₂) : (f.endIn n₁ va pos s).arg < (f.endIn n₂ va pos s).arg := by
  induction s generalizing f pos with
  | nil => cases hp
  | cons c s ih =>
    rw [Spec.endIn, Spec.endIn]
    by_cases hcut : f.format ∧ c = chr 'c' ∧ n₁ ≤ pos + 1
    · have hpos := le_of_mem_charPositions hp
      have hroom : ¬ n₂ ≤ pos + 1 := by omega
      obtain ⟨hf, rfl, hfull⟩ := hcut
      have hskip : f.nextIn n₁ pos (chr 'c') = f.skip := if_pos ⟨hf, rfl, hfull⟩
      have hdone : f.nextIn n₂ pos (chr 'c') = f.done :=
        (if_neg fun h => hroom h.2.2).trans (next_char hf)
      rw [hskip, hdone]
      exact endIn_arg_lt (by omega) rfl (Nat.lt_succ_self f.arg)
    · have hnext : f.nextIn n₁ pos c = f.next c := if_neg hcut
      rw [Spec.charPositions, List.mem_append] at hp
      rcases hp with hp | hp
      · split_ifs at hp with hchar
        · rw [List.mem_singleton] at hp
          exact absurd ⟨hchar.1, hchar.2, hp ▸ h₁⟩ hcut
        · cases hp
      · have hpos := le_of_mem_charPositions hp
        have hnext₂ : f.nextIn n₂ pos c = f.next c := if_neg fun h => by omega
        rw [hnext, hnext₂]
        exact ih hp

/-- The text that a call with size `n` leaves in the buffer. -/
def Formatted.text (n : ℕ) (r : Formatted) : List Byte := (List.range (min r.pos (n - 1))).map r.out

/-- Nothing is written outside the buffer, and a NUL ends the text inside it. -/
structure StaysInside (out : ℕ → Byte) (n : ℕ) (r : Formatted) : Prop where
  outside : ∀ i ≥ n, r.out i = out i
  nul : r.out (min r.pos (n - 1)) = 0

theorem vsnprintf_staysInside (out : ℕ → Byte) (hn : 0 < n) (s : List Byte) (va : VaList) :
    StaysInside out n (vsnprintf out n s va) := by
  constructor
  · intro i hi
    have hne : i ≠ min (countedText n s va).length (n - 1) := by omega
    rw [vsnprintf_out out hn, Function.update_of_ne hne, place, if_neg (by omega)]
  · rw [vsnprintf_pos, min_countedText_length]
    exact vsnprintf_nul out hn s va

theorem vsnprintf_text (out : ℕ → Byte) (hn : 0 < n) (s : List Byte) (va : VaList) :
    (vsnprintf out n s va).text n = (formattedText s va).take (n - 1) := by
  rw [Formatted.text, vsnprintf_pos, min_countedText_length, vsnprintf_bytes out hn (by omega)]
  apply List.take_left'
  rw [List.length_take, min_comm]

/-- Whatever the two buffers hold before: the calls stay inside, they return the
same value and take the same number of arguments, and the text of the smaller
size is the first part of the other one. -/
structure SizeTruncates (s : List Byte) (va : VaList) (n₁ n₂ : ℕ) (out₁ out₂ : ℕ → Byte) :
    Prop where
  inside₁ : StaysInside out₁ n₁ (vsnprintf out₁ n₁ s va)
  inside₂ : StaysInside out₂ n₂ (vsnprintf out₂ n₂ s va)
  ret : (vsnprintf out₁ n₁ s va).ret = (vsnprintf out₂ n₂ s va).ret
  text : (vsnprintf out₁ n₁ s va).text n₁ = ((vsnprintf out₂ n₂ s va).text n₂).take
    (min (n₁ - 1) ((vsnprintf out₂ n₂ s va).text n₂).length)
  taken : (vsnprintf out₁ n₁ s va).taken = (vsnprintf out₂ n₂ s va).taken

/-- The size only truncates exactly when no `%c` stands in the part of the text
that the larger buffer has room for and the smaller one has not. -/
theorem vsnprintf_size_truncates_iff (s : List Byte) (va : VaList) (n₁ n₂ : ℕ) (hn : 1 ≤ n₁)
    (h : n₁ ≤ n₂) (out₁ out₂ : ℕ → Byte) :
    SizeTruncates s va n₁ n₂ out₁ out₂ ↔
      ∀ p ∈ Spec.start.charPositions va 0 s, ¬ (n₁ ≤ p + 1 ∧ p + 1 < n₂) := by
  constructor
  · rintro ⟨-, -, -, -, htaken⟩ p hp ⟨h₁, h₂⟩
    rw [vsnprintf_taken, vsnprintf_taken] at htaken
    exact absurd htaken (endIn_arg_lt_of_char hp h₁ h₂).ne
  · intro hchars
    obtain ⟨hrender, hend⟩ := callIn_congr h hchars
    have hcount : countedText n₁ s va = countedText n₂ s va := hrender
    refine ⟨vsnprintf_staysInside out₁ hn s va, vsnprintf_staysInside out₂ (by omega) s va,
      ?_, ?_, ?_⟩
    · rw [Formatted.ret, Formatted.ret, vsnprintf_pos, vsnprintf_pos, hcount]
    · rw [← List.take_eq_take_min, vsnprintf_text out₁ hn, vsnprintf_text out₂ (by omega),
        List.take_take, min_eq_left (by omega)]
    · rw [vsnprintf_taken, vsnprintf_taken, hend]

def charThenInt : VaList := fun i => if i = 0 then ⟨0x41, [], by decide⟩ else ⟨5, [], by decide⟩

def charIntFmt : List Byte := ascii ['%', 'c', '%', 'd']

theorem vsnprintf_size_truncates_room :
    SizeTruncates charIntFmt charThenInt 3 4 (fun _ => 0) (fun _ => 0) := by
  rw [vsnprintf_size_truncates_iff charIntFmt charThenInt 3 4 (by decide) (by decide)]
  decide

/-- With size 1 the `%d` prints the argument of the `%c`, and 3 is returned; with
size 3 it is 2. -/
theorem vsnprintf_size_shifts_args :
    ¬ SizeTruncates charIntFmt charThenInt 1 3 (fun _ => 0) (fun _ => 0) := by
  intro h
  have hret := h.ret
  revert hret
  decide

/-- The host gets the text, cut after 255 bytes, exactly when the text is no
longer than that, or when the `int` that `vsnprintf` returns happens to be 255. -/
theorem vprintk_sends_text_iff (k : KernelContext) (s : List Byte) (vl : VaList) :
    (vprintk k s vl).bytes = (formattedText s vl).take (min (formattedText s vl).length 255) ↔
      (formattedText s vl).length ≤ 255 ∨ (countedText 256 s vl).length % 2 ^ 32 = 255 := by
  have hpos := vsnprintf_pos k.out 256 s vl
  have hmin := min_countedText_length 256 s vl
  have hsize := size_eq (vsnprintf k.out 256 s vl)
  rw [vprintk_bytes, min_comm, ← List.take_eq_take_min]
  by_cases hshort : (formattedText s vl).length ≤ 255
  · have hcount : countedText 256 s vl = formattedText s vl := countedText_of_room (by omega)
    have hwhole : (formattedText s vl).take 255 = formattedText s vl :=
      List.take_of_length_le hshort
    have hsame : (vsnprintf k.out 256 s vl).size = (formattedText s vl).length := by
      rw [hsize, hpos, hcount, if_pos (by omega)]
      omega
    rw [hsame, hwhole, List.take_left]
    exact iff_of_true rfl (.inl hshort)
  · have hlen : ((formattedText s vl).take 255).length = 255 := by
      rw [List.length_take]
      omega
    constructor
    · intro hbytes
      have hlength := congrArg List.length hbytes
      rw [List.length_take, List.length_append, hlen, List.length_singleton] at hlength
      right
      rw [hsize, hpos] at hlength
      split_ifs at hlength <;> omega
    · rintro (h | h)
      · exact absurd h hshort
      · have hsame : (vsnprintf k.out 256 s vl).size = 255 := by
          rw [hsize, hpos, h]
          rfl
        rw [hsame]
        exact List.take_left' hlen

/-- For a text of 256 letters the host is asked to write the NUL as well. -/
theorem vprintk_sends_nul :
    let k : KernelContext := ⟨charThenInt, fun _ => 0, charThenInt 0⟩
    let s := List.replicate 256 (chr 'a')
    (vprintk k s charThenInt).bytes ≠
      (formattedText s charThenInt).take (min (formattedText s charThenInt).length 255) := by
  decide +kernel

end ProxyKernel.Print
