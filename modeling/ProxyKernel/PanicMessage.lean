import ProxyKernel.PrintSize
import ProxyKernel.Syscall

namespace ProxyKernel.Print
open ByteMem

/-- Some specifier of the format comes to its end, and takes an argument there. -/
def Spec.Takes : Spec → List Byte → Prop
  | _, [] => False
  | f, c :: s => (f.format ∧ EndsSpec c) ∨ (f.next c).Takes s

instance Spec.Takes.decidable : (f : Spec) → (s : List Byte) → Decidable (f.Takes s)
  | _, [] => .isFalse id
  | f, c :: s =>
    have := Spec.Takes.decidable (f.next c) s
    inferInstanceAs (Decidable ((f.format ∧ EndsSpec c) ∨ (f.next c).Takes s))

def TakesArgument (s : List Byte) : Prop := Spec.start.Takes s

instance (s : List Byte) : Decidable (TakesArgument s) := Spec.Takes.decidable _ s

variable {n pos : ℕ} {f : Spec} {c : Byte} {s : List Byte} {va va' : VaList}

theorem emit_congr (h : va f.arg = va' f.arg) (c : Byte) : f.emit va c = f.emit va' c := by
  have hnum : f.num va = f.num va' := by rw [Spec.num, Spec.num, h]
  have hlong : Spec.num va { f with longarg := true } = Spec.num va' { f with longarg := true } :=
    congrArg VaArg.word h
  have hdec : f.decimal va = f.decimal va' := by rw [Spec.decimal, Spec.decimal, hnum]
  rw [Spec.emit, Spec.emit, hnum, hlong, hdec, h]

theorem emit_of_not_ends (h : ¬ (f.format ∧ EndsSpec c)) : f.emit va c = f.emit va' c := by
  unfold Spec.emit
  by_cases hf : f.format
  · have hends : ¬ EndsSpec c := fun hc => h ⟨hf, hc⟩
    unfold EndsSpec at hends
    push Not at hends
    obtain ⟨hp, hx, hd, hs, hc⟩ := hends
    simp only [if_neg hp, if_neg hx, if_neg hd, if_neg hs, if_neg hc]
  · rw [if_neg hf, if_neg hf]

theorem next_arg_of_not_ends (h : ¬ (f.format ∧ EndsSpec c)) : (f.next c).arg = f.arg := by
  unfold Spec.next
  split_ifs with hf hl hends hpct
  · rfl
  · exact absurd ⟨hf, hends⟩ h
  · rfl
  · rfl
  · rfl

theorem next_arg_of_ends (hf : f.format) (hends : EndsSpec c) : (f.next c).arg = f.arg + 1 := by
  have hl : ¬ c = chr 'l' := by
    rintro rfl
    exact absurd hends (by decide)
  rw [Spec.next, if_pos hf, if_neg hl]
  exact congrArg Spec.arg (if_pos hends)

theorem nextIn_of_not_ends (h : ¬ (f.format ∧ EndsSpec c)) : f.nextIn n pos c = f.next c := by
  apply if_neg
  rintro ⟨hf, rfl, -⟩
  exact h ⟨hf, by decide⟩

theorem render_of_not_takes (h : ¬ f.Takes s) : f.render va s = f.render va' s := by
  induction s generalizing f with
  | nil => rfl
  | cons c s ih =>
    have hends : ¬ (f.format ∧ EndsSpec c) := fun hc => h (.inl hc)
    rw [Spec.render, Spec.render, emit_of_not_ends hends, ih fun hs => h (.inr hs)]

theorem renderIn_of_not_takes (h : ¬ f.Takes s) :
    f.renderIn n va pos s = f.renderIn n va' pos s := by
  induction s generalizing f pos with
  | nil => rfl
  | cons c s ih =>
    have hends : ¬ (f.format ∧ EndsSpec c) := fun hc => h (.inl hc)
    have hemit : f.emit va c = f.emit va' c := emit_of_not_ends hends
    rw [Spec.renderIn, Spec.renderIn, hemit, nextIn_of_not_ends hends, ih fun hs => h (.inr hs)]

def zeroArg : VaArg := ⟨0, [], VaArg.empty_nul_free⟩

def oneArg : VaArg := ⟨1, [chr 'b'], by decide⟩

def firstArg (a : VaArg) : VaList := fun i => if i = 0 then a else zeroArg

theorem render_firstArg (harg : 0 < f.arg) (a b : VaArg) :
    f.render (firstArg a) s = f.render (firstArg b) s := by
  induction s generalizing f with
  | nil => rfl
  | cons c s ih =>
    have hsame : firstArg a f.arg = firstArg b f.arg := by
      rw [firstArg, firstArg, if_neg harg.ne', if_neg harg.ne']
    have hnext : 0 < (f.next c).arg := by
      by_cases hends : f.format ∧ EndsSpec c
      · rw [next_arg_of_ends hends.1 hends.2]
        exact Nat.succ_pos _
      · rwa [next_arg_of_not_ends hends]
    rw [Spec.render, Spec.render, emit_congr hsame, ih hnext]

/-- Every specifier tells the two first arguments apart. -/
theorem emit_firstArg_ne (harg : f.arg = 0) (hf : f.format) (hends : EndsSpec c) :
    f.emit (firstArg zeroArg) c ≠ f.emit (firstArg oneArg) c := by
  obtain ⟨format, longarg, arg⟩ := f
  obtain rfl : arg = 0 := harg
  obtain rfl : format = true := hf
  rcases hends with rfl | rfl | rfl | rfl | rfl
  all_goals cases longarg
  all_goals decide

theorem render_firstArg_ne (harg : f.arg = 0) (h : f.Takes s) :
    f.render (firstArg zeroArg) s ≠ f.render (firstArg oneArg) s := by
  induction s generalizing f with
  | nil => exact h.elim
  | cons c s ih =>
    rw [Spec.render, Spec.render]
    by_cases hends : f.format ∧ EndsSpec c
    · have hnext : 0 < (f.next c).arg := by
        rw [next_arg_of_ends hends.1 hends.2]
        exact Nat.succ_pos _
      rw [render_firstArg hnext zeroArg oneArg]
      intro heq
      exact emit_firstArg_ne harg hends.1 hends.2 (List.append_cancel_right heq)
    · have hemit : f.emit (firstArg zeroArg) c = f.emit (firstArg oneArg) c :=
        emit_of_not_ends hends
      rw [hemit]
      intro heq
      refine ih ?_ (h.resolve_left hends) (List.append_cancel_left heq)
      rw [next_arg_of_not_ends hends, harg]

end ProxyKernel.Print

namespace ProxyKernel.Syscall
open ByteMem Print

/-- The arguments that `sprint` finds when `do_panic` calls it. -/
def panicArgs (k : KernelContext) : VaList := vaStart k [k.vl]

/-- Whatever the registers, the stack and the `va_list` hold: before it shuts down,
`do_panic` sends what `sprint` sends for the same arguments, and each specifier is
rendered from its own argument. -/
structure ShowsArguments (s : List Byte) (args : List VaArg) : Prop where
  sent : ∀ m k k', (doPanic m k s args).writes = sprint k' s args :: (shutdown m k (-1)).writes
  rendered : ∀ k k', formattedText s (panicArgs k) = formattedText s (vaStart k' args)

theorem sprint_of_not_takes {s : List Byte} (h : ¬ TakesArgument s) (k k' : KernelContext)
    (args args' : List VaArg) : sprint k s args = sprint k' s args' := by
  have htext : formattedText s (vaStart k args) = formattedText s (vaStart k' args') :=
    render_of_not_takes h
  have hcount : countedText 256 s (vaStart k args) = countedText 256 s (vaStart k' args') :=
    renderIn_of_not_takes h
  have hsize : (vsnprintf k.out 256 s (vaStart k args)).size =
      (vsnprintf k'.out 256 s (vaStart k' args')).size := by
    rw [size_eq, size_eq, vsnprintf_pos, vsnprintf_pos, hcount]
  have hbytes : (sprint k s args).bytes = (sprint k' s args').bytes := by
    rw [sprint, sprint, vprintk_bytes, vprintk_bytes, htext, hsize]
  have hwrite (w : HostWrite) (hfile : w.file = stderrFile) : w = ⟨stderrFile, w.bytes⟩ := by
    rw [← hfile]
  rw [hwrite (sprint k s args) rfl, hwrite (sprint k' s args') rfl, hbytes]

/-- Zeros in the registers, and the address of the `va_list` and what it points to. -/
def zeroContext (vl : VaArg) : KernelContext := ⟨fun _ => zeroArg, fun _ => 0, vl⟩

theorem panicArgs_zeroContext (vl : VaArg) : panicArgs (zeroContext vl) = firstArg vl := by
  funext i
  cases i with
  | zero => rfl
  | succ i => rfl

/-- Two places of the `va_list` are enough to see that it is printed. -/
theorem ShowsArguments.not_takes {s : List Byte} {args : List VaArg} (h : ShowsArguments s args) :
    ¬ TakesArgument s := by
  intro htakes
  have hzero := h.rendered (zeroContext zeroArg) (zeroContext zeroArg)
  have hone := h.rendered (zeroContext oneArg) (zeroContext zeroArg)
  rw [panicArgs_zeroContext] at hzero hone
  exact render_firstArg_ne rfl htakes (hzero.trans hone.symm)

/-- No message of `kassert_fail` shows the place and the condition. -/
theorem not_showsArguments_assertFmt (args : List VaArg) : ¬ ShowsArguments assertFmt args :=
  fun h => h.not_takes (by decide)

/-- `do_panic` shows its arguments exactly when the format takes none. -/
theorem panic_shows_arguments_iff (s : List Byte) (args : List VaArg) :
    ShowsArguments s args ↔ ¬ TakesArgument s := by
  constructor
  · exact ShowsArguments.not_takes
  · intro h
    refine ⟨?_, ?_⟩
    · intro m k k'
      rw [doPanic, sprint_of_not_takes h k k' [k.vl] args]
    · intro k k'
      exact render_of_not_takes h

def stackContext : KernelContext := zeroContext ⟨0x811fff48, [chr 'c'], by decide⟩

/-- `panic("Unknown syscall %ld \n", 99)` names an address on the stack. -/
theorem panic_prints_va_list :
    (panic (fun _ => 0) stackContext unknownFmt [⟨99, [], by decide⟩]).writes.map (·.bytes) ≠
      (sprint stackContext (unknownFmt ++ [chr '\n']) [⟨99, [], by decide⟩] ::
        (shutdown (fun _ => 0) stackContext (-1)).writes).map (·.bytes) := by
  decide +kernel

end ProxyKernel.Syscall
