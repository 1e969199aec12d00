import ProxyKernel.TrapMachine

namespace ProxyKernel.Trap
open ByteMem Riscv

variable {L : Layout}

/-- A timer trap came after the last increment of `g_ticks`. -/
def owed (log : List Event) : Bool :=
  log.foldl (fun b e => match e with
    | .tick => false
    | .mtimer => true
    | .syscall _ _ => b) false

@[simp] theorem owed_tick (log : List Event) : owed (log ++ [.tick]) = false := by
  simp [owed]

@[simp] theorem owed_mtimer (log : List Event) : owed (log ++ [.mtimer]) = true := by
  simp [owed]

@[simp] theorem owed_syscall (log : List Event) (args : Fin 8 → Word) (ret : Word) :
    owed (log ++ [.syscall args ret]) = owed log := by
  simp [owed]

def pending (s : State) : Bool := (s.hart.csr .sip).getLsbD SSIP

/-- Between the increment of `g_ticks` and the write of `sip`. -/
def inWindow : Option CPoint → Bool
  | some .readSip => true
  | some (.writeSip _) => true
  | _ => false

def OutsideWindow : Action → State → Prop
  | .mtimer, s => inWindow s.code = false
  | _, _ => True

instance : ∀ a s, Decidable (OutsideWindow a s)
  | .mtimer, s => inferInstanceAs (Decidable (inWindow s.code = false))
  | .user _ _ _, _ => .isTrue trivial
  | .ecall, _ => .isTrue trivial
  | .softInterrupt, _ => .isTrue trivial
  | .kernel _, _ => .isTrue trivial

/-- An uncounted tick is pending, and none is left when the bit is about to be cleared. -/
structure Counted (s : State) : Prop where
  pending_of_owed : owed s.log = true → pending s = true
  window : inWindow s.code = true → owed s.log = false

/-- A step that leaves the events, the pending interrupts and the place alone, or
goes to a place outside the window. -/
theorem Counted.same {s s' : State} (h : Counted s) (hlog : owed s'.log = owed s.log)
    (hsip : s'.hart.csr .sip = s.hart.csr .sip)
    (hcode : inWindow s'.code = true → inWindow s.code = true) : Counted s' where
  pending_of_owed := by
    rw [hlog, pending, hsip]
    exact h.pending_of_owed
  window := by
    rw [hlog]
    exact fun hw => h.window (hcode hw)

theorem Counted.goto {s : State} (h : Counted s) {c : Clobber} {p : CPoint}
    (hp : inWindow (some p) = false) : Counted (s.goto L c p) :=
  h.same rfl rfl fun hw => by cases hp.symm.trans hw

theorem CPoint.Logs.owed {p : CPoint} {old new : List Event} (h : p.Logs old new) (hp : p ≠ .countTick) :
    owed new = owed old := by
  cases p with
  | countTick => exact absurd rfl hp
  | callSyscall tf =>
    obtain rfl | ⟨args, ret, rfl⟩ := h
    · rfl
    · exact owed_syscall old args ret
  | _ => exact congrArg Trap.owed h

/-- The window opens with the increment and closes with the write. -/
theorem CPoint.Leads.inWindow {s : State} {p : CPoint} {q : Option CPoint} (h : p.Leads s q)
    (hp : p ≠ .countTick) (hq : inWindow q = true) : inWindow (some p) = true := by
  cases p with
  | countTick => exact absurd rfl hp
  | readSip | writeSip => rfl
  | checkSpp | assertCurrent | assertProc => obtain rfl | rfl := h <;> cases hq
  | dispatch cause => obtain ⟨-, rfl⟩ | ⟨-, rfl⟩ | rfl := h <;> cases hq
  | callSyscall tf => obtain ⟨ret, rfl⟩ | rfl := h <;> cases hq
  | stopped why => exact h.elim
  | _ => cases (show q = _ from h) ▸ hq

theorem CPoint.sipAfter_of_ne {p : CPoint} (hp : ∀ v, p ≠ .writeSip v) (old : Word) :
    p.sipAfter old = old := by
  cases p with
  | writeSip v => exact absurd rfl (hp v)
  | _ => rfl

theorem cStep_counted {s s' : State} {c : Clobber} {p : CPoint} (h : Counted s)
    (hcode : s.code = some p) (hstep : cStep L c s p = some s') : Counted s' := by
  have he := cStep_effect hstep
  by_cases hcount : p = .countTick
  · -- the window opens with nothing owed
    subst hcount
    have hnone : owed s'.log = false := by
      rw [show s'.log = _ from he.log, owed_tick]
    exact ⟨fun howed => (Bool.false_ne_true (hnone.symm.trans howed)).elim, fun _ => hnone⟩
  have hlog := he.log.owed hcount
  by_cases hwrite : ∃ v, p = .writeSip v
  · -- and closes when it has come to nothing
    obtain ⟨v, rfl⟩ := hwrite
    have hnone : owed s'.log = false := hlog.trans (h.window (by rw [hcode]; rfl))
    exact ⟨fun howed => (Bool.false_ne_true (hnone.symm.trans howed)).elim, fun _ => hnone⟩
  · rw [not_exists] at hwrite
    refine h.same hlog (he.sip.trans (CPoint.sipAfter_of_ne hwrite _)) fun hw => ?_
    rw [hcode]
    exact he.code.inWindow hcount hw

theorem kernelStep_counted {s s' : State} {c : Clobber} (h : Counted s)
    (hstep : kernelStep L c s = some s') : Counted s' := by
  cases hcode : s.code with
  | some p =>
    rw [kernelStep_c hcode] at hstep
    exact cStep_counted h hcode hstep
  | none =>
    cases hfetch : L.fetch s.hart.pc with
    | some i =>
      rw [kernelStep_instr hcode hfetch] at hstep
      obtain rfl := Option.some.inj hstep
      exact h.same rfl (Hart.exec_csr (fetch_csrs hfetch (by decide)) s.hart) id
    | none =>
      simp only [kernelStep, hcode, hfetch] at hstep
      split_ifs at hstep
      exact Option.some.inj hstep ▸ h.goto rfl

theorem pending_mtimer (s : State) (a v : Word) (log : List Event) :
    pending { (s.setCsr .sip (setBit (s.hart.csr .sip) SSIP true)).store a v with log := log } = true := by
  unfold pending
  show (Function.update s.hart.csr .sip (setBit (s.hart.csr .sip) SSIP true) .sip).getLsbD SSIP = true
  rw [Function.update_self, getLsbD_setBit _ _ (by decide), if_pos rfl]

theorem step_counted (a : Action) (s s' : State) (h : Counted s) (hwin : OutsideWindow a s)
    (hstep : step L a s = some s') : Counted s' := by
  cases a with
  | user regs pc mem =>
    rw [step] at hstep
    split_ifs at hstep
    obtain rfl := Option.some.inj hstep
    exact h.same rfl rfl id
  | ecall =>
    rw [step] at hstep
    split_ifs at hstep
    obtain rfl := Option.some.inj hstep
    exact h.same rfl rfl id
  | softInterrupt =>
    rw [step] at hstep
    split_ifs at hstep
    obtain rfl := Option.some.inj hstep
    exact h.same rfl rfl (by simp [inWindow])
  | mtimer =>
    rw [step] at hstep
    split_ifs at hstep
    obtain rfl := Option.some.inj hstep
    -- the new tick is pending; there is no window to be in
    exact ⟨fun _ => pending_mtimer s _ _ _, fun hw => by cases hwin.symm.trans hw⟩
  | kernel c =>
    rw [step] at hstep
    split_ifs at hstep
    exact kernelStep_counted h hstep

/-- In user mode every timer trap is still pending or was followed by an increment. -/
def NoneSwallowed (t : State) : Prop :=
  t.hart.priv = .user → pending t = false → owed t.log = false

instance (t : State) : Decidable (NoneSwallowed t) :=
  inferInstanceAs (Decidable (_ → _ → _))

/-- No tick is swallowed in a run in which no timer trap falls between the increment
of `g_ticks` and the write of `sip`. -/
theorem ticks_not_swallowed {L : Layout} {s t : State} {as : List Action} (hs : Start L s)
    (hwin : Transition.Along OutsideWindow (step L) as s)
    (hrun : Transition.run (step L) as s = some t) : NoneSwallowed t := by
  have hstart : Counted s := ⟨by simp [hs.log, owed], by simp [hs.log, owed]⟩
  have hend : Counted t := Transition.run_invariant step_counted hstart hwin hrun
  intro _ hclear
  by_contra howed
  rw [Bool.not_eq_false] at howed
  exact Bool.false_ne_true (hclear.symm.trans (hend.pending_of_owed howed))

def tickRun : List Action := bootSteps ++ [.mtimer, .softInterrupt] ++ kernelSteps 92

theorem tickRun_not_swallowed : ∃ t, Transition.run (step sampleLayout) tickRun bootState = some t ∧
    t.hart.priv = .user ∧ pending t = false ∧ NoneSwallowed t := by
  have hend : ∃ t, Transition.run (step sampleLayout) tickRun bootState = some t ∧
      t.hart.priv = .user ∧ pending t = false := exists_of_run _ (by decide +kernel)
  obtain ⟨t, hrun, huser, hclear⟩ := hend
  exact ⟨t, hrun, huser, hclear, ticks_not_swallowed bootState_start (by decide +kernel) hrun⟩

/-- A second timer trap falls behind the increment, before `sip` is read. -/
def lostRun : List Action :=
  bootSteps ++ [.mtimer, .softInterrupt] ++ kernelSteps 46 ++ [.mtimer] ++ kernelSteps 46

theorem second_tick_swallowed : Start sampleLayout bootState ∧
    ∃ t, Transition.run (step sampleLayout) lostRun bootState = some t ∧ ¬ NoneSwallowed t :=
  ⟨bootState_start, exists_of_run _ (by decide +kernel)⟩

end ProxyKernel.Trap
