import ProxyKernel.TimerTicks
import ProxyKernel.TrapRefinement

namespace ProxyKernel.Trap
open ByteMem Riscv

variable {L : Layout} {s s' : State}

def isTick : Event → Bool
  | .tick => true
  | _ => false

def isMtimer : Event → Bool
  | .mtimer => true
  | _ => false

def ticks (log : List Event) : ℕ := log.countP isTick
def mtimers (log : List Event) : ℕ := log.countP isMtimer

/-- In a trap of the timer, on the way to the increment. -/
def BeforeCount (L : Layout) (s : State) : Prop :=
  match s.code with
  | none => s.hart.priv = .supervisor ∧ ¬ InBlock L.returnToUser 136 s.hart.pc ∧
      s.hart.csr .scause = CAUSE_MTIMER_S_TRAP
  | some .checkSpp | some .assertCurrent | some .saveEpc | some .readCause =>
    s.hart.csr .scause = CAUSE_MTIMER_S_TRAP
  | some (.dispatch cause) => cause = CAUSE_MTIMER_S_TRAP
  | some .printTicks | some .countTick => True
  | some _ => False

/-- A pending interrupt is good for one increment, until it has had it. -/
def credit (s : State) : ℕ := if pending s ∧ inWindow s.code = false then 1 else 0

structure Balanced (L : Layout) (n : ℕ) (g : Word) (s : State) : Prop where
  inv : Inv L s
  caused : BeforeCount L s → pending s = true
  account : ticks s.log + credit s ≤ mtimers s.log + n
  counter : s.gTicks = g + BitVec.ofNat 64 (ticks s.log)

variable {n : ℕ} {g : Word}

theorem Balanced.same (h : Balanced L n g s) (hinv : Inv L s') (hsip : s'.hart.csr .sip = s.hart.csr .sip)
    (hticks : ticks s'.log = ticks s.log) (hmtimers : mtimers s'.log = mtimers s.log)
    (hg : s'.gTicks = s.gTicks) (hwin : inWindow s'.code = inWindow s.code)
    (hbefore : BeforeCount L s' → BeforeCount L s) : Balanced L n g s' where
  inv := hinv
  caused hb := by
    rw [pending, hsip]
    exact h.caused (hbefore hb)
  account := by
    have hcredit : credit s' = credit s := by rw [credit, credit, pending, hsip, hwin, pending]
    rw [hticks, hmtimers, hcredit]
    exact h.account
  counter := by
    rw [hg, hticks]
    exact h.counter

theorem Balanced.goto (h : Balanced L n g s) {c : Clobber} {p : CPoint} (hinv : Inv L (s.goto L c p))
    (hwin : inWindow (some p) = inWindow s.code) (hbefore : BeforeCount L (s.goto L c p) → BeforeCount L s) :
    Balanced L n g (s.goto L c p) :=
  h.same hinv rfl rfl rfl rfl hwin hbefore

/-- The count uses up the interrupt that is pending. -/
theorem Balanced.tick (h : Balanced L n g s) (hinv : Inv L s') (hcode : s.code = some .countTick)
    (hlog : s'.log = s.log ++ [.tick]) (hg : s'.gTicks = s.gTicks + 1) (hzero : credit s' = 0)
    (hafter : ¬ BeforeCount L s') : Balanced L n g s' := by
  have hpending : pending s = true := h.caused (by rw [BeforeCount, hcode]; trivial)
  have hcredit : credit s = 1 := by rw [credit, hpending, hcode]; rfl
  have hticks : ticks s'.log = ticks s.log + 1 := hlog ▸ List.countP_append
  have hmtimers : mtimers s'.log = mtimers s.log := hlog ▸ List.countP_append
  have haccount := h.account
  refine ⟨hinv, fun hb => absurd hb hafter, ?_, ?_⟩
  · rw [hzero, hticks, hmtimers]
    omega
  · rw [hg, h.counter, hticks, BitVec.ofNat_add, ← BitVec.add_assoc]
    rfl

theorem credit_le_one (s : State) : credit s ≤ 1 := by
  rw [credit]
  split_ifs <;> omega

theorem Balanced.mtimer (h : Balanced L n g s) (hinv : Inv L s') (hlog : s'.log = s.log ++ [.mtimer])
    (hg : s'.gTicks = s.gTicks) (hpending : pending s' = true) : Balanced L n g s' := by
  have hticks : ticks s'.log = ticks s.log := hlog ▸ List.countP_append
  have hmtimers : mtimers s'.log = mtimers s.log + 1 := hlog ▸ List.countP_append
  have haccount := h.account
  refine ⟨hinv, fun _ => hpending, ?_, ?_⟩
  · have hone := credit_le_one s'
    rw [hticks, hmtimers]
    omega
  · rw [hg, hticks]
    exact h.counter

theorem CPoint.Logs.countP {p : CPoint} {old new : List Event} (h : p.Logs old new) (hp : p ≠ .countTick) :
    ticks new = ticks old ∧ mtimers new = mtimers old := by
  cases p with
  | countTick => exact absurd rfl hp
  | callSyscall tf =>
    obtain rfl | ⟨args, ret, rfl⟩ := h
    · exact ⟨rfl, rfl⟩
    · exact ⟨List.countP_append, List.countP_append⟩
  | _ => exact ⟨congrArg ticks h, congrArg mtimers h⟩

theorem CPoint.ticksAfter_of_ne {p : CPoint} (hp : p ≠ .countTick) (old : Word) : p.ticksAfter old = old := by
  cases p with
  | countTick => exact absurd rfl hp
  | _ => rfl

theorem CPoint.Leads.window_eq {p : CPoint} {q : Option CPoint} (h : p.Leads s q)
    (hcount : p ≠ .countTick) (hwrite : ∀ v, p ≠ .writeSip v) : Trap.inWindow q = Trap.inWindow (some p) := by
  rw [Bool.eq_iff_iff]
  refine ⟨h.inWindow hcount, fun hp => ?_⟩
  cases p with
  | readSip =>
    obtain rfl : q = some (.writeSip _) := h
    rfl
  | writeSip v => exact absurd rfl (hwrite v)
  | _ => cases hp

/-- On the way to the increment there is one way only. -/
theorem CStepEffect.beforeCount {c : Clobber} {p : CPoint} (he : CStepEffect L c s p s')
    (hcode : s.code = some p) (hb : BeforeCount L s') : BeforeCount L s := by
  have hcause (hp : .scause ∉ p.writes) : s'.hart.csr .scause = s.hart.csr .scause := he.csr .scause hp
  have hlead := he.code
  have hreturn := he.pc
  rw [BeforeCount] at hb ⊢
  rw [hcode]
  generalize hq : s'.code = q at hlead hreturn hb
  cases p with
  | checkSpp | assertCurrent =>
    obtain rfl | rfl := hlead
    · exact (hcause (by simp [CPoint.writes])).symm.trans hb
    · exact hb.elim
  | saveEpc =>
    obtain rfl : q = _ := hlead
    exact (hcause (by simp [CPoint.writes])).symm.trans hb
  | readCause =>
    obtain rfl : q = _ := hlead
    exact hb
  | dispatch cause =>
    obtain ⟨-, rfl⟩ | ⟨htimer, -⟩ | rfl := hlead
    · exact hb.elim
    · exact htimer
    · exact hb.elim
  | printTicks | countTick => trivial
  | callReturn proc =>
    obtain rfl : q = none := hlead
    refine absurd ?_ hb.2.1
    rw [hreturn rfl]
    simp [InBlock, offset]
  | callSyscall tf => obtain ⟨ret, rfl⟩ | rfl := hlead <;> exact hb.elim
  | assertProc proc => obtain rfl | rfl := hlead <;> exact hb.elim
  | stopped why => exact hlead.elim
  | _ =>
    obtain rfl : q = _ := hlead
    exact hb.elim

/-- The write of `sip` gives up what came in since. -/
theorem pending_writeSip {c : Clobber} {v : Word} (he : CStepEffect L c s (.writeSip v) s') :
    pending s' = false := by
  rw [pending, he.sip, CPoint.sipAfter, sipValue_clear, getLsbD_setBit _ _ (by decide), if_pos rfl]

theorem cStep_balanced {c : Clobber} {p : CPoint} (h : Balanced L n g s) (hcode : s.code = some p)
    (hinv : Inv L s') (hstep : cStep L c s p = some s') : Balanced L n g s' := by
  have he := cStep_effect hstep
  by_cases hcount : p = .countTick
  · subst hcount
    obtain hnext : s'.code = some .readSip := he.code
    refine h.tick hinv hcode he.log he.gTicks ?_ ?_
    · simp [credit, hnext, inWindow]
    · rw [BeforeCount, hnext]
      exact id
  obtain ⟨hticks, hmtimers⟩ := he.log.countP hcount
  have hg := he.gTicks.trans (CPoint.ticksAfter_of_ne hcount _)
  by_cases hwrite : ∃ v, p = .writeSip v
  · obtain ⟨v, rfl⟩ := hwrite
    have hafter : ¬ BeforeCount L s' := by
      intro hb
      have hbefore := he.beforeCount hcode hb
      rw [BeforeCount, hcode] at hbefore
      exact hbefore
    refine ⟨hinv, fun hb => absurd hb hafter, ?_, ?_⟩
    · have haccount := h.account
      rw [credit, pending_writeSip he, hticks, hmtimers]
      simp only [Bool.false_eq_true, false_and, if_false]
      omega
    · rw [hg, hticks]
      exact h.counter
  · rw [not_exists] at hwrite
    refine h.same hinv (he.sip.trans (CPoint.sipAfter_of_ne hwrite _)) hticks hmtimers hg ?_
      (he.beforeCount hcode)
    rw [hcode]
    exact he.code.window_eq hcount hwrite

theorem instr_balanced {i : Instr} (h : Balanced L n g s) (hcode : s.code = none)
    (hfetch : L.fetch s.hart.pc = some i) (hinv : Inv L { s with hart := s.hart.exec i })
    (hbefore : BeforeCount L { s with hart := s.hart.exec i } → ¬ InBlock L.returnToUser 136 s.hart.pc ∧
      s.hart.priv = .supervisor) : Balanced L n g { s with hart := s.hart.exec i } := by
  have hkeep {k : Csr} (hk : k ∉ [Csr.sscratch, .sstatus]) : (s.hart.exec i).csr k = s.hart.csr k :=
    Hart.exec_csr (fetch_csrs hfetch hk) s.hart
  refine h.same hinv (hkeep (by decide)) rfl rfl rfl rfl fun hb => ?_
  obtain ⟨hpc, hpriv⟩ := hbefore hb
  rw [BeforeCount] at hb ⊢
  simp only [hcode] at hb ⊢
  exact ⟨hpriv, hpc, (hkeep (by decide)).symm.trans hb.2.2⟩

theorem kernelStep_balanced {c : Clobber} (h : Balanced L n g s) (hpriv : s.hart.priv = .supervisor)
    (hstep : kernelStep L c s = some s') : Balanced L n g s' := by
  have hinv' : Inv L s' := kernelStep_inv h.inv hpriv hstep
  have hinv := h.inv
  cases hinv with
  | user hu => exact absurd (hpriv.symm.trans hu) (by decide)
  | vector i hi _ hcode hpc =>
    obtain ⟨instr, -, hfetch, hnext⟩ := kernelStep_vector c hi hcode hpc
    obtain rfl := Option.some.inj (hnext.symm.trans hstep)
    refine instr_balanced h hcode hfetch hinv' fun _ => ⟨?_, hpriv⟩
    rw [hpc]
    exact L.vector_apart _ (inBlock_instr _ hi (by decide))
  | handler _ hcode hpc =>
    rw [kernelStep_handler hcode hpc] at hstep
    obtain rfl := Option.some.inj hstep
    refine h.goto hinv' (by rw [hcode]; rfl) fun hb => ?_
    rw [BeforeCount, hcode]
    refine ⟨hpriv, ?_, hb⟩
    rw [hpc]
    exact L.handler_return
  | inC p _ hcode =>
    rw [kernelStep_c hcode] at hstep
    exact cStep_balanced h hcode hinv' hstep
  | leaving j hj _ hcode hpc _ hspp _ hat =>
    obtain ⟨instr, hinstr, hfetch, hnext⟩ := kernelStep_return c hj hcode hpc
    obtain rfl := Option.some.inj (hnext.symm.trans hstep)
    -- the code stays in `return_to_user` until `sret` leaves for user mode
    refine instr_balanced h hcode hfetch hinv' fun hb => absurd hb ?_
    rw [BeforeCount]
    simp only [hcode]
    rintro ⟨hsup, hout, -⟩
    by_cases hlast : j < 33
    · obtain ⟨-, hf⟩ := return_step hlast hinstr hat
      rw [hf.next_pc hpc] at hout
      exact hout (inBlock_instr _ (show j + 1 < 34 by omega) (by decide))
    · obtain rfl : j = 33 := by omega
      obtain rfl : Instr.sret = instr := Option.some.inj hinstr
      have hbit : (s.hart.csr .sstatus).getLsbD SPP = false := hspp
      have huser : (s.hart.exec .sret).priv = .user := by
        simp only [Hart.exec, Hart.sretStep, hbit]
        rfl
      exact absurd (hsup.symm.trans huser) (by decide)

theorem step_balanced (a : Action) (s s' : State) (h : Balanced L n g s)
    (hstep : step L a s = some s') : Balanced L n g s' := by
  have hinv' : Inv L s' := step_inv h.inv hstep
  cases a with
  | user regs pc mem =>
    rw [step] at hstep
    split_ifs at hstep with hpriv
    obtain rfl := Option.some.inj hstep
    refine h.same hinv' rfl rfl rfl rfl rfl fun hb => ?_
    rw [BeforeCount] at hb
    simp only [(h.inv.code_none_of_user hpriv).1, hpriv] at hb
    exact absurd hb.1 (by decide)
  | ecall =>
    rw [step] at hstep
    split_ifs at hstep with hpriv
    obtain rfl := Option.some.inj hstep
    refine h.same hinv' rfl rfl rfl rfl rfl fun hb => ?_
    rw [BeforeCount] at hb
    simp only [(h.inv.code_none_of_user hpriv).1] at hb
    exact absurd (show CAUSE_USER_ECALL = CAUSE_MTIMER_S_TRAP from hb.2.2) (by decide)
  | softInterrupt =>
    rw [step] at hstep
    split_ifs at hstep with hen
    obtain rfl := Option.some.inj hstep
    have hpriv : s.hart.priv = .user := by
      refine hen.2.resolve_right fun hS => ?_
      have hoff : (s.hart.csr .sstatus).getLsbD SIE = false := h.inv.sie hS.1
      rw [hoff] at hS
      cases hS.2
    have hcode := (h.inv.code_none_of_user hpriv).1
    exact ⟨hinv', fun _ => hen.1, by
      have haccount := h.account
      rw [credit, hcode] at haccount
      exact haccount, h.counter⟩
  | mtimer =>
    rw [step] at hstep
    split_ifs at hstep with hpriv
    obtain rfl := Option.some.inj hstep
    exact h.mtimer hinv' rfl rfl (pending_mtimer s _ _ _)
  | kernel c =>
    rw [step] at hstep
    split_ifs at hstep with hpriv
    exact kernelStep_balanced h hpriv hstep

/-- In every run, `g_ticks` has been incremented once for each tick of the log, and
there are not more of them than timer traps, with the interrupt that was pending at
the start; where one is still to be counted, there are fewer. -/
theorem ticks_le_timer_traps (L : Layout) {s t : State} {as : List Action} (hs : Start L s)
    (hrun : Transition.run (step L) as s = some t) :
    t.gTicks = s.gTicks + BitVec.ofNat 64 (ticks t.log) ∧
      ticks t.log + credit t ≤ mtimers t.log + if pending s then 1 else 0 := by
  have hstart : Balanced L (if pending s then 1 else 0) s.gTicks s := by
    refine ⟨hs.inv, fun hb => ?_, ?_, ?_⟩
    · rw [BeforeCount, hs.code] at hb
      exact hb.elim
    · simp [hs.log, ticks, mtimers, credit, hs.code, inWindow]
    · simp [hs.log, ticks]
  have hend : Balanced L _ _ t := Transition.run_invariant (C := fun _ _ => True)
    (fun a s s' h _ hstep => step_balanced a s s' h hstep) hstart (Transition.along_true as s) hrun
  exact ⟨hend.counter, hend.account⟩

def mergedRun : List Action := bootSteps ++ [.mtimer, .mtimer, .softInterrupt] ++ kernelSteps 92

theorem ticks_le_timer_traps_merged : ∃ t,
    Transition.run (step sampleLayout) mergedRun bootState = some t ∧ ticks t.log = 1 ∧ mtimers t.log = 2 ∧
      t.gTicks = 1 ∧ ticks t.log + credit t ≤ mtimers t.log := by
  have hend : ∃ t, Transition.run (step sampleLayout) mergedRun bootState = some t ∧
      ticks t.log = 1 ∧ mtimers t.log = 2 := exists_of_run _ (by decide +kernel)
  obtain ⟨t, hrun, hticks, hmtimers⟩ := hend
  obtain ⟨hcount, hle⟩ := ticks_le_timer_traps sampleLayout bootState_start hrun
  rw [hticks] at hcount
  exact ⟨t, hrun, hticks, hmtimers, hcount, hle⟩

end ProxyKernel.Trap
