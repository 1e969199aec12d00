import ProxyKernel.TrapRefinement

namespace ProxyKernel.Trap
open ByteMem Riscv Transition

theorem mtrapvecEntry_csr (stack0 : Word) (h : Hart) {k : Csr} (hk : k ≠ .mscratch) :
    (h.execAll (mtrapvecEntry stack0)).csr k = h.csr k := by
  rw [mtrapvecEntry_eq, Hart.execAll_append, execAll_saveSequence]
  exact (Function.update_of_ne hk _ _).trans (Function.update_of_ne hk _ _)

theorem mcause_mtrapvec (stack0 cause : Word) (h : Hart) :
    ((h.trapM cause).execAll (mtrapvecEntry stack0)).csr .mcause = cause :=
  mtrapvecEntry_csr stack0 (h.trapM cause) (by decide)

def faultMessage (cause : Word) : String :=
  if cause = CAUSE_FETCH_ACCESS then "Instruction access fault!"
  else if cause = CAUSE_LOAD_ACCESS then "Load access fault!"
  else if cause = CAUSE_STORE_ACCESS then "Store/AMO access fault!"
  else if cause = CAUSE_ILLEGAL_INSTRUCTION then "Illegal instruction!"
  else if cause = CAUSE_MISALIGNED_LOAD then "Misaligned Load!"
  else if cause = CAUSE_MISALIGNED_STORE then "Misaligned AMO!"
  else "unexpected exception happened in M-mode.\n"

/-- A load access fault does not get to the case behind it, although the `break` is
missing. -/
theorem mtrap_fault (stack0 : Word) (c : MClobber) {cause : Word} (hne : cause ≠ CAUSE_MTIMER) (h : Hart) :
    mtrap stack0 c cause h = .error (faultMessage cause) := by
  rw [mtrap, handleMtrap, mcause_mtrapvec, if_neg hne, faultMessage]
  split_ifs <;> rfl

/-- In a trap on the way to the branch on its cause. -/
def Handling (L : Layout) (cause : Word) (s : State) : Prop :=
  match s.code with
  | none => s.hart.priv = .supervisor ∧ ¬ InBlock L.returnToUser 136 s.hart.pc ∧ s.hart.csr .scause = cause
  | some .checkSpp | some .assertCurrent | some .saveEpc | some .readCause => s.hart.csr .scause = cause
  | some (.dispatch cause') => cause' = cause
  | some _ => False

structure Doomed (L : Layout) (cause : Word) (s : State) : Prop where
  inv : Inv L s
  priv : s.hart.priv = .supervisor
  place : Handling L cause s ∨ s.code = some (.stopped .unexpectedTrap)

variable {L : Layout} {s s' : State} {cause : Word}

theorem Handling.of_same (h : Handling L cause s) (hcode : s'.code = s.code)
    (hpriv : s'.hart.priv = s.hart.priv) (hpc : s'.hart.pc = s.hart.pc)
    (hcause : s'.hart.csr .scause = s.hart.csr .scause) : Handling L cause s' := by
  rw [Handling, hcode, hpriv, hpc, hcause]
  exact h

def CPoint.stepsLeft : CPoint → ℕ
  | .checkSpp => 5
  | .assertCurrent => 4
  | .saveEpc => 3
  | .readCause => 2
  | .dispatch _ => 1
  | _ => 0

def stepsLeft (L : Layout) (s : State) : ℕ :=
  match s.code with
  | none => if InBlock L.smodeTrapVector 152 s.hart.pc then 44 - offset L.smodeTrapVector s.hart.pc / 4 else 6
  | some p => p.stepsLeft

theorem stepsLeft_c {p : CPoint} (h : s.code = some p) : stepsLeft L s = p.stepsLeft := by
  rw [stepsLeft, h]

theorem stepsLeft_vector {i : ℕ} (hcode : s.code = none) (hi : i < 38)
    (hpc : s.hart.pc = L.smodeTrapVector + BitVec.ofNat 64 (4 * i)) : stepsLeft L s = 44 - i := by
  have hin : InBlock L.smodeTrapVector 152 s.hart.pc := hpc ▸ inBlock_instr _ hi (by decide)
  rw [stepsLeft, hcode]
  dsimp only
  rw [if_pos hin, hpc, offset_ofNat _ (by omega), Nat.mul_div_cancel_left i (by decide)]

theorem stepsLeft_handler (hcode : s.code = none) (hpc : s.hart.pc = L.smodeTrapHandler) :
    stepsLeft L s = 6 := by
  rw [stepsLeft, hcode]
  dsimp only
  rw [if_neg (hpc ▸ L.handler_vector)]

def Advances (L : Layout) (cause : Word) (s s' : State) : Prop :=
  (Handling L cause s' ∨ s'.code = some (.stopped .unexpectedTrap)) ∧ stepsLeft L s' < stepsLeft L s

theorem cStep_advances {p : CPoint} (hcode : s.code = some p) (h : Handling L cause s)
    (hne : cause ≠ CAUSE_USER_ECALL ∧ cause ≠ CAUSE_MTIMER_S_TRAP) (c : Clobber)
    (hinv : ∀ s', cStep L c s p = some s' → Inv L s') :
    ∃ s', cStep L c s p = some s' ∧ Advances L cause s s' := by
  rw [Handling, hcode] at h
  have hless {t : State} {q : CPoint} (hq : t.code = some q) (hlt : q.stepsLeft < p.stepsLeft) :
      stepsLeft L t < stepsLeft L s := by
    rw [stepsLeft_c hq, stepsLeft_c hcode]
    exact hlt
  cases p with
  | checkSpp =>
    rw [cStep] at hinv ⊢
    split_ifs with hspp
    · rw [if_pos hspp] at hinv
      exact absurd rfl ((hinv _ rfl).not_stopped rfl).1
    · exact ⟨_, rfl, .inl h, hless rfl (by decide)⟩
  | assertCurrent =>
    rw [cStep] at hinv ⊢
    split_ifs with hcur
    · rw [if_pos hcur] at hinv
      exact absurd rfl ((hinv _ rfl).not_stopped rfl).2
    · exact ⟨_, rfl, .inl h, hless rfl (by decide)⟩
  | saveEpc => exact ⟨_, rfl, .inl h, hless rfl (by decide)⟩
  | readCause => exact ⟨_, rfl, .inl h, hless rfl Nat.one_lt_two⟩
  | dispatch cause' =>
    obtain rfl : cause' = cause := h
    rw [cStep, if_neg hne.1, if_neg hne.2]
    exact ⟨_, rfl, .inr rfl, hless rfl Nat.one_pos⟩
  | _ => exact h.elim

theorem vector_advances {i : ℕ} (hi : i < 38) (hpriv : s.hart.priv = .supervisor) (hcode : s.code = none)
    (hpc : s.hart.pc = L.smodeTrapVector + BitVec.ofNat 64 (4 * i)) (hinst : Installed L s)
    (hat : AtVector L i s.hart) (h : Handling L cause s) (c : Clobber) :
    ∃ s', kernelStep L c s = some s' ∧ Advances L cause s s' := by
  obtain ⟨instr, hinstr, hfetch, hstep⟩ := kernelStep_vector c hi hcode hpc
  rw [Handling, hcode] at h
  have hcause : (s.hart.exec instr).csr .scause = cause :=
    (Hart.exec_csr (fetch_csrs hfetch (by decide)) s.hart).trans h.2.2
  have hhandling (hpriv' : (s.hart.exec instr).priv = .supervisor)
      (hout : ¬ InBlock L.returnToUser 136 (s.hart.exec instr).pc) :
      Handling L cause { s with hart := s.hart.exec instr } := by
    rw [Handling]
    simp only [hcode]
    exact ⟨hpriv', hout, hcause⟩
  refine ⟨_, hstep, ?_⟩
  rw [Advances, stepsLeft_vector hcode hi hpc]
  by_cases hlast : i < 37
  · obtain ⟨-, hf⟩ := vector_step hlast hinstr hat hinst.kernelSp hinst.kernelTrap
    have hpc' := hf.next_pc hpc
    refine ⟨.inl (hhandling (hf.priv.trans hpriv) ?_), ?_⟩
    · rw [hpc']
      exact L.vector_apart _ (inBlock_instr _ (show i + 1 < 38 by omega) (by decide))
    · rw [stepsLeft_vector (s := { s with hart := s.hart.exec instr }) hcode (by omega) hpc']
      omega
  · obtain rfl : i = 37 := by omega
    obtain rfl : Instr.jr .t0 = instr := Option.some.inj hinstr
    have hpc' : (s.hart.exec (.jr .t0)).pc = L.smodeTrapHandler := hat.t0 le_rfl
    refine ⟨.inl (hhandling hpriv ?_), ?_⟩
    · rw [hpc']
      exact L.handler_return
    · rw [stepsLeft_handler (s := { s with hart := s.hart.exec (.jr .t0) }) hcode hpc']
      decide

theorem kernelStep_advances (h : Doomed L cause s)
    (hne : cause ≠ CAUSE_USER_ECALL ∧ cause ≠ CAUSE_MTIMER_S_TRAP)
    (hgo : s.code ≠ some (.stopped .unexpectedTrap)) (c : Clobber) :
    ∃ s', kernelStep L c s = some s' ∧ Advances L cause s s' := by
  obtain ⟨hinv, hpriv, hplace⟩ := h
  have hplace := hplace.resolve_right hgo
  have hkeeps := fun s' (hstep : kernelStep L c s = some s') => kernelStep_inv hinv hpriv hstep
  cases hinv with
  | user hu => exact absurd (hpriv.symm.trans hu) (by decide)
  | vector i hi _ hcode hpc _ _ hinst hat => exact vector_advances hi hpriv hcode hpc hinst hat hplace c
  | handler _ hcode hpc =>
    rw [Handling, hcode] at hplace
    refine ⟨_, kernelStep_handler hcode hpc, .inl hplace.2.2, ?_⟩
    rw [stepsLeft_handler hcode hpc, stepsLeft_c rfl]
    decide
  | inC p _ hcode =>
    rw [kernelStep_c hcode] at hkeeps ⊢
    exact cStep_advances hcode hplace hne c hkeeps
  | leaving j hj _ hcode hpc =>
    rw [Handling, hcode] at hplace
    refine absurd ?_ hplace.2.1
    rw [hpc]
    exact inBlock_instr _ hj (by decide)

theorem Inv.priv_of_code (h : Inv L s) {p : CPoint} (hcode : s.code = some p) :
    s.hart.priv = .supervisor := by
  cases h with
  | user _ hnone => exact absurd (hcode.symm.trans hnone) (by simp)
  | vector _ _ hpriv => exact hpriv
  | handler hpriv => exact hpriv
  | inC _ hpriv => exact hpriv
  | leaving _ _ hpriv => exact hpriv

theorem doomed_of_place (hinv : Inv L s)
    (hplace : Handling L cause s ∨ s.code = some (.stopped .unexpectedTrap)) : Doomed L cause s := by
  refine ⟨hinv, ?_, hplace⟩
  cases hcode : s.code with
  | some p => exact hinv.priv_of_code hcode
  | none =>
    rcases hplace with hplace | hstopped
    · rw [Handling, hcode] at hplace
      exact hplace.1
    · exact absurd (hcode.symm.trans hstopped) (by simp)

/-- Whatever comes in between, user mode is not entered again. -/
theorem step_doomed (hne : cause ≠ CAUSE_USER_ECALL ∧ cause ≠ CAUSE_MTIMER_S_TRAP) (a : Action)
    (s s' : State) (h : Doomed L cause s) (hstep : step L a s = some s') : Doomed L cause s' := by
  have hinv' : Inv L s' := step_inv h.inv hstep
  have hnot : ¬ s.hart.priv = .user := fun hu => absurd (h.priv.symm.trans hu) (by decide)
  cases a with
  | user regs pc mem =>
    rw [step, if_neg hnot] at hstep
    cases hstep
  | ecall =>
    rw [step, if_neg hnot] at hstep
    cases hstep
  | softInterrupt =>
    rw [step] at hstep
    split_ifs at hstep with hen
    have hoff : (s.hart.csr .sstatus).getLsbD SIE = false := h.inv.sie h.priv
    exact absurd (hen.2.resolve_left hnot).2 (by rw [hoff]; decide)
  | mtimer =>
    rw [step] at hstep
    split_ifs at hstep
    obtain rfl := Option.some.inj hstep
    exact doomed_of_place hinv' (h.place.imp_left fun hh => hh.of_same rfl rfl rfl rfl)
  | kernel c =>
    rw [step, if_pos h.priv] at hstep
    by_cases hgo : s.code = some (.stopped .unexpectedTrap)
    · rw [kernelStep_c hgo] at hstep
      cases hstep
    · obtain ⟨t, ht, hadv⟩ := kernelStep_advances h hne hgo c
      obtain rfl := Option.some.inj (ht.symm.trans hstep)
      exact doomed_of_place hinv' hadv.1

def Panicked (s : State) : Prop := s.code = some (.stopped .unexpectedTrap)

theorem Doomed.ensures (h : Doomed L cause s)
    (hne : cause ≠ CAUSE_USER_ECALL ∧ cause ≠ CAUSE_MTIMER_S_TRAP) :
    Ensures (Next L) Panicked Panicked s := by
  induction hn : stepsLeft L s using Nat.strong_induction_on generalizing s with
  | _ n ih =>
    by_cases hgo : Panicked s
    · exact .final hgo hgo
    · refine .step hgo ?_ ?_
      · obtain ⟨t, ht, -⟩ := kernelStep_advances h hne hgo default
        exact ⟨t, (next_iff h.priv).mpr ⟨default, ht⟩⟩
      · rintro s' ⟨c, hstep⟩
        have hdoomed := step_doomed hne (.kernel c) s s' h hstep
        rw [step, if_pos h.priv] at hstep
        obtain ⟨t, ht, -, hless⟩ := kernelStep_advances h hne hgo c
        obtain rfl := Option.some.inj (ht.symm.trans hstep)
        exact ih _ (hn ▸ hless) hdoomed rfl

theorem UserMode.doomed (hs : UserMode L s) (cause : Word) :
    Doomed L cause { s with hart := s.hart.trapS cause } := by
  have hpc : (s.hart.trapS cause).pc = L.smodeTrapVector := hs.installed.stvec
  refine ⟨trap_inv cause hs.priv hs.code hs.installed hs.sscratch, rfl, .inl ?_⟩
  rw [Handling]
  simp only [hs.code]
  refine ⟨rfl, ?_, rfl⟩
  rw [hpc]
  refine L.vector_apart _ ?_
  simp [InBlock, offset]

/-- When `m_start` gets to its `mret`, an exception `e` of the user program other than
its system call is not survived.  One that is not delegated makes `handle_mtrap`
panic.  A delegated one makes `smode_trap_handler` panic, and wherever timer traps
fall, the hart does not come back to user mode. -/
theorem user_faults_are_final (L : Layout) (stack0 : Word) {hw : Delegable} {A : StartAddrs}
    {mtime : Word} {r r' : MachineRegs} (hS : supportsExtension r 'S')
    (hboot : mStart hw A mtime r = .ok r') {s : State} (hs : Reachable L s)
    (huser : s.hart.priv = .user) (e : ℕ) (he : e < 2 ^ 63) (hne : e ≠ 8) :
    (e ∉ [0, 3, 12, 13, 15] → r'.delegates e = false ∧ ∀ c,
      mtrap stack0 c (BitVec.ofNat 64 e) s.hart = .error (faultMessage (BitVec.ofNat 64 e))) ∧
    (e ∈ [0, 3, 12, 13, 15] → r'.delegates e = true ∧ ∀ as t,
      run (step L) as { s with hart := s.hart.trapS (BitVec.ofNat 64 e) } = some t →
        t.hart.priv ≠ .user ∧ Ensures (Next L) Panicked Panicked t) := by
  have hdelegates := (mStart_booted hS hboot).delegates_iff e
  refine ⟨fun hout => ⟨?_, fun c => mtrap_fault stack0 c ?_ s.hart⟩, fun hin => ⟨?_, fun as t hrun => ?_⟩⟩
  · rw [← Bool.not_eq_true, hdelegates]
    simp only [List.mem_cons, List.not_mem_nil, or_false] at hout ⊢
    omega
  · intro hmtimer
    have htoNat := congrArg BitVec.toNat hmtimer
    rw [BitVec.toNat_ofNat, Nat.mod_eq_of_lt (by omega)] at htoNat
    simp [CAUSE_MTIMER] at htoNat
    omega
  · rw [hdelegates]
    simp only [List.mem_cons, List.not_mem_nil, or_false] at hin ⊢
    omega
  · have hcause : BitVec.ofNat 64 e ≠ CAUSE_USER_ECALL ∧ BitVec.ofNat 64 e ≠ CAUSE_MTIMER_S_TRAP := by
      fin_cases hin <;> decide
    have hdoomed : Doomed L (BitVec.ofNat 64 e) t := run_invariant (C := fun _ _ => True)
      (fun a s s' h _ hstep => step_doomed hcause a s s' h hstep) ((hs.userMode huser).doomed _)
      (along_true as _) hrun
    exact ⟨fun hu => absurd (hdoomed.priv.symm.trans hu) (by decide), hdoomed.ensures hcause⟩

def spikeRegs : MachineRegs := ⟨0x8000000000141105, 0, 0, 0, 0, 0, 0, 0, 0⟩
def spikeAddrs : StartAddrs := ⟨0x8000b000, 0x80001000, 0x80003200⟩

theorem user_faults_are_final_sample : ∃ s, Reachable sampleLayout s ∧ s.hart.priv = .user ∧
    mtrap 0x8000a000 default CAUSE_ILLEGAL_INSTRUCTION s.hart = .error "Illegal instruction!" ∧
    Ensures (Next sampleLayout) Panicked Panicked { s with hart := s.hart.trapS 3 } := by
  have hend : ∃ s, run (step sampleLayout) bootSteps bootState = some s ∧ s.hart.priv = .user :=
    exists_of_run _ (by decide +kernel)
  obtain ⟨s, hrun, huser⟩ := hend
  have hreach : Reachable sampleLayout s := ⟨bootState, bootSteps, bootState_start, hrun⟩
  have hboot : ∃ r', mStart ⟨-1, -1⟩ spikeAddrs 5 spikeRegs = .ok r' := ⟨_, rfl⟩
  obtain ⟨r', hr'⟩ := hboot
  have hfaults := user_faults_are_final sampleLayout 0x8000a000 (by decide) hr' hreach huser
  exact ⟨s, hreach, huser, ((hfaults 2 (by decide) (by decide)).1 (by decide)).2 default,
    (((hfaults 3 (by decide) (by decide)).2 (by decide)).2 [] _ rfl).2⟩

end ProxyKernel.Trap
