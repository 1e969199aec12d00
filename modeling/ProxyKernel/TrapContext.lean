import ProxyKernel.TrapEntry

/-!
From its entry to its `sret` the kernel is followed with `Transition.Ensures`:
whatever the C code leaves in the registers and in unprotected memory, the hart
gets back to user mode, with the registers that stand in the trapframe.  The
lemmas go backwards, from the return code to the entry code.
-/

namespace ProxyKernel.Trap
open ByteMem Riscv Elf Transition

variable {L : Layout}

/-- A step of the kernel, with any choice of what the C code changes. -/
def Next (L : Layout) (s s' : State) : Prop := ∃ c, step L (.kernel c) s = some s'

theorem next_iff {s s' : State} (hpriv : s.hart.priv = .supervisor) :
    Next L s s' ↔ ∃ c, kernelStep L c s = some s' := by
  simp only [Next, step, hpriv, if_true]

variable {final Q : State → Prop}

theorem ensures_instr {s : State} {i : Instr} (hpriv : s.hart.priv = .supervisor)
    (hcode : s.code = none) (hf : ¬ final s) (hfetch : L.fetch s.hart.pc = some i)
    (h : Ensures (Next L) final Q { s with hart := s.hart.exec i }) :
    Ensures (Next L) final Q s := by
  apply Ensures.of_eq hf _ h
  intro s'
  rw [next_iff hpriv]
  constructor
  · rintro ⟨c, hc⟩
    rw [kernelStep_instr hcode hfetch] at hc
    exact (Option.some.inj hc).symm
  · rintro rfl
    exact ⟨default, kernelStep_instr hcode hfetch⟩

/-- Code that lies at `base` runs from its `k`-th instruction to its end, and only
the last instruction may leave it. -/
theorem ensures_code (base : Word) {is : List Instr}
    (hfetch : ∀ i < is.length, L.fetch (base + BitVec.ofNat 64 (4 * i)) = is[i]?)
    (hplain : ∀ i ∈ is.dropLast, i.plain = true)
    (hfinal : ∀ s : State, s.hart.priv = .supervisor → s.code = none → ¬ final s)
    {rest : List Instr} {k : ℕ} (hrest : is.drop k = rest) {s : State}
    (hpriv : s.hart.priv = .supervisor) (hcode : s.code = none)
    (hpc : s.hart.pc = base + BitVec.ofNat 64 (4 * k))
    (h : Ensures (Next L) final Q { s with hart := s.hart.execAll rest }) :
    Ensures (Next L) final Q s := by
  induction rest generalizing k s with
  | nil => exact h
  | cons i rest ih =>
    have hk : is[k]? = some i := by
      rw [← List.head?_drop, hrest]
      rfl
    have hlt : k < is.length := (List.getElem?_eq_some_iff.mp hk).1
    have hnext : is.drop (k + 1) = rest := by
      rw [← List.tail_drop, hrest]
      rfl
    apply ensures_instr (i := i) hpriv hcode (hfinal s hpriv hcode)
    · rw [hpc, hfetch k hlt, hk]
    · cases rest with
      | nil => exact h
      | cons j rest =>
        have hlt' : k + 1 < is.length := by
          by_contra hge
          rw [List.drop_eq_nil_of_le (by omega)] at hnext
          cases hnext
        have hmem : i ∈ is.dropLast := by
          rw [List.mem_iff_getElem?]
          refine ⟨k, ?_⟩
          rw [List.getElem?_dropLast, if_pos (by omega), hk]
        obtain ⟨hpc', hpriv'⟩ := Hart.exec_plain (hplain i hmem) s.hart
        refine ih hnext (hpriv'.trans hpriv) hcode ?_ h
        change (s.hart.exec i).pc = _
        rw [hpc', hpc]
        bv_omega

theorem ensures_handler {s : State} (hpriv : s.hart.priv = .supervisor) (hcode : s.code = none)
    (hpc : s.hart.pc = L.smodeTrapHandler) (hf : ¬ final s)
    (h : ∀ c, Ensures (Next L) final Q (s.goto L c .checkSpp)) : Ensures (Next L) final Q s := by
  apply Ensures.step hf
  · exact ⟨_, (next_iff hpriv).mpr ⟨default, kernelStep_handler hcode hpc⟩⟩
  · intro s' hs'
    obtain ⟨c, hc⟩ := (next_iff hpriv).mp hs'
    rw [kernelStep_handler hcode hpc] at hc
    exact Option.some.inj hc ▸ h c

theorem ensures_c {s : State} {p : CPoint} (hpriv : s.hart.priv = .supervisor)
    (hcode : s.code = some p) (hf : ¬ final s)
    (h : ∀ c, ∃ s', cStep L c s p = some s' ∧ Ensures (Next L) final Q s') :
    Ensures (Next L) final Q s := by
  apply Ensures.step hf
  · obtain ⟨s', hs', -⟩ := h default
    refine ⟨s', (next_iff hpriv).mpr ⟨default, ?_⟩⟩
    rw [kernelStep_c hcode, hs']
  · intro t ht
    obtain ⟨c, hc⟩ := (next_iff hpriv).mp ht
    obtain ⟨s', hs', hgo⟩ := h c
    rw [kernelStep_c hcode, hs'] at hc
    exact Option.some.inj hc ▸ hgo

/-- The saved registers and `epc`, the pending interrupts, and the events so far. -/
structure Cargo where
  regs : Reg → Word
  epc : Word
  sip : Word
  log : List Event

structure Carries (L : Layout) (k : Cargo) (s : State) : Prop where
  priv : s.hart.priv = .supervisor
  process : Process L s.hart.mem
  regs : ∀ r : Reg, load64 s.hart.mem (field USER_TRAP_FRAME r.off) = k.regs r
  epc : load64 s.hart.mem (field USER_TRAP_FRAME epcOff) = k.epc
  sip : s.hart.csr .sip = k.sip
  log : s.log = k.log

structure Resumed (k : Cargo) (s : State) : Prop where
  priv : s.hart.priv = .user
  code : s.code = none
  regs : s.hart.regs = k.regs
  pc : s.hart.pc = k.epc
  sip : s.hart.csr .sip = k.sip
  log : s.log = k.log

theorem isProtected_field {off : ℕ} (h : off + 8 ≤ trapframeSize) {x : Word}
    (hx : InBlock (field USER_TRAP_FRAME off) 8 x) : L.Protected x :=
  .inl (hx.of_sub h (by decide))

theorem load64_keep_field (m m' : Mem) {off : ℕ} (h : off + 8 ≤ trapframeSize) :
    load64 (L.keep m m') (field USER_TRAP_FRAME off) = load64 m (field USER_TRAP_FRAME off) :=
  load64_congr fun _ hx => if_pos (isProtected_field h hx)

theorem Carries.goto {k : Cargo} {s : State} (h : Carries L k s) (c : Clobber) (p : CPoint) :
    Carries L k (s.goto L c p) where
  priv := h.priv
  process := h.process.congr (sameCore_keep _ _)
  regs := fun r => (load64_keep_field _ _ (r.off_le.trans (by decide))).trans (h.regs r)
  epc := (load64_keep_field _ _ (by decide)).trans h.epc
  sip := h.sip
  log := h.log

theorem Carries.store {k : Cargo} {s : State} (h : Carries L k s) {off : ℕ} {v : Word}
    (h1 : kernelSpOff ≤ off) (h2 : off + 8 ≤ epcOff) :
    Carries L k (s.store (field USER_TRAP_FRAME off) v) where
  priv := h.priv
  process := h.process.store (by unfold epcOff trapframeSize at *; omega)
  regs := by
    intro r
    have hr := r.off_le
    refine Eq.trans ?_ (h.regs r)
    unfold kernelSpOff epcOff at *
    exact load64_store64_field _ _ _ (by omega) (by omega) (by omega)
  epc := by
    refine Eq.trans ?_ h.epc
    unfold kernelSpOff epcOff at *
    exact load64_store64_field _ _ _ (by omega) (by omega) (by omega)
  sip := h.sip
  log := h.log

def InUser (s : State) : Prop := s.hart.priv = .user

theorem not_inUser {s : State} (h : s.hart.priv = .supervisor) : ¬ InUser s := by
  intro hu
  rw [InUser, h] at hu
  cases hu

theorem ensures_leaving {k : Cargo} {s : State} (h : Carries L k s) (hcode : s.code = none)
    (hpc : s.hart.pc = L.returnToUser) (ha0 : s.hart.regs .a0 = USER_TRAP_FRAME)
    (hsepc : s.hart.csr .sepc = k.epc) (hspp : sppBit s.hart = false) :
    Ensures (Next L) InUser (Resumed k) s := by
  have hall : returnToUser.drop 0 = returnToUser := rfl
  apply ensures_code L.returnToUser (fun i hi => fetch_return L hi) (by decide)
    (fun s hs _ => not_inUser hs) hall h.priv hcode (hpc.trans (BitVec.add_zero _).symm)
  have hbit : (s.hart.csr .sstatus).getLsbD SPP = false := hspp
  have hregs : (fun r : Reg => load64 s.hart.mem (s.hart.regs .a0 + 0 + BitVec.ofNat 64 r.off)) =
      k.regs := by
    funext r
    rw [ha0, ← h.regs r]
    rfl
  have hrun : s.hart.execAll returnToUser =
      { regs := k.regs, pc := k.epc, priv := .user, mem := s.hart.mem,
        csr := Function.update (Function.update s.hart.csr .sscratch (s.hart.regs .a0)) .sstatus
          (setBit (setBit (setBit (s.hart.csr .sstatus) SIE ((s.hart.csr .sstatus).getLsbD SPIE))
            SPIE true) SPP false) } := by
    unfold returnToUser
    rw [Hart.execAll_append, Hart.execAll_append, execAll_restoreAllRegisters, ← hregs, ← hsepc]
    simp only [Hart.execAll_cons, Hart.execAll_nil, Hart.exec, Hart.effect, Hart.setReg, Hart.setCsr,
      Hart.sretStep, Function.update_self, ne_eq, reduceCtorEq, not_false_eq_true,
      Function.update_of_ne, hbit, Bool.false_eq_true, if_false]
  rw [hrun]
  exact .final rfl ⟨rfl, hcode, rfl, rfl, h.sip, h.log⟩

theorem ensures_callReturn {k : Cargo} {s : State} (h : Carries L k s)
    (hcode : s.code = some (.callReturn L.userApp)) (hsepc : s.hart.csr .sepc = k.epc)
    (hspp : sppBit s.hart = false) : Ensures (Next L) InUser (Resumed k) s := by
  refine ensures_c h.priv hcode (not_inUser h.priv) fun c => ⟨_, rfl, ?_⟩
  have hgo := h.goto c .checkSpp
  exact ensures_leaving ⟨hgo.priv, hgo.process, hgo.regs, hgo.epc, hgo.sip, hgo.log⟩ rfl rfl
    h.process.trapframe hsepc hspp

theorem ensures_setSepc {k : Cargo} {s : State} (h : Carries L k s)
    (hcode : s.code = some (.setSepc L.userApp)) (hspp : sppBit s.hart = false) :
    Ensures (Next L) InUser (Resumed k) s := by
  refine ensures_c h.priv hcode (not_inUser h.priv) fun c => ⟨_, rfl, ?_⟩
  have hset : Carries L k (s.setCsr .sepc
      (load64 s.hart.mem (field (trapframeOf s.hart.mem L.userApp) epcOff))) :=
    ⟨h.priv, h.process, h.regs, h.epc, h.sip, h.log⟩
  refine ensures_callReturn (hset.goto c _) rfl ?_ hspp
  change load64 s.hart.mem (field (trapframeOf s.hart.mem L.userApp) epcOff) = k.epc
  rw [h.process.trapframe, h.epc]

theorem ensures_writeSstatus {k : Cargo} {s : State} {x : Word} (h : Carries L k s)
    (hcode : s.code = some (.writeSstatus L.userApp x)) :
    Ensures (Next L) InUser (Resumed k) s := by
  refine ensures_c h.priv hcode (not_inUser h.priv) fun c => ⟨_, rfl, ?_⟩
  have hset : Carries L k (s.setCsr .sstatus (x &&& ~~~ SSTATUS_SPP ||| SSTATUS_SPIE)) :=
    ⟨h.priv, h.process, h.regs, h.epc, h.sip, h.log⟩
  exact ensures_setSepc (hset.goto c _) rfl (sstatus_bits x).2

theorem ensures_readSstatus {k : Cargo} {s : State} (h : Carries L k s)
    (hcode : s.code = some (.readSstatus L.userApp)) : Ensures (Next L) InUser (Resumed k) s := by
  refine ensures_c h.priv hcode (not_inUser h.priv) fun c => ⟨_, rfl, ?_⟩
  exact ensures_writeSstatus (h.goto c _) rfl

theorem ensures_setKernelTrap {k : Cargo} {s : State} (h : Carries L k s)
    (hcode : s.code = some (.setKernelTrap L.userApp)) : Ensures (Next L) InUser (Resumed k) s := by
  refine ensures_c h.priv hcode (not_inUser h.priv) fun c => ⟨_, rfl, ?_⟩
  rw [h.process.trapframe]
  exact ensures_readSstatus ((h.store (by decide) (by decide)).goto c _) rfl

theorem ensures_setKernelSp {k : Cargo} {s : State} (h : Carries L k s)
    (hcode : s.code = some (.setKernelSp L.userApp)) : Ensures (Next L) InUser (Resumed k) s := by
  refine ensures_c h.priv hcode (not_inUser h.priv) fun c => ⟨_, rfl, ?_⟩
  rw [h.process.trapframe]
  exact ensures_setKernelTrap ((h.store (by decide) (by decide)).goto c _) rfl

theorem ensures_setStvec {k : Cargo} {s : State} (h : Carries L k s)
    (hcode : s.code = some (.setStvec L.userApp)) : Ensures (Next L) InUser (Resumed k) s := by
  refine ensures_c h.priv hcode (not_inUser h.priv) fun c => ⟨_, rfl, ?_⟩
  have hset : Carries L k (s.setCsr .stvec L.smodeTrapVector) :=
    ⟨h.priv, h.process, h.regs, h.epc, h.sip, h.log⟩
  exact ensures_setKernelSp (hset.goto c _) rfl

theorem ensures_setCurrent {k : Cargo} {s : State} (h : Carries L k s)
    (hcode : s.code = some (.setCurrent L.userApp)) : Ensures (Next L) InUser (Resumed k) s := by
  refine ensures_c h.priv hcode (not_inUser h.priv) fun c => ⟨_, rfl, ?_⟩
  have hset : Carries L k { s with current := L.userApp } :=
    ⟨h.priv, h.process, h.regs, h.epc, h.sip, h.log⟩
  exact ensures_setStvec (hset.goto c _) rfl

/-- The whole of `switch_to(&user_app)`. -/
theorem ensures_switch {k : Cargo} {s : State} (h : Carries L k s)
    (hcode : s.code = some (.assertProc L.userApp)) : Ensures (Next L) InUser (Resumed k) s := by
  refine ensures_c h.priv hcode (not_inUser h.priv) fun c => ⟨_, if_neg L.userApp_ne, ?_⟩
  exact ensures_setCurrent (h.goto c _) rfl

theorem ensures_callSwitch {k : Cargo} {s : State} (h : Carries L k s)
    (hcode : s.code = some .callSwitch) (hcur : s.current = L.userApp) :
    Ensures (Next L) InUser (Resumed k) s := by
  refine ensures_c h.priv hcode (not_inUser h.priv) fun c => ⟨_, rfl, ?_⟩
  rw [hcur]
  exact ensures_switch (h.goto c _) rfl

def Cargo.cleared (k : Cargo) : Cargo := { k with sip := setBit k.sip SSIP false }

theorem sipValue_clear (old v : Word) : sipValue old (v &&& ~~~ SIP_SSIP) = setBit old SSIP false := by
  simp [sipValue, SIP_SSIP, SSIP]

theorem ensures_readSip {k : Cargo} {s : State} (h : Carries L k s) (hcode : s.code = some .readSip)
    (hcur : s.current = L.userApp) : Ensures (Next L) InUser (Resumed k.cleared) s := by
  refine ensures_c h.priv hcode (not_inUser h.priv) fun c => ⟨_, rfl, ?_⟩
  have hgo := h.goto c (.writeSip (s.hart.csr .sip))
  refine ensures_c hgo.priv rfl (not_inUser hgo.priv) fun c' => ⟨_, rfl, ?_⟩
  rw [sipValue_clear]
  refine ensures_callSwitch (Carries.goto (s := State.setCsr _ _ _) ?_ c' _) rfl hcur
  refine ⟨hgo.priv, hgo.process, hgo.regs, hgo.epc, ?_, hgo.log⟩
  exact congrArg (fun w => setBit w SSIP false) hgo.sip

def Cargo.counted (k : Cargo) : Cargo := { k with log := k.log ++ [.tick] }

/-- The print and the count, up to a point not before the read of `sip`. -/
theorem ensures_printTicks {k : Cargo} {s : State} (h : Carries L k s)
    (hcode : s.code = some .printTicks) (hcur : s.current = L.userApp)
    (hfinal : ∀ s : State, s.hart.priv = .supervisor → s.code ≠ some .readSip → ¬ final s)
    (hthen : ∀ s, Carries L k.counted s → s.code = some .readSip → s.current = L.userApp →
      Ensures (Next L) final Q s) : Ensures (Next L) final Q s := by
  refine ensures_c h.priv hcode (hfinal s h.priv (by simp [hcode])) fun c => ⟨_, rfl, ?_⟩
  have hgo := h.goto c .countTick
  refine ensures_c hgo.priv rfl (hfinal _ hgo.priv (by simp [State.goto])) fun c' => ⟨_, rfl, ?_⟩
  refine hthen _ (Carries.goto ?_ c' _) rfl hcur
  exact ⟨hgo.priv, hgo.process, hgo.regs, hgo.epc, hgo.sip, congrArg (· ++ [Event.tick]) hgo.log⟩

theorem Carries.storeReg {k : Cargo} {s : State} (h : Carries L k s) (r : Reg) (v : Word) :
    Carries L { k with regs := Function.update k.regs r v }
      (s.store (field USER_TRAP_FRAME r.off) v) where
  priv := h.priv
  process := h.process.store (r.off_le.trans (by decide))
  regs := by
    intro q
    by_cases hq : q = r
    · subst hq
      simp [State.store]
    · have h1 := r.off_le
      have h2 := q.off_le
      refine Eq.trans ?_ (Function.update_of_ne hq v k.regs).symm
      exact (load64_store64_field _ _ _ (by omega) (by omega) (Reg.off_apart (Ne.symm hq))).trans
        (h.regs q)
  epc := by
    have hr := r.off_le
    unfold epcOff at *
    exact (load64_store64_field _ _ _ (by omega) (by omega) (by omega)).trans h.epc
  sip := h.sip
  log := h.log

theorem Carries.storeEpc {k : Cargo} {s : State} (h : Carries L k s) (v : Word) :
    Carries L { k with epc := v } (s.store (field USER_TRAP_FRAME epcOff) v) where
  priv := h.priv
  process := h.process.store (by decide)
  regs := by
    intro r
    have hr := r.off_le
    unfold epcOff at *
    exact (load64_store64_field _ _ _ (by omega) (by omega) (by omega)).trans (h.regs r)
  epc := load64_store64 _ _ _
  sip := h.sip
  log := h.log

def argReg : Fin 8 → Reg := ![.a0, .a1, .a2, .a3, .a4, .a5, .a6, .a7]

theorem argReg_off (i : Fin 8) : (argReg i).off = Reg.a0.off + 8 * i := by
  revert i
  decide

theorem Carries.syscallArgs {k : Cargo} {s : State} (h : Carries L k s) :
    syscallArgs s.hart.mem USER_TRAP_FRAME = fun i => k.regs (argReg i) := by
  funext i
  rw [← h.regs, argReg_off]
  rfl

def Cargo.called (k : Cargo) (ret : Word) : Cargo :=
  { k with
    regs := Function.update k.regs .a0 ret
    log := k.log ++ [.syscall (fun i => k.regs (argReg i)) ret] }

def Known (n : Word) : Prop := n = Syscall.SYS_user_print ∨ n = Syscall.SYS_user_backtrace

theorem ensures_callSyscall {k : Cargo} {s : State} (h : Carries L k s)
    (hcode : s.code = some (.callSyscall USER_TRAP_FRAME)) (hcur : s.current = L.userApp)
    (hknown : Known (k.regs .a0)) :
    Ensures (Next L) InUser (fun t => ∃ ret, Resumed (k.called ret) t) s := by
  refine ensures_c h.priv hcode (not_inUser h.priv) fun c => ?_
  obtain ⟨w, ret, hret⟩ := Syscall.doSyscall_returns s.hart.mem c.context s.current
    (a := syscallArgs s.hart.mem USER_TRAP_FRAME) (h.syscallArgs ▸ hknown)
  rw [cStep, hret]
  refine ⟨_, rfl, ?_⟩
  rw [h.syscallArgs]
  have hcall : Carries L { k with log := k.log ++ [.syscall (fun i => k.regs (argReg i)) ret] }
      { s with log := s.log ++ [.syscall (fun i => k.regs (argReg i)) ret] } :=
    ⟨h.priv, h.process, h.regs, h.epc, h.sip, congrArg (· ++ [_]) h.log⟩
  have hgo := hcall.goto c (.storeRet USER_TRAP_FRAME ret)
  refine ensures_c hgo.priv rfl (not_inUser hgo.priv) fun c' => ⟨_, rfl, ?_⟩
  exact (ensures_callSwitch ((hgo.storeReg .a0 ret).goto c' _) rfl hcur).mono fun t ht => ⟨ret, ht⟩

theorem ensures_advanceEpc {k : Cargo} {s : State} (h : Carries L k s)
    (hcode : s.code = some (.advanceEpc USER_TRAP_FRAME)) (hcur : s.current = L.userApp)
    (hknown : Known (k.regs .a0)) :
    Ensures (Next L) InUser (fun t => ∃ ret, Resumed (Cargo.called { k with epc := k.epc + 4 } ret) t) s := by
  refine ensures_c h.priv hcode (not_inUser h.priv) fun c => ⟨_, rfl, ?_⟩
  rw [h.epc]
  exact ensures_callSyscall ((h.storeEpc _).goto c _) rfl hcur hknown

theorem ensures_checkSpp {k : Cargo} {s : State} (h : Carries L k s)
    (hcode : s.code = some .checkSpp) (hcur : s.current = L.userApp) (hspp : sppBit s.hart = false)
    (hfinal : ∀ s : State, s.hart.priv = .supervisor → s.code ≠ some .readSip → ¬ final s)
    (hthen : ∀ t, Carries L { k with epc := s.hart.csr .sepc } t →
      t.code = some (.dispatch (s.hart.csr .scause)) → t.current = L.userApp →
        Ensures (Next L) final Q t) : Ensures (Next L) final Q s := by
  have hclear : ¬ s.hart.csr .sstatus &&& SSTATUS_SPP ≠ 0 := by
    rw [SSTATUS_SPP, and_twoPow_ne_zero _ (by decide)]
    simpa [sppBit] using hspp
  have hne : ¬ s.current = 0 := fun h0 => L.userApp_ne (hcur ▸ h0)
  refine ensures_c h.priv hcode (hfinal s h.priv (by simp [hcode])) fun c1 =>
    ⟨_, if_neg hclear, ?_⟩
  refine ensures_c h.priv rfl (hfinal _ h.priv (by simp [State.goto])) fun c2 => ⟨_, if_neg hne, ?_⟩
  have h2 := (h.goto c1 .assertCurrent).goto c2 .saveEpc
  refine ensures_c h.priv rfl (hfinal _ h.priv (by simp [State.goto])) fun c3 => ⟨_, rfl, ?_⟩
  have htf : trapframeOf ((s.goto L c1 .assertCurrent).goto L c2 .saveEpc).hart.mem
      ((s.goto L c1 .assertCurrent).goto L c2 .saveEpc).current = USER_TRAP_FRAME := by
    refine Eq.trans ?_ h2.process.trapframe
    rw [← hcur]
    rfl
  rw [htf]
  have h3 := (h2.storeEpc (s.hart.csr .sepc)).goto c3 .readCause
  refine ensures_c h3.priv rfl (hfinal _ h3.priv (by simp [State.goto])) fun c4 => ⟨_, rfl, ?_⟩
  exact hthen _ (h3.goto c4 _) rfl hcur

structure UserMode (L : Layout) (s : State) : Prop where
  priv : s.hart.priv = .user
  code : s.code = none
  installed : Installed L s
  sscratch : s.hart.csr .sscratch = USER_TRAP_FRAME

theorem Reachable.userMode {s : State} (h : Reachable L s) (hpriv : s.hart.priv = .user) :
    UserMode L s := by
  obtain ⟨s0, as, hstart, hrun⟩ := h
  obtain ⟨hcode, hinst, hscratch⟩ := (run_inv hstart hrun).code_none_of_user hpriv
  exact ⟨hpriv, hcode, hinst, hscratch⟩

def entered (h : Hart) : Hart :=
  { saved .sscratch h with
    regs := Function.update (Function.update (saved .sscratch h).regs .sp
      (load64 (savedMem .sscratch h) (field (h.csr .sscratch) kernelSpOff))) .t0
      (load64 (savedMem .sscratch h) (field (h.csr .sscratch) kernelTrapOff))
    pc := load64 (savedMem .sscratch h) (field (h.csr .sscratch) kernelTrapOff) }

/-- The last instructions of the entry code, with the frame at `a0`. -/
theorem execAll_jumpToHandler (h : Hart) :
    h.execAll [Instr.ld .sp 248 .a0, .ld .t0 256 .a0, .jr .t0] =
      { h with
        regs := Function.update (Function.update h.regs .sp
          (load64 h.mem (field (h.regs .a0) kernelSpOff))) .t0
          (load64 h.mem (field (h.regs .a0) kernelTrapOff))
        pc := load64 h.mem (field (h.regs .a0) kernelTrapOff) } := rfl

theorem execAll_smodeTrapVector (h : Hart) : h.execAll smodeTrapVector = entered h := by
  have ha0 : (saved .sscratch h).regs .a0 = h.csr .sscratch := by
    simp [saved, swappedRegs]
  rw [smodeTrapVector_eq, Hart.execAll_append, execAll_saveSequence, execAll_jumpToHandler, ha0]
  rfl

/-- What the entry code saves: the value of `t6` is lost. -/
def trapCargo (s : State) : Cargo where
  regs := fun r => if r = .t6 then USER_TRAP_FRAME else s.hart.regs r
  epc := s.hart.csr .sepc
  sip := s.hart.csr .sip
  log := s.log

theorem ensures_vector {s : State} (hat : AtEntry L s) (hinst : Installed L s)
    (hscratch : s.hart.csr .sscratch = USER_TRAP_FRAME) (hspp : sppBit s.hart = false)
    (hfinal : ∀ s : State, s.hart.priv = .supervisor → s.code ≠ some .readSip → ¬ final s)
    (hthen : ∀ t, Carries L (trapCargo s) t → t.code = some (.dispatch (s.hart.csr .scause)) →
      t.current = L.userApp → Ensures (Next L) final Q t) :
    Ensures (Next L) final Q s := by
  obtain ⟨hpriv, hcode, hpc⟩ := hat
  have hall : smodeTrapVector.drop 0 = smodeTrapVector := rfl
  apply ensures_code L.smodeTrapVector (fun i hi => fetch_vector L hi) (by decide)
    (fun s hs hn => hfinal s hs (by simp [hn])) hall hpriv hcode
    (hpc.trans (BitVec.add_zero _).symm)
  rw [execAll_smodeTrapVector]
  have hfield (off : ℕ) (h1 : 248 ≤ off) (h2 : off + 8 ≤ 2 ^ 64) :
      load64 (savedMem .sscratch s.hart) (field USER_TRAP_FRAME off) =
        load64 s.hart.mem (field USER_TRAP_FRAME off) := by
    rw [field, ← hscratch]
    exact load64_savedMem_field h1 h2
  have hcore : SameCore L s.hart.mem (savedMem .sscratch s.hart) := fun x hx =>
    savedMem_of_not_mem_block (hscratch ▸ fun hin => not_core_of_regs hin hx)
  have hpc' : (entered s.hart).pc = L.smodeTrapHandler := by
    rw [← hinst.kernelTrap, ← hfield kernelTrapOff (by decide) (by decide), ← hscratch]
    rfl
  -- the epc in the frame is still that of the trap before
  have hcarry : Carries L { trapCargo s with epc := load64 s.hart.mem (field USER_TRAP_FRAME epcOff) }
      { s with hart := entered s.hart } := by
    refine ⟨hpriv, hinst.process.congr hcore, ?_, hfield epcOff (by decide) (by decide), rfl, rfl⟩
    intro r
    have hr := load64_savedMem .sscratch s.hart r
    rw [hscratch] at hr
    exact hr
  refine ensures_handler hcarry.priv hcode hpc' (hfinal _ hcarry.priv (by simp [hcode])) fun c => ?_
  exact ensures_checkSpp (hcarry.goto c .checkSpp) rfl hinst.current hspp hfinal hthen

theorem trapS_spp {h : Hart} (hpriv : h.priv = .user) (cause : Word) :
    sppBit (h.trapS cause) = false := by
  refine (getLsbD_setBit _ _ (by decide)).trans ?_
  simp [hpriv]

theorem ensures_trap {s : State} {cause : Word} (hs : UserMode L s)
    (hfinal : ∀ s : State, s.hart.priv = .supervisor → s.code ≠ some .readSip → ¬ final s)
    (hthen : ∀ t, Carries L { trapCargo s with epc := s.hart.pc } t →
      t.code = some (.dispatch cause) → t.current = L.userApp → Ensures (Next L) final Q t) :
    Ensures (Next L) final Q { s with hart := s.hart.trapS cause } :=
  ensures_vector ⟨rfl, hs.code, hs.installed.stvec⟩ (hs.installed.congr (sameCore_refl _) rfl rfl)
    hs.sscratch (trapS_spp hs.priv cause) hfinal hthen

/-- What the user's program finds after a trap: everything but `t6` is back. -/
def backCargo (s : State) : Cargo := { trapCargo s with epc := s.hart.pc }

theorem ensures_dispatch_timer {k : Cargo} {s : State} (h : Carries L k s)
    (hcode : s.code = some (.dispatch CAUSE_MTIMER_S_TRAP)) (hcur : s.current = L.userApp)
    (hfinal : ∀ s : State, s.hart.priv = .supervisor → s.code ≠ some .readSip → ¬ final s)
    (hthen : ∀ s, Carries L k.counted s → s.code = some .readSip → s.current = L.userApp →
      Ensures (Next L) final Q s) : Ensures (Next L) final Q s := by
  have hne : ¬ CAUSE_MTIMER_S_TRAP = CAUSE_USER_ECALL := by decide
  refine ensures_c h.priv hcode (hfinal s h.priv (by simp [hcode])) fun c =>
    ⟨s.goto L c .printTicks, ?_, ?_⟩
  · rw [cStep, if_neg hne, if_pos rfl]
  · exact ensures_printTicks (h.goto c _) rfl hcur hfinal hthen

theorem ensures_timer {s : State} (hs : UserMode L s) :
    Ensures (Next L) InUser (Resumed (backCargo s).counted.cleared)
      { s with hart := s.hart.trapS CAUSE_MTIMER_S_TRAP } := by
  apply ensures_trap hs fun s hpriv _ => not_inUser hpriv
  intro t ht hcode hcur
  exact ensures_dispatch_timer ht hcode hcur (fun s hpriv _ => not_inUser hpriv)
    fun t ht hcode hcur => ensures_readSip ht hcode hcur

theorem ensures_syscall {s : State} (hs : UserMode L s) (hknown : Known (s.hart.regs .a0)) :
    Ensures (Next L) InUser
      (fun t => ∃ ret, Resumed (Cargo.called { backCargo s with epc := s.hart.pc + 4 } ret) t)
      { s with hart := s.hart.trapS CAUSE_USER_ECALL } := by
  apply ensures_trap hs fun s hpriv _ => not_inUser hpriv
  intro t ht hcode hcur
  have htf : trapframeOf t.hart.mem t.current = USER_TRAP_FRAME := by
    rw [hcur]
    exact ht.process.trapframe
  refine ensures_c ht.priv hcode (not_inUser ht.priv) fun c =>
    ⟨t.goto L c (.advanceEpc USER_TRAP_FRAME), ?_, ?_⟩
  · rw [cStep, if_pos rfl, htf]
  · exact ensures_advanceEpc (ht.goto c _) rfl hcur hknown

/-- What the user may expect of a trap that was taken in state `s`: after the
timer interrupt nothing has changed; after a system call `a0` holds the value
that `do_syscall` returned for the arguments in `a0`, .., `a7`. -/
def Preserves (s : State) : Action → State → Prop
  | .ecall, t => ∃ ret, t.log = s.log ++ [.syscall (fun i => s.hart.regs (argReg i)) ret] ∧
      t.hart.regs = Function.update s.hart.regs .a0 ret ∧ t.hart.pc = s.hart.pc + 4
  | _, t => t.hart.regs = s.hart.regs ∧ t.hart.pc = s.hart.pc

def Returning (s : State) (a : Action) : Prop :=
  a = .softInterrupt ∨ a = .ecall ∧ Known (s.hart.regs .a0)

theorem trapped_eq {s t : State} {a : Action} (hs : UserMode L s) (ha : Returning s a)
    (ht : step L a s = some t) :
    (a = .softInterrupt ∧ t = { s with hart := s.hart.trapS CAUSE_MTIMER_S_TRAP }) ∨
      (a = .ecall ∧ Known (s.hart.regs .a0) ∧ t = { s with hart := s.hart.trapS CAUSE_USER_ECALL }) := by
  rcases ha with rfl | ⟨rfl, hknown⟩
  · rw [step] at ht
    split_ifs at ht
    refine .inl ⟨rfl, ?_⟩
    rw [← Option.some.inj ht, hs.code]
  · rw [step, if_pos hs.priv] at ht
    exact .inr ⟨rfl, hknown, (Option.some.inj ht).symm⟩

theorem ensures_t6 {s t : State} {a : Action} (hs : UserMode L s) (ha : Returning s a)
    (ht : step L a s = some t) :
    Ensures (Next L) InUser (fun u => u.hart.regs .t6 = USER_TRAP_FRAME) t := by
  rcases trapped_eq hs ha ht with ⟨rfl, rfl⟩ | ⟨rfl, hknown, rfl⟩
  · apply (ensures_timer hs).mono
    intro u hu
    rw [hu.regs]
    rfl
  · apply (ensures_syscall hs hknown).mono
    rintro u ⟨ret, hu⟩
    rw [hu.regs]
    rfl

theorem not_preserves_of_t6 {s t : State} {a : Action} (hs : UserMode L s) (ha : Returning s a)
    (ht : step L a s = some t) (ht6 : s.hart.regs .t6 ≠ USER_TRAP_FRAME) :
    ¬ Ensures (Next L) InUser (Preserves s a) t := by
  intro h
  obtain ⟨u, hu, hu6⟩ := h.exists_and (ensures_t6 hs ha ht)
  apply ht6
  rw [← hu6]
  rcases ha with rfl | ⟨rfl, -⟩
  · exact (congrFun hu.1 .t6).symm
  · obtain ⟨ret, -, hregs, -⟩ := hu
    rw [hregs, Function.update_of_ne (by decide)]

/-- However the C code uses the registers, a trap gives the user's context back
exactly when `t6` held the address of the trapframe. -/
theorem user_context_preserved_iff (L : Layout) {s t : State} {a : Action} (hs : UserMode L s)
    (ha : Returning s a) (ht : step L a s = some t) :
    Ensures (Next L) InUser (Preserves s a) t ↔ s.hart.regs .t6 = USER_TRAP_FRAME := by
  constructor
  · intro h
    by_contra ht6
    exact not_preserves_of_t6 hs ha ht ht6 h
  · intro ht6
    have hregs : (backCargo s).regs = s.hart.regs := by
      funext r
      by_cases hr : r = .t6
      · simp [backCargo, trapCargo, hr, ht6]
      · simp [backCargo, trapCargo, hr]
    rcases trapped_eq hs ha ht with ⟨rfl, rfl⟩ | ⟨rfl, hknown, rfl⟩
    · apply (ensures_timer hs).mono
      intro u hu
      exact ⟨hu.regs.trans hregs, hu.pc⟩
    · apply (ensures_syscall hs hknown).mono
      rintro u ⟨ret, hu⟩
      refine ⟨ret, ?_, ?_, hu.pc⟩
      · rw [← hregs]
        exact hu.log
      · rw [← hregs]
        exact hu.regs

def interruptedSteps (t6 : Word) : List Action :=
  bootSteps ++ [.user (Function.update (fun _ => 0) .t6 t6) 0x81000000 (fun _ => 0), .mtimer]

def Interrupted (t6 : Word) (s : State) : Prop :=
  s.hart.priv = .user ∧ s.hart.regs .t6 = t6 ∧ (step sampleLayout .softInterrupt s).isSome

instance (t6 : Word) : DecidablePred (Interrupted t6) := fun _ =>
  inferInstanceAs (Decidable (_ ∧ _ ∧ _))

theorem user_context_preserved_at_frame : ∃ s t, Reachable sampleLayout s ∧
    step sampleLayout .softInterrupt s = some t ∧
      Ensures (Next sampleLayout) InUser (Preserves s .softInterrupt) t := by
  obtain ⟨s, hrun, hpriv, ht6, hen⟩ := exists_of_run (interruptedSteps USER_TRAP_FRAME)
    (P := Interrupted USER_TRAP_FRAME) (by decide +kernel)
  obtain ⟨t, ht⟩ := Option.isSome_iff_exists.mp hen
  have hreach : Reachable sampleLayout s := ⟨_, _, bootState_start, hrun⟩
  exact ⟨s, t, hreach, ht,
    (user_context_preserved_iff sampleLayout (hreach.userMode hpriv) (.inl rfl) ht).mpr ht6⟩

/-- A program that keeps 7 in `t6` does not get it back. -/
theorem user_t6_lost : ∃ s t, Reachable sampleLayout s ∧ s.hart.regs .t6 = 7 ∧
    step sampleLayout .softInterrupt s = some t ∧
      ¬ Ensures (Next sampleLayout) InUser (Preserves s .softInterrupt) t := by
  obtain ⟨s, hrun, hpriv, ht6, hen⟩ := exists_of_run (interruptedSteps 7)
    (P := Interrupted 7) (by decide +kernel)
  obtain ⟨t, ht⟩ := Option.isSome_iff_exists.mp hen
  have hreach : Reachable sampleLayout s := ⟨_, _, bootState_start, hrun⟩
  refine ⟨s, t, hreach, ht6, ht, ?_⟩
  apply not_preserves_of_t6 (hreach.userMode hpriv) (.inl rfl) ht
  rw [ht6]
  decide

end ProxyKernel.Trap
