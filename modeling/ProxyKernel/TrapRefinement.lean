import ProxyKernel.UserMachine

/-!
Every run of the kernel with machine mode under it is a run of the user's machine.
In the trap code the hart is where it would be without timer traps, and the C code
owes the user's machine the system call or the tick until it has happened.
-/

namespace ProxyKernel.Trap
open ByteMem Riscv Elf Transition

variable {L : Layout} {K : Linked} {s s' : State} {w : List UserEvent} {v : UserMachine}

/-- The kernel is at work, with these registers and this `epc` in the trapframe. -/
def Saved (L : Layout) (regs : Reg → Word) (epc : Word) (s : State) : Prop :=
  Carries L ⟨regs, epc, s.hart.csr .sip, s.log⟩ s

theorem core_of_protected {m m' : Mem} (hmem : ∀ x, L.Protected x → m' x = m x) : SameCore L m m' :=
  fun x hx => hmem x hx.isProtected

theorem load64_field_of_protected {m m' : Mem} (hmem : ∀ x, L.Protected x → m' x = m x) {off : ℕ}
    (hoff : off + 8 ≤ trapframeSize) :
    load64 m' (field USER_TRAP_FRAME off) = load64 m (field USER_TRAP_FRAME off) :=
  load64_congr fun x hx => hmem x (isProtected_field hoff hx)

theorem Saved.congr {regs : Reg → Word} {epc : Word} (h : Saved L regs epc s)
    (hpriv : s'.hart.priv = s.hart.priv) (hmem : ∀ x, L.Protected x → s'.hart.mem x = s.hart.mem x) :
    Saved L regs epc s' where
  priv := hpriv.trans h.priv
  process := h.process.congr (core_of_protected hmem)
  regs := fun r => (load64_field_of_protected hmem (r.off_le.trans (by decide))).trans (h.regs r)
  epc := (load64_field_of_protected hmem (by decide)).trans h.epc
  sip := rfl
  log := rfl

theorem protected_goto (c : Clobber) (p : CPoint) {x : Word} (hx : L.Protected x) :
    (s.goto L c p).hart.mem x = s.hart.mem x :=
  if_pos hx

theorem Saved.goto {regs : Reg → Word} {epc : Word} (h : Saved L regs epc s) (c : Clobber)
    (p : CPoint) : Saved L regs epc (s.goto L c p) :=
  h.congr rfl fun _ hx => protected_goto c p hx

theorem Saved.setCsr {regs : Reg → Word} {epc : Word} (h : Saved L regs epc s) (k : Csr) (x : Word) :
    Saved L regs epc (s.setCsr k x) :=
  h.congr rfl fun _ _ => rfl

def Pends (w : List UserEvent) (cause : Word) : Prop :=
  (w = [.ecall] ∧ cause = CAUSE_USER_ECALL) ∨ (w = [.tick] ∧ cause = CAUSE_MTIMER_S_TRAP) ∨
    ∃ e, UserFault e ∧ w = [.fault e] ∧ cause = BitVec.ofNat 64 e

/-- From the entry of the handler to the store of `epc`. -/
structure Entered (L : Layout) (s : State) (w : List UserEvent) (v : UserMachine) : Prop where
  saved : ∃ epc, Saved L v.saved epc s
  sepc : s.hart.csr .sepc = v.pc
  pends : Pends w (s.hart.csr .scause)

/-- The kernel has stopped in a system call of the user that shuts the machine down. -/
def ShutDown (K : Linked) (w : List UserEvent) (v : UserMachine) : Prop :=
  ∃ m k ws code, v.SavedIn (K.withProgram v.mem m) ∧ userCall K v m k = some ⟨ws, .shutdown code⟩ ∧
    w = .ecall :: ws.map fun x => .printed x.bytes

def Ended (K : Linked) (w : List UserEvent) (v : UserMachine) (why : Stop) : Prop :=
  why = .shutdown ∧ ShutDown K w v ∨ why = .unexpectedTrap ∧ ∃ e, UserFault e ∧ w = [.fault e]

/-- How the C code stands to the user's machine.  A system call happens there with the
call of `do_syscall`, a tick with the increment of `g_ticks`. -/
def OwesAt (K : Linked) (s : State) (w : List UserEvent) (v : UserMachine) : CPoint → Prop
  | .checkSpp | .assertCurrent | .saveEpc => Entered K.kernel s w v
  | .readCause => Saved K.kernel v.saved v.pc s ∧ Pends w (s.hart.csr .scause)
  | .dispatch cause => Saved K.kernel v.saved v.pc s ∧ Pends w cause
  | .advanceEpc _ => Saved K.kernel v.saved v.pc s ∧ w = [.ecall]
  | .callSyscall _ => Saved K.kernel v.saved (v.pc + 4) s ∧ w = [.ecall]
  | .storeRet _ ret =>
    w = [] ∧ ∃ regs, Saved K.kernel regs v.pc s ∧ v.regs = Function.update regs .a0 ret
  | .printTicks => Saved K.kernel v.saved v.pc s ∧ w = [.tick]
  | .countTick => Saved K.kernel v.saved v.pc s ∧ w = [.tick, .printed (ticksText v.gTicks)]
  | .callReturn _ => Saved K.kernel v.regs v.pc s ∧ w = [] ∧ s.hart.csr .sepc = v.pc
  | .stopped why => Ended K w v why
  | _ => Saved K.kernel v.regs v.pc s ∧ w = []

structure Trapped (w : List UserEvent) (v : UserMachine) (g : Hart) : Prop where
  regs : g.regs = v.regs
  sscratch : g.csr .sscratch = USER_TRAP_FRAME
  sepc : g.csr .sepc = v.pc
  pends : Pends w (g.csr .scause)

structure Departing (v : UserMachine) (g : Hart) : Prop where
  a0 : g.regs .a0 = USER_TRAP_FRAME
  regs : ∀ r : Reg, load64 g.mem (field USER_TRAP_FRAME r.off) = v.regs r
  sepc : g.csr .sepc = v.pc

/-- Equal but for the traces of timer traps, as far as the trap code can tell. -/
def AgreeTrap : Hart → Hart → Prop := Agree (· ∉ traceCsrs) InTrapframe

theorem agreeTrap_take_zero (h : Hart) (is : List Instr) : AgreeTrap (h.execAll (is.take 0)) h :=
  Agree.refl h

/-- Every place of the kernel, and what it stands for.  In the trap code the hart is
where it would be without timer traps. -/
inductive Owes (K : Linked) (s : State) (w : List UserEvent) (v : UserMachine) : Prop
  | user (hpriv : s.hart.priv = .user) (hw : w = []) (hregs : s.hart.regs = v.regs)
      (hpc : s.hart.pc = v.pc)
  | vector (i : ℕ) (hi : i < 38) (hpriv : s.hart.priv = .supervisor) (hcode : s.code = none)
      (hpc : s.hart.pc = K.kernel.smodeTrapVector + BitVec.ofNat 64 (4 * i)) (g : Hart)
      (hg : Trapped w v g) (hagree : AgreeTrap (g.execAll (smodeTrapVector.take i)) s.hart)
  | handler (hcode : s.code = none) (hpc : s.hart.pc = K.kernel.smodeTrapHandler)
      (hent : Entered K.kernel s w v)
  | inC (p : CPoint) (hpriv : s.hart.priv = .supervisor) (hcode : s.code = some p)
      (hat : OwesAt K s w v p)
  | leaving (j : ℕ) (hj : j < 34) (hpriv : s.hart.priv = .supervisor) (hcode : s.code = none)
      (hpc : s.hart.pc = K.kernel.returnToUser + BitVec.ofNat 64 (4 * j)) (hw : w = []) (g : Hart)
      (hg : Departing v g) (hagree : AgreeTrap (g.execAll (returnToUser.take j)) s.hart)

/-- The kernel and the user's machine, with the traps that have not happened above yet. -/
structure Related (K : Linked) (s : State) (w : List UserEvent) (v : UserMachine) : Prop where
  inv : Inv K.kernel s
  mscratch : s.hart.csr .mscratch = K.machine.itrframe
  mhartid : s.hart.csr .mhartid = 0
  mem : v.mem = K.programPart s.hart.mem
  ticks : s.gTicks = v.gTicks
  owes : Owes K s w v

theorem Inv.atC {p : CPoint} (h : Inv L s) (hcode : s.code = some p) : AtC L s p := by
  cases h with
  | user _ hn => exact absurd (hn.symm.trans hcode) (by simp)
  | vector _ _ _ hn => exact absurd (hn.symm.trans hcode) (by simp)
  | handler _ hn => exact absurd (hn.symm.trans hcode) (by simp)
  | inC q _ hq _ hat =>
    obtain rfl := Option.some.inj (hq.symm.trans hcode)
    exact hat
  | leaving _ _ _ hn => exact absurd (hn.symm.trans hcode) (by simp)

theorem instr_index {base : Word} {i j n : ℕ} (hi : i < n) (hj : j < n) (hn : 4 * n ≤ 2 ^ 64)
    (h : base + BitVec.ofNat 64 (4 * i) = base + BitVec.ofNat 64 (4 * j)) : i = j := by
  have h1 := offset_ofNat base (i := 4 * i) (by omega)
  have h2 := offset_ofNat base (i := 4 * j) (by omega)
  rw [h] at h1
  omega

theorem Inv.atVector {i : ℕ} (h : Inv L s) (hpriv : s.hart.priv = .supervisor) (hcode : s.code = none)
    (hi : i < 38) (hpc : s.hart.pc = L.smodeTrapVector + BitVec.ofNat 64 (4 * i)) :
    Installed L s ∧ AtVector L i s.hart := by
  have hin := inBlock_instr L.smodeTrapVector hi (by decide)
  cases h with
  | user hs => exact absurd (hpriv.symm.trans hs) (by decide)
  | vector j hj _ _ hpc' _ _ hinst hat =>
    obtain rfl := instr_index hi hj (by decide) (hpc.symm.trans hpc')
    exact ⟨hinst, hat⟩
  | handler _ _ hpc' =>
    rw [← hpc, hpc'] at hin
    exact absurd hin L.handler_vector
  | inC p _ hcode' => exact absurd (hcode.symm.trans hcode') (by simp)
  | leaving j hj _ _ hpc' =>
    have hin' := inBlock_instr L.returnToUser hj (by decide)
    rw [← hpc', hpc] at hin'
    exact absurd hin' (L.vector_apart _ hin)

theorem Inv.priv_ne_machine (h : Inv L s) : s.hart.priv ≠ .machine := by
  cases h with
  | user hs => simp [hs]
  | vector _ _ hs => simp [hs]
  | handler hs => simp [hs]
  | inC _ hs => simp [hs]
  | leaving _ _ hs => simp [hs]

/-- A timer trap spares the trapframe and the process structure. -/
theorem AfterTimer.protected_mem {h h' : Hart} (ha : AfterTimer K.machine h h') {x : Word}
    (hx : K.kernel.Protected x) : h'.mem x = h.mem x := by
  have hclint : Apart CLINT_MTIMECMP 8 USER_TRAP_FRAME trapframeSize :=
    apart_of_offset (by decide) (by decide)
  rcases hx with hx | hx
  · rw [ha.mem x (K.machine.user_frame x hx) (K.machine.user_stack x hx)]
    exact store64_of_not_mem fun hin => hclint x hin hx
  · rw [ha.mem x (fun hin => K.frame_process x hin hx) (fun hin => K.stack_process x hin hx)]
    exact store64_of_not_mem fun hin => K.kernel.clint_apart x hin hx

theorem AfterTimer.program_mem {h h' : Hart} (ha : AfterTimer K.machine h h') {x : Word}
    (hx : K.Program x) : h'.mem x = h.mem x := by
  rcases hx with hx | hx
  · rw [ha.mem x (fun hin => K.user_frame x hx hin) (fun hin => K.user_stack x hx hin)]
    exact store64_of_not_mem fun hin => K.user_clint x hx hin
  · exact ha.protected_mem (.inr hx)

theorem Related.timer_step (hr : Related K s w v) {c : MClobber}
    (h : machineStep K (.timer c) s = some s') :
    ∃ h', AfterTimer K.machine s.hart h' ∧ s' = { s with hart := h', log := s.log ++ [.mtimer] } := by
  obtain ⟨h', hrun, ha⟩ := mtrap_timer ⟨hr.inv.priv_ne_machine, hr.mscratch, hr.mhartid⟩ c
  simp only [machineStep, if_neg hr.inv.priv_ne_machine, hrun, Option.some.injEq] at h
  exact ⟨h', ha, h.symm⟩

/-- The C code does not notice what happens outside the memory and the registers that
it looks at. -/
theorem OwesAt.congr {p : CPoint} (h : OwesAt K s w v p) (hpriv : s'.hart.priv = s.hart.priv)
    (hmem : ∀ x, K.kernel.Protected x → s'.hart.mem x = s.hart.mem x)
    (hsepc : s'.hart.csr .sepc = s.hart.csr .sepc)
    (hscause : s'.hart.csr .scause = s.hart.csr .scause) : OwesAt K s' w v p := by
  have hent (he : Entered K.kernel s w v) : Entered K.kernel s' w v := by
    obtain ⟨⟨epc, hs⟩, h1, h2⟩ := he
    exact ⟨⟨epc, hs.congr hpriv hmem⟩, hsepc.trans h1, hscause ▸ h2⟩
  cases p with
  | checkSpp | assertCurrent | saveEpc => exact hent h
  | readCause => exact ⟨h.1.congr hpriv hmem, hscause ▸ h.2⟩
  | storeRet tf ret =>
    obtain ⟨hw, regs, hs, hregs⟩ := h
    exact ⟨hw, regs, hs.congr hpriv hmem, hregs⟩
  | callReturn proc => exact ⟨h.1.congr hpriv hmem, h.2.1, hsepc.trans h.2.2⟩
  | stopped why => exact h
  | _ => exact ⟨h.1.congr hpriv hmem, h.2⟩

/-- In the kernel, where it does not disturb the interrupted code. -/
theorem Owes.timer {h' : Hart} {log : List Event} (h : Owes K s w v)
    (hpriv : s.hart.priv = .supervisor) (ha : AfterTimer K.machine s.hart h')
    (ht6 : s.hart.regs .t6 = K.machine.itrframe) :
    Owes K { s with hart := h', log := log } w v := by
  have hagree := ha.agree ht6
  have hmem (x : Word) (hx : K.kernel.Protected x) : h'.mem x = s.hart.mem x := ha.protected_mem hx
  have hsepc := ha.csr .sepc (by decide)
  have hscause := ha.csr .scause (by decide)
  cases h with
  | user hu => exact absurd (hpriv.symm.trans hu) (by decide)
  | vector i hi _ hcode hpc g hg hag =>
    exact .vector i hi (ha.priv.trans hpriv) hcode (ha.pc.trans hpc) g hg (Agree.trans hag hagree)
  | handler hcode hpc hent =>
    obtain ⟨⟨epc, hs⟩, h1, h2⟩ := hent
    exact .handler hcode (ha.pc.trans hpc)
      ⟨⟨epc, hs.congr ha.priv hmem⟩, hsepc.trans h1, hscause ▸ h2⟩
  | inC p _ hcode hat =>
    exact .inC p (ha.priv.trans hpriv) hcode (hat.congr ha.priv hmem hsepc hscause)
  | leaving j hj _ hcode hpc hw g hg hag =>
    exact .leaving j hj (ha.priv.trans hpriv) hcode (ha.pc.trans hpc) hw g hg (Agree.trans hag hagree)

/-- The user's machine can follow a step to `s'`, without computing. -/
def Follows (K : Linked) (s' : State) (w : List UserEvent) (v : UserMachine) : Prop :=
  ∃ bs w' v', run (userStep K) bs v = some v' ∧ trace (userVisible K) (userStep K) bs v ++ w' = w ∧
    v'.mem = v.mem ∧ s'.gTicks = v'.gTicks ∧ Owes K s' w' v'

theorem Owes.follows (h : Owes K s' w v) (hticks : s'.gTicks = v.gTicks) : Follows K s' w v :=
  ⟨[], w, v, rfl, rfl, rfl, hticks, h⟩

theorem run_act {b : UserAction} {v' : UserMachine} {w' : List UserEvent}
    (hb : userStep K b v = some v') (hw : userVisible K b v ++ w' = w) :
    run (userStep K) [b] v = some v' ∧ trace (userVisible K) (userStep K) [b] v ++ w' = w := by
  refine ⟨?_, ?_⟩
  · rw [run_singleton, hb]
  · rw [trace, hb, Option.map_some, Option.getD_some, trace, List.append_nil, hw]

theorem follows_act {b : UserAction} {v' : UserMachine} {w' : List UserEvent}
    (hb : userStep K b v = some v') (hw : userVisible K b v ++ w' = w) (hmem : v'.mem = v.mem)
    (hticks : s'.gTicks = v'.gTicks) (h : Owes K s' w' v') : Follows K s' w v :=
  ⟨[b], w', v', (run_act hb hw).1, (run_act hb hw).2, hmem, hticks, h⟩

theorem Follows.append_nil (h : Follows K s' w v) : Follows K s' (w ++ []) v := by
  rwa [List.append_nil]

theorem Entered.goto (h : Entered L s w v) (c : Clobber) (p : CPoint) :
    Entered L (s.goto L c p) w v := by
  obtain ⟨⟨epc, hs⟩, hsepc, hpends⟩ := h
  exact ⟨⟨epc, hs.goto c p⟩, hsepc, hpends⟩

theorem Entered.priv (h : Entered L s w v) : s.hart.priv = .supervisor := by
  obtain ⟨⟨epc, hs⟩, -⟩ := h
  exact hs.priv

theorem userStep_syscall {m : Mem} {k : Print.KernelContext} {ws : List Print.HostWrite} {ret : Word}
    (hsaved : v.SavedIn (K.withProgram v.mem m))
    (hret : userCall K v m k = some ⟨ws, .returns ret⟩) :
    userStep K (.syscall m k) v =
      some { v with regs := Function.update v.saved .a0 ret, pc := v.pc + 4 } := by
  simp only [userStep, if_pos hsaved, hret]

theorem saved_argReg (v : UserMachine) (i : Fin 8) : v.saved (argReg i) = v.regs (argReg i) := by
  have hne : argReg i ≠ .t6 := by
    revert i
    decide
  exact Function.update_of_ne hne _ _

theorem Saved.syscallArgs {epc : Word} (h : Saved L v.saved epc s) :
    syscallArgs s.hart.mem USER_TRAP_FRAME = fun i => v.regs (argReg i) := by
  rw [Carries.syscallArgs h]
  funext i
  exact saved_argReg v i

theorem follows_goto {c : Clobber} {p : CPoint} (hpriv : s'.hart.priv = .supervisor)
    (hticks : s'.gTicks = v.gTicks) (hat : OwesAt K (s'.goto K.kernel c p) w v p) :
    Follows K (s'.goto K.kernel c p) w v :=
  Owes.follows (.inC p hpriv rfl hat) hticks

/-- The user's own memory is what the kernel finds there. -/
theorem userCall_eq (hmem : v.mem = K.programPart s.hart.mem) (k : Print.KernelContext) :
    userCall K v s.hart.mem k =
      Syscall.doSyscall s.hart.mem k K.kernel.userApp fun i => v.regs (argReg i) := by
  rw [userCall, hmem, withProgram_programPart]

theorem callSyscall_follows {c : Clobber} (hinst : Installed K.kernel s)
    (hsaved : Saved K.kernel v.saved (v.pc + 4) s) (hw : w = [.ecall])
    (hmem : v.mem = K.programPart s.hart.mem) (hticks : s.gTicks = v.gTicks)
    (h : cStep K.kernel c s (.callSyscall USER_TRAP_FRAME) = some s') :
    Follows K s' (w ++ printsAt c s (.callSyscall USER_TRAP_FRAME)) v := by
  have hin : v.SavedIn (K.withProgram v.mem s.hart.mem) := by
    rw [hmem, withProgram_programPart]
    exact fun r _ => hsaved.regs r
  rw [cStep, hsaved.syscallArgs, hinst.current, ← userCall_eq hmem] at h
  rw [printsAt, hsaved.syscallArgs, hinst.current, ← userCall_eq hmem, hw]
  split at h
  · rename_i ret hret
    obtain rfl := Option.some.inj h
    have hlogged : Saved K.kernel v.saved (v.pc + 4)
        { s with
          current := K.kernel.userApp
          log := s.log ++ [.syscall (fun i => v.regs (argReg i)) ret] } :=
      hsaved.congr rfl fun _ _ => rfl
    refine follows_act (userStep_syscall hin hret) (List.append_nil _) rfl ?_ ?_
    · exact hticks
    · exact .inC _ hsaved.priv rfl ⟨rfl, v.saved, hlogged.goto _ _, rfl⟩
  · rename_i ws code hshut
    obtain rfl := Option.some.inj h
    rw [hshut]
    refine Owes.follows (.inC _ hsaved.priv rfl (.inl ⟨rfl, ?_⟩)) hticks
    exact ⟨_, _, ws, code, hin, hshut, rfl⟩
  · cases h

theorem UserFault.cause {e : ℕ} (h : UserFault e) :
    BitVec.ofNat 64 e ≠ CAUSE_USER_ECALL ∧ BitVec.ofNat 64 e ≠ CAUSE_MTIMER_S_TRAP := by
  have hin := (delegatedExceptions_iff e).mp h.1
  fin_cases hin <;> first | decide | exact absurd rfl h.2

theorem dispatch_follows {c : Clobber} {cause : Word} (hsaved : Saved K.kernel v.saved v.pc s)
    (hpends : Pends w cause) (hticks : s.gTicks = v.gTicks)
    (h : cStep K.kernel c s (.dispatch cause) = some s') : Follows K s' w v := by
  rcases hpends with ⟨hw, rfl⟩ | ⟨hw, rfl⟩ | ⟨e, he, hw, rfl⟩
  · rw [cStep, if_pos rfl] at h
    obtain rfl := Option.some.inj h
    exact follows_goto hsaved.priv hticks ⟨hsaved.goto _ _, hw⟩
  · have hne : ¬ CAUSE_MTIMER_S_TRAP = CAUSE_USER_ECALL := by decide
    rw [cStep, if_neg hne, if_pos rfl] at h
    obtain rfl := Option.some.inj h
    exact follows_goto hsaved.priv hticks ⟨hsaved.goto _ _, hw⟩
  · rw [cStep, if_neg he.cause.1, if_neg he.cause.2] at h
    obtain rfl := Option.some.inj h
    exact Owes.follows (.inC _ hsaved.priv rfl (.inr ⟨rfl, e, he, hw⟩)) hticks

theorem printTicks_follows {c : Clobber} (hsaved : Saved K.kernel v.saved v.pc s) (hw : w = [.tick])
    (hticks : s.gTicks = v.gTicks) (h : cStep K.kernel c s .printTicks = some s') :
    Follows K s' (w ++ printsAt c s .printTicks) v := by
  obtain rfl := Option.some.inj h
  have hfmt : ticksFmt = ascii "Ticks ".toList ++
      (ascii ['%', 'd'] ++ ascii "\n".toList) := rfl
  have hline : (Print.sprint c.context ticksFmt [.ofMem s.hart.mem s.gTicks]).bytes =
      ticksText v.gTicks := by
    rw [hfmt, Syscall.sprint_int rfl (by decide) (by decide) (by decide), hticks]
    rfl
  refine follows_goto hsaved.priv hticks ⟨hsaved.goto _ _, ?_⟩
  rw [hw, printsAt, hline]
  rfl

theorem cStep_quiet {c : Clobber} {p : CPoint} (hquiet : p ≠ .printTicks ∧ ∀ tf, p ≠ .callSyscall tf)
    (hpriv : s.hart.priv = .supervisor) (hinv : AtC K.kernel s p) (hat : OwesAt K s w v p)
    (hticks : s.gTicks = v.gTicks) (h : cStep K.kernel c s p = some s') : Follows K s' w v := by
  cases p with
  | checkSpp =>
    rw [cStep] at h
    split_ifs at h with hspp
    · rw [SSTATUS_SPP, and_twoPow_ne_zero _ (by decide)] at hspp
      exact absurd (hspp.symm.trans hinv.2) (by decide)
    · exact Option.some.inj h ▸ follows_goto hpriv hticks (Entered.goto hat _ _)
  | assertCurrent =>
    rw [cStep] at h
    split_ifs at h with hcur
    · exact absurd ((Installed.current hinv).symm.trans hcur) K.kernel.userApp_ne
    · exact Option.some.inj h ▸ follows_goto hpriv hticks (Entered.goto hat _ _)
  | saveEpc =>
    obtain rfl := Option.some.inj h
    obtain ⟨⟨epc, hsaved⟩, hsepc, hpends⟩ := hat
    rw [Installed.trapframe hinv, hsepc]
    have hstore : Saved K.kernel v.saved v.pc (s.store (field USER_TRAP_FRAME epcOff) v.pc) :=
      Carries.storeEpc hsaved v.pc
    exact follows_goto hpriv hticks ⟨hstore.goto _ _, hpends⟩
  | readCause | readSip | callSwitch | readSstatus =>
    obtain rfl := Option.some.inj h
    exact follows_goto hpriv hticks ⟨hat.1.goto _ _, hat.2⟩
  | dispatch cause => exact dispatch_follows hat.1 hat.2 hticks h
  | advanceEpc tf =>
    obtain rfl := Option.some.inj h
    obtain ⟨-, rfl⟩ := hinv
    obtain ⟨hsaved, hw⟩ := hat
    rw [hsaved.epc]
    have hstore : Saved K.kernel v.saved (v.pc + 4)
        (s.store (field USER_TRAP_FRAME epcOff) (v.pc + 4)) := Carries.storeEpc hsaved _
    exact follows_goto hpriv hticks ⟨hstore.goto _ _, hw⟩
  | callSyscall tf => exact absurd rfl (hquiet.2 tf)
  | storeRet tf ret =>
    obtain rfl := Option.some.inj h
    obtain ⟨-, rfl⟩ := hinv
    obtain ⟨hw, regs, hsaved, hregs⟩ := hat
    have hstore : Saved K.kernel v.regs v.pc (s.store (field USER_TRAP_FRAME Reg.a0.off) ret) := by
      rw [hregs]
      exact Carries.storeReg hsaved .a0 ret
    exact follows_goto hpriv hticks ⟨hstore.goto _ _, hw⟩
  | printTicks => exact absurd rfl hquiet.1
  | countTick =>
    obtain rfl := Option.some.inj h
    obtain ⟨hsaved, hw⟩ := hat
    have hcounted : Saved K.kernel v.saved v.pc
        { s with gTicks := s.gTicks + 1, log := s.log ++ [.tick] } := hsaved.congr rfl fun _ _ => rfl
    refine follows_act (b := .tick) rfl hw.symm rfl ?_ ?_
    · exact congrArg (· + 1) hticks
    · exact .inC _ hpriv rfl ⟨hcounted.goto _ _, rfl⟩
  | assertProc proc =>
    rw [cStep] at h
    split_ifs at h with hproc
    · exact absurd (hinv.2.symm.trans hproc) K.kernel.userApp_ne
    · exact Option.some.inj h ▸ follows_goto hpriv hticks ⟨hat.1.goto _ _, hat.2⟩
  | setKernelSp proc =>
    obtain rfl := Option.some.inj h
    obtain ⟨hproc, rfl, -⟩ := hinv
    rw [hproc.trapframe]
    have hstore : Saved K.kernel v.regs v.pc (s.store (field USER_TRAP_FRAME kernelSpOff)
        (load64 s.hart.mem (K.kernel.userApp + BitVec.ofNat 64 kstackOff))) :=
      Carries.store hat.1 (by decide) (by decide)
    exact follows_goto hpriv hticks ⟨hstore.goto _ _, hat.2⟩
  | setKernelTrap proc =>
    obtain rfl := Option.some.inj h
    obtain ⟨hproc, rfl, -⟩ := hinv
    rw [hproc.trapframe]
    have hstore : Saved K.kernel v.regs v.pc (s.store (field USER_TRAP_FRAME kernelTrapOff)
        K.kernel.smodeTrapHandler) := Carries.store hat.1 (by decide) (by decide)
    exact follows_goto hpriv hticks ⟨hstore.goto _ _, hat.2⟩
  | setSepc proc =>
    obtain rfl := Option.some.inj h
    obtain ⟨hinst, rfl, -⟩ := hinv
    obtain ⟨hsaved, hw⟩ := hat
    rw [hinst.process.trapframe, hsaved.epc]
    exact follows_goto hpriv hticks ⟨(hsaved.setCsr _ _).goto _ _, hw, rfl⟩
  | callReturn proc =>
    obtain rfl := Option.some.inj h
    obtain ⟨hinst, rfl, -⟩ := hinv
    obtain ⟨hsaved, hw, hsepc⟩ := hat
    have hkept := (hsaved.goto c (.callReturn K.kernel.userApp)).regs
    refine Owes.follows (.leaving 0 (by decide) hpriv rfl (BitVec.add_zero _).symm hw _ ?_
      (agreeTrap_take_zero _ _)) hticks
    exact ⟨hinst.process.trapframe, hkept, hsepc⟩
  | writeSip | setStvec | writeSstatus =>
    obtain rfl := Option.some.inj h
    exact follows_goto hpriv hticks ⟨(hat.1.setCsr _ _).goto _ _, hat.2⟩
  | setCurrent proc =>
    obtain rfl := Option.some.inj h
    have hset : Saved K.kernel v.regs v.pc { s with current := proc } := hat.1.congr rfl fun _ _ => rfl
    exact follows_goto hpriv hticks ⟨hset.goto _ _, hat.2⟩
  | stopped why => cases h

theorem cStep_follows {c : Clobber} {p : CPoint} (hpriv : s.hart.priv = .supervisor)
    (hinv : AtC K.kernel s p) (hat : OwesAt K s w v p) (hmem : v.mem = K.programPart s.hart.mem)
    (hticks : s.gTicks = v.gTicks) (h : cStep K.kernel c s p = some s') :
    Follows K s' (w ++ printsAt c s p) v := by
  cases p with
  | printTicks => exact printTicks_follows hat.1 hat.2 hticks h
  | callSyscall tf =>
    obtain ⟨hinst, rfl⟩ := hinv
    exact callSyscall_follows hinst hat.1 hat.2 hmem hticks h
  | _ =>
    refine Follows.append_nil ?_
    exact cStep_quiet (by simp) hpriv hinv hat hticks h

theorem entered_csr (h : Hart) {k : Csr} (hk : k ≠ .sscratch) : (entered h).csr k = h.csr k :=
  Function.update_of_ne hk _ _

/-- After the last instruction of the entry code the registers stand in the trapframe. -/
theorem Trapped.entered {g : Hart} (hg : Trapped w v g) (hproc : Process L s.hart.mem)
    (hpriv : s.hart.priv = .supervisor) (ha : AgreeTrap (g.execAll smodeTrapVector) s.hart) :
    Entered L s w v := by
  rw [AgreeTrap, execAll_smodeTrapVector] at ha
  refine ⟨⟨_, hpriv, hproc, ?_, rfl, rfl, rfl⟩, ?_, ?_⟩
  · intro r
    have hframe : load64 s.hart.mem (field USER_TRAP_FRAME r.off) =
        load64 (savedMem .sscratch g) (field USER_TRAP_FRAME r.off) :=
      load64_congr fun x hx => ha.mem x (inTrapframe_field (r.off_le.trans (by decide)) hx)
    have hr := load64_savedMem .sscratch g r
    rw [hg.sscratch, hg.regs] at hr
    exact hframe.trans (hr.trans (Function.update_apply v.regs _ _ _).symm)
  · rw [ha.csr .sepc (by decide), entered_csr g (by decide), hg.sepc]
  · rw [ha.csr .scause (by decide), entered_csr g (by decide)]
    exact hg.pends

theorem vector_follows {i : ℕ} {instr : Instr} {g : Hart} (hi : i < 38)
    (hinstr : smodeTrapVector[i]? = some instr) (hpriv : s.hart.priv = .supervisor)
    (hcode : s.code = none) (hpc : s.hart.pc = K.kernel.smodeTrapVector + BitVec.ofNat 64 (4 * i))
    (hinst : Installed K.kernel s) (hat : AtVector K.kernel i s.hart) (hg : Trapped w v g)
    (ha : AgreeTrap (g.execAll (smodeTrapVector.take i)) s.hart) :
    Owes K { s with hart := s.hart.exec instr } w v := by
  have hnext := ha.exec_next hinstr (by decide) (allLoadsIn_vector hg.sscratch)
  by_cases hlast : i < 37
  · obtain ⟨-, hf⟩ := vector_step hlast hinstr hat hinst.kernelSp hinst.kernelTrap
    exact .vector (i + 1) (by omega) (hf.priv.trans hpriv) hcode (hf.next_pc hpc) g hg hnext
  · obtain rfl : i = 37 := by omega
    obtain rfl : Instr.jr .t0 = instr := Option.some.inj hinstr
    exact .handler hcode (hat.t0 le_rfl) (hg.entered hinst.process hpriv hnext)

theorem execAll_returnToUser (h : Hart) :
    (h.execAll returnToUser).regs = (fun r => load64 h.mem (h.regs .a0 + BitVec.ofNat 64 r.off)) ∧
      (h.execAll returnToUser).pc = h.csr .sepc := by
  have ht6 : (h.execAll [Instr.csrw .sscratch .a0, .addi .t6 .a0 0]).regs .t6 = h.regs .a0 :=
    BitVec.add_zero _
  unfold returnToUser
  rw [Hart.execAll_append, Hart.execAll_append, execAll_restoreAllRegisters, ht6]
  exact ⟨rfl, rfl⟩

theorem leaving_follows {j : ℕ} {instr : Instr} {g : Hart} (hj : j < 34)
    (hinstr : returnToUser[j]? = some instr) (hpriv : s.hart.priv = .supervisor)
    (hcode : s.code = none) (hpc : s.hart.pc = K.kernel.returnToUser + BitVec.ofNat 64 (4 * j))
    (hspp : sppBit s.hart = false) (hat : AtReturn j s.hart) (hw : w = []) (hg : Departing v g)
    (ha : AgreeTrap (g.execAll (returnToUser.take j)) s.hart) :
    Owes K { s with hart := s.hart.exec instr } w v := by
  have hnext := ha.exec_next hinstr (by decide) (allLoadsIn_return hg.a0)
  by_cases hlast : j < 33
  · obtain ⟨-, hf⟩ := return_step hlast hinstr hat
    exact .leaving (j + 1) (by omega) (hf.priv.trans hpriv) hcode (hf.next_pc hpc) hw g hg hnext
  · obtain rfl : j = 33 := by omega
    obtain rfl : Instr.sret = instr := Option.some.inj hinstr
    obtain ⟨hregs, hepc⟩ := execAll_returnToUser g
    have hend : AgreeTrap (g.execAll returnToUser) (s.hart.exec .sret) := hnext
    have hbit : (s.hart.csr .sstatus).getLsbD SPP = false := hspp
    refine .user ?_ hw ?_ ?_
    · simp only [Hart.exec, Hart.sretStep, hbit]
      rfl
    · rw [hend.regs, hregs, hg.a0]
      funext r
      exact hg.regs r
    · rw [hend.pc, hepc, hg.sepc]

theorem Inv.atReturn {j : ℕ} (h : Inv L s) (hpriv : s.hart.priv = .supervisor) (hcode : s.code = none)
    (hj : j < 34) (hpc : s.hart.pc = L.returnToUser + BitVec.ofNat 64 (4 * j)) :
    sppBit s.hart = false ∧ AtReturn j s.hart := by
  have hin := inBlock_instr L.returnToUser hj (by decide)
  cases h with
  | user hs => exact absurd (hpriv.symm.trans hs) (by decide)
  | vector i hi _ _ hpc' =>
    have hin' := inBlock_instr L.smodeTrapVector hi (by decide)
    rw [← hpc', hpc] at hin'
    exact absurd hin (L.vector_apart _ hin')
  | handler _ _ hpc' =>
    rw [← hpc, hpc'] at hin
    exact absurd hin L.handler_return
  | inC p _ hcode' => exact absurd (hcode.symm.trans hcode') (by simp)
  | leaving i hi _ _ hpc' _ hspp _ hat =>
    obtain rfl := instr_index hj hi (by decide) (hpc.symm.trans hpc')
    exact ⟨hspp, hat⟩

theorem Related.kernel {c : Clobber} (hr : Related K s w v) (hpriv : s.hart.priv = .supervisor)
    (h : kernelStep K.kernel c s = some s') : Follows K s' (w ++ userEvents (.kernel c) s) v := by
  have hcodeless (hcode : s.code = none) : w ++ userEvents (.kernel c) s = w := by
    rw [userEvents, hcode]
    exact List.append_nil w
  cases hr.owes with
  | user hu => exact absurd (hpriv.symm.trans hu) (by decide)
  | vector i hi _ hcode hpc g hg ha =>
    rw [hcodeless hcode]
    obtain ⟨hinst, hat⟩ := hr.inv.atVector hpriv hcode hi hpc
    obtain ⟨instr, hinstr, -, hstep⟩ := kernelStep_vector c hi hcode hpc
    obtain rfl := Option.some.inj (hstep.symm.trans h)
    exact (vector_follows hi hinstr hpriv hcode hpc hinst hat hg ha).follows hr.ticks
  | handler hcode hpc hent =>
    rw [hcodeless hcode]
    rw [kernelStep_handler hcode hpc] at h
    obtain rfl := Option.some.inj h
    exact follows_goto hpriv hr.ticks (hent.goto c .checkSpp)
  | inC p _ hcode hat =>
    rw [kernelStep_c hcode] at h
    rw [userEvents, hcode]
    exact cStep_follows hpriv (hr.inv.atC hcode) hat hr.mem hr.ticks h
  | leaving j hj _ hcode hpc hw g hg ha =>
    rw [hcodeless hcode]
    obtain ⟨hspp, hat⟩ := hr.inv.atReturn hpriv hcode hj hpc
    obtain ⟨instr, hinstr, -, hstep⟩ := kernelStep_return c hj hcode hpc
    obtain rfl := Option.some.inj (hstep.symm.trans h)
    exact (leaving_follows hj hinstr hpriv hcode hpc hspp hat hw hg ha).follows hr.ticks

theorem Related.userMode (hr : Related K s w v) (hpriv : s.hart.priv = .user) :
    UserMode K.kernel s ∧ w = [] ∧ s.hart.regs = v.regs ∧ s.hart.pc = v.pc := by
  obtain ⟨hcode, hinst, hscratch⟩ := hr.inv.code_none_of_user hpriv
  refine ⟨⟨hpriv, hcode, hinst, hscratch⟩, ?_⟩
  cases hr.owes with
  | user _ hw hregs hpc => exact ⟨hw, hregs, hpc⟩
  | vector _ _ hs => exact absurd (hpriv.symm.trans hs) (by decide)
  | handler _ _ hent => exact absurd (hpriv.symm.trans hent.priv) (by decide)
  | inC _ hs => exact absurd (hpriv.symm.trans hs) (by decide)
  | leaving _ _ hs => exact absurd (hpriv.symm.trans hs) (by decide)

theorem Related.trap {e : UserEvent} {cause : Word} (hr : Related K s w v) (hpriv : s.hart.priv = .user)
    (he : Pends [e] cause) : Follows K { s with hart := s.hart.trapS cause } (w ++ [e]) v := by
  obtain ⟨hu, rfl, hregs, hpc⟩ := hr.userMode hpriv
  refine Owes.follows (.vector 0 (by decide) rfl hu.code ?_ _ ?_ (agreeTrap_take_zero _ _)) hr.ticks
  · exact hu.installed.stvec.trans (BitVec.add_zero _).symm
  · exact ⟨hregs, hu.sscratch, hpc, he⟩

def Simulated (K : Linked) (s' : State) (w : List UserEvent) (v : UserMachine) : Prop :=
  ∃ bs w' v', run (userStep K) bs v = some v' ∧
    trace (userVisible K) (userStep K) bs v ++ w' = w ∧ Related K s' w' v'

theorem Follows.simulated (hf : Follows K s' w v) (hinv : Inv K.kernel s')
    (hscratch : s'.hart.csr .mscratch = K.machine.itrframe) (hhart : s'.hart.csr .mhartid = 0)
    (hmem : v.mem = K.programPart s'.hart.mem) : Simulated K s' w v := by
  obtain ⟨bs, w', v', hrun, hw, hsame, hticks, howes⟩ := hf
  exact ⟨bs, w', v', hrun, hw, hinv, hscratch, hhart, hsame.trans hmem, hticks, howes⟩

theorem Related.simulated {a : Action} {w' : List UserEvent} (hr : Related K s w v) (ha : a ≠ .mtimer)
    (h : step K.kernel a s = some s') (hkept : ∀ x, K.Program x → s'.hart.mem x = s.hart.mem x)
    (hf : Follows K s' w' v) : Simulated K s' w' v :=
  hf.simulated (step_inv hr.inv h) ((step_csr ha (by decide) h).trans hr.mscratch)
    ((step_csr ha (by decide) h).trans hr.mhartid) (hr.mem.trans (programPart_congr hkept).symm)

theorem timer_simulated {c : MClobber} (hr : Related K s w v) (hC : TimerAllowed K (.timer c) s)
    (h : machineStep K (.timer c) s = some s') :
    Simulated K s' (w ++ userEvents (.timer c) s) v := by
  obtain ⟨h', ha, rfl⟩ := hr.timer_step h
  have hscratch := (ha.csr .mscratch (by decide)).trans hr.mscratch
  have hhart := (ha.csr .mhartid (by decide)).trans hr.mhartid
  have hcore : SameCore K.kernel s.hart.mem h'.mem :=
    core_of_protected fun _ hx => ha.protected_mem hx
  have hmem : v.mem = K.programPart h'.mem :=
    hr.mem.trans (programPart_congr fun _ hx => ha.program_mem hx).symm
  by_cases hpriv : s.hart.priv = .user
  · obtain ⟨hu, rfl, hregs, hpc⟩ := hr.userMode hpriv
    have hinv : Inv K.kernel { s with hart := h', log := s.log ++ [.mtimer] } :=
      .user (ha.priv.trans hpriv) hu.code (hu.installed.congr hcore rfl (ha.csr _ (by decide)))
        ((ha.csr _ (by decide)).trans hu.sscratch)
    refine Follows.simulated ?_ hinv hscratch hhart hmem
    rw [userEvents, if_pos hpriv]
    refine follows_act (b := .timer) rfl rfl rfl ?_ (.user (ha.priv.trans hpriv) rfl ?_ ?_)
    · exact hr.ticks
    · rw [← hregs]
      exact ha.regs
    · rw [← hpc]
      exact ha.pc
  · have hs : s.hart.priv = .supervisor := by
      cases hp : s.hart.priv with
      | user => exact absurd hp hpriv
      | supervisor => rfl
      | machine => exact absurd hp hr.inv.priv_ne_machine
    have ht6 : s.hart.regs .t6 = K.machine.itrframe := hC.resolve_left hpriv
    have hinv : Inv K.kernel { s with hart := h', log := s.log ++ [.mtimer] } := by
      refine mtimer_inv hr.inv (ha.agree ht6).regs ha.pc ha.priv rfl rfl hcore fun k hk => ha.csr k ?_
      revert hk
      cases k <;> decide
    rw [userEvents, if_neg hpriv, List.append_nil]
    exact ((hr.owes.timer hs ha ht6).follows hr.ticks).simulated hinv hscratch hhart hmem

theorem user_simulated {regs : Reg → Word} {pc : Word} {mem : Mem} (hr : Related K s w v)
    (h : step K.kernel (.user regs pc mem) s = some s') :
    Simulated K s' (w ++ [.compute regs pc mem]) v := by
  have hinv := step_inv hr.inv h
  have hcsr {k : Csr} (hk : k ∈ machineCsrs) := step_csr (by simp) hk h
  rw [step] at h
  split_ifs at h with hpriv
  obtain rfl := Option.some.inj h
  obtain ⟨-, rfl, -⟩ := hr.userMode hpriv
  have hact := run_act (K := K) (b := .compute regs pc mem) (v := v) rfl (List.append_nil _)
  refine ⟨_, [], _, hact.1, hact.2, hinv, ?_, ?_, ?_, hr.ticks, .user hpriv rfl rfl rfl⟩
  · exact (hcsr (by decide)).trans hr.mscratch
  · exact (hcsr (by decide)).trans hr.mhartid
  · rw [programPart_keep, hr.mem]

theorem fault_simulated {e : ℕ} (hr : Related K s w v)
    (h : machineStep K (.fault e) s = some s') : Simulated K s' (w ++ [.fault e]) v := by
  rw [machineStep] at h
  split_ifs at h with hen
  obtain ⟨hpriv, he⟩ := hen
  obtain rfl := Option.some.inj h
  obtain ⟨hu, -⟩ := hr.userMode hpriv
  refine (hr.trap hpriv (.inr (.inr ⟨e, he, rfl, rfl⟩))).simulated ?_ ?_ ?_ hr.mem
  · exact trap_inv _ hpriv hu.code hu.installed hu.sscratch
  · exact (trapS_csr (by decide) _ _).trans hr.mscratch
  · exact (trapS_csr (by decide) _ _).trans hr.mhartid

theorem printsAt_sparing (c : Clobber) (s : State) (m : Mem) :
    printsAt (K.sparing m c) s = printsAt c s := by
  funext p
  cases p <;> rfl

/-- Every action of the kernel is none or some of the user's machine. -/
theorem machineStep_simulated (a : MachineAction) (s s' : State) (w : List UserEvent)
    (v : UserMachine) (hr : Related K s w v) (hC : TimerAllowed K a s)
    (h : machineStep K a s = some s') : Simulated K s' (w ++ userEvents a s) v := by
  cases a with
  | user regs pc mem => exact user_simulated hr h
  | ecall =>
    have hstep : step K.kernel .ecall s = some s' := h
    rw [machineStep, step] at h
    split_ifs at h with hpriv
    obtain rfl := Option.some.inj h
    exact hr.simulated (by simp) hstep (fun _ _ => rfl) (hr.trap hpriv (.inl ⟨rfl, rfl⟩))
  | fault e => exact fault_simulated hr h
  | softInterrupt =>
    have hstep : step K.kernel .softInterrupt s = some s' := h
    rw [machineStep, step] at h
    split_ifs at h with hen
    obtain rfl := Option.some.inj h
    refine hr.simulated (by simp) hstep (fun _ _ => rfl) ?_
    rcases hen.2 with hpriv | ⟨hpriv, hsie⟩
    · have hpends : Pends [.tick] CAUSE_MTIMER_S_TRAP := .inr (.inl ⟨rfl, rfl⟩)
      have htrap := hr.trap hpriv hpends
      rwa [(hr.inv.code_none_of_user hpriv).1] at htrap
    · have hoff : (s.hart.csr .sstatus).getLsbD SIE = false := hr.inv.sie hpriv
      rw [hoff] at hsie
      cases hsie
  | kernel c =>
    have hstep : step K.kernel (.kernel (K.sparing s.hart.mem c)) s = some s' := h
    rw [machineStep, step] at h
    split_ifs at h with hpriv
    have hevents : userEvents (.kernel c) s = userEvents (.kernel (K.sparing s.hart.mem c)) s := by
      rw [userEvents, userEvents, printsAt_sparing]
    rw [hevents]
    refine hr.simulated (by simp) hstep (fun x hx => ?_) (hr.kernel hpriv h)
    exact kernelStep_program hr.inv hpriv (fun _ huser => if_pos huser) h hx
  | timer c => exact timer_simulated hr hC h

theorem MachineStart.related (hs : MachineStart K s) : Related K s [] (savedMachine K s) where
  inv := hs.inv
  mscratch := hs.mscratch
  mhartid := hs.mhartid
  mem := rfl
  ticks := rfl
  owes := .inC _ hs.priv hs.code
    ⟨⟨hs.priv, ⟨hs.trapframe, hs.kstack⟩, fun _ => rfl, rfl, rfl, rfl⟩, rfl⟩

/-- In every run from `s_start` on, with timer traps wherever they do not disturb the
kernel, the user program runs as on its own machine, on which every trap is one step
that changes nothing but `t6`, `a0`, `pc` and the tick count; and the host's console gets
what the steps of that machine print, in their order. -/
theorem user_program_sees_atomic_traps (K : Linked) {s t : State} {as : List MachineAction}
    (hs : MachineStart K s) (hC : Along (TimerAllowed K) (machineStep K) as s)
    (hrun : run (machineStep K) as s = some t) (huser : t.hart.priv = .user) :
    ∃ bs, run (userStep K) bs (savedMachine K s) =
        some ⟨t.hart.regs, t.hart.pc, K.programPart t.hart.mem, t.gTicks⟩ ∧
      trace (userVisible K) (userStep K) bs (savedMachine K s) =
        trace userEvents (machineStep K) as s := by
  obtain ⟨bs, w, v, hbs, hw, hr⟩ := run_simulation (R := Related K) machineStep_simulated
    hs.related hC hrun
  obtain ⟨-, rfl, hregs, hpc⟩ := hr.userMode huser
  refine ⟨bs, ?_, ?_⟩
  · rw [hbs, hregs, hpc, hr.ticks, ← hr.mem]
  · rwa [List.append_nil, List.nil_append] at hw

def sampleKernel : Linked where
  kernel := sampleLayout
  machine := sampleMachine
  userBase := 0x81000000
  userSize := 0x100000
  frame_process := apart_of_offset (by decide) (by decide)
  stack_process := apart_of_offset (by decide) (by decide)
  user_trapframe := apart_of_offset (by decide) (by decide)
  user_process := apart_of_offset (by decide) (by decide)
  user_frame := apart_of_offset (by decide) (by decide)
  user_stack := apart_of_offset (by decide) (by decide)
  user_clint := apart_of_offset (by decide) (by decide)

def machineBoot : State :=
  { bootState with
    hart := { bootState.hart with csr := Function.update (fun _ => 0) .mscratch 0x8000b000 } }

theorem machineBoot_start : MachineStart sampleKernel machineBoot where
  priv := rfl
  code := rfl
  sie := rfl
  trapframe := bootState_start.trapframe
  kstack := bootState_start.kstack
  log := rfl
  mscratch := rfl
  mhartid := rfl

def timerAndPrint : List MachineAction :=
  List.replicate 43 (.kernel default) ++
    [.user (Function.update (Function.update (fun _ => 0) .a0 Syscall.SYS_user_print) .a1 0x81000100)
      0x81000000 (write (fun _ => 0) 0x81000100 (ascii "hi\n".toList)),
      .timer default, .ecall] ++ List.replicate 91 (.kernel default)

theorem user_program_sees_atomic_print :
    ∃ t bs, run (machineStep sampleKernel) timerAndPrint machineBoot = some t ∧
      run (userStep sampleKernel) bs (savedMachine sampleKernel machineBoot) =
        some ⟨t.hart.regs, t.hart.pc, sampleKernel.programPart t.hart.mem, t.gTicks⟩ ∧
      trace (userVisible sampleKernel) (userStep sampleKernel) bs (savedMachine sampleKernel machineBoot) =
        trace userEvents (machineStep sampleKernel) timerAndPrint machineBoot := by
  have hend : (run (machineStep sampleKernel) timerAndPrint machineBoot).any
      (fun t => t.hart.priv = .user) := by decide +kernel
  obtain ⟨t, hrun, huser⟩ := (Option.any_eq_true _ _).mp hend
  obtain ⟨bs, hbs, hevents⟩ := user_program_sees_atomic_traps sampleKernel machineBoot_start
    (by decide +kernel) hrun (of_decide_eq_true huser)
  exact ⟨t, bs, hrun, hbs, hevents⟩

end ProxyKernel.Trap
