import ProxyKernel.TrapMachine

/-!
The registers and words that `smode_trap_vector` relies on are set partly in
assembly and partly in C.  The invariant follows them through every instruction
of the trap code and every statement of the C code.
-/

namespace ProxyKernel.Trap
open ByteMem Riscv Elf

variable {L : Layout}

/-- The words `kernel_sp` and `kernel_trap`, and the process structure. -/
def Core (L : Layout) (x : Word) : Prop :=
  InBlock (field USER_TRAP_FRAME kernelSpOff) 16 x ∨ InBlock L.userApp processSize x

theorem Core.isProtected {x : Word} (h : Core L x) : L.Protected x :=
  h.imp_left fun h => h.of_sub (by decide) (by decide)

theorem core_field {off : ℕ} (h1 : kernelSpOff ≤ off) (h2 : off + 8 ≤ epcOff) {x : Word}
    (hx : InBlock (field USER_TRAP_FRAME off) 8 x) : Core L x := by
  left
  simp only [kernelSpOff, epcOff, field, USER_TRAP_FRAME, InBlock, offset] at *
  bv_omega

theorem core_process {off : ℕ} (h : off + 8 ≤ processSize) {x : Word}
    (hx : InBlock (L.userApp + BitVec.ofNat 64 off) 8 x) : Core L x :=
  .inr (hx.of_sub h (by decide))

theorem not_core_of_regs {x : Word} (hx : InBlock USER_TRAP_FRAME 248 x) : ¬ Core L x := by
  rintro (h | h)
  · simp only [kernelSpOff, field, USER_TRAP_FRAME, InBlock, offset] at *
    bv_omega
  · exact L.frame_apart x (lt_trans hx (by decide)) h

theorem not_core_of_epc {x : Word} (hx : InBlock (field USER_TRAP_FRAME epcOff) 8 x) :
    ¬ Core L x := by
  rintro (h | h)
  · simp only [kernelSpOff, epcOff, field, USER_TRAP_FRAME, InBlock, offset] at *
    bv_omega
  · exact L.frame_apart x (hx.of_sub (by decide) (by decide)) h

theorem not_core_of_clint {x : Word} (hx : InBlock CLINT_MTIMECMP 8 x) : ¬ Core L x := by
  rintro (h | h)
  · simp only [kernelSpOff, field, USER_TRAP_FRAME, CLINT_MTIMECMP, InBlock, offset] at *
    bv_omega
  · exact L.clint_apart x hx h

structure Process (L : Layout) (m : Mem) : Prop where
  trapframe : trapframeOf m L.userApp = USER_TRAP_FRAME
  kstack : load64 m (L.userApp + BitVec.ofNat 64 kstackOff) = USER_KSTACK

/-- Everything that `switch_to` sets up for the next entry, but for `sscratch`. -/
structure Installed (L : Layout) (s : State) : Prop where
  process : Process L s.hart.mem
  current : s.current = L.userApp
  stvec : s.hart.csr .stvec = L.smodeTrapVector
  kernelSp : load64 s.hart.mem (field USER_TRAP_FRAME kernelSpOff) = USER_KSTACK
  kernelTrap : load64 s.hart.mem (field USER_TRAP_FRAME kernelTrapOff) = L.smodeTrapHandler

def SameCore (L : Layout) (m m' : Mem) : Prop := ∀ x, Core L x → m' x = m x

theorem SameCore.load64_field {m m' : Mem} (h : SameCore L m m') {off : ℕ}
    (h1 : kernelSpOff ≤ off) (h2 : off + 8 ≤ epcOff) :
    load64 m' (field USER_TRAP_FRAME off) = load64 m (field USER_TRAP_FRAME off) :=
  load64_congr fun x hx => h x (core_field h1 h2 hx)

theorem SameCore.load64_process {m m' : Mem} (h : SameCore L m m') {off : ℕ}
    (hoff : off + 8 ≤ processSize) :
    load64 m' (L.userApp + BitVec.ofNat 64 off) = load64 m (L.userApp + BitVec.ofNat 64 off) :=
  load64_congr fun x hx => h x (core_process hoff hx)

theorem Process.congr {m m' : Mem} (h : Process L m) (hm : SameCore L m m') : Process L m' :=
  ⟨(hm.load64_process (by decide)).trans h.trapframe,
    (hm.load64_process (by decide)).trans h.kstack⟩

theorem Installed.congr {s s' : State} (h : Installed L s) (hm : SameCore L s.hart.mem s'.hart.mem)
    (hcur : s'.current = s.current) (hstvec : s'.hart.csr .stvec = s.hart.csr .stvec) :
    Installed L s' where
  process := h.process.congr hm
  current := hcur.trans h.current
  stvec := hstvec.trans h.stvec
  kernelSp := (hm.load64_field (by decide) (by decide)).trans h.kernelSp
  kernelTrap := (hm.load64_field (by decide) (by decide)).trans h.kernelTrap

theorem sameCore_refl (m : Mem) : SameCore L m m := fun _ _ => rfl

theorem SameCore.trans {m m' m'' : Mem} (h : SameCore L m m') (h' : SameCore L m' m'') :
    SameCore L m m'' :=
  fun x hx => (h' x hx).trans (h x hx)

theorem sameCore_keep (m m' : Mem) : SameCore L m (L.keep m m') :=
  fun _ hx => if_pos hx.isProtected

theorem sameCore_store {m : Mem} {a v : Word} (h : ∀ x, InBlock a 8 x → ¬ Core L x) :
    SameCore L m (store64 m a v) :=
  fun x hx => store64_of_not_mem fun hin => h x hin hx

structure AtVector (L : Layout) (i : ℕ) (h : Hart) : Prop where
  scratch : i = 0 → h.csr .sscratch = USER_TRAP_FRAME
  a0 : 1 ≤ i → h.regs .a0 = USER_TRAP_FRAME
  t6 : 2 ≤ i → h.regs .t6 = USER_TRAP_FRAME
  sp : 36 ≤ i → h.regs .sp = USER_KSTACK
  t0 : 37 ≤ i → h.regs .t0 = L.smodeTrapHandler

theorem vector_store {i : ℕ} (h1 : 2 ≤ i) (h2 : i < 33) :
    ∃ r : Reg, smodeTrapVector[i]? = some (.sd r r.off .t6) := by
  have hall : i - 2 < Reg.all.length := by
    have : Reg.all.length = 31 := rfl
    omega
  have hlen : ([Instr.csrrw .a0 .sscratch .a0, .addi .t6 .a0 0] ++ storeAllRegisters).length = 33 := rfl
  have hlen' : [Instr.csrrw .a0 .sscratch .a0, .addi .t6 .a0 0].length = 2 := rfl
  refine ⟨Reg.all[i - 2], ?_⟩
  unfold smodeTrapVector
  rw [List.getElem?_append_left (by omega), List.getElem?_append_right (by omega), hlen',
    storeAllRegisters_eq, List.getElem?_map, List.getElem?_eq_getElem hall]
  rfl

structure EntryFrame (h h' : Hart) : Prop where
  pc : h'.pc = h.pc + 4
  priv : h'.priv = h.priv
  csr : ∀ c, c ≠ .sscratch → h'.csr c = h.csr c
  mem : ∀ x, ¬ InBlock USER_TRAP_FRAME 248 x → h'.mem x = h.mem x

theorem entryFrame_store {h : Hart} {src base : Reg} {off : ℕ} (hbase : h.regs base = USER_TRAP_FRAME)
    (hoff : off + 8 ≤ 248) : EntryFrame h (h.exec (.sd src off base)) where
  pc := rfl
  priv := rfl
  csr := fun _ _ => rfl
  mem := by
    intro x hx
    have haddr : h.addr off base = USER_TRAP_FRAME + BitVec.ofNat 64 off := by
      rw [Hart.addr, hbase]
    have hout : ¬ InBlock (h.addr off base) 8 x := fun hin =>
      hx (InBlock.of_sub (haddr ▸ hin) hoff (by omega))
    exact store64_of_not_mem hout

theorem entryFrame_load (h : Hart) (dst base : Reg) (off : ℕ) :
    EntryFrame h (h.exec (.ld dst off base)) :=
  ⟨rfl, rfl, fun _ _ => rfl, fun _ _ => rfl⟩

theorem vector_step {i : ℕ} {h : Hart} {instr : Instr} (hi : i < 37)
    (hinstr : smodeTrapVector[i]? = some instr) (hat : AtVector L i h)
    (hsp : load64 h.mem (field USER_TRAP_FRAME kernelSpOff) = USER_KSTACK)
    (htrap : load64 h.mem (field USER_TRAP_FRAME kernelTrapOff) = L.smodeTrapHandler) :
    AtVector L (i + 1) (h.exec instr) ∧ EntryFrame h (h.exec instr) := by
  by_cases hstore : 2 ≤ i ∧ i < 33
  · obtain ⟨r, hr⟩ := vector_store hstore.1 hstore.2
    obtain rfl : .sd r r.off .t6 = instr := by simpa [hr] using hinstr
    refine ⟨⟨by omega, fun _ => hat.a0 (by omega), fun _ => hat.t6 hstore.1, by omega, by omega⟩, ?_⟩
    exact entryFrame_store (hat.t6 hstore.1) r.off_le
  · -- the seven instructions around the stores
    obtain rfl | rfl | rfl | rfl | rfl | rfl : i = 0 ∨ i = 1 ∨ i = 33 ∨ i = 34 ∨ i = 35 ∨ i = 36 := by
      omega
    · obtain rfl : Instr.csrrw .a0 .sscratch .a0 = instr := Option.some.inj hinstr
      refine ⟨⟨by omega, fun _ => ?_, by omega, by omega, by omega⟩, ⟨rfl, rfl, ?_, fun _ _ => rfl⟩⟩
      · exact hat.scratch rfl
      · intro c hc
        exact Function.update_of_ne hc _ _
    · obtain rfl : Instr.addi .t6 .a0 0 = instr := Option.some.inj hinstr
      have ha0 := hat.a0 le_rfl
      refine ⟨⟨by omega, fun _ => ha0, fun _ => ?_, by omega, by omega⟩, ⟨rfl, rfl, fun _ _ => rfl, fun _ _ => rfl⟩⟩
      exact (BitVec.add_zero _).trans ha0
    · obtain rfl : Instr.csrr .t0 .sscratch = instr := Option.some.inj hinstr
      exact ⟨⟨by omega, fun _ => hat.a0 (by omega), fun _ => hat.t6 (by omega), by omega, by omega⟩,
        ⟨rfl, rfl, fun _ _ => rfl, fun _ _ => rfl⟩⟩
    · obtain rfl : Instr.sd .t0 72 .a0 = instr := Option.some.inj hinstr
      exact ⟨⟨by omega, fun _ => hat.a0 (by omega), fun _ => hat.t6 (by omega), by omega, by omega⟩,
        entryFrame_store (hat.a0 (by omega)) (by omega)⟩
    · obtain rfl : Instr.ld .sp 248 .a0 = instr := Option.some.inj hinstr
      refine ⟨⟨by omega, fun _ => hat.a0 (by omega), fun _ => hat.t6 (by omega), fun _ => ?_, by omega⟩,
        entryFrame_load h _ _ _⟩
      rw [← hsp, field, ← hat.a0 (by omega)]
      rfl
    · obtain rfl : Instr.ld .t0 256 .a0 = instr := Option.some.inj hinstr
      refine ⟨⟨by omega, fun _ => hat.a0 (by omega), fun _ => hat.t6 (by omega), fun _ => hat.sp le_rfl,
        fun _ => ?_⟩, entryFrame_load h _ _ _⟩
      rw [← htrap, field, ← hat.a0 (by omega)]
      rfl

structure AtReturn (j : ℕ) (h : Hart) : Prop where
  a0 : j = 0 → h.regs .a0 = USER_TRAP_FRAME
  scratch : 1 ≤ j → h.csr .sscratch = USER_TRAP_FRAME

theorem return_load {j : ℕ} (h1 : 2 ≤ j) (h2 : j < 33) :
    ∃ r : Reg, returnToUser[j]? = some (.ld r r.off .t6) := by
  have hall : j - 2 < Reg.all.length := by
    have : Reg.all.length = 31 := rfl
    omega
  have hlen : ([Instr.csrw .sscratch .a0, .addi .t6 .a0 0] ++ restoreAllRegisters).length = 33 := rfl
  have hlen' : [Instr.csrw .sscratch .a0, .addi .t6 .a0 0].length = 2 := rfl
  refine ⟨Reg.all[j - 2], ?_⟩
  unfold returnToUser
  rw [List.getElem?_append_left (by omega), List.getElem?_append_right (by omega), hlen',
    restoreAllRegisters_eq, List.getElem?_map, List.getElem?_eq_getElem hall]
  rfl

theorem return_step {j : ℕ} {h : Hart} {instr : Instr} (hj : j < 33)
    (hinstr : returnToUser[j]? = some instr) (hat : AtReturn j h) :
    AtReturn (j + 1) (h.exec instr) ∧ EntryFrame h (h.exec instr) := by
  by_cases hload : 2 ≤ j
  · obtain ⟨r, hr⟩ := return_load hload hj
    obtain rfl : .ld r r.off .t6 = instr := by simpa [hr] using hinstr
    exact ⟨⟨by omega, fun _ => hat.scratch (by omega)⟩, entryFrame_load h _ _ _⟩
  · obtain rfl | rfl : j = 0 ∨ j = 1 := by omega
    · obtain rfl : Instr.csrw .sscratch .a0 = instr := Option.some.inj hinstr
      refine ⟨⟨by omega, fun _ => hat.a0 rfl⟩, ⟨rfl, rfl, ?_, fun _ _ => rfl⟩⟩
      intro c hc
      exact Function.update_of_ne hc _ _
    · obtain rfl : Instr.addi .t6 .a0 0 = instr := Option.some.inj hinstr
      exact ⟨⟨by omega, fun _ => hat.scratch le_rfl⟩, ⟨rfl, rfl, fun _ _ => rfl, fun _ _ => rfl⟩⟩

def sieBit (h : Hart) : Bool := (h.csr .sstatus).getLsbD SIE
def sppBit (h : Hart) : Bool := (h.csr .sstatus).getLsbD SPP

def AtC (L : Layout) (s : State) : CPoint → Prop
  | .checkSpp => Installed L s ∧ sppBit s.hart = false
  | .assertCurrent | .saveEpc | .readCause | .dispatch _ | .printTicks | .countTick | .readSip
  | .writeSip _ | .callSwitch => Installed L s
  | .advanceEpc tf | .callSyscall tf | .storeRet tf _ => Installed L s ∧ tf = USER_TRAP_FRAME
  -- from here on `switch_to` sets up what it relied on, one thing after the other
  | .assertProc proc | .setCurrent proc => Process L s.hart.mem ∧ proc = L.userApp
  | .setStvec proc => Process L s.hart.mem ∧ proc = L.userApp ∧ s.current = L.userApp
  | .setKernelSp proc => Process L s.hart.mem ∧ proc = L.userApp ∧ s.current = L.userApp ∧
      s.hart.csr .stvec = L.smodeTrapVector
  | .setKernelTrap proc => Process L s.hart.mem ∧ proc = L.userApp ∧ s.current = L.userApp ∧
      s.hart.csr .stvec = L.smodeTrapVector ∧
      load64 s.hart.mem (field USER_TRAP_FRAME kernelSpOff) = USER_KSTACK
  | .readSstatus proc => Installed L s ∧ proc = L.userApp
  | .writeSstatus proc x => Installed L s ∧ proc = L.userApp ∧ x.getLsbD SIE = false
  | .setSepc proc | .callReturn proc => Installed L s ∧ proc = L.userApp ∧ sppBit s.hart = false
  | .stopped why => why ≠ .notFromUser ∧ why ≠ .assertCurrent ∧ why ≠ .assertProc

theorem AtC.congr {s s' : State} {p : CPoint} (h : AtC L s p)
    (hm : SameCore L s.hart.mem s'.hart.mem) (hcur : s'.current = s.current)
    (hcsr : ∀ c ∈ [Csr.sstatus, .stvec, .sscratch], s'.hart.csr c = s.hart.csr c) : AtC L s' p := by
  have hinst (hi : Installed L s) : Installed L s' := hi.congr hm hcur (hcsr .stvec (by decide))
  have hspp : sppBit s'.hart = sppBit s.hart := by
    unfold sppBit
    rw [hcsr .sstatus (by decide)]
  have hstvec := hcsr .stvec (by decide)
  cases p with
  | checkSpp => exact ⟨hinst h.1, hspp.trans h.2⟩
  | advanceEpc | callSyscall | storeRet | readSstatus | writeSstatus => exact ⟨hinst h.1, h.2⟩
  | assertProc | setCurrent => exact ⟨h.1.congr hm, h.2⟩
  | setStvec proc => exact ⟨h.1.congr hm, h.2.1, hcur.trans h.2.2⟩
  | setKernelSp proc => exact ⟨h.1.congr hm, h.2.1, hcur.trans h.2.2.1, hstvec.trans h.2.2.2⟩
  | setKernelTrap proc =>
    exact ⟨h.1.congr hm, h.2.1, hcur.trans h.2.2.1, hstvec.trans h.2.2.2.1,
      (hm.load64_field (by decide) (by decide)).trans h.2.2.2.2⟩
  | setSepc | callReturn => exact ⟨hinst h.1, h.2.1, hspp.trans h.2.2⟩
  | stopped why => exact h
  | _ => exact hinst h

/-- Every place at which a run can be, with what is known there. -/
inductive Inv (L : Layout) (s : State) : Prop
  | user (hpriv : s.hart.priv = .user) (hcode : s.code = none) (hinst : Installed L s)
      (hscratch : s.hart.csr .sscratch = USER_TRAP_FRAME)
  | vector (i : ℕ) (hi : i < 38) (hpriv : s.hart.priv = .supervisor) (hcode : s.code = none)
      (hpc : s.hart.pc = L.smodeTrapVector + BitVec.ofNat 64 (4 * i))
      (hsie : sieBit s.hart = false) (hspp : sppBit s.hart = false)
      (hinst : Installed L s) (hat : AtVector L i s.hart)
  | handler (hpriv : s.hart.priv = .supervisor) (hcode : s.code = none)
      (hpc : s.hart.pc = L.smodeTrapHandler)
      (hsie : sieBit s.hart = false) (hspp : sppBit s.hart = false)
      (hinst : Installed L s) (hsp : s.hart.regs .sp = USER_KSTACK)
  | inC (p : CPoint) (hpriv : s.hart.priv = .supervisor) (hcode : s.code = some p)
      (hsie : sieBit s.hart = false) (hat : AtC L s p)
  | leaving (j : ℕ) (hj : j < 34) (hpriv : s.hart.priv = .supervisor) (hcode : s.code = none)
      (hpc : s.hart.pc = L.returnToUser + BitVec.ofNat 64 (4 * j))
      (hsie : sieBit s.hart = false) (hspp : sppBit s.hart = false)
      (hinst : Installed L s) (hat : AtReturn j s.hart)

theorem Start.inv {s : State} (h : Start L s) : Inv L s :=
  .inC _ h.priv h.code h.sie ⟨⟨h.trapframe, h.kstack⟩, rfl⟩

/-- The C code goes on at `p`, and may have changed what it likes. -/
theorem inv_goto {s : State} {c : Clobber} {p : CPoint} (hpriv : s.hart.priv = .supervisor)
    (hsie : sieBit s.hart = false) (hat : AtC L s p) : Inv L (s.goto L c p) :=
  .inC p hpriv rfl hsie (hat.congr (sameCore_keep _ _) rfl fun _ _ => rfl)

theorem inv_stop {s : State} {why : Stop} (hpriv : s.hart.priv = .supervisor)
    (hsie : sieBit s.hart = false)
    (hwhy : why ≠ .notFromUser ∧ why ≠ .assertCurrent ∧ why ≠ .assertProc) :
    Inv L (s.stop why) :=
  .inC _ hpriv rfl hsie hwhy

theorem Installed.store {s : State} {a v : Word} (h : Installed L s)
    (ha : ∀ x, InBlock a 8 x → ¬ Core L x) : Installed L (s.store a v) :=
  h.congr (sameCore_store ha) rfl rfl

theorem Installed.trapframe {s : State} (h : Installed L s) :
    trapframeOf s.hart.mem s.current = USER_TRAP_FRAME := by
  rw [h.current]
  exact h.process.trapframe

/-- A store to the trapframe does not reach the process structure. -/
theorem Process.store {m : Mem} {off : ℕ} {v : Word} (h : Process L m)
    (hoff : off + 8 ≤ trapframeSize) : Process L (store64 m (field USER_TRAP_FRAME off) v) := by
  have hout (i : ℕ) (hi : i + 8 ≤ processSize) :
      load64 (store64 m (field USER_TRAP_FRAME off) v) (L.userApp + BitVec.ofNat 64 i) =
        load64 m (L.userApp + BitVec.ofNat 64 i) :=
    load64_store64_apart fun x hx hy =>
      L.frame_apart x (hx.of_sub hoff (by decide)) (hy.of_sub hi (by decide))
  exact ⟨(hout _ (by decide)).trans h.trapframe, (hout _ (by decide)).trans h.kstack⟩

theorem sstatus_bits (x : Word) :
    (x &&& ~~~ SSTATUS_SPP ||| SSTATUS_SPIE).getLsbD SIE = x.getLsbD SIE ∧
      (x &&& ~~~ SSTATUS_SPP ||| SSTATUS_SPIE).getLsbD SPP = false := by
  simp [SSTATUS_SPP, SSTATUS_SPIE, SIE, SPP, SPIE]

theorem cStep_inv {s s' : State} {c : Clobber} {p : CPoint} (hpriv : s.hart.priv = .supervisor)
    (hsie : sieBit s.hart = false) (hat : AtC L s p) (h : cStep L c s p = some s') : Inv L s' := by
  cases p with
  | checkSpp =>
    have hclear : ¬ s.hart.csr .sstatus &&& SSTATUS_SPP ≠ 0 := by
      rw [SSTATUS_SPP, and_twoPow_ne_zero _ (by decide)]
      simpa [sppBit] using hat.2
    rw [cStep, if_neg hclear] at h
    obtain rfl := Option.some.inj h
    exact inv_goto hpriv hsie hat.1
  | assertCurrent =>
    have hne : ¬ s.current = 0 := fun h0 => L.userApp_ne (hat.current ▸ h0)
    rw [cStep, if_neg hne] at h
    obtain rfl := Option.some.inj h
    exact inv_goto hpriv hsie hat
  | saveEpc =>
    obtain rfl := Option.some.inj h
    rw [Installed.trapframe hat]
    exact inv_goto hpriv hsie (Installed.store hat fun _ => not_core_of_epc)
  | readCause | printTicks | readSip =>
    obtain rfl := Option.some.inj h
    exact inv_goto hpriv hsie hat
  | dispatch cause =>
    rw [cStep] at h
    split_ifs at h
    · obtain rfl := Option.some.inj h
      exact inv_goto hpriv hsie ⟨hat, Installed.trapframe hat⟩
    · obtain rfl := Option.some.inj h
      exact inv_goto hpriv hsie hat
    · obtain rfl := Option.some.inj h
      exact inv_stop hpriv hsie (by decide)
  | advanceEpc tf =>
    obtain rfl := Option.some.inj h
    obtain ⟨hinst, rfl⟩ := hat
    exact inv_goto hpriv hsie ⟨hinst.store fun _ => not_core_of_epc, rfl⟩
  | callSyscall tf =>
    rw [cStep] at h
    split at h
    · obtain rfl := Option.some.inj h
      exact inv_goto hpriv hsie ⟨hat.1.congr (sameCore_refl _) rfl rfl, hat.2⟩
    · obtain rfl := Option.some.inj h
      exact inv_stop hpriv hsie (by decide)
    · cases h
  | storeRet tf ret =>
    obtain rfl := Option.some.inj h
    obtain ⟨hinst, rfl⟩ := hat
    refine inv_goto hpriv hsie (hinst.store fun x hx => not_core_of_regs ?_)
    exact hx.of_sub (by decide) (by decide)
  | countTick | writeSip =>
    obtain rfl := Option.some.inj h
    exact inv_goto hpriv hsie (Installed.congr hat (sameCore_refl _) rfl rfl)
  | callSwitch =>
    obtain rfl := Option.some.inj h
    exact inv_goto hpriv hsie ⟨Installed.process hat, Installed.current hat⟩
  | assertProc proc =>
    obtain ⟨hproc, rfl⟩ := hat
    rw [cStep, if_neg L.userApp_ne] at h
    obtain rfl := Option.some.inj h
    exact inv_goto hpriv hsie ⟨hproc, rfl⟩
  | setCurrent proc =>
    obtain rfl := Option.some.inj h
    exact inv_goto hpriv hsie ⟨hat.1, hat.2, hat.2⟩
  | setStvec proc =>
    obtain rfl := Option.some.inj h
    exact inv_goto hpriv hsie ⟨hat.1, hat.2.1, hat.2.2, rfl⟩
  | setKernelSp proc =>
    obtain rfl := Option.some.inj h
    obtain ⟨hproc, rfl, hcur, hstvec⟩ := hat
    rw [hproc.trapframe, hproc.kstack]
    refine inv_goto hpriv hsie ⟨hproc.store (by decide), rfl, hcur, hstvec, ?_⟩
    exact load64_store64 _ _ _
  | setKernelTrap proc =>
    obtain rfl := Option.some.inj h
    obtain ⟨hproc, rfl, hcur, hstvec, hsp⟩ := hat
    rw [hproc.trapframe]
    refine inv_goto hpriv hsie ⟨⟨hproc.store (by decide), hcur, hstvec, ?_, ?_⟩, rfl⟩
    · refine Eq.trans ?_ hsp
      exact load64_store64_field _ _ _ (by decide) (by decide) (by decide)
    · exact load64_store64 _ _ _
  | readSstatus proc =>
    obtain rfl := Option.some.inj h
    exact inv_goto hpriv hsie ⟨hat.1, hat.2, hsie⟩
  | writeSstatus proc x =>
    obtain rfl := Option.some.inj h
    obtain ⟨hinst, rfl, hx⟩ := hat
    have hbits := sstatus_bits x
    refine inv_goto hpriv (hbits.1.trans hx) ⟨hinst.congr (sameCore_refl _) rfl rfl, rfl, hbits.2⟩
  | setSepc proc =>
    obtain rfl := Option.some.inj h
    exact inv_goto hpriv hsie ⟨hat.1.congr (sameCore_refl _) rfl rfl, hat.2⟩
  | callReturn proc =>
    obtain rfl := Option.some.inj h
    obtain ⟨hinst, rfl, hspp⟩ := hat
    refine .leaving 0 (by decide) hpriv rfl ?_ hsie hspp ?_ ⟨fun _ => ?_, by omega⟩
    · exact (BitVec.add_zero _).symm
    · exact hinst.congr (sameCore_keep _ _) rfl rfl
    · exact hinst.process.trapframe
  | stopped why => cases h

theorem EntryFrame.sameCore {h h' : Hart} (hf : EntryFrame h h') : SameCore L h.mem h'.mem :=
  fun x hx => hf.mem x fun hin => not_core_of_regs hin hx

theorem EntryFrame.installed {s : State} {h' : Hart} (hf : EntryFrame s.hart h')
    (hinst : Installed L s) : Installed L { s with hart := h' } :=
  hinst.congr hf.sameCore rfl (hf.csr .stvec (by decide))

theorem EntryFrame.sie {h h' : Hart} (hf : EntryFrame h h') (hsie : sieBit h = false) :
    sieBit h' = false := by
  rw [sieBit, hf.csr .sstatus (by decide)]
  exact hsie

theorem EntryFrame.spp {h h' : Hart} (hf : EntryFrame h h') (hspp : sppBit h = false) :
    sppBit h' = false := by
  rw [sppBit, hf.csr .sstatus (by decide)]
  exact hspp

theorem EntryFrame.next_pc {h h' : Hart} (hf : EntryFrame h h') {base : Word} {i : ℕ}
    (hpc : h.pc = base + BitVec.ofNat 64 (4 * i)) :
    h'.pc = base + BitVec.ofNat 64 (4 * (i + 1)) := by
  rw [hf.pc, hpc]
  bv_omega

theorem vector_inv {s s' : State} {c : Clobber} {i : ℕ} (hi : i < 38)
    (hpriv : s.hart.priv = .supervisor) (hcode : s.code = none)
    (hpc : s.hart.pc = L.smodeTrapVector + BitVec.ofNat 64 (4 * i))
    (hsie : sieBit s.hart = false) (hspp : sppBit s.hart = false) (hinst : Installed L s)
    (hat : AtVector L i s.hart) (h : kernelStep L c s = some s') : Inv L s' := by
  obtain ⟨instr, hinstr, -, hstep⟩ := kernelStep_vector c hi hcode hpc
  obtain rfl := Option.some.inj (hstep.symm.trans h)
  by_cases hlast : i < 37
  · obtain ⟨hat', hf⟩ := vector_step hlast hinstr hat hinst.kernelSp hinst.kernelTrap
    exact .vector (i + 1) (by omega) (hf.priv.trans hpriv) hcode (hf.next_pc hpc) (hf.sie hsie)
      (hf.spp hspp) (hf.installed hinst) hat'
  · obtain rfl : i = 37 := by omega
    obtain rfl : Instr.jr .t0 = instr := Option.some.inj hinstr
    exact .handler hpriv hcode (hat.t0 le_rfl) hsie hspp (hinst.congr (sameCore_refl _) rfl rfl)
      (hat.sp (by omega))

theorem leaving_inv {s s' : State} {c : Clobber} {j : ℕ} (hj : j < 34)
    (hpriv : s.hart.priv = .supervisor) (hcode : s.code = none)
    (hpc : s.hart.pc = L.returnToUser + BitVec.ofNat 64 (4 * j))
    (hsie : sieBit s.hart = false) (hspp : sppBit s.hart = false) (hinst : Installed L s)
    (hat : AtReturn j s.hart) (h : kernelStep L c s = some s') : Inv L s' := by
  obtain ⟨instr, hinstr, -, hstep⟩ := kernelStep_return c hj hcode hpc
  obtain rfl := Option.some.inj (hstep.symm.trans h)
  by_cases hlast : j < 33
  · obtain ⟨hat', hf⟩ := return_step hlast hinstr hat
    exact .leaving (j + 1) (by omega) (hf.priv.trans hpriv) hcode (hf.next_pc hpc) (hf.sie hsie)
      (hf.spp hspp) (hf.installed hinst) hat'
  · obtain rfl : j = 33 := by omega
    obtain rfl : Instr.sret = instr := Option.some.inj hinstr
    refine .user ?_ hcode (hinst.congr (sameCore_refl _) rfl rfl) (hat.scratch (by omega))
    have hbit : (s.hart.csr .sstatus).getLsbD SPP = false := hspp
    simp only [Hart.exec, Hart.sretStep, hbit]
    rfl

/-- A trap from user mode goes to the first instruction of the entry code. -/
theorem trap_inv {s : State} (cause : Word) (hpriv : s.hart.priv = .user) (hcode : s.code = none)
    (hinst : Installed L s) (hscratch : s.hart.csr .sscratch = USER_TRAP_FRAME) :
    Inv L { s with hart := s.hart.trapS cause } := by
  have hbit (k : ℕ) (hk : k < 64) := getLsbD_setBit (j := k) (k := SPP)
    (setBit (setBit (s.hart.csr .sstatus) SPIE ((s.hart.csr .sstatus).getLsbD SIE)) SIE false)
    (s.hart.priv ≠ .user) hk
  refine .vector 0 (by decide) rfl hcode ?_ ?_ ?_ (hinst.congr (sameCore_refl _) rfl rfl)
    ⟨fun _ => hscratch, by omega, by omega, by omega, by omega⟩
  · exact hinst.stvec.trans (BitVec.add_zero _).symm
  · refine (hbit SIE (by decide)).trans ?_
    rw [if_neg (by decide), getLsbD_setBit _ _ (by decide)]
    rfl
  · refine (hbit SPP (by decide)).trans ?_
    simp [hpriv]

theorem Inv.code_none_of_user {s : State} (h : Inv L s) (hpriv : s.hart.priv = .user) :
    s.code = none ∧ Installed L s ∧ s.hart.csr .sscratch = USER_TRAP_FRAME := by
  cases h with
  | user _ hcode hinst hscratch => exact ⟨hcode, hinst, hscratch⟩
  | vector _ _ hs => exact absurd (hpriv.symm.trans hs) (by decide)
  | handler hs => exact absurd (hpriv.symm.trans hs) (by decide)
  | inC _ hs => exact absurd (hpriv.symm.trans hs) (by decide)
  | leaving _ _ hs => exact absurd (hpriv.symm.trans hs) (by decide)

theorem Inv.sie {s : State} (h : Inv L s) (hpriv : s.hart.priv = .supervisor) :
    sieBit s.hart = false := by
  cases h with
  | user hs => exact absurd (hpriv.symm.trans hs) (by decide)
  | vector _ _ _ _ _ hsie => exact hsie
  | handler _ _ _ hsie => exact hsie
  | inC _ _ _ hsie => exact hsie
  | leaving _ _ _ _ _ hsie => exact hsie

/-- A machine-mode timer trap changes nothing that the invariant speaks of. -/
theorem mtimer_inv {s s' : State} (h : Inv L s) (hregs : s'.hart.regs = s.hart.regs)
    (hpc : s'.hart.pc = s.hart.pc) (hpriv : s'.hart.priv = s.hart.priv) (hcode : s'.code = s.code)
    (hcur : s'.current = s.current) (hm : SameCore L s.hart.mem s'.hart.mem)
    (hcsr : ∀ c ∈ [Csr.sstatus, .stvec, .sscratch], s'.hart.csr c = s.hart.csr c) : Inv L s' := by
  have hinst (hi : Installed L s) : Installed L s' := hi.congr hm hcur (hcsr .stvec (by decide))
  have hsie : sieBit s'.hart = sieBit s.hart := by rw [sieBit, sieBit, hcsr .sstatus (by decide)]
  have hspp : sppBit s'.hart = sppBit s.hart := by rw [sppBit, sppBit, hcsr .sstatus (by decide)]
  have hscr := hcsr .sscratch (by decide)
  cases h with
  | user h1 h2 h3 h4 => exact .user (hpriv.trans h1) (hcode.trans h2) (hinst h3) (hscr.trans h4)
  | vector i hi h1 h2 h3 h4 h5 h6 h7 =>
    refine .vector i hi (hpriv.trans h1) (hcode.trans h2) (hpc.trans h3) (hsie.trans h4)
      (hspp.trans h5) (hinst h6) ⟨?_, ?_, ?_, ?_, ?_⟩
    · exact fun hi => hscr.trans (h7.scratch hi)
    · exact fun hi => (congrFun hregs _).trans (h7.a0 hi)
    · exact fun hi => (congrFun hregs _).trans (h7.t6 hi)
    · exact fun hi => (congrFun hregs _).trans (h7.sp hi)
    · exact fun hi => (congrFun hregs _).trans (h7.t0 hi)
  | handler h1 h2 h3 h4 h5 h6 h7 =>
    exact .handler (hpriv.trans h1) (hcode.trans h2) (hpc.trans h3) (hsie.trans h4)
      (hspp.trans h5) (hinst h6) ((congrFun hregs _).trans h7)
  | inC p h1 h2 h3 h4 =>
    exact .inC p (hpriv.trans h1) (hcode.trans h2) (hsie.trans h3) (h4.congr hm hcur hcsr)
  | leaving j hj h1 h2 h3 h4 h5 h6 h7 =>
    exact .leaving j hj (hpriv.trans h1) (hcode.trans h2) (hpc.trans h3) (hsie.trans h4)
      (hspp.trans h5) (hinst h6)
      ⟨fun hj => (congrFun hregs _).trans (h7.a0 hj), fun hj => hscr.trans (h7.scratch hj)⟩

theorem kernelStep_inv {s s' : State} {c : Clobber} (hinv : Inv L s)
    (hpriv : s.hart.priv = .supervisor) (h : kernelStep L c s = some s') : Inv L s' := by
  cases hinv with
  | user hu => exact absurd (hpriv.symm.trans hu) (by decide)
  | vector i hi _ hcode hpc hsie hspp hinst hat =>
    exact vector_inv hi hpriv hcode hpc hsie hspp hinst hat h
  | handler _ hcode hpc hsie hspp hinst _ =>
    rw [kernelStep_handler hcode hpc] at h
    obtain rfl := Option.some.inj h
    exact inv_goto hpriv hsie ⟨hinst, hspp⟩
  | inC p _ hcode hsie hat =>
    rw [kernelStep_c hcode] at h
    exact cStep_inv hpriv hsie hat h
  | leaving j hj _ hcode hpc hsie hspp hinst hat =>
    exact leaving_inv hj hpriv hcode hpc hsie hspp hinst hat h

theorem step_inv {s s' : State} {a : Action} (hinv : Inv L s) (h : step L a s = some s') :
    Inv L s' := by
  cases a with
  | user regs pc mem =>
    rw [step] at h
    split_ifs at h with hpriv
    obtain rfl := Option.some.inj h
    obtain ⟨hcode, hinst, hscratch⟩ := hinv.code_none_of_user hpriv
    exact .user hpriv hcode (hinst.congr (sameCore_keep _ _) rfl rfl) hscratch
  | ecall =>
    rw [step] at h
    split_ifs at h with hpriv
    obtain rfl := Option.some.inj h
    obtain ⟨hcode, hinst, hscratch⟩ := hinv.code_none_of_user hpriv
    exact trap_inv _ hpriv hcode hinst hscratch
  | softInterrupt =>
    rw [step] at h
    split_ifs at h with hen
    obtain rfl := Option.some.inj h
    rcases hen.2 with hpriv | ⟨hpriv, hsie⟩
    · obtain ⟨hcode, hinst, hscratch⟩ := hinv.code_none_of_user hpriv
      have := trap_inv CAUSE_MTIMER_S_TRAP hpriv hcode hinst hscratch
      rwa [hcode] at this
    · -- interrupts are off in S mode
      have hoff : (s.hart.csr .sstatus).getLsbD SIE = false := hinv.sie hpriv
      rw [hoff] at hsie
      cases hsie
  | mtimer =>
    rw [step] at h
    split_ifs at h with hpriv
    obtain rfl := Option.some.inj h
    refine mtimer_inv hinv rfl rfl rfl rfl rfl ?_ ?_
    · exact sameCore_store fun _ => not_core_of_clint
    · intro c hc
      exact Function.update_of_ne (fun heq => absurd (heq ▸ hc) (by decide)) _ _
  | kernel c =>
    rw [step] at h
    split_ifs at h with hpriv
    exact kernelStep_inv hinv hpriv h

theorem run_inv {s t : State} {as : List Action} (hs : Start L s)
    (h : Transition.run (step L) as s = some t) : Inv L t :=
  Transition.run_invariant (C := fun _ _ => True) (fun _ _ _ hi _ hstep => step_inv hi hstep) hs.inv
    (Transition.along_true as s) h

theorem inBlock_instr (base : Word) {i n : ℕ} (hi : i < n) (hn : 4 * n ≤ 2 ^ 64) :
    InBlock base (4 * n) (base + BitVec.ofNat 64 (4 * i)) := by
  rw [InBlock, offset_ofNat base (by omega)]
  omega

def AtEntry (L : Layout) (s : State) : Prop :=
  s.hart.priv = .supervisor ∧ s.code = none ∧ s.hart.pc = L.smodeTrapVector

def AtHandler (L : Layout) (s : State) : Prop :=
  s.hart.priv = .supervisor ∧ s.code = none ∧ s.hart.pc = L.smodeTrapHandler

instance (s : State) : Decidable (AtEntry L s) := inferInstanceAs (Decidable (_ ∧ _ ∧ _))

theorem Inv.atEntry {s : State} (h : Inv L s) (hat : AtEntry L s) :
    Installed L s ∧ s.hart.csr .sscratch = USER_TRAP_FRAME := by
  obtain ⟨hpriv, hcode, hpc⟩ := hat
  have hzero : InBlock L.smodeTrapVector 152 L.smodeTrapVector := by
    simp [InBlock, offset]
  cases h with
  | user hs => exact absurd (hpriv.symm.trans hs) (by decide)
  | vector i hi _ _ hpc' _ _ hinst hat =>
    obtain rfl : i = 0 := by
      have := offset_ofNat L.smodeTrapVector (i := 4 * i) (by omega)
      rw [← hpc', hpc, offset, BitVec.sub_self] at this
      have h0 : (0#64).toNat = 0 := rfl
      omega
    exact ⟨hinst, hat.scratch rfl⟩
  | handler _ _ hpc' => exact absurd (hpc'.symm.trans hpc ▸ hzero) L.handler_vector
  | inC p _ hcode' => exact absurd (hcode.symm.trans hcode') (by simp)
  | leaving j hj _ _ hpc' =>
    have hin := inBlock_instr L.returnToUser hj (by decide)
    rw [← hpc', hpc] at hin
    exact absurd hin (L.vector_apart _ hzero)

theorem Inv.atHandler {s : State} (h : Inv L s) (hat : AtHandler L s) :
    Installed L s ∧ s.hart.regs .sp = USER_KSTACK := by
  obtain ⟨hpriv, hcode, hpc⟩ := hat
  cases h with
  | user hs => exact absurd (hpriv.symm.trans hs) (by decide)
  | vector i hi _ _ hpc' =>
    have hin := inBlock_instr L.smodeTrapVector hi (by decide)
    rw [← hpc', hpc] at hin
    exact absurd hin L.handler_vector
  | handler _ _ _ _ _ hinst hsp => exact ⟨hinst, hsp⟩
  | inC p _ hcode' => exact absurd (hcode.symm.trans hcode') (by simp)
  | leaving j hj _ _ hpc' =>
    have hin := inBlock_instr L.returnToUser hj (by decide)
    rw [← hpc', hpc] at hin
    exact absurd hin L.handler_return

/-- What the kernel may count on in a state. -/
structure EntryInvariant (L : Layout) (s : State) : Prop where
  /-- A trap goes to `smode_trap_vector`. -/
  trap_enters : ∀ a s', a = .ecall ∨ a = .softInterrupt → step L a s = some s' → AtEntry L s'
  stvec : AtEntry L s → s.hart.csr .stvec = L.smodeTrapVector
  sscratch : AtEntry L s → s.hart.csr .sscratch = trapframeOf s.hart.mem L.userApp
  kernel_sp : AtEntry L s →
    load64 s.hart.mem (field (trapframeOf s.hart.mem L.userApp) kernelSpOff) =
      load64 s.hart.mem (L.userApp + BitVec.ofNat 64 kstackOff)
  kernel_trap : AtEntry L s →
    load64 s.hart.mem (field (trapframeOf s.hart.mem L.userApp) kernelTrapOff) = L.smodeTrapHandler
  sie_off : s.hart.priv = .supervisor → (s.hart.csr .sstatus).getLsbD SIE = false
  no_panic : s.code ≠ some (.stopped .notFromUser)
  no_assert : s.code ≠ some (.stopped .assertCurrent)
  handler_sp : AtHandler L s →
    s.hart.regs .sp = load64 s.hart.mem (L.userApp + BitVec.ofNat 64 kstackOff)

/-- A trap is taken from user mode only, and then to the entry code. -/
theorem trap_enters {s s' : State} {a : Action} (hinv : Inv L s)
    (ha : a = .ecall ∨ a = .softInterrupt) (h : step L a s = some s') : AtEntry L s' := by
  have huser (hpriv : s.hart.priv = .user) : s.hart.csr .stvec = L.smodeTrapVector ∧ s.code = none :=
    have hu := hinv.code_none_of_user hpriv
    ⟨hu.2.1.stvec, hu.1⟩
  rcases ha with rfl | rfl
  · rw [step] at h
    split_ifs at h with hpriv
    obtain rfl := Option.some.inj h
    exact ⟨rfl, (huser hpriv).2, (huser hpriv).1⟩
  · rw [step] at h
    split_ifs at h with hen
    obtain rfl := Option.some.inj h
    rcases hen.2 with hpriv | ⟨hpriv, hsie⟩
    · exact ⟨rfl, rfl, (huser hpriv).1⟩
    · have hoff : (s.hart.csr .sstatus).getLsbD SIE = false := hinv.sie hpriv
      rw [hoff] at hsie
      cases hsie

theorem Inv.not_stopped {s : State} (h : Inv L s) {why : Stop}
    (hcode : s.code = some (.stopped why)) : why ≠ .notFromUser ∧ why ≠ .assertCurrent := by
  have hsome (hn : s.code = none) : False := by
    rw [hcode] at hn
    cases hn
  cases h with
  | user _ hn => exact (hsome hn).elim
  | vector _ _ _ hn => exact (hsome hn).elim
  | handler _ hn => exact (hsome hn).elim
  | inC p _ hp _ hat =>
    obtain rfl := Option.some.inj (hp.symm.trans hcode)
    exact ⟨hat.1, hat.2.1⟩
  | leaving _ _ _ hn => exact (hsome hn).elim

/-- In every state of every run from `s_start`'s call of `switch_to`. -/
theorem kernel_entry_invariant (L : Layout) {s t : State} (as : List Action) (hs : Start L s)
    (hrun : Transition.run (step L) as s = some t) : EntryInvariant L t := by
  have hinv := run_inv hs hrun
  refine ⟨fun a s' ha => trap_enters hinv ha, ?_, ?_, ?_, ?_, fun hpriv => hinv.sie hpriv, ?_, ?_, ?_⟩
  · exact fun hat => (hinv.atEntry hat).1.stvec
  · intro hat
    obtain ⟨hinst, hscratch⟩ := hinv.atEntry hat
    rw [hinst.process.trapframe, hscratch]
  · intro hat
    obtain ⟨hinst, -⟩ := hinv.atEntry hat
    rw [hinst.process.trapframe, hinst.kernelSp, hinst.process.kstack]
  · intro hat
    obtain ⟨hinst, -⟩ := hinv.atEntry hat
    rw [hinst.process.trapframe, hinst.kernelTrap]
  · exact fun hcode => (hinv.not_stopped hcode).1 rfl
  · exact fun hcode => (hinv.not_stopped hcode).2 rfl
  · intro hat
    obtain ⟨hinst, hsp⟩ := hinv.atHandler hat
    rw [hinst.process.kstack, hsp]

theorem kernel_entry_first_ecall :
    ∃ t, Transition.run (step sampleLayout) (bootSteps ++ [.mtimer, .ecall]) bootState = some t ∧
      AtEntry sampleLayout t ∧ EntryInvariant sampleLayout t := by
  obtain ⟨t, hrun, hat⟩ := exists_of_run (bootSteps ++ [.mtimer, .ecall])
    (P := AtEntry sampleLayout) (by decide +kernel)
  exact ⟨t, hrun, hat, kernel_entry_invariant sampleLayout _ bootState_start hrun⟩

end ProxyKernel.Trap
