import ProxyKernel.TrapMachine

/-!
`mtrapvec` saves the registers in `g_itrframe`, calls `handle_mtrap` and restores
them.  The trap can fall on any instruction of user or supervisor code, also on
those of `smode_trap_vector` and `return_to_user`.
-/

namespace ProxyKernel.Trap
open ByteMem Riscv

def CAUSE_FETCH_ACCESS : Word := 0x1
def CAUSE_ILLEGAL_INSTRUCTION : Word := 0x2
def CAUSE_MISALIGNED_LOAD : Word := 0x4
def CAUSE_LOAD_ACCESS : Word := 0x5
def CAUSE_MISALIGNED_STORE : Word := 0x6
def CAUSE_STORE_ACCESS : Word := 0x7
def CAUSE_MTIMER : Word := 0x8000000000000007

structure MClobber where
  regs : Reg → Word
  pc : Word
  mem : Mem

instance : Inhabited MClobber := ⟨⟨fun _ => 0, 0, fun _ => 0⟩⟩

def MClobber.apply (c : MClobber) (h : Hart) : Hart :=
  { h with
    regs := c.regs
    pc := c.pc
    mem := fun x => if InBlock (h.regs .sp - 4096) 4096 x then c.mem x else h.mem x }

def handleTimer (h : Hart) : Hart :=
  { h.setCsr .sip (sipValue (h.csr .sip) SIP_SSIP) with
    mem := store64 h.mem CLINT_MTIMECMP (load64 h.mem CLINT_MTIMECMP + TIMER_INTERVAL) }

def handleInstructionAccessFault : Except String Hart := .error "Instruction access fault!"
def handleLoadAccessFault : Except String Hart := .error "Load access fault!"
def handleStoreAccessFault : Except String Hart := .error "Store/AMO access fault!"
def handleIllegalInstruction : Except String Hart := .error "Illegal instruction!"
def handleMisalignedLoad : Except String Hart := .error "Misaligned Load!"
def handleMisalignedStore : Except String Hart := .error "Misaligned AMO!"

/-- An error is a call of `panic`, which does not return. -/
def handleMtrap (c : MClobber) (h : Hart) : Except String Hart :=
  let mcause := h.csr .mcause
  if mcause = CAUSE_MTIMER then .ok (c.apply (handleTimer h))
  else if mcause = CAUSE_FETCH_ACCESS then handleInstructionAccessFault
  -- this case has no `break`
  else if mcause = CAUSE_LOAD_ACCESS then handleLoadAccessFault.bind fun _ => handleStoreAccessFault
  else if mcause = CAUSE_STORE_ACCESS then handleStoreAccessFault
  else if mcause = CAUSE_ILLEGAL_INSTRUCTION then handleIllegalInstruction
  else if mcause = CAUSE_MISALIGNED_LOAD then handleMisalignedLoad
  else if mcause = CAUSE_MISALIGNED_STORE then handleMisalignedStore
  else .error "unexpected exception happened in M-mode.\n"

/-- A trap of the machine, from its entry at `mtrapvec` to its `mret`. -/
def mtrap (stack0 : Word) (c : MClobber) (cause : Word) (h : Hart) : Except String Hart :=
  (handleMtrap c ((h.trapM cause).execAll (mtrapvecEntry stack0))).map (Hart.execAll mtrapvecExit)

/-- Where the linker puts the data of machine mode. -/
structure MachineLayout where
  /-- `&g_itrframe` -/
  itrframe : Word
  stack0 : Word
  frame_stack : Apart itrframe 248 stack0 4096
  frame_clint : Apart itrframe 248 CLINT_MTIMECMP 8
  user_frame : Apart USER_TRAP_FRAME trapframeSize itrframe 248
  user_stack : Apart USER_TRAP_FRAME trapframeSize stack0 4096

variable {M : MachineLayout} {h h' : Hart}

/-- A place at which the timer trap can be taken, as `m_start` has set things up. -/
structure Interruptible (M : MachineLayout) (h : Hart) : Prop where
  priv : h.priv ≠ .machine
  mscratch : h.csr .mscratch = M.itrframe
  mhartid : h.csr .mhartid = 0

structure Calling (M : MachineLayout) (h h' : Hart) : Prop where
  sp : h'.regs .sp = M.stack0 + 4096
  csr : ∀ k, k ≠ .mstatus → k ≠ .mepc → k ≠ .mcause → h'.csr k = h.csr k
  mepc : h'.csr .mepc = h.pc
  mcause : h'.csr .mcause = CAUSE_MTIMER
  mpp : Priv.ofBits ((h'.csr .mstatus).getLsbD MPP, (h'.csr .mstatus).getLsbD (MPP + 1)) = h.priv
  saved : ∀ r : Reg, load64 h'.mem (M.itrframe + BitVec.ofNat 64 r.off) =
    if r = .t6 then M.itrframe else h.regs r
  mem : ∀ x, ¬ InBlock M.itrframe 248 x → h'.mem x = h.mem x

theorem mtrapvecEntry_eq (stack0 : Word) : mtrapvecEntry stack0 = saveSequence .mscratch ++
    [Instr.li .sp stack0, .li .a3 4096, .csrr .a4 .mhartid, .addi .a4 .a4 1, .mul .a3 .a3 .a4,
      .add .sp .sp .a3, .csrw .mscratch .a0] := rfl

theorem trapM_mpp (h : Hart) (cause : Word) : Priv.ofBits
    (((h.trapM cause).csr .mstatus).getLsbD MPP, ((h.trapM cause).csr .mstatus).getLsbD (MPP + 1)) =
      h.priv := by
  have hcsr : (h.trapM cause).csr .mstatus =
      setBit (setBit (setBit (setBit (h.csr .mstatus) MPIE ((h.csr .mstatus).getLsbD MIE)) MIE false)
        MPP h.priv.bits.1) (MPP + 1) h.priv.bits.2 := rfl
  have hlow : MPP ≠ MPP + 1 := by decide
  rw [hcsr, getLsbD_setBit _ _ (by decide), if_neg hlow, getLsbD_setBit _ _ (by decide), if_pos rfl,
    getLsbD_setBit _ _ (by decide), if_pos rfl, Prod.mk.eta, Priv.ofBits_bits]

theorem trapM_csr (h : Hart) (cause : Word) {k : Csr} (h1 : k ≠ .mstatus) (h2 : k ≠ .mepc)
    (h3 : k ≠ .mcause) : (h.trapM cause).csr k = h.csr k := by
  simp only [Hart.trapM, Hart.setCsr, Function.update_of_ne h1, Function.update_of_ne h2,
    Function.update_of_ne h3]

theorem calling (hs : Interruptible M h) :
    Calling M h ((h.trapM CAUSE_MTIMER).execAll (mtrapvecEntry M.stack0)) := by
  have hscratch : (h.trapM CAUSE_MTIMER).csr .mscratch = M.itrframe :=
    (trapM_csr h _ (by decide) (by decide) (by decide)).trans hs.mscratch
  have hhart : (h.trapM CAUSE_MTIMER).csr .mhartid = 0 :=
    (trapM_csr h _ (by decide) (by decide) (by decide)).trans hs.mhartid
  have hregs : (h.trapM CAUSE_MTIMER).regs = h.regs := rfl
  have hmem : (h.trapM CAUSE_MTIMER).mem = h.mem := rfl
  have hsaved := load64_savedMem .mscratch (h.trapM CAUSE_MTIMER)
  rw [hscratch, hregs] at hsaved
  have hframe (x : Word) (hx : ¬ InBlock M.itrframe 248 x) :
      savedMem .mscratch (h.trapM CAUSE_MTIMER) x = h.mem x := by
    rw [← hmem]
    exact savedMem_of_not_mem_block (by rwa [hscratch])
  have hother (k : Csr) (hk : k ≠ .mscratch) :
      ((h.trapM CAUSE_MTIMER).execAll (mtrapvecEntry M.stack0)).csr k = (h.trapM CAUSE_MTIMER).csr k := by
    rw [mtrapvecEntry_eq, Hart.execAll_append, execAll_saveSequence]
    exact (Function.update_of_ne hk _ _).trans (Function.update_of_ne hk _ _)
  have hback : ((h.trapM CAUSE_MTIMER).execAll (mtrapvecEntry M.stack0)).csr .mscratch = M.itrframe := by
    rw [mtrapvecEntry_eq, Hart.execAll_append, execAll_saveSequence, ← hscratch]
    rfl
  refine ⟨?_, ?_, ?_, ?_, ?_, ?_, ?_⟩
  · rw [mtrapvecEntry_eq, Hart.execAll_append, execAll_saveSequence]
    simp [Hart.exec, Hart.effect, Hart.setReg, Hart.setCsr, saved, hhart]
  · intro k h1 h2 h3
    by_cases hk : k = .mscratch
    · rw [hk, hback, hs.mscratch]
    · rw [hother k hk, trapM_csr h _ h1 h2 h3]
  · rw [hother _ (by decide)]
    rfl
  · rw [hother _ (by decide)]
    rfl
  · rw [hother _ (by decide)]
    exact trapM_mpp h _
  · intro r
    rw [← hsaved r, mtrapvecEntry_eq, Hart.execAll_append, execAll_saveSequence]
    rfl
  · intro x hx
    rw [← hframe x hx, mtrapvecEntry_eq, Hart.execAll_append, execAll_saveSequence]
    rfl

def traceCsrs : List Csr := [.sip, .mstatus, .mepc, .mcause]

structure AfterTimer (M : MachineLayout) (h h' : Hart) : Prop where
  regs : h'.regs = Function.update h.regs .t6 M.itrframe
  pc : h'.pc = h.pc
  priv : h'.priv = h.priv
  sip : h'.csr .sip = setBit (h.csr .sip) SSIP true
  csr : ∀ k, k ∉ traceCsrs → h'.csr k = h.csr k
  mem : ∀ x, ¬ InBlock M.itrframe 248 x → ¬ InBlock M.stack0 4096 x →
    h'.mem x = store64 h.mem CLINT_MTIMECMP (load64 h.mem CLINT_MTIMECMP + TIMER_INTERVAL) x

theorem Calling.mem_apply (hc : Calling M h h') (c : MClobber) {x : Word}
    (hx : ¬ InBlock M.stack0 4096 x) : (c.apply (handleTimer h')).mem x =
      store64 h'.mem CLINT_MTIMECMP (load64 h'.mem CLINT_MTIMECMP + TIMER_INTERVAL) x := by
  have hsp : (handleTimer h').regs .sp - 4096 = M.stack0 := by
    have h1 : (handleTimer h').regs .sp = M.stack0 + 4096 := hc.sp
    rw [h1, add_sub_cancel_right]
  apply if_neg
  rwa [hsp]

theorem Calling.saved_apply (hc : Calling M h h') (c : MClobber) (r : Reg) :
    load64 (c.apply (handleTimer h')).mem (M.itrframe + BitVec.ofNat 64 r.off) =
      if r = .t6 then M.itrframe else h.regs r := by
  rw [← hc.saved r]
  apply load64_congr
  intro x hx
  have hin : InBlock M.itrframe 248 x := hx.of_sub r.off_le (by omega)
  rw [hc.mem_apply c (M.frame_stack x hin), store64_of_not_mem (M.frame_clint x hin)]

theorem execAll_mtrapvecExit (h : Hart) : h.execAll mtrapvecExit =
    Hart.mretStep { h with
      regs := fun r => load64 h.mem (h.csr .mscratch + BitVec.ofNat 64 r.off)
      pc := h.pc + 4 + 124 } := by
  unfold mtrapvecExit
  rw [Hart.execAll_append, Hart.execAll_append, execAll_restoreAllRegisters]
  simp only [Hart.execAll_cons, Hart.execAll_nil, Hart.exec, Hart.effect, Hart.setReg,
    Function.update_self]

theorem Calling.returns (hs : Interruptible M h) (hc : Calling M h h') (c : MClobber) :
    AfterTimer M h ((c.apply (handleTimer h')).execAll mtrapvecExit) := by
  have hsame (k : Csr) (hk : k ≠ .sip) : (c.apply (handleTimer h')).csr k = h'.csr k :=
    Function.update_of_ne hk _ _
  have hscratch : (c.apply (handleTimer h')).csr .mscratch = M.itrframe := by
    rw [hsame _ (by decide), hc.csr _ (by decide) (by decide) (by decide), hs.mscratch]
  have hsip : (c.apply (handleTimer h')).csr .sip = setBit (h.csr .sip) SSIP true := by
    rw [← hc.csr .sip (by decide) (by decide) (by decide)]
    exact Function.update_self Csr.sip (sipValue (h'.csr .sip) SIP_SSIP) h'.csr
  rw [execAll_mtrapvecExit, hscratch]
  refine ⟨?_, ?_, ?_, ?_, ?_, ?_⟩
  · funext r
    rw [Function.update_apply]
    exact hc.saved_apply c r
  · rw [← hc.mepc, ← hsame .mepc (by decide)]
    rfl
  · rw [← hc.mpp, ← hsame .mstatus (by decide)]
    rfl
  · rw [← hsip]
    exact Hart.mretStep_csr (by decide) _
  · intro k hk
    simp only [traceCsrs, List.mem_cons, List.not_mem_nil, or_false, not_or] at hk
    obtain ⟨h1, h2, h3, h4⟩ := hk
    rw [← hc.csr k h2 h3 h4, ← hsame k h1]
    exact Hart.mretStep_csr h2 _
  · intro x hframe hstack
    have hclint : load64 h'.mem CLINT_MTIMECMP = load64 h.mem CLINT_MTIMECMP :=
      load64_congr fun y hy => hc.mem y fun hin => M.frame_clint y hin hy
    refine (hc.mem_apply c hstack).trans ?_
    rw [hclint]
    simp only [store64, write, hc.mem x hframe]

/-- The timer trap returns, whatever its C code does to the registers. -/
theorem mtrap_timer (hs : Interruptible M h) (c : MClobber) :
    ∃ h', mtrap M.stack0 c CAUSE_MTIMER h = .ok h' ∧ AfterTimer M h h' := by
  have hc := calling hs
  refine ⟨_, ?_, hc.returns hs c⟩
  simp only [mtrap, handleMtrap, hc.mcause, if_true, Except.map]

/-- The trap machine's one step for a timer trap, up to machine mode's own data
and the value of `t6`. -/
theorem mtimer_step {L : Layout} {s : State} (hs : Interruptible M s.hart) (c : MClobber) :
    ∃ h' s', mtrap M.stack0 c CAUSE_MTIMER s.hart = .ok h' ∧ step L .mtimer s = some s' ∧
      h'.regs = Function.update s'.hart.regs .t6 M.itrframe ∧ h'.pc = s'.hart.pc ∧
      h'.priv = s'.hart.priv ∧ (∀ k, k = .sip ∨ k ∉ traceCsrs → h'.csr k = s'.hart.csr k) ∧
      ∀ x, ¬ InBlock M.itrframe 248 x → ¬ InBlock M.stack0 4096 x → h'.mem x = s'.hart.mem x := by
  obtain ⟨h', hrun, ha⟩ := mtrap_timer hs c
  have hstep : step L .mtimer s =
      some { (s.setCsr .sip (setBit (s.hart.csr .sip) SSIP true)).store CLINT_MTIMECMP
          (load64 s.hart.mem CLINT_MTIMECMP + TIMER_INTERVAL) with log := s.log ++ [.mtimer] } :=
    if_pos hs.priv
  refine ⟨h', _, hrun, hstep, ha.regs, ha.pc, ha.priv, ?_, ha.mem⟩
  rintro k (rfl | hk)
  · rw [ha.sip]
    exact (Function.update_self Csr.sip (setBit (s.hart.csr .sip) SSIP true) s.hart.csr).symm
  · have hsip : k ≠ .sip := fun heq => hk (heq ▸ List.mem_cons_self)
    rw [ha.csr k hk]
    exact (Function.update_of_ne hsip (setBit (s.hart.csr .sip) SSIP true) s.hart.csr).symm

/-- The trap has left no trace in what the interrupted code can see. -/
structure Transparent (M : MachineLayout) (h h' : Hart) : Prop where
  regs : h'.regs = h.regs
  pc : h'.pc = h.pc
  priv : h'.priv = h.priv
  sscratch : h'.csr .sscratch = h.csr .sscratch
  mscratch : h'.csr .mscratch = M.itrframe

def InTrapframe (x : Word) : Prop := InBlock USER_TRAP_FRAME trapframeSize x

/-- If `smode_trap_vector` was interrupted at `h` and goes on at `h'`, it writes
the trapframe that it writes without the interruption. -/
def VectorResumes (h h' : Hart) : Prop :=
  ∀ (g : Hart) (i : ℕ), g.csr .sscratch = USER_TRAP_FRAME → g.execAll (smodeTrapVector.take i) = h →
    ∀ x, InTrapframe x →
      (h'.execAll (smodeTrapVector.drop i)).mem x = (g.execAll smodeTrapVector).mem x

/-- The same for `return_to_user` and the registers that it restores. -/
def ReturnResumes (h h' : Hart) : Prop :=
  ∀ (g : Hart) (j : ℕ), g.regs .a0 = USER_TRAP_FRAME → g.execAll (returnToUser.take j) = h →
    (h'.execAll (returnToUser.drop j)).regs = (g.execAll returnToUser).regs

/-- A timer trap at `h` always comes back, and cannot be noticed. -/
def TransparentAt (M : MachineLayout) (h : Hart) : Prop :=
  ∀ c, ∃ h', mtrap M.stack0 c CAUSE_MTIMER h = .ok h' ∧
    Transparent M h h' ∧ VectorResumes h h' ∧ ReturnResumes h h'

theorem AfterTimer.agree (ha : AfterTimer M h h') (ht6 : h.regs .t6 = M.itrframe) :
    Agree (· ∉ traceCsrs) InTrapframe h h' where
  regs := by rw [ha.regs, ← ht6, Function.update_eq_self]
  pc := ha.pc
  priv := ha.priv
  csr := ha.csr
  mem := by
    intro x hx
    have hclint : Apart CLINT_MTIMECMP 8 USER_TRAP_FRAME trapframeSize :=
      apart_of_offset (by decide) (by decide)
    rw [ha.mem x (M.user_frame x hx) (M.user_stack x hx)]
    exact store64_of_not_mem fun hin => hclint x hin hx

theorem inTrapframe_field {off : ℕ} (hoff : off + 8 ≤ trapframeSize) {x : Word}
    (hx : InBlock (USER_TRAP_FRAME + BitVec.ofNat 64 off) 8 x) : InTrapframe x :=
  hx.of_sub hoff (by decide)

theorem loadsIn_saveSequence {B : Word → Prop} {k : Csr} :
    ∀ i ∈ saveSequence k, ∀ g, i.LoadsIn B g := by
  have hstore : ∀ i ∈ storeAllRegisters, ∀ g, i.LoadsIn B g := by
    rw [storeAllRegisters_eq]
    simp [Instr.LoadsIn]
  intro i hi g
  simp only [saveSequence, List.mem_append, List.mem_cons, List.not_mem_nil, or_false] at hi
  rcases hi with ((rfl | rfl) | hi) | rfl | rfl
  · trivial
  · trivial
  · exact hstore i hi g
  · trivial
  · trivial

theorem allLoadsIn_vector {g : Hart} (hg : g.csr .sscratch = USER_TRAP_FRAME) :
    AllLoadsIn InTrapframe smodeTrapVector g := by
  have ha0 : (saved .sscratch g).regs .a0 = USER_TRAP_FRAME := hg
  rw [smodeTrapVector_eq, allLoadsIn_append, execAll_saveSequence]
  refine ⟨allLoadsIn_of_forall loadsIn_saveSequence, ?_, ?_, trivial, trivial⟩
  · intro x hx
    rw [Hart.addr, ha0] at hx
    exact inTrapframe_field (by decide) hx
  · intro x hx
    rw [Hart.addr] at hx
    have hx' : InBlock (USER_TRAP_FRAME + BitVec.ofNat 64 256) 8 x := ha0 ▸ hx
    exact inTrapframe_field (by decide) hx'

theorem allLoadsIn_return {g : Hart} (hg : g.regs .a0 = USER_TRAP_FRAME) :
    AllLoadsIn InTrapframe returnToUser g := by
  have hsplit : returnToUser = [Instr.csrw .sscratch .a0, .addi .t6 .a0 0] ++
      ((Reg.all.dropLast.map fun r => Instr.ld r r.off .t6) ++ [Instr.ld .t6 240 .t6, .sret]) := rfl
  have ht6 : Reg.t6 ∉ Reg.all.dropLast := by decide
  have hbase : (g.execAll [Instr.csrw .sscratch .a0, .addi .t6 .a0 0]).regs .t6 = USER_TRAP_FRAME :=
    (BitVec.add_zero _).trans hg
  rw [hsplit, allLoadsIn_append, allLoadsIn_append, execAll_ld ht6]
  refine ⟨⟨trivial, trivial, trivial⟩, allLoadsIn_ld ht6 ?_, ?_, trivial, trivial⟩
  · rw [hbase]
    intro x hx
    exact lt_of_lt_of_le hx (by decide)
  · intro x hx
    simp only [Hart.addr, if_neg ht6, hbase] at hx
    exact inTrapframe_field (by decide) hx

theorem AfterTimer.transparent (hs : Interruptible M h) (ha : AfterTimer M h h')
    (ht6 : h.regs .t6 = M.itrframe) : Transparent M h h' where
  regs := (ha.agree ht6).regs
  pc := ha.pc
  priv := ha.priv
  sscratch := ha.csr _ (by decide)
  mscratch := (ha.csr _ (by decide)).trans hs.mscratch

theorem AfterTimer.vectorResumes (ha : AfterTimer M h h') (ht6 : h.regs .t6 = M.itrframe) :
    VectorResumes h h' := by
  rintro g i hg rfl
  exact ((ha.agree ht6).execAll_drop (by decide) (allLoadsIn_vector hg)).mem

theorem AfterTimer.returnResumes (ha : AfterTimer M h h') (ht6 : h.regs .t6 = M.itrframe) :
    ReturnResumes h h' := by
  rintro g j hg rfl
  exact ((ha.agree ht6).execAll_drop (by decide) (allLoadsIn_return hg)).regs

/-- A transparent trap has put the frame's address where `t6` was. -/
theorem TransparentAt.t6 (hs : Interruptible M h) (htr : TransparentAt M h) :
    h.regs .t6 = M.itrframe := by
  obtain ⟨h', hrun, ht, -⟩ := htr default
  obtain ⟨h'', hrun', ha⟩ := mtrap_timer hs default
  obtain rfl : h' = h'' := by
    rw [hrun] at hrun'
    exact Except.ok.inj hrun'
  rw [← ht.regs, ha.regs, Function.update_self]

/-- The trap is transparent at exactly those places where `t6` holds the address of
`g_itrframe`: this is what `mtrapvec` saves and restores for `t6`. -/
theorem timer_trap_transparent_iff {M : MachineLayout} {h : Hart} (hs : Interruptible M h) :
    TransparentAt M h ↔ h.regs .t6 = M.itrframe := by
  refine ⟨TransparentAt.t6 hs, ?_⟩
  intro ht6 c
  obtain ⟨h', hrun, ha⟩ := mtrap_timer hs c
  exact ⟨h', hrun, ha.transparent hs ht6, ha.vectorResumes ht6, ha.returnResumes ht6⟩

def sampleMachine : MachineLayout where
  itrframe := 0x8000b000
  stack0 := 0x80008000
  frame_stack := apart_of_offset (by decide) (by decide)
  frame_clint := apart_of_offset (by decide) (by decide)
  user_frame := apart_of_offset (by decide) (by decide)
  user_stack := apart_of_offset (by decide) (by decide)

def userHart (v : Word) : Hart where
  regs := Function.update (fun _ => 0) .t6 v
  pc := 0x81000000
  priv := .user
  csr := fun k => match k with
    | .mscratch => sampleMachine.itrframe
    | .sscratch => USER_TRAP_FRAME
    | _ => 0
  mem := fun _ => 0

theorem userHart_interruptible (v : Word) : Interruptible sampleMachine (userHart v) :=
  ⟨by simp [userHart], rfl, rfl⟩

theorem timer_trap_transparent_at_frame : TransparentAt sampleMachine (userHart 0x8000b000) :=
  (timer_trap_transparent_iff (userHart_interruptible _)).mpr rfl

theorem timer_trap_loses_t6 : Interruptible sampleMachine (userHart 7) ∧
    ¬ TransparentAt sampleMachine (userHart 7) := by
  refine ⟨userHart_interruptible 7, fun htr => ?_⟩
  have h7 : (7 : Word) = sampleMachine.itrframe := htr.t6 (userHart_interruptible 7)
  exact absurd h7 (by decide)

end ProxyKernel.Trap
