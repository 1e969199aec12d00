import ProxyKernel.TrapContext
import ProxyKernel.MachineInit
import ProxyKernel.KernelLines

/-!
A machine that has only the user's registers and memory and the tick count, and on
which a system call or a timer tick happens at once.  The kernel with machine mode
under it, which takes its timer traps anywhere in between, is compared with it.
-/

namespace ProxyKernel.Trap
open ByteMem Riscv Elf Transition

/-- The kernel and machine mode, linked into one image, and the memory that they leave
to the user program. -/
structure Linked where
  kernel : Layout
  machine : MachineLayout
  userBase : Word
  userSize : ℕ
  frame_process : Apart machine.itrframe 248 kernel.userApp processSize
  stack_process : Apart machine.stack0 4096 kernel.userApp processSize
  user_trapframe : Apart userBase userSize USER_TRAP_FRAME trapframeSize
  user_process : Apart userBase userSize kernel.userApp processSize
  user_frame : Apart userBase userSize machine.itrframe 248
  user_stack : Apart userBase userSize machine.stack0 4096
  user_clint : Apart userBase userSize CLINT_MTIMECMP 8

namespace Linked

variable (K : Linked)

def UserMem (x : Word) : Prop := InBlock K.userBase K.userSize x

/-- All memory that is the program's: also the process structure, with its symbols. -/
def Program (x : Word) : Prop := K.UserMem x ∨ InBlock K.kernel.userApp processSize x

instance (x : Word) : Decidable (K.UserMem x) := inferInstanceAs (Decidable (InBlock _ _ _))
instance (x : Word) : Decidable (K.Program x) := inferInstanceAs (Decidable (_ ∨ _))

def programPart (m : Mem) : Mem := fun x => if K.Program x then m x else 0

/-- `m`, but with this program. -/
def withProgram (prog m : Mem) : Mem := fun x => if K.Program x then prog x else m x

/-- What a step of the C code leaves behind: no statement of the kernel stores to the
user's memory. -/
def sparing (m : Mem) (c : Clobber) : Clobber :=
  { c with mem := fun x => if K.UserMem x then m x else c.mem x }

end Linked

/-- An exception of the user program that goes to supervisor mode, but for its system call. -/
def UserFault (e : ℕ) : Prop := delegatedExceptions.getLsbD e = true ∧ e ≠ 8

instance (e : ℕ) : Decidable (UserFault e) := inferInstanceAs (Decidable (_ ∧ _))

inductive MachineAction where
  | user (regs : Reg → Word) (pc : Word) (mem : Mem)
  | ecall
  | fault (e : ℕ)
  | softInterrupt
  | kernel (c : Clobber)
  | timer (c : MClobber)

/-- As `step`, but a timer trap runs the code of `mtrapvec`, and the user program can run
into an exception.  One that is not delegated has no step: it ends in the panic of
`handle_mtrap`. -/
def machineStep (K : Linked) : MachineAction → State → Option State
  | .user regs pc mem, s => step K.kernel (.user regs pc mem) s
  | .ecall, s => step K.kernel .ecall s
  | .fault e, s =>
    if s.hart.priv = .user ∧ UserFault e then some { s with hart := s.hart.trapS (BitVec.ofNat 64 e) }
    else none
  | .softInterrupt, s => step K.kernel .softInterrupt s
  | .kernel c, s => step K.kernel (.kernel (K.sparing s.hart.mem c)) s
  | .timer c, s =>
    if s.hart.priv = .machine then none
    else
      match mtrap K.machine.stack0 c CAUSE_MTIMER s.hart with
      | .ok h => some { s with hart := h, log := s.log ++ [.mtimer] }
      | .error _ => none

/-- The state in which `s_start` calls `switch_to`, with what `m_start` has set up. -/
structure MachineStart (K : Linked) (s : State) : Prop extends Start K.kernel s where
  mscratch : s.hart.csr .mscratch = K.machine.itrframe
  mhartid : s.hart.csr .mhartid = 0

/-- A timer trap falls on the user program, or on kernel code that it does not disturb. -/
def TimerAllowed (K : Linked) : MachineAction → State → Prop
  | .timer _, s => s.hart.priv = .user ∨ s.hart.regs .t6 = K.machine.itrframe
  | _, _ => True

instance (K : Linked) : ∀ a s, Decidable (TimerAllowed K a s)
  | .timer _, _ => inferInstanceAs (Decidable (_ ∨ _))
  | .user _ _ _, _ => .isTrue trivial
  | .ecall, _ => .isTrue trivial
  | .fault _, _ => .isTrue trivial
  | .softInterrupt, _ => .isTrue trivial
  | .kernel _, _ => .isTrue trivial

structure UserMachine where
  regs : Reg → Word
  pc : Word
  mem : Mem
  gTicks : Word

inductive UserEvent where
  | compute (regs : Reg → Word) (pc : Word) (mem : Mem)
  | timer
  | tick
  | ecall
  | fault (e : ℕ)
  | printed (line : List Byte)

inductive UserAction where
  | compute (regs : Reg → Word) (pc : Word) (mem : Mem)
  | timer
  | tick
  /-- A system call, with the kernel's memory and the printing context that it finds. -/
  | syscall (m : Mem) (k : Print.KernelContext)

def printedBy : Option Syscall.Run → List UserEvent
  | some r => r.writes.map fun x => .printed x.bytes
  | none => []

def ticksFmt : List Byte := ascii "Ticks %d\n".toList

/-- The line for the next tick; the `%d` cuts the count to an `int`. -/
def ticksText (gTicks : Word) : List Byte :=
  ascii "Ticks ".toList ++ Print.numeral (gTicks.setWidth 32).toInt ++ ascii "\n".toList

def UserMachine.saved (v : UserMachine) : Reg → Word := Function.update v.regs .t6 USER_TRAP_FRAME

def UserMachine.SavedIn (v : UserMachine) (m : Mem) : Prop :=
  ∀ r ∈ Reg.all, load64 m (field USER_TRAP_FRAME r.off) = v.saved r

instance (v : UserMachine) (m : Mem) : Decidable (v.SavedIn m) :=
  inferInstanceAs (Decidable (∀ r ∈ Reg.all, _))

/-- The system call that the program's registers ask for, with its own memory and `m` as
the rest. -/
def userCall (K : Linked) (v : UserMachine) (m : Mem) (k : Print.KernelContext) : Option Syscall.Run :=
  Syscall.doSyscall (K.withProgram v.mem m) k K.kernel.userApp fun i => v.regs (argReg i)

/-- Every trap is one step; the trap code loses `t6` and nothing else. -/
def userStep (K : Linked) : UserAction → UserMachine → Option UserMachine
  | .compute regs pc mem, v =>
    some { v with regs := regs, pc := pc, mem := fun x => if K.UserMem x then mem x else v.mem x }
  | .timer, v => some { v with regs := Function.update v.regs .t6 K.machine.itrframe }
  | .tick, v => some { v with regs := v.saved, gTicks := v.gTicks + 1 }
  | .syscall m k, v =>
    if v.SavedIn (K.withProgram v.mem m) then
      match userCall K v m k with
      | some ⟨_, .returns ret⟩ =>
        some { v with regs := Function.update v.saved .a0 ret, pc := v.pc + 4 }
      | _ => none
    else none

def userVisible (K : Linked) : UserAction → UserMachine → List UserEvent
  | .compute regs pc mem, _ => [.compute regs pc mem]
  | .timer, _ => [.timer]
  | .tick, v => [.tick, .printed (ticksText v.gTicks)]
  | .syscall m k, v => .ecall :: printedBy (userCall K v m k)

def printsAt (c : Clobber) (s : State) : CPoint → List UserEvent
  | .printTicks => [.printed (Print.sprint c.context ticksFmt [.ofMem s.hart.mem s.gTicks]).bytes]
  | .callSyscall tf =>
    printedBy (Syscall.doSyscall s.hart.mem c.context s.current (syscallArgs s.hart.mem tf))
  | _ => []

def userEvents : MachineAction → State → List UserEvent
  | .user regs pc mem, _ => [.compute regs pc mem]
  | .ecall, _ => [.ecall]
  | .fault e, _ => [.fault e]
  | .softInterrupt, _ => [.tick]
  | .kernel c, s => s.code.elim [] (printsAt c s)
  | .timer _, s => if s.hart.priv = .user then [.timer] else []

def savedMachine (K : Linked) (s : State) : UserMachine where
  regs := fun r => load64 s.hart.mem (field USER_TRAP_FRAME r.off)
  pc := load64 s.hart.mem (field USER_TRAP_FRAME epcOff)
  mem := K.programPart s.hart.mem
  gTicks := s.gTicks

variable {L : Layout} {K : Linked} {s s' : State}

theorem Linked.Program.not_frame {x : Word} (hx : K.Program x) :
    ¬ InBlock USER_TRAP_FRAME trapframeSize x := by
  rcases hx with hx | hx
  · exact K.user_trapframe x hx
  · exact fun hin => K.kernel.frame_apart x hin hx

/-- The C code stores to the trapframe only. -/
theorem AtC.storesAt {p : CPoint} {a : Word} (hat : AtC L s p) (ha : a ∈ p.storesAt s) :
    ∃ off, off + 8 ≤ trapframeSize ∧ a = field USER_TRAP_FRAME off := by
  cases p with
  | saveEpc =>
    obtain rfl := Option.some.inj ha
    exact ⟨epcOff, by decide, by rw [Installed.trapframe hat]⟩
  | advanceEpc tf =>
    obtain rfl := Option.some.inj ha
    exact ⟨epcOff, by decide, by rw [hat.2]⟩
  | storeRet tf ret =>
    obtain rfl := Option.some.inj ha
    exact ⟨Reg.a0.off, by decide, by rw [hat.2]⟩
  | setKernelSp proc =>
    obtain rfl := Option.some.inj ha
    exact ⟨kernelSpOff, by decide, by rw [hat.2.1, hat.1.trapframe]⟩
  | setKernelTrap proc =>
    obtain rfl := Option.some.inj ha
    exact ⟨kernelTrapOff, by decide, by rw [hat.2.1, hat.1.trapframe]⟩
  | _ => cases ha

theorem cStep_program {c : Clobber} {p : CPoint} (hat : AtC K.kernel s p)
    (hc : ∀ x, K.UserMem x → c.mem x = s.hart.mem x) (h : cStep K.kernel c s p = some s') {x : Word}
    (hx : K.Program x) : s'.hart.mem x = s.hart.mem x := by
  have he := cStep_effect h
  by_cases hprot : K.kernel.Protected x
  · refine he.kept x hprot fun a ha hin => ?_
    obtain ⟨off, hoff, rfl⟩ := hat.storesAt ha
    exact hx.not_frame (hin.of_sub hoff (by decide))
  · have huser : K.UserMem x := hx.resolve_right fun hproc => hprot (.inr hproc)
    rcases he.mem x hprot with hmem | hmem
    · exact hmem.trans (hc x huser)
    · exact hmem

/-- No step of the kernel changes the program. -/
theorem kernelStep_program {c : Clobber} (hinv : Inv K.kernel s) (hpriv : s.hart.priv = .supervisor)
    (hc : ∀ x, K.UserMem x → c.mem x = s.hart.mem x) (h : kernelStep K.kernel c s = some s') {x : Word}
    (hx : K.Program x) : s'.hart.mem x = s.hart.mem x := by
  have hout : ¬ InBlock USER_TRAP_FRAME 248 x := fun hin => hx.not_frame (lt_trans hin (by decide))
  cases hinv with
  | user hu => exact absurd (hpriv.symm.trans hu) (by decide)
  | vector i hi _ hcode hpc _ _ hinst hat =>
    obtain ⟨instr, hinstr, -, hstep⟩ := kernelStep_vector c hi hcode hpc
    obtain rfl := Option.some.inj (hstep.symm.trans h)
    by_cases hlast : i < 37
    · exact (vector_step hlast hinstr hat hinst.kernelSp hinst.kernelTrap).2.mem x hout
    · obtain rfl : i = 37 := by omega
      obtain rfl : Instr.jr .t0 = instr := Option.some.inj hinstr
      rfl
  | handler _ hcode hpc =>
    rw [kernelStep_handler hcode hpc] at h
    obtain rfl := Option.some.inj h
    by_cases hprot : K.kernel.Protected x
    · exact if_pos hprot
    · exact (if_neg hprot).trans (hc x (hx.resolve_right fun hproc => hprot (.inr hproc)))
  | inC p _ hcode _ hat =>
    rw [kernelStep_c hcode] at h
    exact cStep_program hat hc h hx
  | leaving j hj _ hcode hpc _ _ _ hat =>
    obtain ⟨instr, hinstr, -, hstep⟩ := kernelStep_return c hj hcode hpc
    obtain rfl := Option.some.inj (hstep.symm.trans h)
    by_cases hlast : j < 33
    · exact (return_step hlast hinstr hat).2.mem x hout
    · obtain rfl : j = 33 := by omega
      obtain rfl : Instr.sret = instr := Option.some.inj hinstr
      rfl

theorem programPart_congr {m m' : Mem} (h : ∀ x, K.Program x → m' x = m x) :
    K.programPart m' = K.programPart m := by
  funext x
  rw [Linked.programPart, Linked.programPart]
  split_ifs with hx
  · exact h x hx
  · rfl

/-- What the user program stores goes to its own memory, as far as it can be seen there. -/
theorem programPart_keep (m mem : Mem) : K.programPart (K.kernel.keep m mem) =
    fun x => if K.UserMem x then mem x else K.programPart m x := by
  funext x
  rw [Linked.programPart, Linked.programPart, Layout.keep]
  by_cases huser : K.UserMem x
  · have hprot : ¬ K.kernel.Protected x := by
      rintro (hin | hin)
      · exact K.user_trapframe x huser hin
      · exact K.user_process x huser hin
    rw [if_pos (show K.Program x from .inl huser), if_neg hprot, if_pos huser]
  · rw [if_neg huser]
    by_cases hproc : InBlock K.kernel.userApp processSize x
    · rw [if_pos (show K.Program x from .inr hproc), if_pos (show K.Program x from .inr hproc),
        if_pos (show K.kernel.Protected x from .inr hproc)]
    · have hnot : ¬ K.Program x := fun h => h.elim huser hproc
      rw [if_neg hnot, if_neg hnot]

theorem withProgram_programPart (m : Mem) : K.withProgram (K.programPart m) m = m := by
  funext x
  rw [Linked.withProgram, Linked.programPart]
  split_ifs <;> rfl

def machineCsrs : List Csr := [.mscratch, .mhartid]

theorem CPoint.writes_machine {k : Csr} (hk : k ∈ machineCsrs) (p : CPoint) : k ∉ p.writes := by
  simp only [machineCsrs, List.mem_cons, List.not_mem_nil, or_false] at hk
  cases p <;> rcases hk with rfl | rfl <;> simp [CPoint.writes]

theorem kernelStep_csr {c : Clobber} {k : Csr} (hk : k ∈ machineCsrs)
    (h : kernelStep L c s = some s') : s'.hart.csr k = s.hart.csr k := by
  cases hcode : s.code with
  | some p =>
    rw [kernelStep_c hcode] at h
    exact (cStep_effect h).csr k (p.writes_machine hk)
  | none =>
    cases hfetch : L.fetch s.hart.pc with
    | some i =>
      rw [kernelStep_instr hcode hfetch] at h
      obtain rfl := Option.some.inj h
      refine Hart.exec_csr (fetch_csrs hfetch ?_) s.hart
      simp only [machineCsrs, List.mem_cons, List.not_mem_nil, or_false] at hk
      rcases hk with rfl | rfl <;> decide
    | none =>
      simp only [kernelStep, hcode, hfetch] at h
      split_ifs at h
      exact Option.some.inj h ▸ rfl

theorem trapS_csr {k : Csr} (hk : k ∈ machineCsrs) (cause : Word) (h : Hart) :
    (h.trapS cause).csr k = h.csr k := by
  simp only [machineCsrs, List.mem_cons, List.not_mem_nil, or_false] at hk
  rcases hk with rfl | rfl <;> rfl

theorem step_csr {a : Action} {k : Csr} (ha : a ≠ .mtimer) (hk : k ∈ machineCsrs)
    (h : step L a s = some s') : s'.hart.csr k = s.hart.csr k := by
  cases a with
  | user regs pc mem =>
    rw [step] at h
    split_ifs at h
    exact Option.some.inj h ▸ rfl
  | ecall =>
    rw [step] at h
    split_ifs at h
    exact Option.some.inj h ▸ trapS_csr hk _ _
  | softInterrupt =>
    rw [step] at h
    split_ifs at h
    exact Option.some.inj h ▸ trapS_csr hk _ _
  | mtimer => exact absurd rfl ha
  | kernel c =>
    rw [step] at h
    split_ifs at h
    exact kernelStep_csr hk h

end ProxyKernel.Trap
