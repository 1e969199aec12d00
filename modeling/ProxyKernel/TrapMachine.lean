import ProxyKernel.TrapCode
import ProxyKernel.Syscall
import ProxyKernel.Base.Transition

/-!
One hart runs the user program, the trap code and the C code of `kernel/strap.c`
and `kernel/process.c`.  The C code is cut into the steps between which an
interrupt can fall.  At each of its steps it may also change every general
register, and all memory but the trapframe and the process structure, which it
only touches where the source names their fields.
-/

namespace ProxyKernel.Trap
open ByteMem Riscv Elf

def SSTATUS_SPP : Word := BitVec.twoPow 64 SPP
def SSTATUS_SPIE : Word := BitVec.twoPow 64 SPIE
def SSIP : ℕ := 1
def SIP_SSIP : Word := BitVec.twoPow 64 SSIP

def CAUSE_USER_ECALL : Word := 8
def CAUSE_MTIMER_S_TRAP : Word := 0x8000000000000001
def TIMER_INTERVAL : Word := 1000000

inductive Stop where
  /-- `panic("usertrap: not from user mode")` -/
  | notFromUser
  /-- `assert(current)`, `assert(proc)` -/
  | assertCurrent
  | assertProc
  /-- `panic("unexpected exception happened.\n")` -/
  | unexpectedTrap
  /-- A system call that shuts the machine down. -/
  | shutdown
  deriving DecidableEq

/-- The next statement of the C code, with the local variables that are live. -/
inductive CPoint where
  -- `smode_trap_handler`
  | checkSpp
  | assertCurrent
  | saveEpc
  | readCause
  | dispatch (cause : Word)
  -- `handle_syscall`
  | advanceEpc (tf : Word)
  | callSyscall (tf : Word)
  | storeRet (tf ret : Word)
  -- `handle_mtimer_trap`
  | printTicks
  | countTick
  | readSip
  | writeSip (v : Word)
  -- `switch_to`
  | callSwitch
  | assertProc (proc : Word)
  | setCurrent (proc : Word)
  | setStvec (proc : Word)
  | setKernelSp (proc : Word)
  | setKernelTrap (proc : Word)
  | readSstatus (proc : Word)
  | writeSstatus (proc x : Word)
  | setSepc (proc : Word)
  | callReturn (proc : Word)
  | stopped (why : Stop)
  deriving DecidableEq

inductive Event where
  | tick
  | mtimer
  | syscall (args : Fin 8 → Word) (ret : Word)

structure State where
  hart : Hart
  /-- `none` while the hart runs machine code at its `pc`. -/
  code : Option CPoint
  current : Word
  gTicks : Word
  log : List Event

/-- What a step of the C code leaves behind, and what its printing finds. -/
structure Clobber where
  regs : Reg → Word
  pc : Word
  mem : Mem
  context : Print.KernelContext

instance : Inhabited Print.VaArg := ⟨⟨0, [], Print.VaArg.empty_nul_free⟩⟩
instance : Inhabited Print.KernelContext := ⟨⟨fun _ => default, fun _ => 0, default⟩⟩
instance : Inhabited Clobber := ⟨⟨fun _ => 0, 0, fun _ => 0, default⟩⟩

/-- Memory that the C code changes only through named fields, and the user not at all. -/
def Layout.Protected (L : Layout) (x : Word) : Prop :=
  InBlock USER_TRAP_FRAME trapframeSize x ∨ InBlock L.userApp processSize x

instance (L : Layout) (x : Word) : Decidable (L.Protected x) := inferInstanceAs (Decidable (_ ∨ _))

def Layout.keep (L : Layout) (m m' : Mem) : Mem := fun x => if L.Protected x then m x else m' x

/-- `proc->trapframe` -/
def trapframeOf (m : Mem) (proc : Word) : Word := load64 m (proc + BitVec.ofNat 64 trapframeOff)

def field (tf : Word) (off : ℕ) : Word := tf + BitVec.ofNat 64 off

def syscallArgs (m : Mem) (tf : Word) : Fin 8 → Word :=
  fun i => load64 m (field tf (Reg.a0.off + 8 * i))

namespace State

def setCsr (s : State) (c : Csr) (v : Word) : State := { s with hart := s.hart.setCsr c v }

def store (s : State) (a v : Word) : State :=
  { s with hart := { s.hart with mem := store64 s.hart.mem a v } }

def goto (L : Layout) (c : Clobber) (p : CPoint) (s : State) : State :=
  { s with
    hart := { s.hart with regs := c.regs, pc := c.pc, mem := L.keep s.hart.mem c.mem }
    code := some p }

def stop (why : Stop) (s : State) : State := { s with code := some (.stopped why) }

end State

/-- A write of `sip` from S mode changes the software interrupt only. -/
def sipValue (old v : Word) : Word := setBit old SSIP (v.getLsbD SSIP)

def cStep (L : Layout) (c : Clobber) (s : State) : CPoint → Option State
  | .checkSpp =>
    if s.hart.csr .sstatus &&& SSTATUS_SPP ≠ 0 then some (s.stop .notFromUser)
    else some (s.goto L c .assertCurrent)
  | .assertCurrent =>
    if s.current = 0 then some (s.stop .assertCurrent) else some (s.goto L c .saveEpc)
  | .saveEpc =>
    some ((s.store (field (trapframeOf s.hart.mem s.current) epcOff) (s.hart.csr .sepc)).goto L c .readCause)
  | .readCause => some (s.goto L c (.dispatch (s.hart.csr .scause)))
  | .dispatch cause =>
    if cause = CAUSE_USER_ECALL then
      some (s.goto L c (.advanceEpc (trapframeOf s.hart.mem s.current)))
    else if cause = CAUSE_MTIMER_S_TRAP then some (s.goto L c .printTicks)
    else some (s.stop .unexpectedTrap)
  | .advanceEpc tf =>
    some ((s.store (field tf epcOff) (load64 s.hart.mem (field tf epcOff) + 4)).goto L c (.callSyscall tf))
  | .callSyscall tf =>
    match Syscall.doSyscall s.hart.mem c.context s.current (syscallArgs s.hart.mem tf) with
    | some ⟨_, .returns ret⟩ =>
      some (State.goto L c (.storeRet tf ret)
        { s with log := s.log ++ [.syscall (syscallArgs s.hart.mem tf) ret] })
    | some ⟨_, .shutdown _⟩ => some (s.stop .shutdown)
    | none => none
  | .storeRet tf ret => some ((s.store (field tf Reg.a0.off) ret).goto L c .callSwitch)
  | .printTicks => some (s.goto L c .countTick)
  | .countTick =>
    some (State.goto L c .readSip { s with gTicks := s.gTicks + 1, log := s.log ++ [.tick] })
  | .readSip => some (s.goto L c (.writeSip (s.hart.csr .sip)))
  | .writeSip v =>
    some ((s.setCsr .sip (sipValue (s.hart.csr .sip) (v &&& ~~~ SIP_SSIP))).goto L c .callSwitch)
  | .callSwitch => some (s.goto L c (.assertProc s.current))
  | .assertProc proc =>
    if proc = 0 then some (s.stop .assertProc) else some (s.goto L c (.setCurrent proc))
  | .setCurrent proc => some (State.goto L c (.setStvec proc) { s with current := proc })
  | .setStvec proc => some ((s.setCsr .stvec L.smodeTrapVector).goto L c (.setKernelSp proc))
  | .setKernelSp proc =>
    some ((s.store (field (trapframeOf s.hart.mem proc) kernelSpOff)
      (load64 s.hart.mem (proc + BitVec.ofNat 64 kstackOff))).goto L c (.setKernelTrap proc))
  | .setKernelTrap proc =>
    some ((s.store (field (trapframeOf s.hart.mem proc) kernelTrapOff) L.smodeTrapHandler).goto L c
      (.readSstatus proc))
  | .readSstatus proc => some (s.goto L c (.writeSstatus proc (s.hart.csr .sstatus)))
  | .writeSstatus proc x =>
    some ((s.setCsr .sstatus (x &&& ~~~ SSTATUS_SPP ||| SSTATUS_SPIE)).goto L c (.setSepc proc))
  | .setSepc proc =>
    some ((s.setCsr .sepc (load64 s.hart.mem (field (trapframeOf s.hart.mem proc) epcOff))).goto L c
      (.callReturn proc))
  | .callReturn proc =>
    -- the call passes `proc->trapframe` in `a0`
    some { s with
      hart := { s.hart with
        regs := Function.update c.regs .a0 (trapframeOf s.hart.mem proc)
        pc := L.returnToUser
        mem := L.keep s.hart.mem c.mem }
      code := none }
  | .stopped _ => none

/-- Where the code can go on from a statement; `none` is the jump to `return_to_user`. -/
def CPoint.Leads (s : State) : CPoint → Option CPoint → Prop
  | .checkSpp, q => q = some .assertCurrent ∨ q = some (.stopped .notFromUser)
  | .assertCurrent, q => q = some .saveEpc ∨ q = some (.stopped .assertCurrent)
  | .saveEpc, q => q = some .readCause
  | .readCause, q => q = some (.dispatch (s.hart.csr .scause))
  | .dispatch cause, q =>
    cause = CAUSE_USER_ECALL ∧ q = some (.advanceEpc (trapframeOf s.hart.mem s.current)) ∨
      cause = CAUSE_MTIMER_S_TRAP ∧ q = some .printTicks ∨ q = some (.stopped .unexpectedTrap)
  | .advanceEpc tf, q => q = some (.callSyscall tf)
  | .callSyscall tf, q => (∃ ret, q = some (.storeRet tf ret)) ∨ q = some (.stopped .shutdown)
  | .storeRet _ _, q => q = some .callSwitch
  | .printTicks, q => q = some .countTick
  | .countTick, q => q = some .readSip
  | .readSip, q => q = some (.writeSip (s.hart.csr .sip))
  | .writeSip _, q => q = some .callSwitch
  | .callSwitch, q => q = some (.assertProc s.current)
  | .assertProc proc, q => q = some (.setCurrent proc) ∨ q = some (.stopped .assertProc)
  | .setCurrent proc, q => q = some (.setStvec proc)
  | .setStvec proc, q => q = some (.setKernelSp proc)
  | .setKernelSp proc, q => q = some (.setKernelTrap proc)
  | .setKernelTrap proc, q => q = some (.readSstatus proc)
  | .readSstatus proc, q => q = some (.writeSstatus proc (s.hart.csr .sstatus))
  | .writeSstatus proc _, q => q = some (.setSepc proc)
  | .setSepc proc, q => q = some (.callReturn proc)
  | .callReturn _, q => q = none
  | .stopped _, _ => False

def CPoint.writes : CPoint → List Csr
  | .writeSip _ => [.sip]
  | .setStvec _ => [.stvec]
  | .writeSstatus _ _ => [.sstatus]
  | .setSepc _ => [.sepc]
  | _ => []

def CPoint.sipAfter (old : Word) : CPoint → Word
  | .writeSip v => sipValue old (v &&& ~~~ SIP_SSIP)
  | _ => old

def CPoint.ticksAfter (old : Word) : CPoint → Word
  | .countTick => old + 1
  | _ => old

def CPoint.Logs (old : List Event) : CPoint → List Event → Prop
  | .countTick, new => new = old ++ [.tick]
  | .callSyscall _, new => new = old ∨ ∃ args ret, new = old ++ [.syscall args ret]
  | _, new => new = old

def CPoint.storesAt (s : State) : CPoint → Option Word
  | .saveEpc => some (field (trapframeOf s.hart.mem s.current) epcOff)
  | .advanceEpc tf => some (field tf epcOff)
  | .storeRet tf _ => some (field tf Reg.a0.off)
  | .setKernelSp proc => some (field (trapframeOf s.hart.mem proc) kernelSpOff)
  | .setKernelTrap proc => some (field (trapframeOf s.hart.mem proc) kernelTrapOff)
  | _ => none

/-- All that a statement of the C code does, but for the values that it computes. -/
structure CStepEffect (L : Layout) (c : Clobber) (s : State) (p : CPoint) (s' : State) : Prop where
  code : p.Leads s s'.code
  priv : s'.hart.priv = s.hart.priv
  pc : s'.code = none → s'.hart.pc = L.returnToUser
  csr : ∀ k ∉ p.writes, s'.hart.csr k = s.hart.csr k
  sip : s'.hart.csr .sip = p.sipAfter (s.hart.csr .sip)
  gTicks : s'.gTicks = p.ticksAfter s.gTicks
  log : p.Logs s.log s'.log
  mem : ∀ x, ¬ L.Protected x → s'.hart.mem x = c.mem x ∨ s'.hart.mem x = s.hart.mem x
  kept : ∀ x, L.Protected x → (∀ a ∈ p.storesAt s, ¬ InBlock a 8 x) → s'.hart.mem x = s.hart.mem x

variable {L : Layout} {s s' t : State} {c : Clobber} {p q : CPoint}

theorem CStepEffect.goto (hcode : p.Leads s (some q)) (hpriv : t.hart.priv = s.hart.priv)
    (hcsr : ∀ k ∉ p.writes, t.hart.csr k = s.hart.csr k)
    (hsip : t.hart.csr .sip = p.sipAfter (s.hart.csr .sip)) (hticks : t.gTicks = p.ticksAfter s.gTicks)
    (hlog : p.Logs s.log t.log)
    (hkept : ∀ x, (∀ a ∈ p.storesAt s, ¬ InBlock a 8 x) → t.hart.mem x = s.hart.mem x) :
    CStepEffect L c s p (t.goto L c q) where
  code := hcode
  priv := hpriv
  pc := nofun
  csr := hcsr
  sip := hsip
  gTicks := hticks
  log := hlog
  mem := fun _ hx => .inl (if_neg hx)
  kept := fun x hx ha => (if_pos hx).trans (hkept x ha)

theorem CStepEffect.stop {why : Stop} (hcode : p.Leads s (some (.stopped why)))
    (hsip : s.hart.csr .sip = p.sipAfter (s.hart.csr .sip)) (hticks : s.gTicks = p.ticksAfter s.gTicks)
    (hlog : p.Logs s.log s.log) : CStepEffect L c s p (s.stop why) where
  code := hcode
  priv := rfl
  pc := nofun
  csr := fun _ _ => rfl
  sip := hsip
  gTicks := hticks
  log := hlog
  mem := fun _ _ => .inr rfl
  kept := fun _ _ _ => rfl

theorem cStep_effect (h : cStep L c s p = some s') : CStepEffect L c s p s' := by
  have hset {k : Csr} (x : Word) (k' : Csr) (hk' : k' ∉ [k]) :
      (s.setCsr k x).hart.csr k' = s.hart.csr k' :=
    Function.update_of_ne (List.ne_of_not_mem_cons hk') _ _
  have hstore {a v x : Word} (hx : ∀ b ∈ some a, ¬ InBlock b 8 x) :
      (s.store a v).hart.mem x = s.hart.mem x :=
    store64_of_not_mem (hx a rfl)
  cases p with
  | checkSpp | assertCurrent | assertProc =>
    rw [cStep] at h
    split_ifs at h
    · exact Option.some.inj h ▸ .stop (.inr rfl) rfl rfl rfl
    · exact Option.some.inj h ▸ .goto (.inl rfl) rfl (fun _ _ => rfl) rfl rfl rfl fun _ _ => rfl
  | dispatch cause =>
    rw [cStep] at h
    split_ifs at h with hecall htimer
    · exact Option.some.inj h ▸ .goto (.inl ⟨hecall, rfl⟩) rfl (fun _ _ => rfl) rfl rfl rfl fun _ _ => rfl
    · exact Option.some.inj h ▸
        .goto (.inr (.inl ⟨htimer, rfl⟩)) rfl (fun _ _ => rfl) rfl rfl rfl fun _ _ => rfl
    · exact Option.some.inj h ▸ .stop (.inr (.inr rfl)) rfl rfl rfl
  | callSyscall tf =>
    rw [cStep] at h
    split at h
    · exact Option.some.inj h ▸
        .goto (.inl ⟨_, rfl⟩) rfl (fun _ _ => rfl) rfl rfl (.inr ⟨_, _, rfl⟩) fun _ _ => rfl
    · exact Option.some.inj h ▸ .stop (.inr rfl) rfl rfl (.inl rfl)
    · cases h
  | callReturn proc =>
    obtain rfl := Option.some.inj h
    exact ⟨rfl, rfl, fun _ => rfl, fun _ _ => rfl, rfl, rfl, rfl, fun _ hx => .inl (if_neg hx),
      fun _ hx _ => if_pos hx⟩
  | stopped why => cases h
  | saveEpc | advanceEpc | storeRet | setKernelSp | setKernelTrap =>
    exact Option.some.inj h ▸ .goto rfl rfl (fun _ _ => rfl) rfl rfl rfl fun _ hx => hstore hx
  | writeSip | setStvec | writeSstatus | setSepc =>
    exact Option.some.inj h ▸ .goto rfl rfl (hset _) rfl rfl rfl fun _ _ => rfl
  | _ => exact Option.some.inj h ▸ .goto rfl rfl (fun _ _ => rfl) rfl rfl rfl fun _ _ => rfl

/-- One step in S mode: an instruction of the trap code, the entry of the handler,
or a step of the C code. -/
def kernelStep (L : Layout) (c : Clobber) (s : State) : Option State :=
  match s.code with
  | some p => cStep L c s p
  | none =>
    match L.fetch s.hart.pc with
    | some i => some { s with hart := s.hart.exec i }
    | none => if s.hart.pc = L.smodeTrapHandler then some (s.goto L c .checkSpp) else none

/-- The trap code changes `sscratch` and `sstatus` only. -/
theorem fetch_csrs {a : Word} {i : Instr} (h : L.fetch a = some i) {k : Csr}
    (hk : k ∉ [Csr.sscratch, .sstatus]) : k ∉ i.csrs := by
  have hcode : ∀ i ∈ smodeTrapVector ++ returnToUser, ∀ k ∈ i.csrs, k ∈ [Csr.sscratch, .sstatus] := by
    decide
  have hmem {base : Word} {is : List Instr} (hi : instrAt base is a = some i) : i ∈ is := by
    unfold instrAt at hi
    split_ifs at hi
    exact List.mem_of_getElem? hi
  intro hin
  unfold Layout.fetch at h
  split_ifs at h
  · exact hk (hcode i (List.mem_append_left _ (hmem h)) k hin)
  · exact hk (hcode i (List.mem_append_right _ (hmem h)) k hin)

theorem kernelStep_instr {L : Layout} {c : Clobber} {s : State} {i : Instr} (hcode : s.code = none)
    (hfetch : L.fetch s.hart.pc = some i) :
    kernelStep L c s = some { s with hart := s.hart.exec i } := by
  simp only [kernelStep, hcode, hfetch]

theorem kernelStep_vector {L : Layout} {s : State} {i : ℕ} (c : Clobber) (hi : i < 38)
    (hcode : s.code = none) (hpc : s.hart.pc = L.smodeTrapVector + BitVec.ofNat 64 (4 * i)) :
    ∃ instr, smodeTrapVector[i]? = some instr ∧ L.fetch s.hart.pc = some instr ∧
      kernelStep L c s = some { s with hart := s.hart.exec instr } := by
  obtain ⟨instr, hinstr⟩ : ∃ instr, smodeTrapVector[i]? = some instr :=
    ⟨_, List.getElem?_eq_getElem hi⟩
  have hfetch : L.fetch s.hart.pc = some instr := by rw [hpc, fetch_vector L hi, hinstr]
  exact ⟨instr, hinstr, hfetch, kernelStep_instr hcode hfetch⟩

theorem kernelStep_return {L : Layout} {s : State} {j : ℕ} (c : Clobber) (hj : j < 34)
    (hcode : s.code = none) (hpc : s.hart.pc = L.returnToUser + BitVec.ofNat 64 (4 * j)) :
    ∃ instr, returnToUser[j]? = some instr ∧ L.fetch s.hart.pc = some instr ∧
      kernelStep L c s = some { s with hart := s.hart.exec instr } := by
  obtain ⟨instr, hinstr⟩ : ∃ instr, returnToUser[j]? = some instr :=
    ⟨_, List.getElem?_eq_getElem hj⟩
  have hfetch : L.fetch s.hart.pc = some instr := by rw [hpc, fetch_return L hj, hinstr]
  exact ⟨instr, hinstr, hfetch, kernelStep_instr hcode hfetch⟩

theorem kernelStep_handler {L : Layout} {c : Clobber} {s : State} (hcode : s.code = none)
    (hpc : s.hart.pc = L.smodeTrapHandler) : kernelStep L c s = some (s.goto L c .checkSpp) := by
  simp only [kernelStep, hcode, hpc, fetch_handler, if_true]

theorem kernelStep_c {L : Layout} {c : Clobber} {s : State} {p : CPoint} (hcode : s.code = some p) :
    kernelStep L c s = cStep L c s p := by
  simp only [kernelStep, hcode]

inductive Action where
  | user (regs : Reg → Word) (pc : Word) (mem : Mem)
  | ecall
  | softInterrupt
  /-- A machine-mode timer trap, from its entry to its `mret`. -/
  | mtimer
  | kernel (c : Clobber)

def step (L : Layout) : Action → State → Option State
  | .user regs pc mem, s =>
    if s.hart.priv = .user then
      some { s with hart := { s.hart with regs := regs, pc := pc, mem := L.keep s.hart.mem mem } }
    else none
  | .ecall, s =>
    if s.hart.priv = .user then some { s with hart := s.hart.trapS CAUSE_USER_ECALL } else none
  | .softInterrupt, s =>
    if (s.hart.csr .sip).getLsbD SSIP ∧ (s.hart.priv = .user ∨
        s.hart.priv = .supervisor ∧ (s.hart.csr .sstatus).getLsbD SIE) then
      some { s with hart := s.hart.trapS CAUSE_MTIMER_S_TRAP, code := none }
    else none
  | .mtimer, s =>
    if s.hart.priv ≠ .machine then
      some { (s.setCsr .sip (setBit (s.hart.csr .sip) SSIP true)).store CLINT_MTIMECMP
          (load64 s.hart.mem CLINT_MTIMECMP + TIMER_INTERVAL) with log := s.log ++ [.mtimer] }
    else none
  | .kernel c, s => if s.hart.priv = .supervisor then kernelStep L c s else none

/-- `s_start` calls `switch_to(&user_app)` after `load_user_program` has set up the
process, with interrupts off. -/
structure Start (L : Layout) (s : State) : Prop where
  priv : s.hart.priv = .supervisor
  code : s.code = some (.assertProc L.userApp)
  sie : (s.hart.csr .sstatus).getLsbD SIE = false
  trapframe : trapframeOf s.hart.mem L.userApp = USER_TRAP_FRAME
  kstack : load64 s.hart.mem (L.userApp + BitVec.ofNat 64 kstackOff) = USER_KSTACK
  log : s.log = []

def Reachable (L : Layout) (t : State) : Prop :=
  ∃ s as, Start L s ∧ Transition.run (step L) as s = some t

def sampleLayout : Layout where
  smodeTrapVector := 0x80003000
  returnToUser := 0x80003100
  smodeTrapHandler := 0x80002000
  userApp := 0x80010000
  vector_apart := apart_of_offset (by decide) (by decide)
  handler_vector := by decide
  handler_return := by decide
  userApp_ne := by decide
  frame_apart := apart_of_offset (by decide) (by decide)
  clint_apart := apart_of_offset (by decide) (by decide)

def bootState : State where
  hart :=
    { regs := fun _ => 0
      pc := 0
      priv := .supervisor
      csr := fun _ => 0
      mem := store64 (store64 (fun _ => 0) 0x80010000 USER_KSTACK) 0x80010008 USER_TRAP_FRAME }
  code := some (.assertProc 0x80010000)
  current := 0
  gTicks := 0
  log := []

theorem bootState_start : Start sampleLayout bootState where
  priv := rfl
  code := rfl
  sie := rfl
  trapframe := by decide +kernel
  kstack := by decide +kernel
  log := rfl

def kernelSteps (n : ℕ) : List Action := List.replicate n (.kernel default)

def bootSteps : List Action := kernelSteps 43

theorem exists_of_run (as : List Action) {P : State → Prop} [DecidablePred P]
    (h : (Transition.run (step sampleLayout) as bootState).any (fun s => decide (P s)) = true) :
    ∃ s, Transition.run (step sampleLayout) as bootState = some s ∧ P s := by
  obtain ⟨s, hs, hP⟩ := (Option.any_eq_true _ _).mp h
  exact ⟨s, hs, of_decide_eq_true hP⟩

end ProxyKernel.Trap
