import ProxyKernel.Base.Riscv

/-!
The assembly of `kernel/strap_vector.S`, `kernel/machine/mtrap_vector.S` and
`util/load_store.S`, where it lies in memory, and what its save and restore
sequences do.
-/

namespace ProxyKernel.Trap
open ByteMem Riscv

section
open Instr Reg Csr

def storeAllRegisters : List Instr :=
  [sd ra 0 t6, sd sp 8 t6, sd gp 16 t6, sd tp 24 t6,
    sd t0 32 t6, sd t1 40 t6, sd t2 48 t6, sd s0 56 t6,
    sd s1 64 t6, sd a0 72 t6, sd a1 80 t6, sd a2 88 t6,
    sd a3 96 t6, sd a4 104 t6, sd a5 112 t6, sd a6 120 t6,
    sd a7 128 t6, sd s2 136 t6, sd s3 144 t6, sd s4 152 t6,
    sd s5 160 t6, sd s6 168 t6, sd s7 176 t6, sd s8 184 t6,
    sd s9 192 t6, sd s10 200 t6, sd s11 208 t6, sd t3 216 t6,
    sd t4 224 t6, sd t5 232 t6, sd t6 240 t6]

def restoreAllRegisters : List Instr :=
  [ld ra 0 t6, ld sp 8 t6, ld gp 16 t6, ld tp 24 t6,
    ld t0 32 t6, ld t1 40 t6, ld t2 48 t6, ld s0 56 t6,
    ld s1 64 t6, ld a0 72 t6, ld a1 80 t6, ld a2 88 t6,
    ld a3 96 t6, ld a4 104 t6, ld a5 112 t6, ld a6 120 t6,
    ld a7 128 t6, ld s2 136 t6, ld s3 144 t6, ld s4 152 t6,
    ld s5 160 t6, ld s6 168 t6, ld s7 176 t6, ld s8 184 t6,
    ld s9 192 t6, ld s10 200 t6, ld s11 208 t6, ld t3 216 t6,
    ld t4 224 t6, ld t5 232 t6, ld t6 240 t6]

/-- `trapframe`: the saved registers, then `kernel_sp`, `kernel_trap` and `epc`. -/
def kernelSpOff : ℕ := 248
def kernelTrapOff : ℕ := 256
def epcOff : ℕ := 264
def trapframeSize : ℕ := 272

def smodeTrapVector : List Instr :=
  [csrrw a0 sscratch a0, addi t6 a0 0] ++ storeAllRegisters ++
    [csrr t0 sscratch, sd t0 72 a0, ld sp 248 a0, ld t0 256 a0, jr t0]

def returnToUser : List Instr :=
  [csrw sscratch a0, addi t6 a0 0] ++ restoreAllRegisters ++ [sret]

/-- `mtrapvec` up to the call of `handle_mtrap`; `stack0` is the address of the
machine-mode stacks. -/
def mtrapvecEntry (stack0 : Word) : List Instr :=
  [csrrw a0 mscratch a0, addi t6 a0 0] ++ storeAllRegisters ++
    [csrr t0 mscratch, sd t0 72 a0, li sp stack0, li a3 4096, csrr a4 mhartid,
      addi a4 a4 1, mul a3 a3 a4, add sp sp a3, csrw mscratch a0]

/-- `mtrapvec` from the return of `handle_mtrap` on. -/
def mtrapvecExit : List Instr := [csrr t6 mscratch] ++ restoreAllRegisters ++ [mret]

end

theorem storeAllRegisters_eq : storeAllRegisters = Reg.all.map fun r => .sd r r.off .t6 := by
  rfl

theorem restoreAllRegisters_eq : restoreAllRegisters = Reg.all.map fun r => .ld r r.off .t6 := by
  rfl

/-- The part that the two entry points share, for their scratch register. -/
def saveSequence (c : Csr) : List Instr :=
  [Instr.csrrw .a0 c .a0, .addi .t6 .a0 0] ++ storeAllRegisters ++ [Instr.csrr .t0 c, .sd .t0 72 .a0]

theorem smodeTrapVector_eq : smodeTrapVector =
    saveSequence .sscratch ++ [Instr.ld .sp 248 .a0, .ld .t0 256 .a0, .jr .t0] := rfl

/-- The registers that are stored: `a0` and `t6` already hold the address of the frame. -/
def swappedRegs (c : Csr) (h : Hart) : Reg → Word :=
  Function.update (Function.update h.regs .a0 (h.csr c)) .t6 (h.csr c)

def savedMem (c : Csr) (h : Hart) : Mem :=
  store64 (saveRegs (swappedRegs c h) (h.csr c) Reg.all h.mem) (h.csr c + 72) (h.regs .a0)

def saved (c : Csr) (h : Hart) : Hart where
  regs := Function.update (swappedRegs c h) .t0 (h.regs .a0)
  pc := h.pc + 140
  priv := h.priv
  csr := Function.update h.csr c (h.regs .a0)
  mem := savedMem c h

theorem execAll_saveSequence (c : Csr) (h : Hart) : h.execAll (saveSequence c) = saved c h := by
  unfold saveSequence
  rw [storeAllRegisters_eq, Hart.execAll_append, Hart.execAll_append, execAll_sd]
  have hzero (w : Word) : w + 0 = w := BitVec.add_zero w
  simp only [Hart.execAll_cons, Hart.execAll_nil, Hart.exec, Hart.effect, Hart.setReg, Hart.setCsr,
    Hart.addr, saved, savedMem, swappedRegs, Function.update_self, hzero, Hart.mk.injEq, true_and]
  refine ⟨?_, ?_⟩
  · have hlen : Reg.all.length = 31 := rfl
    rw [hlen]
    bv_omega
  · simp

/-- In the saved image every register has its value at the trap, except `t6`:
it was overwritten before it was stored. -/
theorem load64_savedMem (c : Csr) (h : Hart) (r : Reg) :
    load64 (savedMem c h) (h.csr c + BitVec.ofNat 64 r.off) =
      if r = .t6 then h.csr c else h.regs r := by
  have ha0 : (72 : Word) = BitVec.ofNat 64 Reg.a0.off := rfl
  have hsaved : load64 (saveRegs (swappedRegs c h) (h.csr c) Reg.all h.mem)
      (h.csr c + BitVec.ofNat 64 r.off) = swappedRegs c h r := load64_saveRegs r.mem_all
  unfold savedMem
  rw [ha0]
  by_cases hr : r = .a0
  · subst hr
    simp
  · have h1 := r.off_le
    have h2 := Reg.a0.off_le
    rw [load64_store64_field _ _ _ (by omega) (by omega) (Reg.off_apart (Ne.symm hr)), hsaved]
    by_cases ht6 : r = .t6
    · simp [swappedRegs, ht6]
    · simp [swappedRegs, ht6, hr]

theorem savedMem_of_not_mem_block {c : Csr} {h : Hart} {x : Word}
    (hx : ¬ InBlock (h.csr c) 248 x) : savedMem c h x = h.mem x := by
  have hstore : ¬ InBlock (h.csr c + 72) 8 x := fun hin =>
    hx (InBlock.of_sub (i := 72) hin (by omega) (by omega))
  rw [savedMem, store64_of_not_mem hstore, saveRegs_of_not_mem_block _ hx]

theorem load64_savedMem_field {c : Csr} {h : Hart} {i : ℕ} (hi : 248 ≤ i) (hi' : i + 8 ≤ 2 ^ 64) :
    load64 (savedMem c h) (h.csr c + BitVec.ofNat 64 i) =
      load64 h.mem (h.csr c + BitVec.ofNat 64 i) := by
  apply load64_congr
  intro x hx
  apply savedMem_of_not_mem_block
  simp only [InBlock, offset] at hx ⊢
  bv_omega

/-- All registers are loaded from the frame at `t6`, which comes last. -/
theorem execAll_restoreAllRegisters (h : Hart) :
    h.execAll restoreAllRegisters =
      { h with
        regs := fun r => load64 h.mem (h.regs .t6 + BitVec.ofNat 64 r.off)
        pc := h.pc + 124 } := by
  have hsplit : restoreAllRegisters =
      (Reg.all.dropLast.map fun r => Instr.ld r r.off .t6) ++ [Instr.ld .t6 240 .t6] := rfl
  have hmem (r : Reg) (hr : r ≠ .t6) : r ∈ Reg.all.dropLast := by
    cases r <;> first | decide | exact absurd rfl hr
  have ht6 : Reg.t6 ∉ Reg.all.dropLast := by decide
  have hlen : Reg.all.dropLast.length = 30 := rfl
  rw [hsplit, Hart.execAll_append, execAll_ld ht6]
  simp only [Hart.execAll_cons, Hart.execAll_nil, Hart.exec, Hart.effect, Hart.setReg, Hart.addr,
    if_neg ht6, Hart.mk.injEq, hlen, and_true]
  refine ⟨?_, ?_⟩
  · funext r
    by_cases hr : r = .t6
    · subst hr
      rw [Function.update_self]
      rfl
    · rw [Function.update_of_ne hr, if_pos (hmem r hr)]
  · bv_omega

def USER_KSTACK : Word := 0x81200000
def USER_TRAP_FRAME : Word := 0x81300000
/-- `CLINT_MTIMECMP(0)` -/
def CLINT_MTIMECMP : Word := 0x2000000 + 0x4000

/-- `sizeof(process)` -/
def processSize : ℕ := 20512

structure Layout where
  smodeTrapVector : Word
  returnToUser : Word
  smodeTrapHandler : Word
  userApp : Word
  vector_apart : Apart smodeTrapVector 152 returnToUser 136
  handler_vector : ¬ InBlock smodeTrapVector 152 smodeTrapHandler
  handler_return : ¬ InBlock returnToUser 136 smodeTrapHandler
  userApp_ne : userApp ≠ 0
  frame_apart : Apart USER_TRAP_FRAME trapframeSize userApp processSize
  clint_apart : Apart CLINT_MTIMECMP 8 userApp processSize

/-- The instruction at an address of `is`, when the code starts at `base`. -/
def instrAt (base : Word) (is : List Instr) (a : Word) : Option Instr :=
  if offset base a % 4 = 0 then is[offset base a / 4]? else none

theorem instrAt_eq {base : Word} {is : List Instr} {i : ℕ} (hi : i < is.length)
    (hlen : 4 * is.length ≤ 2 ^ 64) :
    instrAt base is (base + BitVec.ofNat 64 (4 * i)) = is[i]? := by
  have hoff := offset_ofNat base (i := 4 * i) (by omega)
  rw [instrAt, hoff, if_pos (by omega), Nat.mul_div_cancel_left i (by omega)]

def Layout.fetch (L : Layout) (a : Word) : Option Instr :=
  if InBlock L.smodeTrapVector 152 a then instrAt L.smodeTrapVector Trap.smodeTrapVector a
  else if InBlock L.returnToUser 136 a then instrAt L.returnToUser Trap.returnToUser a
  else none

theorem fetch_vector (L : Layout) {i : ℕ} (hi : i < 38) :
    L.fetch (L.smodeTrapVector + BitVec.ofNat 64 (4 * i)) = smodeTrapVector[i]? := by
  have hin : InBlock L.smodeTrapVector 152 (L.smodeTrapVector + BitVec.ofNat 64 (4 * i)) := by
    rw [InBlock, offset_ofNat _ (by omega)]
    omega
  have hlen : Trap.smodeTrapVector.length = 38 := rfl
  rw [Layout.fetch, if_pos hin, instrAt_eq (by omega) (by omega)]

theorem fetch_return (L : Layout) {i : ℕ} (hi : i < 34) :
    L.fetch (L.returnToUser + BitVec.ofNat 64 (4 * i)) = returnToUser[i]? := by
  have hin : InBlock L.returnToUser 136 (L.returnToUser + BitVec.ofNat 64 (4 * i)) := by
    rw [InBlock, offset_ofNat _ (by omega)]
    omega
  have hlen : Trap.returnToUser.length = 34 := rfl
  rw [Layout.fetch, if_neg fun h => L.vector_apart _ h hin, if_pos hin,
    instrAt_eq (by omega) (by omega)]

theorem fetch_handler (L : Layout) : L.fetch L.smodeTrapHandler = none := by
  rw [Layout.fetch, if_neg L.handler_vector, if_neg L.handler_return]

end ProxyKernel.Trap
