import ProxyKernel.Base.Memory

/-!
Registers, control and status registers, privilege modes, and the instructions
that save and restore a register file.  Traps, `sret` and `mret` move the
privilege and interrupt-enable bits as the privileged architecture says.  The S
and M fields of the status register are kept as two registers.
-/

namespace Riscv
open ByteMem

/-- The general registers other than `x0`, in the order of their saved image. -/
inductive Reg where
  | ra | sp | gp | tp | t0 | t1 | t2 | s0 | s1
  | a0 | a1 | a2 | a3 | a4 | a5 | a6 | a7
  | s2 | s3 | s4 | s5 | s6 | s7 | s8 | s9 | s10 | s11
  | t3 | t4 | t5 | t6
  deriving DecidableEq

def Reg.all : List Reg :=
  [.ra, .sp, .gp, .tp, .t0, .t1, .t2, .s0, .s1,
    .a0, .a1, .a2, .a3, .a4, .a5, .a6, .a7,
    .s2, .s3, .s4, .s5, .s6, .s7, .s8, .s9, .s10, .s11,
    .t3, .t4, .t5, .t6]

inductive Priv where
  | user | supervisor | machine
  deriving DecidableEq

inductive Csr where
  | sstatus | stvec | sscratch | sepc | scause | sip
  | mstatus | mtvec | mscratch | mepc | mcause | mhartid
  deriving DecidableEq

structure Hart where
  regs : Reg → Word
  pc : Word
  priv : Priv
  csr : Csr → Word
  mem : Mem

def setBit (w : Word) (k : ℕ) (b : Bool) : Word :=
  if b then w ||| BitVec.twoPow 64 k else w &&& ~~~ BitVec.twoPow 64 k

theorem getLsbD_setBit (w : Word) {k j : ℕ} (b : Bool) (hj : j < 64) :
    (setBit w k b).getLsbD j = if j = k then b else w.getLsbD j := by
  unfold setBit
  by_cases h : j = k
  · subst h
    cases b <;> simp [hj]
  · have hkj : k ≠ j := Ne.symm h
    cases b with
    | true => simp [h, hkj, BitVec.getLsbD_twoPow]
    | false => simp [h, hj]

theorem and_twoPow_ne_zero (w : Word) {k : ℕ} (hk : k < 64) :
    w &&& BitVec.twoPow 64 k ≠ 0 ↔ w.getLsbD k = true := by
  constructor
  · intro h
    by_contra hbit
    apply h
    apply BitVec.eq_of_getLsbD_eq
    intro j hj
    by_cases hjk : j = k
    · subst hjk
      simp [hbit]
    · have hkj : k ≠ j := Ne.symm hjk
      simp [BitVec.getLsbD_twoPow, hkj]
  · intro hbit h
    have hzero := congrArg (fun v => v.getLsbD k) h
    rw [BitVec.getLsbD_and, hbit, BitVec.getLsbD_twoPow] at hzero
    simp [hk] at hzero

def SIE : ℕ := 1
def SPIE : ℕ := 5
def SPP : ℕ := 8
def MIE : ℕ := 3
def MPIE : ℕ := 7
def MPP : ℕ := 11

def Priv.bits : Priv → Bool × Bool
  | .user => (false, false)
  | .supervisor => (true, false)
  | .machine => (true, true)

def Priv.ofBits : Bool × Bool → Priv
  | (false, _) => .user
  | (true, false) => .supervisor
  | (true, true) => .machine

@[simp] theorem Priv.ofBits_bits (p : Priv) : Priv.ofBits p.bits = p := by
  cases p <;> rfl

inductive Instr where
  | sd (src : Reg) (off : ℕ) (base : Reg)
  | ld (dst : Reg) (off : ℕ) (base : Reg)
  | addi (dst src : Reg) (imm : Word)
  | add (dst a b : Reg)
  | mul (dst a b : Reg)
  | li (dst : Reg) (imm : Word)
  | csrrw (dst : Reg) (csr : Csr) (src : Reg)
  | csrr (dst : Reg) (csr : Csr)
  | csrw (csr : Csr) (src : Reg)
  | jr (src : Reg)
  | sret
  | mret
  deriving DecidableEq

/-- The instruction is followed by the next one, in the same mode. -/
def Instr.plain : Instr → Bool
  | .jr _ | .sret | .mret => false
  | _ => true

def Instr.csrs : Instr → List Csr
  | .csrrw _ csr _ => [csr]
  | .csrw csr _ => [csr]
  | .sret => [.sstatus]
  | .mret => [.mstatus]
  | _ => []

namespace Hart

def setReg (h : Hart) (r : Reg) (v : Word) : Hart := { h with regs := Function.update h.regs r v }
def setCsr (h : Hart) (c : Csr) (v : Word) : Hart := { h with csr := Function.update h.csr c v }

def addr (h : Hart) (off : ℕ) (base : Reg) : Word := h.regs base + BitVec.ofNat 64 off

def effect : Instr → Hart → Hart
  | .sd src off base, h => { h with mem := store64 h.mem (h.addr off base) (h.regs src) }
  | .ld dst off base, h => h.setReg dst (load64 h.mem (h.addr off base))
  | .addi dst src imm, h => h.setReg dst (h.regs src + imm)
  | .add dst a b, h => h.setReg dst (h.regs a + h.regs b)
  | .mul dst a b, h => h.setReg dst (h.regs a * h.regs b)
  | .li dst imm, h => h.setReg dst imm
  | .csrrw dst csr src, h => (h.setCsr csr (h.regs src)).setReg dst (h.csr csr)
  | .csrr dst csr, h => h.setReg dst (h.csr csr)
  | .csrw csr src, h => h.setCsr csr (h.regs src)
  | _, h => h

def sretStep (h : Hart) : Hart :=
  let st := h.csr .sstatus
  { h.setCsr .sstatus (setBit (setBit (setBit st SIE (st.getLsbD SPIE)) SPIE true) SPP false) with
    priv := if st.getLsbD SPP then .supervisor else .user
    pc := h.csr .sepc }

def mretStep (h : Hart) : Hart :=
  let st := h.csr .mstatus
  { h.setCsr .mstatus
      (setBit (setBit (setBit (setBit st MIE (st.getLsbD MPIE)) MPIE true) MPP false) (MPP + 1) false) with
    priv := Priv.ofBits (st.getLsbD MPP, st.getLsbD (MPP + 1))
    pc := h.csr .mepc }

theorem mretStep_csr {c : Csr} (hc : c ≠ .mstatus) (h : Hart) : h.mretStep.csr c = h.csr c :=
  Function.update_of_ne hc _ _

def exec (i : Instr) (h : Hart) : Hart :=
  match i with
  | .jr src => { h with pc := h.regs src }
  | .sret => h.sretStep
  | .mret => h.mretStep
  | i => { h.effect i with pc := h.pc + 4 }

def execAll (is : List Instr) (h : Hart) : Hart := is.foldl (fun h i => h.exec i) h

def trapS (cause : Word) (h : Hart) : Hart :=
  let st := h.csr .sstatus
  let st' := setBit (setBit (setBit st SPIE (st.getLsbD SIE)) SIE false) SPP (h.priv ≠ .user)
  { ((h.setCsr .sepc h.pc).setCsr .scause cause).setCsr .sstatus st' with
    priv := .supervisor
    pc := h.csr .stvec }

def trapM (cause : Word) (h : Hart) : Hart :=
  let st := h.csr .mstatus
  let st' := setBit (setBit (setBit (setBit st MPIE (st.getLsbD MIE)) MIE false)
    MPP h.priv.bits.1) (MPP + 1) h.priv.bits.2
  { ((h.setCsr .mepc h.pc).setCsr .mcause cause).setCsr .mstatus st' with
    priv := .machine
    pc := h.csr .mtvec }

theorem exec_plain {i : Instr} (hi : i.plain = true) (h : Hart) :
    (h.exec i).pc = h.pc + 4 ∧ (h.exec i).priv = h.priv := by
  cases i with
  | jr => cases hi
  | sret => cases hi
  | mret => cases hi
  | _ => exact ⟨rfl, rfl⟩

theorem exec_csr {i : Instr} {c : Csr} (hc : c ∉ i.csrs) (h : Hart) : (h.exec i).csr c = h.csr c := by
  cases i with
  | csrrw dst csr src => exact Function.update_of_ne (by simpa [Instr.csrs] using hc) _ _
  | csrw csr src => exact Function.update_of_ne (by simpa [Instr.csrs] using hc) _ _
  | sret => exact Function.update_of_ne (by simpa [Instr.csrs] using hc) _ _
  | mret => exact Function.update_of_ne (by simpa [Instr.csrs] using hc) _ _
  | _ => rfl

@[simp] theorem execAll_nil (h : Hart) : h.execAll [] = h := rfl

@[simp] theorem execAll_cons (i : Instr) (is : List Instr) (h : Hart) :
    h.execAll (i :: is) = (h.exec i).execAll is := rfl

theorem execAll_append (is js : List Instr) (h : Hart) :
    h.execAll (is ++ js) = (h.execAll is).execAll js := by
  simp [execAll]

end Hart

theorem Reg.mem_all (r : Reg) : r ∈ Reg.all := by
  cases r <;> decide

def Reg.off (r : Reg) : ℕ := 8 * Reg.all.idxOf r

theorem Reg.off_le (r : Reg) : r.off + 8 ≤ 248 := by
  have h := List.idxOf_lt_length_iff.mpr r.mem_all
  have hlen : Reg.all.length = 31 := rfl
  unfold Reg.off
  omega

theorem Reg.off_apart {r r' : Reg} (h : r ≠ r') : r.off + 8 ≤ r'.off ∨ r'.off + 8 ≤ r.off := by
  have hne : Reg.all.idxOf r ≠ Reg.all.idxOf r' := fun heq =>
    h ((List.idxOf_inj r.mem_all).mp heq)
  unfold Reg.off
  omega

/-- Store registers one by one at their offsets from `a`. -/
def saveRegs (regs : Reg → Word) (a : Word) (rs : List Reg) (m : Mem) : Mem :=
  rs.foldl (fun m r => store64 m (a + BitVec.ofNat 64 r.off) (regs r)) m

theorem load64_saveRegs_of_not_mem {regs : Reg → Word} {a : Word} {rs : List Reg} {m : Mem} {r : Reg}
    (hr : r ∉ rs) : load64 (saveRegs regs a rs m) (a + BitVec.ofNat 64 r.off) =
      load64 m (a + BitVec.ofNat 64 r.off) := by
  induction rs generalizing m with
  | nil => rfl
  | cons q qs ih =>
    have hq : q ≠ r := fun h => hr (h ▸ List.mem_cons_self)
    have h1 := q.off_le
    have h2 := r.off_le
    refine (ih fun h => hr (List.mem_cons_of_mem q h)).trans ?_
    exact load64_store64_field m a (regs q) (by omega) (by omega) (Reg.off_apart hq)

theorem load64_saveRegs {regs : Reg → Word} {a : Word} {rs : List Reg} {m : Mem} {r : Reg}
    (hr : r ∈ rs) : load64 (saveRegs regs a rs m) (a + BitVec.ofNat 64 r.off) = regs r := by
  induction rs generalizing m with
  | nil => cases hr
  | cons q qs ih =>
    by_cases hmem : r ∈ qs
    · exact ih hmem
    · obtain rfl : r = q := (List.mem_cons.mp hr).resolve_right hmem
      refine (load64_saveRegs_of_not_mem hmem).trans ?_
      exact load64_store64 m (a + BitVec.ofNat 64 r.off) (regs r)

theorem saveRegs_of_not_mem_block {regs : Reg → Word} {a x : Word} (rs : List Reg) {m : Mem}
    (hx : ¬ InBlock a 248 x) : saveRegs regs a rs m x = m x := by
  induction rs generalizing m with
  | nil => rfl
  | cons q qs ih =>
    exact ih.trans (store64_of_not_mem fun h => hx (h.of_sub q.off_le (by omega)))

theorem pc_succ (pc : Word) (n : ℕ) :
    pc + 4 + BitVec.ofNat 64 (4 * n) = pc + BitVec.ofNat 64 (4 * (n + 1)) := by
  rw [BitVec.add_assoc, Nat.mul_succ, Nat.add_comm (4 * n) 4, BitVec.ofNat_add]
  rfl

theorem execAll_sd (rs : List Reg) (base : Reg) (h : Hart) :
    h.execAll (rs.map fun r => .sd r r.off base) =
      { h with
        mem := saveRegs h.regs (h.regs base) rs h.mem
        pc := h.pc + BitVec.ofNat 64 (4 * rs.length) } := by
  induction rs generalizing h with
  | nil => simp [saveRegs]
  | cons r rs ih =>
    rw [List.map_cons, Hart.execAll_cons, ih, List.length_cons, ← pc_succ]
    rfl

theorem execAll_ld {rs : List Reg} {base : Reg} (hbase : base ∉ rs) (h : Hart) :
    h.execAll (rs.map fun r => .ld r r.off base) =
      { h with
        regs := fun r => if r ∈ rs then load64 h.mem (h.regs base + BitVec.ofNat 64 r.off) else h.regs r
        pc := h.pc + BitVec.ofNat 64 (4 * rs.length) } := by
  induction rs generalizing h with
  | nil => simp
  | cons q qs ih =>
    have hq : base ≠ q := fun heq => hbase (heq ▸ List.mem_cons_self)
    have hqs : base ∉ qs := fun hm => hbase (List.mem_cons_of_mem q hm)
    rw [List.map_cons, Hart.execAll_cons, ih hqs, List.length_cons, ← pc_succ]
    simp only [Hart.exec, Hart.effect, Hart.setReg, Hart.addr, Function.update_of_ne hq, Hart.mk.injEq,
      and_true]
    funext r
    by_cases hr : r = q
    · subst hr
      by_cases hmem : r ∈ qs
      · simp [hmem]
      · simp [hmem]
    · simp [hr]

def Instr.reads : Instr → List Csr
  | .csrrw _ csr _ => [csr]
  | .csrr _ csr => [csr]
  | .sret => [.sstatus, .sepc]
  | .mret => [.mstatus, .mepc]
  | _ => []

def Instr.LoadsIn (B : Word → Prop) (h : Hart) : Instr → Prop
  | .ld _ off base => ∀ x, InBlock (h.addr off base) 8 x → B x
  | _ => True

/-- Equal up to control registers outside `C` and memory outside `B`. -/
structure Agree (C : Csr → Prop) (B : Word → Prop) (h h' : Hart) : Prop where
  regs : h'.regs = h.regs
  pc : h'.pc = h.pc
  priv : h'.priv = h.priv
  csr : ∀ c, C c → h'.csr c = h.csr c
  mem : ∀ x, B x → h'.mem x = h.mem x

section
variable {C : Csr → Prop} {B : Word → Prop} {h h' : Hart}

theorem Agree.refl (h : Hart) : Agree C B h h := ⟨rfl, rfl, rfl, fun _ _ => rfl, fun _ _ => rfl⟩

theorem Agree.trans {h'' : Hart} (ha : Agree C B h h') (hb : Agree C B h' h'') : Agree C B h h'' where
  regs := hb.regs.trans ha.regs
  pc := hb.pc.trans ha.pc
  priv := hb.priv.trans ha.priv
  csr := fun c hc => (hb.csr c hc).trans (ha.csr c hc)
  mem := fun x hx => (hb.mem x hx).trans (ha.mem x hx)

theorem agree_update {f f' : Csr → Word} (hf : ∀ c, C c → f' c = f c) (k : Csr) (v : Word) :
    ∀ c, C c → Function.update f' k v c = Function.update f k v c := by
  intro c hc
  by_cases hk : c = k
  · subst hk
    rw [Function.update_self, Function.update_self]
  · rw [Function.update_of_ne hk, Function.update_of_ne hk, hf c hc]

theorem agree_store {m m' : Mem} (hm : ∀ x, B x → m' x = m x) (a v : Word) :
    ∀ x, B x → store64 m' a v x = store64 m a v x := by
  intro x hx
  simp only [store64, write, hm x hx]

theorem Agree.exec (ha : Agree C B h h') {i : Instr} (hreads : ∀ c ∈ i.reads, C c)
    (hload : i.LoadsIn B h) : Agree C B (h.exec i) (h'.exec i) := by
  obtain ⟨hregs, hpc, hpriv, hcsr, hmem⟩ := ha
  have hpc4 : h'.pc + 4 = h.pc + 4 := by rw [hpc]
  cases i with
  | sd src off base =>
    refine ⟨hregs, hpc4, hpriv, hcsr, ?_⟩
    simp only [Hart.exec, Hart.effect, Hart.addr, hregs]
    exact agree_store hmem _ _
  | ld dst off base =>
    refine ⟨?_, hpc4, hpriv, hcsr, hmem⟩
    have haddr : h'.addr off base = h.addr off base := by rw [Hart.addr, Hart.addr, hregs]
    have hval : load64 h'.mem (h'.addr off base) = load64 h.mem (h.addr off base) := by
      rw [haddr]
      exact load64_congr fun x hx => hmem x (hload x hx)
    simp only [Hart.exec, Hart.effect, Hart.setReg, hregs, hval]
  | csrrw dst csr src =>
    have hval : h'.csr csr = h.csr csr := hcsr csr (hreads csr (by simp [Instr.reads]))
    refine ⟨?_, hpc4, hpriv, ?_, hmem⟩
    · simp only [Hart.exec, Hart.effect, Hart.setReg, Hart.setCsr, hregs, hval]
    · simp only [Hart.exec, Hart.effect, Hart.setReg, Hart.setCsr, hregs]
      exact agree_update hcsr _ _
  | csrr dst csr =>
    have hval : h'.csr csr = h.csr csr := hcsr csr (hreads csr (by simp [Instr.reads]))
    refine ⟨?_, hpc4, hpriv, hcsr, hmem⟩
    simp only [Hart.exec, Hart.effect, Hart.setReg, hregs, hval]
  | csrw csr src =>
    refine ⟨hregs, hpc4, hpriv, ?_, hmem⟩
    simp only [Hart.exec, Hart.effect, Hart.setCsr, hregs]
    exact agree_update hcsr _ _
  | jr src => exact ⟨hregs, congrFun hregs src, hpriv, hcsr, hmem⟩
  | sret =>
    have hst : h'.csr .sstatus = h.csr .sstatus := hcsr _ (hreads _ (by simp [Instr.reads]))
    have hepc : h'.csr .sepc = h.csr .sepc := hcsr _ (hreads _ (by simp [Instr.reads]))
    refine ⟨hregs, hepc, ?_, ?_, hmem⟩
    · simp only [Hart.exec, Hart.sretStep, hst]
    · simp only [Hart.exec, Hart.sretStep, Hart.setCsr, hst]
      exact agree_update hcsr _ _
  | mret =>
    have hst : h'.csr .mstatus = h.csr .mstatus := hcsr _ (hreads _ (by simp [Instr.reads]))
    have hepc : h'.csr .mepc = h.csr .mepc := hcsr _ (hreads _ (by simp [Instr.reads]))
    refine ⟨hregs, hepc, ?_, ?_, hmem⟩
    · simp only [Hart.exec, Hart.mretStep, hst]
    · simp only [Hart.exec, Hart.mretStep, Hart.setCsr, hst]
      exact agree_update hcsr _ _
  | _ =>
    refine ⟨?_, hpc4, hpriv, hcsr, hmem⟩
    simp only [Hart.exec, Hart.effect, Hart.setReg, hregs]

/-- The memory that instructions in a row depend on lies in `B`. -/
def AllLoadsIn (B : Word → Prop) : List Instr → Hart → Prop
  | [], _ => True
  | i :: is, h => i.LoadsIn B h ∧ AllLoadsIn B is (h.exec i)

theorem allLoadsIn_append {is js : List Instr} :
    AllLoadsIn B (is ++ js) h ↔ AllLoadsIn B is h ∧ AllLoadsIn B js (h.execAll is) := by
  induction is generalizing h with
  | nil => simp [AllLoadsIn]
  | cons i is ih => simp only [List.cons_append, AllLoadsIn, ih, Hart.execAll_cons, and_assoc]

theorem Agree.execAll_drop {is : List Instr} {k : ℕ} (ha : Agree C B (h.execAll (is.take k)) h')
    (hreads : ∀ i ∈ is, ∀ c ∈ i.reads, C c) (hloads : AllLoadsIn B is h) :
    Agree C B (h.execAll is) (h'.execAll (is.drop k)) := by
  have hrow {js : List Instr} {g g' : Hart} (hg : Agree C B g g')
      (hr : ∀ i ∈ js, ∀ c ∈ i.reads, C c) (hl : AllLoadsIn B js g) :
      Agree C B (g.execAll js) (g'.execAll js) := by
    induction js generalizing g g' with
    | nil => exact hg
    | cons i js ih =>
      exact ih (hg.exec (hr i List.mem_cons_self) hl.1)
        (fun j hj => hr j (List.mem_cons_of_mem i hj)) hl.2
  rw [← List.take_append_drop k is] at hloads
  have hrest := hrow ha (fun i hi => hreads i (List.mem_of_mem_drop hi)) (allLoadsIn_append.mp hloads).2
  rwa [← Hart.execAll_append, List.take_append_drop] at hrest

theorem Agree.exec_next {is : List Instr} {k : ℕ} {i : Instr} (hk : is[k]? = some i)
    (ha : Agree C B (h.execAll (is.take k)) h') (hreads : ∀ i ∈ is, ∀ c ∈ i.reads, C c)
    (hloads : AllLoadsIn B is h) : Agree C B (h.execAll (is.take (k + 1))) (h'.exec i) := by
  have hlt : k < is.length := (List.getElem?_eq_some_iff.mp hk).1
  have hget : is[k] = i := (List.getElem?_eq_some_iff.mp hk).2
  rw [← List.take_append_drop k is, allLoadsIn_append, List.drop_eq_getElem_cons hlt, hget] at hloads
  rw [List.take_add_one, hk, Hart.execAll_append]
  exact ha.exec (hreads i (List.mem_of_getElem? hk)) hloads.2.1

theorem allLoadsIn_of_forall {is : List Instr} (hs : ∀ i ∈ is, ∀ g, i.LoadsIn B g) :
    AllLoadsIn B is h := by
  induction is generalizing h with
  | nil => trivial
  | cons i is ih => exact ⟨hs i List.mem_cons_self h, ih fun j hj => hs j (List.mem_cons_of_mem i hj)⟩

theorem allLoadsIn_ld {rs : List Reg} {base : Reg} (hbase : base ∉ rs)
    (hB : ∀ x, InBlock (h.regs base) 248 x → B x) :
    AllLoadsIn B (rs.map fun r => .ld r r.off base) h := by
  induction rs generalizing h with
  | nil => trivial
  | cons q qs ih =>
    have hq : base ≠ q := fun heq => hbase (heq ▸ List.mem_cons_self)
    refine ⟨fun x hx => hB x (hx.of_sub q.off_le (by omega)), ih (fun hm => hbase (List.mem_cons_of_mem q hm)) ?_⟩
    simpa only [Hart.exec, Hart.effect, Hart.setReg, Function.update_of_ne hq] using hB

end

end Riscv
