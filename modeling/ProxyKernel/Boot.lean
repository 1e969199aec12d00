import ProxyKernel.SymbolTables
import ProxyKernel.TrapContext

/-!
`load_user_program` of `kernel/kernel.c` prepares the trapframe and loads the
program, and `switch_to` gives it the hart.  The file comes from the host; the
command line and `spike_file_open` only decide whether there is one.
-/

namespace ProxyKernel.Boot
open ByteMem Effect Elf Riscv Trap Transition

def USER_STACK : Word := 0x81100000

/-- The panics of `load_bincode_from_host_elf`. -/
inductive BootPanic
  | noProgram | openFailed | initFailed | loadFailed
  | symbols (why : SymbolPanic)
  deriving DecidableEq

def orPanic {ε α : Type} (x : Loader ε α) (f : ε → BootPanic) : Loader BootPanic α := fun s =>
  match x s with
  | .ok a t => .ok a t
  | .error e t => .error (f e) t

/-- `if (elf_load(&elfloader) != EL_OK) panic(..)` -/
def loadOrPanic (host : Host) (ehdr : ElfHeader) : Loader BootPanic Unit := fun s =>
  match elfLoad host ehdr s with
  | (.EL_OK, t) => .ok () t
  | (_, t) => .error .loadFailed t

/-- `p->trapframe->epc = elfloader.ehdr.entry` -/
def setEpc {ε : Type} (p entry : Word) : Loader ε Unit := do
  let s ← get
  put (trapframeOf s.mem p + BitVec.ofNat 64 epcOff) (toLE 8 entry.toNat)

/-- `argc` is what `parse_args` returned, and `f` the opened file, unless it is an error. -/
def loadBincodeFromHostElf (argc : Word) (f : Option Host) (p : Word) : Loader BootPanic Unit :=
  if argc = 0 then throw .noProgram
  else
    match f with
    | none => throw .openFailed
    | some host => do
      let ehdr ← orPanic (elfInit host) fun _ => .initFailed
      loadOrPanic host ehdr
      orPanic (loadUserSymbols host ehdr p) .symbols
      setEpc p ehdr.entry

def loadUserProgram (argc : Word) (f : Option Host) (proc : Word) : Loader BootPanic Unit := do
  put (proc + BitVec.ofNat 64 trapframeOff) (toLE 8 USER_TRAP_FRAME.toNat)
  -- `memset(proc->trapframe, 0, sizeof(trapframe))`
  put USER_TRAP_FRAME (List.replicate trapframeSize 0)
  put (proc + BitVec.ofNat 64 kstackOff) (toLE 8 USER_KSTACK.toNat)
  put (Trap.field USER_TRAP_FRAME Reg.sp.off) (toLE 8 USER_STACK.toNat)
  loadBincodeFromHostElf argc f proc

variable {file : List Byte} {fault : ℕ → Option (Fin 4095)} {s t : LoadState} {L : Layout} {p : Word}

theorem orPanic_ok {ε α : Type} {x : Loader ε α} {f : ε → BootPanic} {a : α}
    (h : orPanic x f s = .ok a t) : x s = .ok a t := by
  unfold orPanic at h
  split at h
  · rename_i hx
    rw [hx]
    injection h with h1 h2
    rw [h1, h2]
  · cases h

theorem loadOrPanic_ok {host : Host} {ehdr : ElfHeader} (h : loadOrPanic host ehdr s = .ok () t) :
    elfLoadLoop host ehdr.phnum.toNat (ehdr.phoff.setWidth 32) s = .ok () t := by
  unfold loadOrPanic elfLoad at h
  cases hr : elfLoadLoop host ehdr.phnum.toNat (ehdr.phoff.setWidth 32) s with
  | ok a u =>
    rw [hr] at h
    injection h with _ h
    exact congrArg _ h
  | error e u =>
    rw [hr] at h
    simp only [statusOf, finalState_error] at h
    split at h
    · rename_i heq
      exact absurd (Prod.mk.inj heq).1 e.property
    · cases h

theorem elfInit_ok {ehdr : ElfHeader} (h : elfInit (plainHost file fault) s = .ok ehdr t) :
    ehdr = ElfHeader.decode (file.take 64) ∧ t.mem = s.mem ∧ t.reads.length = s.reads.length + 1 := by
  rw [elfInit, bind_of_ok (elfFpread_run _ _ _ _)] at h
  split_ifs at h with hret hmagic
  · cases h
  · cases h
  · obtain ⟨hf, -⟩ := (plainHost_ret_iff (by decide)).mp (not_not.mp hret)
    injection h with hehdr ht
    refine ⟨?_, by rw [← ht, logged_mem], by rw [← ht, logged_calls]⟩
    rw [← hehdr, plainHost_bytes, hf]
    rfl

def startRegs : Reg → Word := Function.update (fun _ => 0) .sp USER_STACK

structure Prepared (L : Layout) (m : Mem) : Prop where
  process : Process L m
  regs : ∀ r : Reg, load64 m (Trap.field USER_TRAP_FRAME r.off) = startRegs r

def Kept (L : Layout) (x : Word) : Prop :=
  InBlock USER_TRAP_FRAME trapframeSize x ∨ InBlock L.userApp 16 x

theorem Kept.isProtected {x : Word} (h : Kept L x) : L.Protected x :=
  h.imp_right fun h => lt_trans h (by decide)

theorem Prepared.congr {m m' : Mem} (h : Prepared L m) (hm : ∀ x, Kept L x → m' x = m x) :
    Prepared L m' where
  process :=
    ⟨(load64_congr fun x hx => hm x (.inr (hx.of_sub (by decide) (by decide)))).trans h.process.trapframe,
      (load64_congr fun x hx => hm x (.inr (hx.of_sub (by decide) (by decide)))).trans h.process.kstack⟩
  regs := fun r => (load64_congr fun x hx =>
    hm x (.inl (hx.of_sub (r.off_le.trans (by decide)) (by decide)))).trans (h.regs r)

theorem load64_zero {m : Mem} {a : Word} (h : ∀ x, InBlock a 8 x → m x = 0) : load64 m a = 0 := by
  have hread : ByteMem.read (fun _ => 0) a 8 = List.replicate 8 0 := by simp [ByteMem.read]
  have hzero : load64 m a = load64 (fun _ => 0) a := load64_congr h
  rw [hzero, load64, hread]
  rfl

theorem apart_frame_process (L : Layout) {i j n k : ℕ} (hi : i + n ≤ trapframeSize)
    (hj : j + k ≤ processSize) :
    Apart (Trap.field USER_TRAP_FRAME i) n (L.userApp + BitVec.ofNat 64 j) k :=
  fun x hx hy => L.frame_apart x (hx.of_sub hi (by decide)) (hy.of_sub hj (by decide))

def prepared (L : Layout) (m : Mem) : Mem :=
  store64 (store64 (write (store64 m (L.userApp + BitVec.ofNat 64 trapframeOff) USER_TRAP_FRAME)
      USER_TRAP_FRAME (List.replicate trapframeSize 0))
    (L.userApp + BitVec.ofNat 64 kstackOff) USER_KSTACK) (Trap.field USER_TRAP_FRAME Reg.sp.off) USER_STACK

theorem prepared_prepared (L : Layout) (m : Mem) : Prepared L (prepared L m) := by
  have hsp := Reg.sp.off_le
  have htf : Apart (L.userApp + BitVec.ofNat 64 kstackOff) 8 (L.userApp + BitVec.ofNat 64 trapframeOff) 8 :=
    apart_fields L.userApp (by decide) (by decide)
  have hzero : Apart USER_TRAP_FRAME (List.replicate trapframeSize (0 : Byte)).length
      (L.userApp + BitVec.ofNat 64 trapframeOff) 8 := by
    rw [List.length_replicate]
    exact fun x hx hy => L.frame_apart x hx (hy.of_sub (by decide) (by decide))
  have hread (i : ℕ) (hi : i + 8 ≤ processSize) (m' : Mem) :
      load64 (store64 m' (Trap.field USER_TRAP_FRAME Reg.sp.off) USER_STACK)
        (L.userApp + BitVec.ofNat 64 i) = load64 m' (L.userApp + BitVec.ofNat 64 i) :=
    load64_store64_apart (apart_frame_process L (hsp.trans (by decide)) hi)
  refine ⟨⟨?_, ?_⟩, ?_⟩
  · rw [trapframeOf, prepared, hread _ (by decide), load64_store64_apart htf]
    refine (load64_congr fun x hx => ?_).trans (load64_store64 m _ _)
    exact write_of_not_mem fun hin => hzero x hin hx
  · rw [prepared, hread _ (by decide), load64_store64]
  · intro r
    by_cases hr : r = .sp
    · subst hr
      rw [prepared, load64_store64]
      rfl
    · have hoff := r.off_le
      have hks : Apart (L.userApp + BitVec.ofNat 64 kstackOff) 8 (Trap.field USER_TRAP_FRAME r.off) 8 :=
        (apart_frame_process L (hoff.trans (by decide)) (by decide)).symm
      rw [prepared, Trap.field, Trap.field, load64_store64_field _ _ _ (by omega) (by omega)
        (Reg.off_apart (Ne.symm hr)), startRegs, Function.update_of_ne hr]
      refine (load64_store64_apart hks).trans (load64_zero fun x hx => ?_)
      have hin : InBlock USER_TRAP_FRAME trapframeSize x := hx.of_sub (hoff.trans (by decide)) (by decide)
      have hlt : offset USER_TRAP_FRAME x < (List.replicate trapframeSize (0 : Byte)).length := by
        rwa [List.length_replicate]
      rw [write_of_lt hlt, List.getElem_replicate]

/-- Where the linker has put the kernel: its code, its data and its stacks. -/
structure Image (L : Layout) where
  base : Word
  size : ℕ
  vector : ∀ x, InBlock L.smodeTrapVector 152 x → InBlock base size x
  handler : InBlock base size L.smodeTrapHandler
  returnToUser : ∀ x, InBlock L.returnToUser 136 x → InBlock base size x
  process : ∀ x, InBlock L.userApp processSize x → InBlock base size x

variable {I : Image L}

/-- The segment is loaded neither over the kernel nor over the trapframe. -/
def Elsewhere (I : Image L) (seg : Segment) : Prop :=
  Apart seg.ph.vaddr seg.ph.memsz.toNat USER_TRAP_FRAME trapframeSize ∧
    Apart seg.ph.vaddr seg.ph.memsz.toNat I.base I.size

theorem Elsewhere.not_protected {seg : Segment} (h : Elsewhere I seg) {x : Word}
    (hx : InBlock seg.ph.vaddr seg.ph.memsz.toNat x) : ¬ L.Protected x := by
  rintro (hin | hin)
  · exact h.1 x hx hin
  · exact h.2 x hx (I.process x hin)

def entryHeader (file : List Byte) : ElfHeader := ElfHeader.decode (file.take 64)

def bootSegments (file : List Byte) (fault : ℕ → Option (Fin 4095)) (s : LoadState) : List Segment :=
  segmentsFrom file fault (entryHeader file).phnum.toNat (s.reads.length + 1)
    ((entryHeader file).phoff.setWidth 32)

theorem writeAll_segments {segs : List Segment} {x : Word} (m : Mem)
    (hx : ∀ seg ∈ segs, ¬ InBlock seg.ph.vaddr seg.ph.memsz.toNat x) :
    writeAll m (segs.map (Segment.block file)) x = m x := by
  apply writeAll_of_not_mem
  intro b hb hin
  obtain ⟨seg, hmem, rfl⟩ := List.mem_map.mp hb
  exact hx seg hmem (lt_of_lt_of_le hin (transferred_length_le seg.fault seg.ph.memsz seg.ph.off))

/-- The symbol tables lie inside the process structure, behind its pointers. -/
theorem symbolArea_process {x : Word} (h : SymbolArea L.userApp x) :
    InBlock L.userApp processSize x ∧ ¬ InBlock L.userApp 16 x := by
  simp only [SymbolArea, InBlock, offset, symtabOff, symCountOff, strtabOff, strtabSzOff, MAX_USER_SYMS,
    MAX_USER_STRTAB, processSize] at *
  bv_omega

theorem withTables_outside {ehdr : ElfHeader} {k : ℕ} {symHdr strHdr : SectionHeader}
    (htab : Tables file ehdr k symHdr strHdr) (m : Mem) {x : Word} (hx : ¬ SymbolArea p x) :
    withTables file p symHdr strHdr m x = m x := by
  apply withTables_frame htab.symbols htab.strings
  · exact fun hin => hx (symbolArea_of_surplus (lt_of_lt_of_le hin htab.symbols.size_le))
  · exact fun hin => hx (.inr (.inl hin))
  · exact fun hin => hx (.inr (.inr (.inl (lt_of_lt_of_le hin htab.strings.size_le))))
  · exact fun hin => hx (.inr (.inr (.inr hin)))

theorem loadUserSymbols_outside {ehdr : ElfHeader}
    (h : loadUserSymbols (plainHost file fault) ehdr p s = .ok () t) {x : Word} (hx : ¬ SymbolArea p x) :
    t.mem x = s.mem x := by
  rcases loadUserSymbols_ok h with ⟨-, hmem⟩ | ⟨k, symHdr, strHdr, htab, hmem⟩
  · rw [hmem]
  · rw [hmem, withTables_outside htab s.mem hx]

theorem not_symbolArea_of_kept {x : Word} (h : Kept L x) : ¬ SymbolArea L.userApp x := by
  intro hs
  obtain ⟨hproc, hbehind⟩ := symbolArea_process hs
  rcases h with h | h
  · exact L.frame_apart x h hproc
  · exact hbehind h

structure Loaded (L : Layout) (file : List Byte) (segs : List Segment) (m m' : Mem) : Prop where
  prepared : Prepared L m'
  epc : load64 m' (Trap.field USER_TRAP_FRAME epcOff) = (entryHeader file).entry
  accepted : ∀ seg ∈ segs, seg.Accepted file
  /-- outside the process structure and the trapframe memory holds the segments -/
  image : ∀ x, ¬ L.Protected x → m' x = writeAll m (segs.map (Segment.block file)) x

theorem setEpc_run {ε : Type} (p entry : Word) (s : LoadState) : (setEpc p entry : Loader ε Unit) s =
    .ok () (s.stored (trapframeOf s.mem p + BitVec.ofNat 64 epcOff) (toLE 8 entry.toNat)) := rfl

def preparedState (L : Layout) (s : LoadState) : LoadState where
  mem := prepared L s.mem
  reads := s.reads
  writes := s.writes ++ [(L.userApp + BitVec.ofNat 64 trapframeOff, toLE 8 USER_TRAP_FRAME.toNat)] ++
    [(USER_TRAP_FRAME, List.replicate trapframeSize 0)] ++
    [(L.userApp + BitVec.ofNat 64 kstackOff, toLE 8 USER_KSTACK.toNat)] ++
    [(Trap.field USER_TRAP_FRAME Reg.sp.off, toLE 8 USER_STACK.toNat)]

theorem loadUserProgram_run (argc : Word) (f : Option Host) (s : LoadState) :
    loadUserProgram argc f L.userApp s =
      loadBincodeFromHostElf argc f L.userApp (preparedState L s) := rfl

theorem prepared_outside (m : Mem) {x : Word} (hx : ¬ L.Protected x) : prepared L m x = m x := by
  have hframe : ¬ InBlock USER_TRAP_FRAME trapframeSize x := fun h => hx (.inl h)
  have hproc (i : ℕ) (hi : i + 8 ≤ processSize) : ¬ InBlock (L.userApp + BitVec.ofNat 64 i) 8 x :=
    fun h => hx (.inr (h.of_sub hi (by decide)))
  have hsp : ¬ InBlock (Trap.field USER_TRAP_FRAME Reg.sp.off) 8 x :=
    fun h => hframe (h.of_sub (by decide) (by decide))
  rw [prepared, store64_of_not_mem hsp, store64_of_not_mem (hproc _ (by decide)), write_of_not_mem,
    store64_of_not_mem (hproc _ (by decide))]
  rwa [List.length_replicate]

theorem Prepared.storeEpc {m : Mem} (h : Prepared L m) (v : Word) :
    Prepared L (store64 m (Trap.field USER_TRAP_FRAME epcOff) v) where
  process := h.process.store (by decide)
  regs := by
    intro r
    have hr := r.off_le
    unfold epcOff
    exact (load64_store64_field _ _ _ (by omega) (by omega) (by omega)).trans (h.regs r)

theorem loadUserProgram_loaded {argc : Word}
    (h : loadUserProgram argc (some (plainHost file fault)) L.userApp s = .ok () t)
    (hseg : ∀ seg ∈ bootSegments file fault s, Elsewhere I seg) :
    Loaded L file (bootSegments file fault s) s.mem t.mem := by
  rw [loadUserProgram_run, loadBincodeFromHostElf] at h
  split_ifs at h
  · cases h
  obtain ⟨ehdr, s1, hinit, h⟩ := bind_eq_ok.mp h
  obtain ⟨⟨⟩, s2, hload, h⟩ := bind_eq_ok.mp h
  obtain ⟨⟨⟩, s3, hsyms, h⟩ := bind_eq_ok.mp h
  obtain ⟨hehdr, hmem1, hreads1⟩ := elfInit_ok (orPanic_ok hinit)
  obtain ⟨hmem2, hacc⟩ := elfLoadLoop_ok _ _ (loadOrPanic_ok hload)
  have hmem3 {x : Word} (hx : ¬ SymbolArea L.userApp x) : s3.mem x = s2.mem x :=
    loadUserSymbols_outside (orPanic_ok hsyms) hx
  -- the loop has read the table of the header that `elf_init` has read
  have hsegs : segmentsFrom file fault ehdr.phnum.toNat s1.reads.length (ehdr.phoff.setWidth 32) =
      bootSegments file fault s := by
    rw [hreads1, hehdr]
    rfl
  rw [hsegs, hmem1] at hmem2
  rw [hsegs] at hacc
  have hprep : Prepared L s3.mem := by
    refine (prepared_prepared L s.mem).congr fun x hx => ?_
    rw [hmem3 (not_symbolArea_of_kept hx), hmem2]
    exact writeAll_segments _ fun seg hmem hin => (hseg seg hmem).not_protected hin hx.isProtected
  rw [setEpc_run, hprep.process.trapframe] at h
  obtain ⟨-, rfl⟩ := EStateM.Result.ok.inj h
  refine ⟨hprep.storeEpc _, ?_, hacc, ?_⟩
  · rw [entryHeader, ← hehdr]
    exact load64_store64 _ _ _
  · intro x hx
    have hepc : ¬ InBlock (Trap.field USER_TRAP_FRAME epcOff) 8 x :=
      fun hin => hx (.inl (hin.of_sub (by decide) (by decide)))
    refine (store64_of_not_mem (v := ehdr.entry) hepc).trans ?_
    rw [hmem3 fun hs => hx (.inr (symbolArea_process hs).1), hmem2]
    exact writeAll_congr (prepared_outside s.mem hx) _

/-- The program stands in memory as the file has it, where the file is clean. -/
theorem Loaded.segmentImage {segs : List Segment} {m m' : Mem} (h : Loaded L file segs m m')
    (hdisj : DisjointSegments segs) {seg : Segment} (hmem : seg ∈ segs) (helse : Elsewhere I seg)
    (hclean : seg.Clean file m) : SegmentImage file seg.ph m' := by
  have hacc := h.accepted seg hmem
  have himage := (segmentImage_iff (m := m) hdisj hmem hacc).mpr hclean
  have hsame (i : ℕ) (hi : i < seg.ph.memsz.toNat) : m' (seg.ph.vaddr + BitVec.ofNat 64 i) =
      writeAll m (segs.map (Segment.block file)) (seg.ph.vaddr + BitVec.ofNat 64 i) := by
    apply h.image
    have hin : InBlock seg.ph.vaddr seg.ph.memsz.toNat (seg.ph.vaddr + BitVec.ofNat 64 i) := by
      rw [InBlock, offset_ofNat _ (lt_trans hi seg.ph.memsz.isLt)]
      exact hi
    exact helse.not_protected hin
  refine ⟨fun i hi => ?_, fun i hi hi' => ?_⟩
  · rw [hsame i (lt_of_lt_of_le hi hacc.filesz_le)]
    exact himage.1 i hi
  · rw [hsame i hi']
    exact himage.2 i hi hi'

/-- `s_start` calls `switch_to(&user_app)` with the program in memory. -/
structure Loading (L : Layout) (t : LoadState) (u : State) : Prop where
  priv : u.hart.priv = .supervisor
  code : u.code = some (.assertProc L.userApp)
  mem : u.hart.mem = t.mem

/-- The user program is at its entry point with a fresh stack. -/
def AtProgramStart (file : List Byte) (v : State) : Prop :=
  v.hart.regs = startRegs ∧ v.hart.pc = (entryHeader file).entry

/-- A file that is loaded beside the kernel, and whose entry point the hart can hold: bit 0
of `sepc` is always 0. -/
structure Fits (I : Image L) (file : List Byte) (fault : ℕ → Option (Fin 4095)) (s : LoadState) : Prop where
  elsewhere : ∀ seg ∈ bootSegments file fault s, Elsewhere I seg
  entry : (entryHeader file).entry.getLsbD 0 = false

/-- The load leaves the kernel alone, but for the process structure. -/
theorem Loaded.kernel {segs : List Segment} {m m' : Mem} (h : Loaded L file segs m m')
    (helse : ∀ seg ∈ segs, Elsewhere I seg) {x : Word} (hx : InBlock I.base I.size x)
    (hprot : ¬ L.Protected x) : m' x = m x :=
  (h.image x hprot).trans (writeAll_segments m fun seg hmem hin => (helse seg hmem).2 x hin hx)

/-- When `load_user_program` returns, and the file fits beside the kernel, the kernel's own
code and data are as before and every clean segment stands in memory.  Unless a timer trap
falls on the way, and however the C code uses registers and other memory, the hart gets to
user mode at the entry point, with the stack pointer at `USER_STACK` and zero in all other
registers. -/
theorem program_starts_at_entry (L : Layout) (I : Image L) (file : List Byte)
    (fault : ℕ → Option (Fin 4095)) {argc : Word} {s t : LoadState} {u : State}
    (hload : loadUserProgram argc (some (plainHost file fault)) L.userApp s = .ok () t)
    (hfits : Fits I file fault s) (hu : Loading L t u) :
    (∀ x, InBlock I.base I.size x → ¬ L.Protected x → t.mem x = s.mem x) ∧
      Ensures (Next L) InUser (AtProgramStart file) u ∧
      (DisjointSegments (bootSegments file fault s) →
        ∀ seg ∈ bootSegments file fault s, seg.Clean file s.mem → SegmentImage file seg.ph t.mem) := by
  have hloaded := loadUserProgram_loaded hload hfits.elsewhere
  refine ⟨fun x => hloaded.kernel hfits.elsewhere, ?_,
    fun hdisj seg hmem => hloaded.segmentImage hdisj hmem (hfits.elsewhere seg hmem)⟩
  have hcarry : Carries L ⟨startRegs, (entryHeader file).entry, u.hart.csr .sip, u.log⟩ u := by
    obtain ⟨hpriv, -, hmem⟩ := hu
    refine ⟨hpriv, ?_, ?_, ?_, rfl, rfl⟩
    · rw [hmem]
      exact hloaded.prepared.process
    · rw [hmem]
      exact hloaded.prepared.regs
    · rw [hmem]
      exact hloaded.epc
  exact (ensures_switch hcarry hu.code).mono fun v hv => ⟨hv.regs, hv.pc⟩

def startFile : List Byte :=
  toLE 4 0x464C457F ++ toLE 20 0 ++ toLE 8 0x81000000 ++ toLE 8 64 ++ toLE 14 0 ++ toLE 2 56 ++
    toLE 2 1 ++ toLE 6 0 ++ (toLE 4 1 ++ toLE 4 0 ++ toLE 8 120 ++ toLE 8 0x81000000 ++ toLE 8 0 ++
      toLE 8 2 ++ toLE 8 2 ++ toLE 8 0) ++ [0xAA, 0xBB]

def switching (m : Mem) : State := { bootState with hart := { bootState.hart with mem := m } }

def sampleImage : Image sampleLayout where
  base := 0x80000000
  size := 0x100000
  vector := fun _ hx => InBlock.of_sub (i := 0x3000) hx (by decide) (by decide)
  handler := by decide
  returnToUser := fun _ hx => InBlock.of_sub (i := 0x3100) hx (by decide) (by decide)
  process := fun _ hx => InBlock.of_sub (i := 0x10000) hx (by decide) (by decide)

theorem program_starts_at_entry_sample :
    ∃ t, loadUserProgram 1 (some (plainHost startFile fun _ => none)) sampleLayout.userApp freshState =
        .ok () t ∧
      Ensures (Next sampleLayout) InUser (AtProgramStart startFile) (switching t.mem) ∧
      (entryHeader startFile).entry = 0x81000000 := by
  have hreturns : (returned (loadUserProgram 1 (some (plainHost startFile fun _ => none))
      sampleLayout.userApp freshState)).isSome := by decide +kernel
  obtain ⟨⟨⟩, hret⟩ := Option.isSome_iff_exists.mp hreturns
  have hload := eq_ok_of_returned hret
  have hsegs : (bootSegments startFile (fun _ => none) freshState).map Segment.ph =
      [⟨1, 120, 0x81000000, 2, 2⟩] := by decide +kernel
  have helse : ∀ seg ∈ bootSegments startFile (fun _ => none) freshState,
      Elsewhere sampleImage seg := by
    intro seg hseg
    have hph := List.mem_map_of_mem (f := Segment.ph) hseg
    rw [hsegs, List.mem_singleton] at hph
    rw [Elsewhere, hph]
    exact ⟨apart_of_offset (by decide) (by decide), apart_of_offset (by decide) (by decide)⟩
  refine ⟨_, hload, ?_, by decide +kernel⟩
  exact (program_starts_at_entry sampleLayout sampleImage startFile _ hload ⟨helse, by decide +kernel⟩
    ⟨rfl, rfl, rfl⟩).2.1

end ProxyKernel.Boot
