import ProxyKernel.Base.Memory
import ProxyKernel.Base.Effect

/-!
`kernel/elf.c`: the program segments are read from the host file into memory,
and the symbol and string tables into the `process` structure.  The host is a
parameter that answers the `n`-th `pread` of the run; the structures that the
loader keeps on its own stack are values, and `mem` is all other memory.
-/

namespace ProxyKernel.Elf
open ByteMem Effect

/-- What the host does with one `pread`: it copies bytes, or it copies nothing
and returns `-(errno + 1)`. -/
inductive Reply
  | data (bytes : List Byte)
  | error (errno : Fin 4095)
  deriving DecidableEq

/-- The bytes that reach the buffer, never more than were asked for. -/
def Reply.bytes (size : Word) : Reply → List Byte
  | .data bs => bs.take size.toNat
  | .error _ => []

/-- The returned value, as the `uint64` that `elf_fpread` makes of it. -/
def Reply.ret (size : Word) : Reply → Word
  | .data bs => BitVec.ofNat 64 (bs.take size.toNat).length
  | .error e => -BitVec.ofNat 64 (e.val + 1)

/-- Answer to the `n`-th call, for a size and a file offset. -/
abbrev Host := ℕ → Word → Word → Reply

structure Read where
  size : Word
  off : Word
  reply : Reply

/-- Memory, with the reads issued and the blocks written so far. -/
structure LoadState where
  mem : Mem
  reads : List Read
  writes : List (Word × List Byte)

abbrev Loader (ε : Type) := EStateM ε LoadState

def LoadState.logged (s : LoadState) (size off : Word) (reply : Reply) : LoadState :=
  { s with reads := s.reads ++ [⟨size, off, reply⟩] }

def LoadState.stored (s : LoadState) (dest : Word) (bs : List Byte) : LoadState :=
  { s with mem := write s.mem dest bs, writes := s.writes ++ [(dest, bs)] }

/-- `elf_fpread` into a structure on the loader's stack. -/
def elfFpread {ε : Type} (host : Host) (nb offset : Word) : Loader ε (List Byte × Word) := fun s =>
  let reply := host s.reads.length nb offset
  .ok (reply.bytes nb, reply.ret nb) (s.logged nb offset reply)

def put {ε : Type} (dest : Word) (bs : List Byte) : Loader ε Unit := fun s =>
  .ok () (s.stored dest bs)

/-- `elf_fpread` into memory: what was transferred is written even when the read is short. -/
def elfFpreadTo {ε : Type} (host : Host) (dest nb offset : Word) : Loader ε Word := do
  let r ← elfFpread host nb offset
  put dest r.1
  pure r.2

@[simp] theorem logged_calls (s : LoadState) (size off : Word) (reply : Reply) :
    (s.logged size off reply).reads.length = s.reads.length + 1 := by
  simp [LoadState.logged]

@[simp] theorem logged_mem (s : LoadState) (size off : Word) (reply : Reply) :
    (s.logged size off reply).mem = s.mem := rfl

@[simp] theorem logged_writes (s : LoadState) (size off : Word) (reply : Reply) :
    (s.logged size off reply).writes = s.writes := rfl

@[simp] theorem stored_reads (s : LoadState) (dest : Word) (bs : List Byte) :
    (s.stored dest bs).reads = s.reads := rfl

@[simp] theorem stored_mem (s : LoadState) (dest : Word) (bs : List Byte) :
    (s.stored dest bs).mem = write s.mem dest bs := rfl

@[simp] theorem stored_writes (s : LoadState) (dest : Word) (bs : List Byte) :
    (s.stored dest bs).writes = s.writes ++ [(dest, bs)] := rfl

theorem elfFpread_run {ε : Type} (host : Host) (nb off : Word) (s : LoadState) :
    (elfFpread host nb off : Loader ε _) s =
      .ok ((host s.reads.length nb off).bytes nb, (host s.reads.length nb off).ret nb)
        (s.logged nb off (host s.reads.length nb off)) := rfl

theorem elfFpreadTo_run {ε : Type} (host : Host) (dest nb off : Word) (s : LoadState) :
    (elfFpreadTo host dest nb off : Loader ε _) s =
      .ok ((host s.reads.length nb off).ret nb)
        ((s.logged nb off (host s.reads.length nb off)).stored dest
          ((host s.reads.length nb off).bytes nb)) := rfl

def field (bs : List Byte) (off len : ℕ) : ℕ := leNat ((bs.drop off).take len)

structure ElfHeader where
  magic : BitVec 32
  entry : Word
  phoff : Word
  shoff : Word
  phentsize : BitVec 16
  phnum : BitVec 16
  shentsize : BitVec 16
  shnum : BitVec 16
  deriving DecidableEq

def ElfHeader.decode (bs : List Byte) : ElfHeader where
  magic := BitVec.ofNat 32 (field bs 0 4)
  entry := BitVec.ofNat 64 (field bs 24 8)
  phoff := BitVec.ofNat 64 (field bs 32 8)
  shoff := BitVec.ofNat 64 (field bs 40 8)
  phentsize := BitVec.ofNat 16 (field bs 54 2)
  phnum := BitVec.ofNat 16 (field bs 56 2)
  shentsize := BitVec.ofNat 16 (field bs 58 2)
  shnum := BitVec.ofNat 16 (field bs 60 2)

structure ProgHeader where
  type : BitVec 32
  off : Word
  vaddr : Word
  filesz : Word
  memsz : Word
  deriving DecidableEq

def ProgHeader.decode (bs : List Byte) : ProgHeader where
  type := BitVec.ofNat 32 (field bs 0 4)
  off := BitVec.ofNat 64 (field bs 8 8)
  vaddr := BitVec.ofNat 64 (field bs 16 8)
  filesz := BitVec.ofNat 64 (field bs 32 8)
  memsz := BitVec.ofNat 64 (field bs 40 8)

structure SectionHeader where
  type : BitVec 32
  off : Word
  size : Word
  link : BitVec 32
  entsize : Word
  deriving DecidableEq

def SectionHeader.decode (bs : List Byte) : SectionHeader where
  type := BitVec.ofNat 32 (field bs 4 4)
  off := BitVec.ofNat 64 (field bs 24 8)
  size := BitVec.ofNat 64 (field bs 32 8)
  link := BitVec.ofNat 32 (field bs 40 4)
  entsize := BitVec.ofNat 64 (field bs 56 8)

def ELF_MAGIC : BitVec 32 := 0x464C457F
def ELF_PROG_LOAD : BitVec 32 := 1
def SHT_SYMTAB : BitVec 32 := 2

inductive ElfStatus
  | EL_OK | EL_EIO | EL_ENOMEM | EL_NOTELF | EL_ERR
  deriving DecidableEq

abbrev ElfError := {e : ElfStatus // e ≠ .EL_OK}

def eio : ElfError := ⟨ ElfStatus.EL_EIO, by decide⟩
def notElf : ElfError := ⟨.EL_NOTELF, by decide⟩
def elErr : ElfError := ⟨.EL_ERR, by decide⟩

/-- A computation of the loader as a C function that returns its status. -/
def statusOf {α : Type} : EStateM.Result ElfError LoadState α → ElfStatus
  | .ok _ _ => .EL_OK
  | .error e _ => e.val

theorem statusOf_eq_ok {α : Type} {r : EStateM.Result ElfError LoadState α} :
    statusOf r = .EL_OK ↔ ∃ a s, r = .ok a s := by
  cases r with
  | ok a s => simp [statusOf]
  | error e s => simpa [statusOf] using e.property

def elfInit (host : Host) : Loader ElfError ElfHeader := do
  let r ← elfFpread host 64 0
  if r.2 ≠ 64 then throw eio
  else if (ElfHeader.decode r.1).magic ≠ ELF_MAGIC then throw notElf
  else pure (ElfHeader.decode r.1)

def elfAllocMb (_elfPa elfVa _size : Word) : Word := elfVa

/-- The body of the loop for a header of type `ELF_PROG_LOAD`. -/
def loadSegment (host : Host) (ph : ProgHeader) : Loader ElfError Unit :=
  if ph.memsz < ph.filesz then throw elErr
  else if ph.vaddr + ph.memsz < ph.vaddr then throw elErr
  else do
    -- all of `memsz` is asked for, and nothing is cleared afterwards
    let r ← elfFpreadTo host (elfAllocMb ph.vaddr ph.vaddr ph.memsz) ph.memsz ph.off
    if r ≠ ph.memsz then throw eio else pure ()

/-- The loop over the remaining headers.  `off` is an `int`: it is widened with
its sign where it is passed on as an offset. -/
def elfLoadLoop (host : Host) : ℕ → BitVec 32 → Loader ElfError Unit
  | 0, _ => pure ()
  | n + 1, off => do
    let r ← elfFpread host 56 (off.signExtend 64)
    if r.2 ≠ 56 then throw eio
    -- the stride is the size of the structure, not `phentsize`
    else if (ProgHeader.decode r.1).type ≠ ELF_PROG_LOAD then elfLoadLoop host n (off + 56)
    else do
      loadSegment host (ProgHeader.decode r.1)
      elfLoadLoop host n (off + 56)

/-- `off = ctx->ehdr.phoff` keeps the low 32 bits. -/
def elfLoad (host : Host) (ehdr : ElfHeader) (s : LoadState) : ElfStatus × LoadState :=
  let r := elfLoadLoop host ehdr.phnum.toNat (ehdr.phoff.setWidth 32) s
  (statusOf r, finalState r)

def MAX_USER_SYMS : ℕ := 512
def MAX_USER_STRTAB : ℕ := 8 * 1024

/-- Byte offsets of the fields of `process` (`kernel/process.h`). -/
def kstackOff : ℕ := 0
def trapframeOff : ℕ := 8
def symtabOff : ℕ := 16
def symCountOff : ℕ := symtabOff + 24 * MAX_USER_SYMS
def strtabOff : ℕ := symCountOff + 8
def strtabSzOff : ℕ := strtabOff + MAX_USER_STRTAB

inductive SymbolPanic
  | sectionHeader | stringHeader | stringOverflow | stringRead
  | tooManySymbols | entrySize | symbolRead
  deriving DecidableEq

/-- `idx * shentsize` is a product of two `int`s. -/
def sectionOffset (ehdr : ElfHeader) (idx : BitVec 32) : Word :=
  ehdr.shoff + (idx * ehdr.shentsize.setWidth 32).signExtend 64

def getElfSectionHeader (host : Host) (ehdr : ElfHeader) (idx : BitVec 32) :
    Loader SymbolPanic (Option SectionHeader) := do
  let r ← elfFpread host 64 (sectionOffset ehdr idx)
  pure (if r.2 = 64 then some (SectionHeader.decode r.1) else none)

def findSymtab (host : Host) (ehdr : ElfHeader) :
    ℕ → BitVec 32 → Loader SymbolPanic (Option SectionHeader)
  | 0, _ => pure none
  | n + 1, k => do
    match ← getElfSectionHeader host ehdr k with
    | none => throw .sectionHeader
    | some sect =>
      if sect.type = SHT_SYMTAB then pure (some sect) else findSymtab host ehdr n (k + 1)

def loadStrtab (host : Host) (ehdr : ElfHeader) (p : Word) (link : BitVec 32) :
    Loader SymbolPanic Unit := do
  match ← getElfSectionHeader host ehdr link with
  | none => throw .stringHeader
  | some strHdr =>
    if strHdr.size.toNat > MAX_USER_STRTAB then throw .stringOverflow
    else do
      let r ← elfFpreadTo host (p + BitVec.ofNat 64 strtabOff) strHdr.size strHdr.off
      if r ≠ strHdr.size then throw .stringRead
      else put (p + BitVec.ofNat 64 strtabSzOff) (toLE 8 strHdr.size.toNat)

/-- `divu`: the machine's quotient by zero is all ones. -/
def divu (a b : Word) : Word := if b = 0 then -1 else a / b

/-- Step 6: the symbol table, `size` bytes of it, after its count of entries was checked. -/
def loadSymtab (host : Host) (p : Word) (symHdr : SectionHeader) : Loader SymbolPanic Unit :=
  -- the division comes before the check of `entsize`
  if (divu symHdr.size symHdr.entsize).toNat > MAX_USER_SYMS then throw .tooManySymbols
  else if symHdr.entsize ≠ 24 then throw .entrySize
  else do
    let r ← elfFpreadTo host (p + BitVec.ofNat 64 symtabOff) symHdr.size symHdr.off
    if r ≠ symHdr.size then throw .symbolRead
    else
      put (p + BitVec.ofNat 64 symCountOff) (toLE 8 (divu symHdr.size symHdr.entsize).toNat)

def loadUserSymbols (host : Host) (ehdr : ElfHeader) (p : Word) : Loader SymbolPanic Unit :=
  if ehdr.shnum = 0 then pure ()
  else do
    match ← findSymtab host ehdr ehdr.shnum.toNat 0 with
    | none => pure ()
    | some symHdr => do
      loadStrtab host ehdr p symHdr.link
      loadSymtab host p symHdr

end ProxyKernel.Elf
