import ProxyKernel.DeviceTree

/-!
`query_htif` of `spike_interface/spike_htif.c` and `query_mem` of
`spike_interface/spike_memory.c`, with their callbacks.  Neither has a close
callback.  The record on the stack is not initialised; each node that is opened
clears it.
-/

namespace ProxyKernel.Fdt
open ByteMem Effect

structure HtifState where
  compat : Bool
  htif : Word
  deriving DecidableEq

def htifOpen (_ : Mem) (_ : List FdtScanNode) (x : HtifState) : Except ScanFault HtifState :=
  .ok { x with compat := false }

def htifProp (m : Mem) (prop : FdtScanProp) (x : HtifState) : Except ScanFault HtifState :=
  if strcmp m prop.name (ascii "compatible".toList) = 0 ∧
      strcmp m prop.value (ascii "ucb,htif0".toList) = 0 then .ok { x with compat := true }
  else .ok x

def htifDone (_ : Mem) (_ : List FdtScanNode) (x : HtifState) : Except ScanFault HtifState :=
  if x.compat then .ok { x with htif := 1 } else .ok x

def htifCb : FdtCb HtifState := ⟨some htifOpen, htifProp, some htifDone, none⟩

def queryHtif (fuel : ℕ) (fdt : Word) : Scan HtifState Unit := fdtScan htifCb fuel fdt

structure MemScan where
  memory : Bool
  regValue : Word
  regLen : BitVec 32
  deriving DecidableEq

structure MemState where
  scan : MemScan
  gMemSize : Word
  deriving DecidableEq

def memOpen (_ : Mem) (_ : List FdtScanNode) (x : MemState) : Except ScanFault MemState :=
  .ok { x with scan := ⟨false, 0, 0⟩ }

def memProp (m : Mem) (prop : FdtScanProp) (x : MemState) : Except ScanFault MemState :=
  if strcmp m prop.name (ascii "device_type".toList) = 0 ∧
      strcmp m prop.value (ascii "memory".toList) = 0 then
    .ok { x with scan := { x.scan with memory := true } }
  else if strcmp m prop.name (ascii "reg".toList) = 0 then
    .ok { x with scan := { x.scan with regValue := prop.value, regLen := prop.len } }
  else .ok x

/-- The loop of `mem_done` over the entries from `value` up to `stop`, with
`node->parent`, if it is not `NULL`.  `self` is the address of `mem_done`. -/
def memLoop (m : Mem) (self : Word) (parent : Option FdtScanNode) (stop : Word) :
    ℕ → Word → Word → Except ScanFault (Word × Word)
  | 0, _, _ => .error .outOfFuel
  | fuel + 1, value, gMemSize =>
    if 0 < (stop - value).toInt / 4 then
      match parent with
      | none => .error .nullNode
      | some p =>
        let (value, base) := fdtGetAddress m p value
        let (value, size) := fdtGetSize m p value
        memLoop m self parent stop fuel value
          (if base ≤ self ∧ self ≤ base + size then size else gMemSize)
    else .ok (value, gMemSize)

/-- `scan->reg_value + scan->reg_len / 4`, with an `int` quotient. -/
def MemScan.regEnd (scan : MemScan) : Word :=
  scan.regValue + 4 * (scan.regLen.sdiv 4).signExtend 64

def memDone (self : Word) (fuel : ℕ) (m : Mem) (node : List FdtScanNode) (x : MemState) :
    Except ScanFault MemState := do
  if x.scan.memory then
    if x.scan.regValue ≠ 0 ∧ x.scan.regLen.srem 4 = 0 then
      let (value, gMemSize) ← memLoop m self node.tail.head? x.scan.regEnd fuel x.scan.regValue
        x.gMemSize
      if x.scan.regEnd = value then .ok { x with gMemSize := gMemSize } else .error .callback
    else .error .callback
  else .ok x

def memCb (self : Word) (fuel : ℕ) : FdtCb MemState :=
  ⟨some memOpen, memProp, some (memDone self fuel), none⟩

def queryMem (self : Word) (fuel : ℕ) (fdt : Word) : Scan MemState Unit := do
  modify fun s => { s with extra := { s.extra with gMemSize := 0 } }
  fdtScan (memCb self fuel) fuel fdt
  if 0 < (← get).extra.gMemSize then pure () else throw .noMemory

def deviceTypeKey : List Byte := ascii "device_type".toList
def memoryType : List Byte := ascii "memory".toList
def regKey : List Byte := ascii "reg".toList

end ProxyKernel.Fdt
