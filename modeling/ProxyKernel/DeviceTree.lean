import ProxyKernel.Symbols
import ProxyKernel.Base.Effect

/-!
`spike_interface/dts_parse.c`.  The records that `fdt_scan_helper` keeps on the
stack are values: `node` is the record of the node that is being scanned,
followed by those of its ancestors, and the empty list for `NULL`.  Each call
returns the record of its node as it has left it, since the caller goes on to
use the same record for the next child.  The callbacks read memory and change
only what `extra` points to.
-/

namespace ProxyKernel.Fdt
open ByteMem Effect

def FDT_MAGIC : BitVec 32 := 0xd00dfeed
def FDT_VERSION : BitVec 32 := 17
def FDT_BEGIN_NODE : BitVec 32 := 1
def FDT_END_NODE : BitVec 32 := 2
def FDT_PROP : BitVec 32 := 3
def FDT_NOP : BitVec 32 := 4
def FDT_END : BitVec 32 := 9

def bswap (x : BitVec 32) : BitVec 32 :=
  let y := (x &&& 0x00FF00FF) <<< 8 ||| (x &&& 0xFF00FF00) >>> 8
  (y &&& 0x0000FFFF) <<< 16 ||| (y &&& 0xFFFF0000) >>> 16

/-- `bswap(lex[i])`. -/
def cell (m : Mem) (lex : Word) (i : ℕ) : BitVec 32 :=
  bswap (load32 m (lex + BitVec.ofNat 64 (4 * i)))

structure FdtScanNode where
  name : Word
  addressCells : BitVec 32
  sizeCells : BitVec 32
  deriving DecidableEq

structure FdtScanProp where
  node : List FdtScanNode
  name : Word
  value : Word
  len : BitVec 32
  deriving DecidableEq

/-- A call of one of the callbacks, with what it is given. -/
inductive Call
  | nodeOpen (node : List FdtScanNode)
  | nodeProp (prop : FdtScanProp)
  | nodeDone (node : List FdtScanNode)
  deriving DecidableEq

/-- Why a scan does not return: an assertion of the scan itself, of a callback or
of the function that scans, a `NULL` that a callback follows, or a loop that goes
around more often than the fuel allows. -/
inductive ScanFault
  | propAfterChild | callback | noMemory | nullNode | outOfFuel
  deriving DecidableEq

structure FdtCb (σ : Type) where
  onOpen : Option (Mem → List FdtScanNode → σ → Except ScanFault σ)
  onProp : Mem → FdtScanProp → σ → Except ScanFault σ
  onDone : Option (Mem → List FdtScanNode → σ → Except ScanFault σ)
  onClose : Option (Mem → List FdtScanNode → σ → Except ScanFault (BitVec 32 × σ))

structure ScanState (σ : Type) where
  mem : Mem
  extra : σ

abbrev Scan (σ : Type) := EStateM ScanFault (ScanState σ)

variable {σ : Type}

/-- What a call makes of `extra`; a missing callback leaves it alone. -/
def FdtCb.apply (cb : FdtCb σ) (m : Mem) (extra : σ) : Call → Except ScanFault σ
  | .nodeOpen node => match cb.onOpen with
    | some f => f m node extra
    | none => .ok extra
  | .nodeProp prop => cb.onProp m prop extra
  | .nodeDone node => match cb.onDone with
    | some f => f m node extra
    | none => .ok extra

def FdtCb.issue (cb : FdtCb σ) (c : Call) : Scan σ Unit := fun s =>
  match cb.apply s.mem s.extra c with
  | .ok extra => .ok () { s with extra := extra }
  | .error e => .error e s

def FdtCb.issueAll (cb : FdtCb σ) : List Call → Scan σ Unit
  | [] => pure ()
  | c :: cs => do
    cb.issue c
    cb.issueAll cs

/-- `if (!last && node && cb->done) cb->done(node, cb->extra)`. -/
def FdtCb.doneUnless (cb : FdtCb σ) (last : Bool) (node : List FdtScanNode) : Scan σ Unit :=
  if last ∨ node = [] then pure () else cb.issue (.nodeDone node)

/-- The close callback, and the node from `lex` to `lexNext` turned into padding
if it returns `-1`. -/
def FdtCb.closeNode (cb : FdtCb σ) (lex lexNext : Word) (node : List FdtScanNode) :
    Scan σ Unit := fun s =>
  match cb.onClose with
  | none => .ok () s
  | some f => match f s.mem node s.extra with
    | .error e => .error e s
    | .ok (r, extra) =>
      let nops := List.replicate ((lexNext - lex).toNat / 4) (toLE 4 (bswap FDT_NOP).toNat)
      .ok () ⟨if r = -1 then write s.mem lex nops.flatten else s.mem, extra⟩

def setCells (m : Mem) (name lex : Word) : List FdtScanNode → List FdtScanNode
  | [] => []
  | n :: up =>
    let n := if strcmp m name (ascii "#address-cells".toList) = 0 then
      { n with addressCells := cell m lex 3 } else n
    let n := if strcmp m name (ascii "#size-cells".toList) = 0 then
      { n with sizeCells := cell m lex 3 } else n
    n :: up

def propAt (m : Mem) (strings lex : Word) (node : List FdtScanNode) : FdtScanProp :=
  let name := strings + (cell m lex 2).setWidth 64
  { node := setCells m name lex node
    name := name
    value := lex + 12
    len := cell m lex 1 }

/-- `lex + 3 + (prop.len + 3) / 4`, with an `int` quotient. -/
def afterProp (lex : Word) (len : BitVec 32) : Word :=
  lex + 4 * (3 + (len + 3).sdiv 4).signExtend 64

def freshChild : FdtScanNode := ⟨0, 2, 1⟩

/-- The loop, with the records of the node and of its next child.  It goes once
around for each unit of fuel. -/
def fdtScanHelper (cb : FdtCb σ) (strings : Word) :
    ℕ → Word → List FdtScanNode → FdtScanNode → Bool → Scan σ (Word × List FdtScanNode)
  | 0, _, _, _, _ => throw .outOfFuel
  | fuel + 1, lex, node, child, last => do
    let m := (← get).mem
    if cell m lex 0 = FDT_NOP then fdtScanHelper cb strings fuel (lex + 4) node child last
    else if cell m lex 0 = FDT_PROP then
      if last then throw .propAfterChild
      else do
        let prop := propAt m strings lex node
        cb.issue (.nodeProp prop)
        fdtScanHelper cb strings fuel (afterProp lex prop.len) prop.node child last
    else if cell m lex 0 = FDT_BEGIN_NODE then do
      cb.doneUnless last node
      let child := { child with name := lex + 4 }
      cb.issue (.nodeOpen (child :: node))
      let r ← fdtScanHelper cb strings fuel
        (lex + 4 * BitVec.ofNat 64 (2 + (strAt m child.name).length / 4)) (child :: node)
        freshChild false
      cb.closeNode lex r.1 r.2
      fdtScanHelper cb strings fuel r.1 node (r.2.headD child) true
    else if cell m lex 0 = FDT_END_NODE then do
      cb.doneUnless last node
      pure (lex + 4, node)
    else do
      cb.doneUnless last node
      pure (lex, node)

def Accepts (m : Mem) (fdt : Word) : Prop :=
  cell m fdt 0 = FDT_MAGIC ∧ cell m fdt 6 ≤ FDT_VERSION

instance (m : Mem) (fdt : Word) : Decidable (Accepts m fdt) :=
  inferInstanceAs (Decidable (_ ∧ _))

def stringsAt (m : Mem) (fdt : Word) : Word := fdt + (cell m fdt 3).setWidth 64
def structAt (m : Mem) (fdt : Word) : Word := fdt + (cell m fdt 2).setWidth 64

def fdtScan (cb : FdtCb σ) (fuel : ℕ) (fdt : Word) : Scan σ Unit := do
  let m := (← get).mem
  if Accepts m fdt then
    let _ ← fdtScanHelper cb (stringsAt m fdt) fuel (structAt m fdt) [] freshChild false
    pure ()
  else pure ()

/-- The loop of `fdt_get_address` and of `fdt_get_size`, for the cells that are
left: the pointer behind them, and the number. -/
def getCells (m : Mem) : ℕ → Word → Word → Word × Word
  | 0, value, result => (value, result)
  | cells + 1, value, result =>
    getCells m cells (value + 4) (result <<< 32 + (cell m value 0).setWidth 64)

def fdtGetAddress (m : Mem) (node : FdtScanNode) (value : Word) : Word × Word :=
  getCells m node.addressCells.toInt.toNat value 0

def fdtGetSize (m : Mem) (node : FdtScanNode) (value : Word) : Word × Word :=
  getCells m node.sizeCells.toInt.toNat value 0

theorem bswap_beBytes (v : BitVec 32) : bswap (BitVec.ofNat 32 (leNat (beBytes v))) = v := by
  apply BitVec.eq_of_getLsbD_eq
  intro i hi
  interval_cases i <;>
    simp [bswap, beBytes, getElem_leNat, testBit_leNat_cons, -Nat.testBit_zero]

theorem cell_of_stored {m : Mem} {lex : Word} {i : ℕ} {v : BitVec 32}
    (h : Stored m (lex + BitVec.ofNat 64 (4 * i)) (beBytes v)) : cell m lex i = v := by
  have hread : ByteMem.read m (lex + BitVec.ofNat 64 (4 * i)) 4 = beBytes v := h
  rw [cell, load32, hread, bswap_beBytes]

/-- The words that all end the loop in the same way, as `FDT_END` does. -/
def IsOther (tok : BitVec 32) : Prop :=
  tok ≠ FDT_NOP ∧ tok ≠ FDT_PROP ∧ tok ≠ FDT_BEGIN_NODE ∧ tok ≠ FDT_END_NODE

theorem token_cases (tok : BitVec 32) : tok = FDT_NOP ∨ tok = FDT_PROP ∨ tok = FDT_BEGIN_NODE ∨
    tok = FDT_END_NODE ∨ IsOther tok := by
  unfold IsOther
  tauto

variable {cb : FdtCb σ} {strings lex : Word} {fuel : ℕ} {node : List FdtScanNode}
  {child : FdtScanNode} {last : Bool} {s : ScanState σ}

theorem fdtScanHelper_nop (h : cell s.mem lex 0 = FDT_NOP) :
    fdtScanHelper cb strings (fuel + 1) lex node child last s =
      fdtScanHelper cb strings fuel (lex + 4) node child last s := by
  rw [fdtScanHelper, get_bind, if_pos h]

theorem fdtScanHelper_prop (h : cell s.mem lex 0 = FDT_PROP) :
    fdtScanHelper cb strings (fuel + 1) lex node child false s =
      (cb.issue (.nodeProp (propAt s.mem strings lex node)) >>= fun _ =>
        fdtScanHelper cb strings fuel (afterProp lex (propAt s.mem strings lex node).len)
          (propAt s.mem strings lex node).node child false) s := by
  rw [fdtScanHelper, get_bind, if_neg (by rw [h]; decide), if_pos h]
  rfl

theorem fdtScanHelper_prop_true (h : cell s.mem lex 0 = FDT_PROP) :
    fdtScanHelper cb strings (fuel + 1) lex node child true s = .error .propAfterChild s := by
  rw [fdtScanHelper, get_bind, if_neg (by rw [h]; decide), if_pos h]
  rfl

theorem FdtCb.closeNode_eq (hclose : cb.onClose = none) (lex lexNext : Word)
    (node : List FdtScanNode) : cb.closeNode lex lexNext node = pure () := by
  funext s
  rw [FdtCb.closeNode, hclose]
  rfl

theorem fdtScanHelper_begin (h : cell s.mem lex 0 = FDT_BEGIN_NODE) :
    fdtScanHelper cb strings (fuel + 1) lex node child last s =
      (cb.doneUnless last node >>= fun _ =>
        cb.issue (.nodeOpen ({ child with name := lex + 4 } :: node)) >>= fun _ =>
        fdtScanHelper cb strings fuel
          (lex + 4 * BitVec.ofNat 64 (2 + (strAt s.mem (lex + 4)).length / 4))
          ({ child with name := lex + 4 } :: node) freshChild false >>= fun r =>
        cb.closeNode lex r.1 r.2 >>= fun _ =>
        fdtScanHelper cb strings fuel r.1 node (r.2.headD { child with name := lex + 4 }) true)
        s := by
  rw [fdtScanHelper, get_bind, if_neg (by rw [h]; decide), if_neg (by rw [h]; decide), if_pos h]

theorem fdtScanHelper_endNode (h : cell s.mem lex 0 = FDT_END_NODE) :
    fdtScanHelper cb strings (fuel + 1) lex node child last s =
      (cb.doneUnless last node >>= fun _ => pure (lex + 4, node)) s := by
  rw [fdtScanHelper, get_bind, if_neg (by rw [h]; decide), if_neg (by rw [h]; decide),
    if_neg (by rw [h]; decide), if_pos h]

theorem fdtScanHelper_other (h : IsOther (cell s.mem lex 0)) :
    fdtScanHelper cb strings (fuel + 1) lex node child last s =
      (cb.doneUnless last node >>= fun _ => pure (lex, node)) s := by
  rw [fdtScanHelper, get_bind, if_neg h.1, if_neg h.2.1, if_neg h.2.2.1, if_neg h.2.2.2]

end ProxyKernel.Fdt
