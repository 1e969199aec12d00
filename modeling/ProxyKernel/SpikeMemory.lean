import ProxyKernel.BootScan
import ProxyKernel.DeviceTreeCells

namespace ProxyKernel.Fdt
open ByteMem Effect

variable {m : Mem}

theorem cell_eq_beNat {a : Word} {bs : List Byte} (h : Stored m a bs) (hlen : bs.length = 4) :
    cell m a 0 = BitVec.ofNat 32 (beNat bs) := by
  apply cell_zero
  rw [beBytes_beNat hlen]
  exact h

theorem cell_word {value : Word} {bs : List Byte} (h : Stored m value bs) (hlen : bs.length = 4) :
    (cell m value 0).setWidth 64 = BitVec.ofNat 64 (beNat bs) := by
  have hlt := beNat_lt bs
  rw [hlen] at hlt
  rw [cell_eq_beNat h hlen]
  apply BitVec.eq_of_toNat_eq
  simp only [BitVec.toNat_setWidth, BitVec.toNat_ofNat]
  omega

theorem ofNat_beNat_append (bs : List Byte) {ds : List Byte} {n : ℕ} (hlen : ds.length = 4 * n) :
    BitVec.ofNat 64 (beNat (bs ++ ds)) =
      BitVec.ofNat 64 (beNat bs) * BitVec.ofNat 64 (2 ^ (32 * n)) + BitVec.ofNat 64 (beNat ds) := by
  have hbits : 256 ^ (4 * n) = 2 ^ (32 * n) := by
    rw [show 256 = 2 ^ 8 from rfl, ← pow_mul]
    congr 1
    ring
  rw [beNat_append, hlen, hbits, BitVec.ofNat_add, BitVec.ofNat_mul]

theorem getCells_stored {n : ℕ} {value : Word} {bs : List Byte} (h : Stored m value bs)
    (hlen : bs.length = 4 * n) (r : Word) :
    getCells m n value r = (value + BitVec.ofNat 64 (4 * n),
      r * BitVec.ofNat 64 (2 ^ (32 * n)) + BitVec.ofNat 64 (beNat bs)) := by
  induction n generalizing value bs r with
  | zero =>
    obtain rfl := List.eq_nil_of_length_eq_zero hlen
    simp [getCells, beNat]
  | succ n ih =>
    have htake : (bs.take 4).length = 4 := by
      rw [List.length_take]
      omega
    have hdrop : (bs.drop 4).length = 4 * n := by
      rw [List.length_drop]
      omega
    rw [← List.take_append_drop 4 bs] at h ⊢
    obtain ⟨hfirst, hrest⟩ := stored_append.mp h
    rw [htake] at hrest
    change Stored m (value + 4) (bs.drop 4) at hrest
    have hshift : r <<< 32 = r * BitVec.ofNat 64 (2 ^ 32) := by
      apply BitVec.eq_of_toNat_eq
      rw [BitVec.toNat_shiftLeft, BitVec.toNat_mul, BitVec.toNat_ofNat, Nat.shiftLeft_eq]
      rfl
    have hstep : value + 4 + BitVec.ofNat 64 (4 * n) = value + BitVec.ofNat 64 (4 * (n + 1)) := by
      rw [Nat.mul_succ, BitVec.ofNat_add, add_assoc, add_comm (4 : Word)]
      rfl
    have hpow : BitVec.ofNat 64 (2 ^ (32 * (n + 1))) =
        BitVec.ofNat 64 (2 ^ 32) * BitVec.ofNat 64 (2 ^ (32 * n)) := by
      rw [← BitVec.ofNat_mul, ← pow_add]
      congr 2
      ring
    have hring (x y z w : Word) : (r * x + y) * z + w = r * (x * z) + (y * z + w) := by ring
    rw [getCells, ih hrest hdrop, cell_word hfirst htake, hshift, ofNat_beNat_append _ hdrop, hstep,
      hpow, hring]

structure Bank where
  base : ℕ
  size : ℕ
  deriving DecidableEq

def Cells.Small (c : Cells) : Prop := (c.address = 1 ∨ c.address = 2) ∧ (c.size = 1 ∨ c.size = 2)

instance (c : Cells) : Decidable c.Small := inferInstanceAs (Decidable (_ ∧ _))

def Cells.width (c : Cells) : ℕ := 4 * c.address.toNat + 4 * c.size.toNat

def banksIn (c : Cells) : ℕ → List Byte → List Bank
  | 0, _ => []
  | n + 1, bs =>
    ⟨beNat (bs.take (4 * c.address.toNat)),
      beNat ((bs.drop (4 * c.address.toNat)).take (4 * c.size.toNat))⟩ ::
      banksIn c n (bs.drop c.width)

/-- The test of `mem_done`, with its 64-bit sum. -/
def Bank.Accepted (self : Word) (b : Bank) : Prop :=
  b.base ≤ self.toNat ∧ self.toNat ≤ (b.base + b.size) % 2 ^ 64

instance (self : Word) (b : Bank) : Decidable (b.Accepted self) :=
  inferInstanceAs (Decidable (_ ∧ _))

/-- `g_mem_size` after an entry. -/
def Bank.update (self g : Word) (b : Bank) : Word :=
  if b.Accepted self then BitVec.ofNat 64 b.size else g

theorem Cells.Small.address_count {c : Cells} (h : c.Small) : c.address.toInt.toNat = c.address.toNat := by
  rcases h.1 with h | h <;> rw [h] <;> rfl

theorem Cells.Small.size_count {c : Cells} (h : c.Small) : c.size.toInt.toNat = c.size.toNat := by
  rcases h.2 with h | h <;> rw [h] <;> rfl

theorem Cells.Small.four_le_width {c : Cells} (h : c.Small) : 4 ≤ c.width := by
  have hone : 1 ≤ c.address.toNat := by
    rcases h.1 with h | h <;> rw [h] <;> decide
  unfold Cells.width
  omega

theorem Cells.Small.le_two {c : Cells} (h : c.Small) : c.address.toNat ≤ 2 ∧ c.size.toNat ≤ 2 := by
  obtain ⟨ha | ha, hs | hs⟩ := h <;> rw [ha, hs] <;> decide

/-- A number of one or two cells is not cut off. -/
theorem beNat_lt_two_cells {bs : List Byte} (h : bs.length ≤ 8) : beNat bs < 2 ^ 64 :=
  (beNat_lt bs).trans_le (Nat.pow_le_pow_right (by decide) h)

theorem getEntry {c : Cells} (hc : c.Small) {p : FdtScanNode} (hp : p.cells = c) {value : Word}
    {bs : List Byte} (h : Stored m value bs) (hlen : c.width ≤ bs.length) :
    fdtGetAddress m p value = (value + BitVec.ofNat 64 (4 * c.address.toNat),
        BitVec.ofNat 64 (beNat (bs.take (4 * c.address.toNat)))) ∧
      fdtGetSize m p (value + BitVec.ofNat 64 (4 * c.address.toNat)) =
        (value + BitVec.ofNat 64 c.width,
          BitVec.ofNat 64 (beNat ((bs.drop (4 * c.address.toNat)).take (4 * c.size.toNat)))) ∧
      Stored m (value + BitVec.ofNat 64 c.width) (bs.drop c.width) := by
  subst hp
  unfold Cells.width at hlen ⊢
  have hfirst : (bs.take (4 * p.cells.address.toNat)).length = 4 * p.cells.address.toNat := by
    rw [List.length_take]
    omega
  have hsecond : ((bs.drop (4 * p.cells.address.toNat)).take (4 * p.cells.size.toNat)).length =
      4 * p.cells.size.toNat := by
    rw [List.length_take, List.length_drop]
    omega
  rw [← List.take_append_drop (4 * p.cells.address.toNat) bs] at h
  obtain ⟨haddr, hrest⟩ := stored_append.mp h
  rw [hfirst] at hrest
  rw [← List.take_append_drop (4 * p.cells.size.toNat) (bs.drop (4 * p.cells.address.toNat))] at hrest
  obtain ⟨hsize, hrest⟩ := stored_append.mp hrest
  rw [hsecond, List.drop_drop, add_ofNat_add] at hrest
  have hzero (x y : Word) : 0 * x + y = y := by ring
  refine ⟨?_, ?_, hrest⟩
  · rw [fdtGetAddress, show p.addressCells.toInt.toNat = _ from hc.address_count,
      getCells_stored haddr hfirst, hzero]
  · rw [fdtGetSize, show p.sizeCells.toInt.toNat = _ from hc.size_count,
      getCells_stored hsize hsecond, hzero, add_ofNat_add]

theorem accepted_iff (self : Word) {base size : ℕ} (hbase : base < 2 ^ 64) :
    (BitVec.ofNat 64 base ≤ self ∧ self ≤ BitVec.ofNat 64 base + BitVec.ofNat 64 size) ↔
      Bank.Accepted self ⟨base, size⟩ := by
  rw [Bank.Accepted, ← BitVec.ofNat_add, BitVec.le_def, BitVec.le_def, BitVec.toNat_ofNat,
    BitVec.toNat_ofNat, Nat.mod_eq_of_lt hbase]

theorem toInt_ofNat_of_lt {n : ℕ} (hn : n < 2 ^ 31) : (BitVec.ofNat 64 n).toInt = n := by
  have hnat : (BitVec.ofNat 64 n).toNat = n := by
    rw [BitVec.toNat_ofNat, Nat.mod_eq_of_lt (by omega)]
  rw [BitVec.toInt_eq_toNat_of_lt (by omega), hnat]

theorem memLoop_run {c : Cells} (hc : c.Small) {p : FdtScanNode} (hp : p.cells = c) (self : Word)
    {value : Word} {bs : List Byte} {n fuel : ℕ} (h : Stored m value bs)
    (hlen : bs.length = n * c.width) (hsmall : bs.length < 2 ^ 31) (hfuel : n < fuel) (g : Word) :
    memLoop m self (some p) (value + BitVec.ofNat 64 bs.length) fuel value g =
      .ok (value + BitVec.ofNat 64 bs.length, (banksIn c n bs).foldl (Bank.update self) g) := by
  induction n generalizing value bs fuel g with
  | zero =>
    obtain ⟨fuel, rfl⟩ := Nat.exists_eq_succ_of_ne_zero (by omega : fuel ≠ 0)
    have hnil : bs.length = 0 := by omega
    rw [hnil]
    simp [memLoop, banksIn]
  | succ n ih =>
    obtain ⟨fuel, rfl⟩ := Nat.exists_eq_succ_of_ne_zero (by omega : fuel ≠ 0)
    rw [Nat.succ_mul] at hlen
    have hwidth := hc.four_le_width
    obtain ⟨haddr, hsize, hrest⟩ := getEntry hc hp h (by omega)
    have hgo : 0 < (value + BitVec.ofNat 64 bs.length - value).toInt / 4 := by
      rw [add_sub_cancel_left, toInt_ofNat_of_lt hsmall]
      omega
    have hlen' : (bs.drop c.width).length = n * c.width := by
      rw [List.length_drop]
      omega
    have hstop : value + BitVec.ofNat 64 bs.length =
        value + BitVec.ofNat 64 c.width + BitVec.ofNat 64 (bs.drop c.width).length := by
      rw [add_ofNat_add, hlen', hlen, Nat.add_comm]
    have hbase : beNat (bs.take (4 * c.address.toNat)) < 2 ^ 64 := by
      apply beNat_lt_two_cells
      have := hc.le_two.1
      rw [List.length_take]
      omega
    rw [memLoop, if_pos hgo]
    simp only [haddr, hsize, accepted_iff self hbase]
    rw [hstop, ih hrest hlen' (by omega) (by omega)]
    rfl

def FlatProp.Typed (p : FlatProp) : Prop :=
  p.name = deviceTypeKey → ∃ s, 0 ∉ s ∧ p.value = s ++ [0]

def IsMemory (ps : List FlatProp) : Prop :=
  ∃ p ∈ ps, p.name = deviceTypeKey ∧ p.value = memoryType ++ [0]

instance (ps : List FlatProp) : Decidable (IsMemory ps) :=
  inferInstanceAs (Decidable (∃ p ∈ ps, _))

def regProp : List FlatProp → Option FlatProp
  | [] => none
  | p :: ps => (regProp ps).or (if p.name = regKey then some p else none)

/-- The entries of a memory node below a node with the counts `c`. -/
def nodeBanks (c : Cells) (ps : List FlatProp) : List Bank :=
  match regProp ps with
  | some p => if IsMemory ps then banksIn c (p.value.length / c.width) p.value else []
  | none => []

def Flat.banks (c : Cells) : Flat → List Bank
  | stop _ => []
  | node _ _ _ props _ rest => nodeBanks c props ++ rest.banks c

structure RegOf (m : Mem) (p : FlatProp) (scan : MemScan) : Prop where
  len : scan.regLen = BitVec.ofNat 32 p.value.length
  stored : Stored m scan.regValue p.value
  ne_zero : scan.regValue ≠ 0

theorem regEnd_eq {p : FlatProp} {scan : MemScan} (h : RegOf m p scan)
    (hsmall : p.value.length < 2 ^ 31) (hfour : p.value.length % 4 = 0) :
    scan.regEnd = scan.regValue + BitVec.ofNat 64 p.value.length := by
  rw [MemScan.regEnd, h.len, sdiv_four hsmall,
    BitVec.signExtend_eq_setWidth_of_msb_false (msb_ofNat_32 (by omega))]
  congr 1
  bv_omega

theorem srem_four {n : ℕ} (hn : n < 2 ^ 31) (hfour : n % 4 = 0) :
    (BitVec.ofNat 32 n).srem 4 = 0 := by
  have hint : (BitVec.ofNat 32 n).toInt = n := by
    rw [BitVec.toInt_eq_toNat_of_msb (msb_ofNat_32 hn), BitVec.toNat_ofNat,
      Nat.mod_eq_of_lt (by omega)]
  apply BitVec.eq_of_toInt_eq
  rw [BitVec.toInt_srem, hint]
  change (n : ℤ).tmod 4 = 0
  rw [Int.tmod_eq_emod_of_nonneg (Int.natCast_nonneg n)]
  omega

theorem memDone_memory {c : Cells} (hc : c.Small) (self : Word) {fuel : ℕ} {p : FlatProp}
    {x : MemState} {node : List FdtScanNode} (hmem : x.scan.memory = true)
    (hreg : RegOf m p x.scan) (hwhole : p.value.length % c.width = 0)
    (hsmall : p.value.length < 2 ^ 31) (hfuel : p.value.length < fuel)
    (hup : node.tail.head?.map FdtScanNode.cells = some c) :
    memDone self fuel m node x = .ok { x with gMemSize :=
      (banksIn c (p.value.length / c.width) p.value).foldl (Bank.update self) x.gMemSize } := by
  obtain ⟨n, hn, hcells⟩ := Option.map_eq_some_iff.mp hup
  have hwidth := hc.four_le_width
  have hfour : p.value.length % 4 = 0 := by
    have hdvd : 4 ∣ c.width := ⟨c.address.toNat + c.size.toNat, by rw [Cells.width]; ring⟩
    exact Nat.mod_eq_zero_of_dvd (hdvd.trans (Nat.dvd_of_mod_eq_zero hwhole))
  have hcount : p.value.length = p.value.length / c.width * c.width :=
    (Nat.div_mul_cancel (Nat.dvd_of_mod_eq_zero hwhole)).symm
  have hlt : p.value.length / c.width < fuel := (Nat.div_le_self _ _).trans_lt hfuel
  have hloop := memLoop_run hc hcells self hreg.stored hcount hsmall hlt x.gMemSize
  have hrem : x.scan.regLen.srem 4 = 0 := by
    rw [hreg.len]
    exact srem_four hsmall hfour
  rw [memDone, if_pos hmem, if_pos ⟨hreg.ne_zero, hrem⟩, hn, regEnd_eq hreg hsmall hfour, hloop]
  exact if_pos rfl

def sees (m : Mem) (c : Call) : Event × Option Cells := (observe m c, c.parentCells)

theorem issueAll_append_of_ok {σ : Type} {cb : FdtCb σ} {cs ds : List Call} {s s' : ScanState σ}
    (h : cb.issueAll cs s = .ok () s') : cb.issueAll (cs ++ ds) s = cb.issueAll ds s' := by
  rw [issueAll_append, bind_of_ok h]

theorem issueAll_singleton_of_apply {σ : Type} {cb : FdtCb σ} {c : Call} {x x' : σ}
    (h : cb.apply m x c = .ok x') : cb.issueAll [c] ⟨m, x⟩ = .ok () ⟨m, x'⟩ := by
  rw [issueAll_singleton, FdtCb.issue, h]

variable {self : Word} {fuel : ℕ}

theorem apply_open {path : List (List Byte)} {c : Call} (h : observe m c = .nodeOpen path)
    (x : MemState) :
    (memCb self fuel).apply m x c = .ok { x with scan := ⟨false, 0, 0⟩ } := by
  cases c with
  | nodeOpen node => rfl
  | nodeProp prop => cases h
  | nodeDone node => cases h

theorem apply_prop {path : List (List Byte)} {name value : List Byte} {n : ℕ} {addr : Word}
    {c : Call} (h : observe m c = .nodeProp path name n addr value) (x : MemState) :
    (memCb self fuel).apply m x c =
      if name = deviceTypeKey ∧ CString m addr memoryType then
        .ok { x with scan := { x.scan with memory := true } }
      else if name = regKey then
        .ok { x with scan := { x.scan with regValue := addr, regLen := BitVec.ofNat 32 n } }
      else .ok x := by
  cases c with
  | nodeOpen node => cases h
  | nodeProp prop =>
    injection h with _ hname hlen haddr _
    have htype : strcmp m prop.name (ascii "device_type".toList) = 0 ↔ name = deviceTypeKey := by
      rw [strcmp_eq_zero_iff_strAt (by decide) (by decide), hname]
      rfl
    have hreg : strcmp m prop.name (ascii "reg".toList) = 0 ↔ name = regKey := by
      rw [strcmp_eq_zero_iff_strAt (by decide) (by decide), hname]
      rfl
    have hmem : strcmp m addr (ascii "memory".toList) = 0 ↔ CString m addr memoryType :=
      strcmp_eq_zero_iff_cString (by decide)
    have hint : prop.len = BitVec.ofNat 32 n := by
      rw [← BitVec.ofInt_toInt (x := prop.len), hlen, BitVec.ofInt_natCast]
    change memProp m prop x = _
    simp only [memProp, htype, hreg, hmem, hint, haddr]
  | nodeDone node => cases h

theorem apply_done_of_not_memory {path : List (List Byte)} {c : Call}
    (h : observe m c = .nodeDone path) {x : MemState} (hx : x.scan.memory = false) :
    (memCb self fuel).apply m x c = .ok x := by
  cases c with
  | nodeOpen node => cases h
  | nodeProp prop => cases h
  | nodeDone node =>
    change memDone self fuel m node x = .ok x
    rw [memDone, hx]
    rfl

theorem isMemory_cons (p : FlatProp) (ps : List FlatProp) :
    IsMemory (p :: ps) ↔ (p.name = deviceTypeKey ∧ p.value = memoryType ++ [0]) ∨ IsMemory ps :=
  List.exists_mem_cons_iff _ _ _

/-- For a string, the comparison with `memory` is that of the value. -/
theorem memoryType_iff {p : FlatProp} {addr : Word} (hstored : Stored m addr p.value)
    (htyped : p.Typed) : (p.name = deviceTypeKey ∧ CString m addr memoryType) ↔
      p.name = deviceTypeKey ∧ p.value = memoryType ++ [0] := by
  refine and_congr_right fun hname => ?_
  obtain ⟨s, hs, hvalue⟩ := htyped hname
  rw [hvalue] at hstored ⊢
  have hstr := cString_of_stored hstored hs
  rw [List.append_left_inj]
  constructor
  · intro h
    rw [← strAt_eq hstr, strAt_eq h]
  · rintro rfl
    exact hstr

/-- A place in a block that does not reach the end of the address space is not `NULL`. -/
theorem add_ofNat_ne_zero {a : Word} {k n : ℕ} (hk : 0 < k) (hkn : k ≤ n)
    (hspace : a.toNat + n < 2 ^ 64) : a + BitVec.ofNat 64 k ≠ 0 := by
  intro h
  have htoNat := congrArg BitVec.toNat h
  rw [toNat_add_ofNat (by omega)] at htoNat
  have hzero : (0 : Word).toNat = 0 := rfl
  omega

theorem toNat_add_lt {a : Word} {k n : ℕ} (hspace : a.toNat + (k + n) < 2 ^ 64) :
    (a + BitVec.ofNat 64 k).toNat + n < 2 ^ 64 := by
  rw [toNat_add_ofNat (by omega)]
  omega

theorem first_prop {p : FlatProp} {ps : List FlatProp} {a : Word}
    (hstored : Stored m a (propsBytes (p :: ps)))
    (hspace : a.toNat + (propsBytes (p :: ps)).length < 2 ^ 64) :
    let addr := a + BitVec.ofNat 64 (4 * p.nops + 12)
    let next := a + BitVec.ofNat 64 (nopBytes p.nops ++ p.token).length
    (Stored m addr p.value ∧ addr ≠ 0) ∧
      Stored m next (propsBytes ps) ∧ next.toNat + (propsBytes ps).length < 2 ^ 64 := by
  intro addr next
  have hcons : propsBytes (p :: ps) = (nopBytes p.nops ++ p.token) ++ propsBytes ps := rfl
  rw [hcons] at hstored hspace
  rw [List.length_append] at hspace
  obtain ⟨hfirst, hrest⟩ := stored_append.mp hstored
  obtain ⟨-, -, -, hvalue⟩ := token_cells (stored_append.mp hfirst).2
  have haddr : addr = a + BitVec.ofNat 64 (nopBytes p.nops).length + BitVec.ofNat 64 12 := by
    rw [nopBytes_length, add_ofNat_add]
  have hne : addr ≠ 0 := by
    refine add_ofNat_ne_zero (by omega) ?_ hspace
    rw [List.length_append, nopBytes_length, p.token_length]
    omega
  exact ⟨⟨haddr ▸ hvalue, hne⟩, hrest, toNat_add_lt hspace⟩

structure Recorded (m : Mem) (ps : List FlatProp) (old new : MemScan) : Prop where
  memory : new.memory = true ↔ old.memory = true ∨ IsMemory ps
  reg : ∀ p, regProp ps = some p → RegOf m p new
  keep : regProp ps = none → new.regValue = old.regValue ∧ new.regLen = old.regLen

theorem Recorded.nil (scan : MemScan) : Recorded m [] scan scan where
  memory := by simp [IsMemory]
  reg := nofun
  keep _ := ⟨rfl, rfl⟩

section Recorded
variable {p : FlatProp} {ps : List FlatProp} {old new : MemScan}

theorem regProp_cons_of_ne (h : p.name ≠ regKey) : regProp (p :: ps) = regProp ps := by
  rw [regProp, if_neg h, Option.or_none]

theorem Recorded.cons_type (hp : p.name = deviceTypeKey ∧ p.value = memoryType ++ [0])
    (h : Recorded m ps { old with memory := true } new) : Recorded m (p :: ps) old new := by
  have hname : p.name ≠ regKey := by
    rw [hp.1]
    decide
  refine ⟨?_, ?_, ?_⟩
  · rw [h.memory, isMemory_cons]
    simp [hp]
  · rw [regProp_cons_of_ne hname]
    exact h.reg
  · rw [regProp_cons_of_ne hname]
    exact h.keep

theorem Recorded.cons_other (hp : ¬ (p.name = deviceTypeKey ∧ p.value = memoryType ++ [0]))
    (hname : p.name ≠ regKey) (h : Recorded m ps old new) : Recorded m (p :: ps) old new := by
  refine ⟨?_, ?_, ?_⟩
  · rw [h.memory, isMemory_cons, or_iff_right hp]
  · rw [regProp_cons_of_ne hname]
    exact h.reg
  · rw [regProp_cons_of_ne hname]
    exact h.keep

/-- The last `reg` property counts. -/
theorem Recorded.cons_reg {addr : Word}
    (hp : ¬ (p.name = deviceTypeKey ∧ p.value = memoryType ++ [0])) (hname : p.name = regKey)
    (hstored : Stored m addr p.value) (hne : addr ≠ 0)
    (h : Recorded m ps
      { old with regValue := addr, regLen := BitVec.ofNat 32 p.value.length } new) :
    Recorded m (p :: ps) old new := by
  have hcons : regProp (p :: ps) = (regProp ps).or (some p) := by
    rw [regProp, if_pos hname]
  refine ⟨?_, ?_, ?_⟩
  · rw [h.memory, isMemory_cons, or_iff_right hp]
  · intro q hq
    rw [hcons] at hq
    cases hlast : regProp ps with
    | none =>
      obtain ⟨hv, hl⟩ := h.keep hlast
      rw [hlast] at hq
      injection hq with hq
      rw [← hq]
      exact ⟨hl, by rw [hv]; exact hstored, by rw [hv]; exact hne⟩
    | some r =>
      rw [hlast] at hq
      injection hq with hq
      exact h.reg q (hq ▸ hlast)
  · intro hnone
    rw [hcons, Option.or_eq_none_iff] at hnone
    cases hnone.2

end Recorded

theorem issue_props {path : List (List Byte)} {up : Option Cells} {ps : List FlatProp} {a : Word}
    {calls : List Call} (hstored : Stored m a (propsBytes ps)) (htyped : ∀ p ∈ ps, p.Typed)
    (hspace : a.toNat + (propsBytes ps).length < 2 ^ 64)
    (hcalls : calls.map (sees m) = (propEvents path a ps).zip (List.replicate ps.length up))
    (x : MemState) :
    ∃ scan, (memCb self fuel).issueAll calls ⟨m, x⟩ = .ok () ⟨m, { x with scan := scan }⟩ ∧
      Recorded m ps x.scan scan := by
  induction ps generalizing a calls x with
  | nil =>
    obtain rfl := List.map_eq_nil_iff.mp hcalls
    exact ⟨x.scan, rfl, .nil x.scan⟩
  | cons p ps ih =>
    obtain ⟨⟨hvalue, hne⟩, hrest, hspace'⟩ := first_prop hstored hspace
    obtain ⟨htp, htps⟩ := List.forall_mem_cons.mp htyped
    obtain ⟨c, calls', rfl, hc, hcalls'⟩ := List.map_eq_cons_iff.mp hcalls
    have hobs : observe m c = .nodeProp path p.name p.value.length
        (a + BitVec.ofNat 64 (4 * p.nops + 12)) p.value := congrArg Prod.fst hc
    have happly : (memCb self fuel).apply m x c = _ := apply_prop hobs x
    simp only [memoryType_iff hvalue htp] at happly
    have hstep {y : MemState} (h : (memCb self fuel).apply m x c = .ok y) :
        (memCb self fuel).issueAll (c :: calls') ⟨m, x⟩ =
          (memCb self fuel).issueAll calls' ⟨m, y⟩ :=
      issueAll_append_of_ok (issueAll_singleton_of_apply h)
    split_ifs at happly with hmem hname
    · obtain ⟨scan, hrun, hrec⟩ := ih hrest htps hspace' hcalls' _
      exact ⟨scan, (hstep happly).trans hrun, hrec.cons_type hmem⟩
    · obtain ⟨scan, hrun, hrec⟩ := ih hrest htps hspace' hcalls' _
      exact ⟨scan, (hstep happly).trans hrun, hrec.cons_reg hmem hname hvalue hne⟩
    · obtain ⟨scan, hrun, hrec⟩ := ih hrest htps hspace' hcalls' _
      exact ⟨scan, (hstep happly).trans hrun, hrec.cons_other hmem hname⟩

@[simp] theorem propEvents_length (path : List (List Byte)) (a : Word) (ps : List FlatProp) :
    (propEvents path a ps).length = ps.length := by
  induction ps generalizing a with
  | nil => rfl
  | cons p ps ih => rw [propEvents, List.length_cons, ih, List.length_cons]

theorem events_length (f : Flat) (path : List (List Byte)) (a : Word) (up : Option Cells)
    (c : Cells) : (f.events path a).length = (f.givenCells up c).length := by
  induction f generalizing path a up c with
  | stop nops => rfl
  | node nops name pad props children rest ihc ihr =>
    simp only [Flat.events, Flat.givenCells, List.length_append, List.length_singleton,
      List.length_replicate, propEvents_length]
    rw [ihc _ _ (some (cellsOver props c)) freshChild.cells, ihr _ _ up (cellsOver props c)]

def headSeen (path : List (List Byte)) (up : Option Cells) (a : Word) (ps : List FlatProp) :
    List (Event × Option Cells) :=
  [(.nodeOpen path, none)] ++ (propEvents path a ps).zip (List.replicate ps.length up) ++
    [(.nodeDone path, up)]

def Flat.seen (path : List (List Byte)) (up : Option Cells) (c : Cells) (a : Word) (f : Flat) :
    List (Event × Option Cells) :=
  (f.events path a).zip (f.givenCells up c)

theorem split_node {nops : ℕ} {name pad : List Byte} {props : List FlatProp} {children rest : Flat}
    {path : List (List Byte)} {up : Option Cells} {c : Cells} {a : Word} {calls : List Call}
    (hcalls : calls.map (sees m) =
      (Flat.node nops name pad props children rest).seen path up c a) :
    let props' := a + BitVec.ofNat 64 (nopBytes nops ++ beginToken name pad).length
    let children' := props' + BitVec.ofNat 64 (propsBytes props).length
    let rest' := children' + BitVec.ofNat 64 (children.bytes ++ beBytes FDT_END_NODE).length
    ∃ head ccalls rcalls, calls = head ++ ccalls ++ rcalls ∧
      head.map (sees m) = headSeen (name :: path) up props' props ∧
      ccalls.map (sees m) =
        children.seen (name :: path) (some (cellsOver props c)) freshChild.cells children' ∧
      rcalls.map (sees m) = rest.seen path up (cellsOver props c) rest' := by
  intro props' children' rest'
  rw [Flat.seen, Flat.events, Flat.givenCells, List.zip_append, List.zip_append, List.zip_append,
    List.zip_append] at hcalls
  · obtain ⟨front, rcalls, rfl, hfront, hrcalls⟩ := List.map_eq_append_iff.mp hcalls
    obtain ⟨head, ccalls, rfl, hhead, hccalls⟩ := List.map_eq_append_iff.mp hfront
    exact ⟨head, ccalls, rcalls, rfl, hhead, hccalls, hrcalls⟩
  · rfl
  · simp
  · simp
  · simp [events_length children _ _ (some (cellsOver props c)) freshChild.cells]

theorem mem_of_regProp {ps : List FlatProp} {p : FlatProp} (h : regProp ps = some p) : p ∈ ps := by
  induction ps with
  | nil => cases h
  | cons q ps ih =>
    rw [regProp] at h
    cases hlast : regProp ps with
    | none =>
      rw [hlast, Option.none_or] at h
      split_ifs at h
      injection h with h
      exact h ▸ List.mem_cons_self
    | some r =>
      rw [hlast] at h
      exact List.mem_cons_of_mem q (ih (hlast.trans h))

theorem value_length_le {ps : List FlatProp} {p : FlatProp} (h : p ∈ ps) :
    p.value.length ≤ (propsBytes ps).length := by
  induction ps with
  | nil => cases h
  | cons q ps ih =>
    have hcons : propsBytes (q :: ps) = (nopBytes q.nops ++ q.token) ++ propsBytes ps := rfl
    rw [hcons, List.length_append, List.length_append, q.token_length]
    rcases List.mem_cons.mp h with rfl | h
    · omega
    · have := ih h
      omega

theorem nodeBanks_of_not_memory (c : Cells) {ps : List FlatProp} (h : ¬ IsMemory ps) :
    nodeBanks c ps = [] := by
  unfold nodeBanks
  cases regProp ps with
  | none => rfl
  | some p => exact if_neg h

/-- A memory node stands below a node with the counts `c`, and its `reg` property
is a list of whole entries. -/
def MemoryFits (up : Option Cells) (c : Cells) (ps : List FlatProp) : Prop :=
  IsMemory ps → up = some c ∧ ∃ p, regProp ps = some p ∧ p.value.length % c.width = 0

variable (self fuel) in
theorem issue_head {c : Cells} (hc : c.Small) {path : List (List Byte)} {up : Option Cells}
    {ps : List FlatProp} {a : Word} {calls : List Call} (hstored : Stored m a (propsBytes ps))
    (htyped : ∀ p ∈ ps, p.Typed) (hfits : MemoryFits up c ps)
    (hspace : a.toNat + (propsBytes ps).length < 2 ^ 64) (hsmall : (propsBytes ps).length < 2 ^ 31)
    (hfuel : (propsBytes ps).length < fuel) (hcalls : calls.map (sees m) = headSeen path up a ps)
    (x : MemState) :
    ∃ scan, (memCb self fuel).issueAll calls ⟨m, x⟩ =
      .ok () ⟨m, ⟨scan, (nodeBanks c ps).foldl (Bank.update self) x.gMemSize⟩⟩ := by
  obtain ⟨front, last, rfl, hfront, hlast⟩ := List.map_eq_append_iff.mp hcalls
  obtain ⟨first, pcalls, rfl, hfirst, hpcalls⟩ := List.map_eq_append_iff.mp hfront
  obtain ⟨o, rfl, ho⟩ := List.map_eq_singleton_iff.mp hfirst
  obtain ⟨d, rfl, hd⟩ := List.map_eq_singleton_iff.mp hlast
  have hopen : (memCb self fuel).apply m x o = _ := apply_open (congrArg Prod.fst ho) x
  obtain ⟨scan, hrun, hrec⟩ := issue_props hstored htyped hspace hpcalls
    { x with scan := ⟨false, 0, 0⟩ }
  have hprops : (memCb self fuel).issueAll ([o] ++ pcalls) ⟨m, x⟩ = _ :=
    (issueAll_append_of_ok (issueAll_singleton_of_apply hopen)).trans hrun
  rw [issueAll_append_of_ok hprops]
  have hobs : observe m d = .nodeDone path := congrArg Prod.fst hd
  by_cases hmem : IsMemory ps
  · obtain ⟨hup, p, hp, hwhole⟩ := hfits hmem
    have hlen := value_length_le (mem_of_regProp hp)
    have hbanks : nodeBanks c ps = banksIn c (p.value.length / c.width) p.value := by
      rw [nodeBanks, hp]
      exact if_pos hmem
    cases d with
    | nodeOpen node => cases hobs
    | nodeProp prop => cases hobs
    | nodeDone node =>
      have hcells : node.tail.head?.map FdtScanNode.cells = some c :=
        (congrArg Prod.snd hd).trans hup
      have hdone : memDone self fuel m node ⟨scan, x.gMemSize⟩ = _ :=
        memDone_memory hc self (hrec.memory.mpr (.inr hmem)) (hrec.reg p hp) hwhole (hlen.trans_lt hsmall)
          (hlen.trans_lt hfuel) hcells
      rw [hbanks]
      exact ⟨scan, issueAll_singleton_of_apply hdone⟩
  · have hoff : scan.memory = false := by
      rw [← Bool.not_eq_true, hrec.memory]
      simp [hmem]
    rw [nodeBanks_of_not_memory c hmem]
    exact ⟨scan, issueAll_singleton_of_apply (apply_done_of_not_memory hobs hoff)⟩

def Flat.NoMemory : Flat → Prop
  | stop _ => True
  | node _ _ _ props children rest =>
    (∀ p ∈ props, p.Typed) ∧ ¬ IsMemory props ∧ children.NoMemory ∧ rest.NoMemory

/-- The children of a root with the counts `c`: the memory nodes among them have
whole entries, and there are none below. -/
def Flat.MemoryLevel (c : Cells) : Flat → Prop
  | stop _ => True
  | node _ _ _ props children rest =>
    (∀ p ∈ props, p.Typed) ∧
      (IsMemory props → ∃ p, regProp props = some p ∧ p.value.length % c.width = 0) ∧
      children.NoMemory ∧ rest.MemoryLevel c

theorem node_parts {nops : ℕ} {name pad : List Byte} {props : List FlatProp} {children rest : Flat}
    {a : Word} (h : Stored m a (Flat.node nops name pad props children rest).bytes)
    (hspace : a.toNat + (Flat.node nops name pad props children rest).bytes.length < 2 ^ 64) :
    let props' := a + BitVec.ofNat 64 (nopBytes nops ++ beginToken name pad).length
    let children' := props' + BitVec.ofNat 64 (propsBytes props).length
    let rest' := children' + BitVec.ofNat 64 (children.bytes ++ beBytes FDT_END_NODE).length
    (Stored m props' (propsBytes props) ∧ props'.toNat + (propsBytes props).length < 2 ^ 64) ∧
      (Stored m children' children.bytes ∧ children'.toNat + children.bytes.length < 2 ^ 64) ∧
      Stored m rest' rest.bytes ∧ rest'.toNat + rest.bytes.length < 2 ^ 64 := by
  simp only [Flat.bytes, stored_append] at h
  obtain ⟨⟨⟨⟨-, hP⟩, hC⟩, -⟩, hR⟩ := h
  rw [add_append_length] at hC
  rw [List.append_assoc, add_append_length,
    add_append_length a (nopBytes nops ++ beginToken name pad)] at hR
  have hlen : (Flat.node nops name pad props children rest).bytes.length =
      (nopBytes nops ++ beginToken name pad).length + ((propsBytes props).length +
        ((children.bytes ++ beBytes FDT_END_NODE).length + rest.bytes.length)) := by
    simp only [Flat.bytes, List.length_append]
    omega
  rw [hlen] at hspace
  have hprops := toNat_add_lt hspace
  have hchildren := toNat_add_lt hprops
  have hrest := toNat_add_lt hchildren
  have hinner : children.bytes.length ≤ (children.bytes ++ beBytes FDT_END_NODE).length := by
    rw [List.length_append]
    exact Nat.le_add_right _ _
  exact ⟨⟨hP, by omega⟩, ⟨hC, by omega⟩, hR, hrest⟩

/-- What the calls for some nodes do: the record is changed somehow, and
`g_mem_size` goes through the banks. -/
def Discovers (m : Mem) (self : Word) (fuel : ℕ) (seen : List (Event × Option Cells))
    (banks : List Bank) : Prop :=
  ∀ calls x, calls.map (sees m) = seen → ∃ scan, (memCb self fuel).issueAll calls ⟨m, x⟩ =
    .ok () ⟨m, ⟨scan, banks.foldl (Bank.update self) x.gMemSize⟩⟩

theorem discovers_nil : Discovers m self fuel [] [] := by
  intro calls x hcalls
  obtain rfl := List.map_eq_nil_iff.mp hcalls
  exact ⟨x.scan, rfl⟩

theorem discovers_node {c : Cells} (hc : c.Small) {nops : ℕ} {name pad : List Byte}
    {props : List FlatProp} {children rest : Flat} {path : List (List Byte)} {up : Option Cells}
    {left : Cells} {a : Word} {cbanks rbanks : List Bank} (htyped : ∀ p ∈ props, p.Typed)
    (hfits : MemoryFits up c props)
    (hstored : Stored m a (Flat.node nops name pad props children rest).bytes)
    (hspace : a.toNat + (Flat.node nops name pad props children rest).bytes.length < 2 ^ 64)
    (hsmall : (Flat.node nops name pad props children rest).bytes.length < 2 ^ 31)
    (hfuel : (Flat.node nops name pad props children rest).bytes.length < fuel)
    (hchildren : ∀ b, Stored m b children.bytes → b.toNat + children.bytes.length < 2 ^ 64 →
      Discovers m self fuel
        (children.seen (name :: path) (some (cellsOver props left)) freshChild.cells b) cbanks)
    (hrest : ∀ b, Stored m b rest.bytes → b.toNat + rest.bytes.length < 2 ^ 64 →
      Discovers m self fuel (rest.seen path up (cellsOver props left) b) rbanks) :
    Discovers m self fuel ((Flat.node nops name pad props children rest).seen path up left a)
      (nodeBanks c props ++ cbanks ++ rbanks) := by
  intro calls x hcalls
  obtain ⟨hP, hC, hR⟩ := node_parts hstored hspace
  obtain ⟨head, ccalls, rcalls, rfl, hhead, hccalls, hrcalls⟩ := split_node hcalls
  simp only [Flat.bytes, List.length_append] at hsmall hfuel
  obtain ⟨_, h₁⟩ := issue_head self fuel hc hP.1 htyped hfits hP.2 (by omega) (by omega) hhead x
  obtain ⟨_, h₂⟩ := hchildren _ hC.1 hC.2 ccalls _ hccalls
  obtain ⟨scan, h₃⟩ := hrest _ hR.1 hR.2 rcalls _ hrcalls
  refine ⟨scan, ?_⟩
  rw [List.append_assoc, issueAll_append_of_ok h₁, issueAll_append_of_ok h₂, h₃,
    List.foldl_append, List.foldl_append]

theorem Flat.NoMemory.discovers {c : Cells} (hc : c.Small) {f : Flat} (hf : f.NoMemory)
    {path : List (List Byte)} {up : Option Cells} {left : Cells} {a : Word}
    (hstored : Stored m a f.bytes) (hspace : a.toNat + f.bytes.length < 2 ^ 64)
    (hsmall : f.bytes.length < 2 ^ 31) (hfuel : f.bytes.length < fuel) :
    Discovers m self fuel (f.seen path up left a) [] := by
  induction f generalizing path up left a with
  | stop nops => exact discovers_nil
  | node nops name pad props children rest ihc ihr =>
    obtain ⟨htyped, hmem, hchildren, hrest⟩ := hf
    have hlen : children.bytes.length + rest.bytes.length ≤
        (Flat.node nops name pad props children rest).bytes.length := by
      simp only [Flat.bytes, List.length_append]
      omega
    have hnode : Discovers m self fuel
        ((Flat.node nops name pad props children rest).seen path up left a)
        (nodeBanks c props ++ [] ++ []) :=
      discovers_node hc htyped (fun h => absurd h hmem) hstored hspace hsmall hfuel
        (fun b hb hs => ihc hchildren hb hs (by omega) (by omega))
        (fun b hb hs => ihr hrest hb hs (by omega) (by omega))
    rw [nodeBanks_of_not_memory c hmem] at hnode
    exact hnode

theorem Flat.MemoryLevel.discovers {c : Cells} (hc : c.Small) {f : Flat} (hf : f.MemoryLevel c)
    {path : List (List Byte)} {left : Cells} {a : Word} (hstored : Stored m a f.bytes)
    (hspace : a.toNat + f.bytes.length < 2 ^ 64) (hsmall : f.bytes.length < 2 ^ 31)
    (hfuel : f.bytes.length < fuel) :
    Discovers m self fuel (f.seen path (some c) left a) (f.banks c) := by
  induction f generalizing left a with
  | stop nops => exact discovers_nil
  | node nops name pad props children rest ihc ihr =>
    obtain ⟨htyped, hmem, hchildren, hrest⟩ := hf
    have hlen : children.bytes.length + rest.bytes.length ≤
        (Flat.node nops name pad props children rest).bytes.length := by
      simp only [Flat.bytes, List.length_append]
      omega
    have hnode : Discovers m self fuel
        ((Flat.node nops name pad props children rest).seen path (some c) left a)
        (nodeBanks c props ++ [] ++ rest.banks c) :=
      discovers_node hc htyped (fun h => ⟨rfl, hmem h⟩) hstored hspace hsmall hfuel
        (fun b hb hs => hchildren.discovers hc hb hs (by omega) (by omega))
        (fun b hb hs => ihr hrest hb hs (by omega) (by omega))
    rw [List.append_nil] at hnode
    exact hnode

def Flat.memoryBanks : Flat → List Bank
  | stop _ => []
  | node _ _ _ props children _ => children.banks (cellsOver props defaultCells)

/-- One root with small cell counts, which is no memory node, and memory nodes
among its children only. -/
def Flat.MemoryTree : Flat → Prop
  | stop _ => False
  | node _ _ _ props children rest =>
    ¬ rest.IsNode ∧ (∀ p ∈ props, p.Typed) ∧ ¬ IsMemory props ∧
      (cellsOver props defaultCells).Small ∧ children.MemoryLevel (cellsOver props defaultCells)

theorem Flat.MemoryTree.discovers {f : Flat} (hf : f.MemoryTree) {a : Word}
    (hstored : Stored m a f.bytes) (hspace : a.toNat + f.bytes.length < 2 ^ 64)
    (hsmall : f.bytes.length < 2 ^ 31) (hfuel : f.bytes.length < fuel) :
    Discovers m self fuel (f.seen [] none freshChild.cells a) f.memoryBanks := by
  cases f with
  | stop nops => exact hf.elim
  | node nops name pad props children rest =>
    obtain ⟨hrest, htyped, hmem, hc, hchildren⟩ := hf
    cases rest with
    | node => exact absurd trivial hrest
    | stop k =>
      have hlen : children.bytes.length ≤
          (Flat.node nops name pad props children (.stop k)).bytes.length := by
        simp only [Flat.bytes, List.length_append]
        omega
      have hnode : Discovers m self fuel
          ((Flat.node nops name pad props children (.stop k)).seen [] none freshChild.cells a)
          (nodeBanks (cellsOver props defaultCells) props ++
            children.banks (cellsOver props defaultCells) ++ []) :=
        discovers_node hc htyped (fun h => absurd h hmem) hstored hspace hsmall hfuel
          (fun b hb hs => hchildren.discovers hc hb hs (by omega) (by omega))
          (fun _ _ _ => discovers_nil)
      rw [nodeBanks_of_not_memory _ hmem, List.append_nil] at hnode
      exact hnode

/-- `query_mem` goes through all the banks and asserts that the size is not 0. -/
theorem queryMem_run {fdt : Word} {f : Flat} (h : Flattened m fdt f) (hsized : f.CellSized)
    (hf : f.MemoryTree) (hspace : (structAt m fdt).toNat + f.bytes.length < 2 ^ 64) (self : Word)
    {fuel : ℕ} (hfuel : f.bytes.length + 4 ≤ fuel) (x : MemState) :
    ∃ scan, queryMem self fuel fdt ⟨m, x⟩ =
      let s : ScanState MemState := ⟨m, ⟨scan, f.memoryBanks.foldl (Bank.update self) 0⟩⟩
      if 0 < f.memoryBanks.foldl (Bank.update self) 0 then .ok () s else .error .noMemory s := by
  have hlen := h.length_lt
  rw [List.length_append] at hlen
  obtain ⟨calls, hcalls, hgiven, hrun⟩ := h.calls
  have hseen : calls.map (sees m) = f.seen [] none freshChild.cells (structAt m fdt) := by
    rw [Flat.seen, ← hcalls, ← hgiven hsized, List.zip_map']
    rfl
  have hbanks : Discovers m self fuel _ f.memoryBanks :=
    hf.discovers (stored_append.mp h.stored).1 hspace (by omega) (by omega)
  obtain ⟨scan, hscan⟩ := hbanks calls { x with gMemSize := 0 } hseen
  refine ⟨scan, ?_⟩
  have hfdt := (hrun (memCb self fuel) rfl fuel hfuel ⟨m, { x with gMemSize := 0 }⟩ rfl).2
  rw [hscan] at hfdt
  have hmodify : (modify fun s => { s with extra := { s.extra with gMemSize := 0 } } :
      Scan MemState Unit) ⟨m, x⟩ = .ok () ⟨m, { x with gMemSize := 0 }⟩ := rfl
  rw [queryMem, bind_of_ok hmodify, bind_of_ok hfdt, get_bind]
  dsimp only
  split_ifs <;> rfl

def Bank.Contains (b : Bank) (x : ℕ) : Prop := b.base ≤ x ∧ x < b.base + b.size

/-- What the test accepts of a bank that fits in the address space: its own
addresses and the first one behind it, unless it ends with the address space. -/
def Bank.Reaches (b : Bank) (x : ℕ) : Prop :=
  b.base ≤ x ∧ x ≤ b.base + b.size ∧ b.base + b.size < 2 ^ 64

instance (b : Bank) (x : ℕ) : Decidable (b.Reaches x) := inferInstanceAs (Decidable (_ ∧ _))

theorem accepted_iff_reaches {self : Word} {b : Bank} (hfits : b.base + b.size ≤ 2 ^ 64)
    (hsize : b.size < 2 ^ 64) : b.Accepted self ↔ b.Reaches self.toNat := by
  unfold Bank.Accepted Bank.Reaches
  rcases Nat.lt_or_eq_of_le hfits with hlt | heq
  · rw [Nat.mod_eq_of_lt hlt]
    tauto
  · rw [heq, Nat.mod_self]
    omega

theorem size_lt_of_mem_banksIn {c : Cells} (hc : c.Small) {n : ℕ} {bs : List Byte} {b : Bank}
    (h : b ∈ banksIn c n bs) : b.size < 2 ^ 64 := by
  induction n generalizing bs with
  | zero => cases h
  | succ n ih =>
    rcases List.mem_cons.mp h with rfl | h
    · apply beNat_lt_two_cells
      have := hc.le_two.2
      rw [List.length_take]
      omega
    · exact ih h

theorem size_lt_of_mem_banks {c : Cells} (hc : c.Small) {f : Flat} {b : Bank}
    (h : b ∈ f.banks c) : b.size < 2 ^ 64 := by
  induction f with
  | stop nops => cases h
  | node nops name pad props children rest _ ihr =>
    rcases List.mem_append.mp h with h | h
    · unfold nodeBanks at h
      split at h
      · split_ifs at h
        · exact size_lt_of_mem_banksIn hc h
        · cases h
      · cases h
    · exact ihr h

theorem Flat.MemoryTree.size_lt {f : Flat} (hf : f.MemoryTree) {b : Bank}
    (h : b ∈ f.memoryBanks) : b.size < 2 ^ 64 := by
  cases f with
  | stop nops => exact hf.elim
  | node nops name pad props children rest => exact size_lt_of_mem_banks hf.2.2.2.1 h

/-- The last bank that is reached gives its size. -/
theorem foldl_update {self : Word} {banks : List Bank}
    (hfits : ∀ b ∈ banks, b.base + b.size ≤ 2 ^ 64 ∧ b.size < 2 ^ 64) (g : Word) :
    (banks.foldl (Bank.update self) g).toNat =
      match (banks.filter fun b => b.Reaches self.toNat).getLast? with
      | some b => b.size
      | none => g.toNat := by
  induction banks using List.reverseRecOn with
  | nil => rfl
  | append_singleton banks b ih =>
    obtain ⟨hbanks, hb⟩ := List.forall_mem_append.mp hfits
    obtain ⟨hb, hsize⟩ := List.forall_mem_singleton.mp hb
    rw [List.foldl_append, List.filter_append, List.foldl_cons, List.foldl_nil, Bank.update]
    by_cases hreach : b.Reaches self.toNat
    · rw [if_pos ((accepted_iff_reaches hb hsize).mpr hreach), BitVec.toNat_ofNat,
        Nat.mod_eq_of_lt hsize]
      simp [hreach]
    · rw [if_neg fun h => hreach ((accepted_iff_reaches hb hsize).mp h), ih hbanks]
      simp [hreach]

/-- A device tree with memory nodes below its root, whose banks are disjoint; `b`
is the one that holds the address `here` of `mem_done`. -/
structure HoldsKernel (m : Mem) (fdt : Word) (f : Flat) (here : Word) (b : Bank) : Prop where
  flattened : Flattened m fdt f
  inSpace : (structAt m fdt).toNat + f.bytes.length < 2 ^ 64
  cellSized : f.CellSized
  memoryTree : f.MemoryTree
  fits : ∀ b ∈ f.memoryBanks, b.base + b.size ≤ 2 ^ 64
  disjoint : f.memoryBanks.Pairwise fun b b' => ∀ x, ¬ (b.Contains x ∧ b'.Contains x)
  mem : b ∈ f.memoryBanks
  contains : b.Contains here.toNat

/-- `query_mem` returns, and `g_mem_size` is the size of the bank. -/
def FindsBank (m : Mem) (fdt : Word) (f : Flat) (self : Word) (b : Bank) : Prop :=
  ∀ fuel ≥ f.bytes.length + 4, ∀ x, ∃ x', queryMem self fuel fdt ⟨m, x⟩ = .ok () ⟨m, x'⟩ ∧
    x'.gMemSize.toNat = b.size

theorem HoldsKernel.size_pos {fdt : Word} {f : Flat} {b : Bank} (h : HoldsKernel m fdt f self b) :
    0 < b.size := by
  have hcontains := h.contains
  unfold Bank.Contains at hcontains
  omega

theorem findsBank_iff {fdt : Word} {f : Flat} {b : Bank} (h : HoldsKernel m fdt f self b) :
    FindsBank m fdt f self b ↔ (f.memoryBanks.foldl (Bank.update self) 0).toNat = b.size := by
  have hpos := h.size_pos
  constructor
  · intro hfinds
    obtain ⟨x', hx', hsame⟩ := hfinds _ le_rfl ⟨⟨false, 0, 0⟩, 0⟩
    obtain ⟨scan, hrun⟩ := queryMem_run h.flattened h.cellSized h.memoryTree h.inSpace self
      le_rfl ⟨⟨false, 0, 0⟩, 0⟩
    rw [hx'] at hrun
    dsimp only at hrun
    split_ifs at hrun
    injection hrun with _ hrun
    injection hrun with _ hrun
    rw [← hsame, hrun]
  · intro hsame fuel hfuel x
    obtain ⟨scan, hrun⟩ := queryMem_run h.flattened h.cellSized h.memoryTree h.inSpace self hfuel x
    have hgt : 0 < f.memoryBanks.foldl (Bank.update self) 0 := by
      rw [BitVec.lt_def, hsame]
      exact hpos
    dsimp only at hrun
    rw [if_pos hgt] at hrun
    exact ⟨_, hrun, hsame⟩

/-- The bank that holds `mem_done` is found exactly when the last bank that the
test reaches, in the order of the tree, has its size. -/
theorem query_mem_bank_iff (m : Mem) (fdt : Word) (f : Flat) (self : Word) (b : Bank)
    (h : HoldsKernel m fdt f self b) :
    FindsBank m fdt f self b ↔
      ∃ b', (f.memoryBanks.filter fun b => b.Reaches self.toNat).getLast? = some b' ∧
        b'.size = b.size := by
  rw [findsBank_iff h, foldl_update fun b hb => ⟨h.fits b hb, h.memoryTree.size_lt hb⟩]
  cases (f.memoryBanks.filter fun b => b.Reaches self.toNat).getLast? with
  | none => simp [h.size_pos.ne]
  | some b' => simp

def twoBanks : Flat :=
  .node 0 [] (toLE 3 0) []
    (.node 0 memoryType [0]
      [⟨0, 0, deviceTypeKey, memoryType ++ [0], [0]⟩,
        ⟨0, 12, regKey, beBytes 0 ++ beBytes 0x80001000 ++ beBytes 0x2000 ++
          (beBytes 0 ++ beBytes 0x80000000 ++ beBytes 0x1000), []⟩]
      (.stop 0) (.stop 0))
    (.stop 0)

def twoBanksMem : Mem :=
  write (fun _ => 0) 0x82000000
    (beBytes FDT_MAGIC ++ toLE 4 0 ++ beBytes 40 ++ beBytes 128 ++ toLE 8 0 ++ beBytes 16 ++
      toLE 12 0 ++ twoBanks.bytes ++ beBytes FDT_END ++ (deviceTypeKey ++ [0]) ++ regKey)

theorem twoBanks_memoryBanks :
    twoBanks.memoryBanks = [⟨0x80001000, 0x2000⟩, ⟨0x80000000, 0x1000⟩] := by
  decide +kernel

theorem twoBanks_flattened : Flattened twoBanksMem 0x82000000 twoBanks := by
  have hstrings : stringsAt twoBanksMem 0x82000000 = 0x82000080 := by decide +kernel
  refine ⟨by decide +kernel, ?_, ?_, by decide +kernel⟩
  · rw [hstrings]
    refine ⟨by decide, by simp, ⟨by decide, ?_, trivial, trivial⟩, trivial⟩
    intro p hp
    rcases List.mem_cons.mp hp with rfl | hp
    · exact ⟨by decide +kernel, by decide, by decide⟩
    · obtain rfl := List.mem_singleton.mp hp
      exact ⟨by decide +kernel, by decide, by decide⟩
  · rw [Stored]
    decide +kernel

theorem twoBanks_holdsKernel {here : Word} (h : 0x80001000 ≤ here.toNat)
    (hlt : here.toNat < 0x80003000) :
    HoldsKernel twoBanksMem 0x82000000 twoBanks here ⟨0x80001000, 0x2000⟩ where
  flattened := twoBanks_flattened
  inSpace := by decide +kernel
  cellSized := by
    refine ⟨by simp, ⟨?_, trivial, trivial⟩, trivial⟩
    intro p hp
    rcases List.mem_cons.mp hp with rfl | hp
    · rintro (hname | hname) <;> cases hname
    · obtain rfl := List.mem_singleton.mp hp
      rintro (hname | hname) <;> cases hname
  memoryTree := by
    refine ⟨id, by simp, by decide, by decide, ⟨?_, ?_, trivial, trivial⟩⟩
    · intro p hp
      rcases List.mem_cons.mp hp with rfl | hp
      · exact fun _ => ⟨memoryType, by decide, rfl⟩
      · obtain rfl := List.mem_singleton.mp hp
        intro hname
        cases hname
    · intro _
      exact ⟨_, rfl, by decide⟩
  fits := by
    rw [twoBanks_memoryBanks]
    decide
  disjoint := by
    rw [twoBanks_memoryBanks, List.pairwise_pair]
    rintro x ⟨⟨hlow, -⟩, -, hhigh⟩
    dsimp only at hlow hhigh
    omega
  mem := by
    rw [twoBanks_memoryBanks]
    exact List.mem_cons_self
  contains := ⟨h, hlt⟩

theorem query_mem_bank_inside :
    HoldsKernel twoBanksMem 0x82000000 twoBanks 0x80001ABC ⟨0x80001000, 0x2000⟩ ∧
      FindsBank twoBanksMem 0x82000000 twoBanks 0x80001ABC ⟨0x80001000, 0x2000⟩ := by
  have h : HoldsKernel twoBanksMem 0x82000000 twoBanks 0x80001ABC ⟨0x80001000, 0x2000⟩ :=
    twoBanks_holdsKernel (by decide) (by decide)
  refine ⟨h, (query_mem_bank_iff _ _ _ _ _ h).mpr ⟨⟨0x80001000, 0x2000⟩, ?_, rfl⟩⟩
  rw [twoBanks_memoryBanks]
  decide

/-- With `mem_done` at the start of the first bank, the size of the second one is
returned, which ends there. -/
theorem query_mem_finds_neighbour :
    HoldsKernel twoBanksMem 0x82000000 twoBanks 0x80001000 ⟨0x80001000, 0x2000⟩ ∧
      ¬ FindsBank twoBanksMem 0x82000000 twoBanks 0x80001000 ⟨0x80001000, 0x2000⟩ := by
  have h : HoldsKernel twoBanksMem 0x82000000 twoBanks 0x80001000 ⟨0x80001000, 0x2000⟩ :=
    twoBanks_holdsKernel (by decide) (by decide)
  refine ⟨h, ?_⟩
  rw [findsBank_iff h, twoBanks_memoryBanks]
  decide

end ProxyKernel.Fdt
