import ProxyKernel.DeviceTree

/-!
A device tree together with the choices of its encoding: the `FDT_NOP` words
between the tokens, the bytes that fill names and values up to a whole number of
words, and the place of each property name in the strings block.  The scan of
the encoding issues the calls of the depth-first walk of the tree.
-/

namespace ProxyKernel.Fdt
open ByteMem Effect

structure FlatProp where
  nops : ℕ
  nameOff : BitVec 32
  name : List Byte
  value : List Byte
  pad : List Byte

/-- A node with its children and the siblings that come after it, or no more
nodes; `nops` counts the padding words before the next token. -/
inductive Flat
  | stop (nops : ℕ)
  | node (nops : ℕ) (name pad : List Byte) (props : List FlatProp) (children rest : Flat)

def nopBytes (n : ℕ) : List Byte := (List.replicate n (beBytes FDT_NOP)).flatten

def FlatProp.token (p : FlatProp) : List Byte :=
  beBytes FDT_PROP ++ beBytes (BitVec.ofNat 32 p.value.length) ++ beBytes p.nameOff ++
    p.value ++ p.pad

def propsBytes (ps : List FlatProp) : List Byte :=
  ps.flatMap fun p => nopBytes p.nops ++ p.token

def beginToken (name pad : List Byte) : List Byte :=
  beBytes FDT_BEGIN_NODE ++ (name ++ [0]) ++ pad

def Flat.bytes : Flat → List Byte
  | stop nops => nopBytes nops
  | node nops name pad props children rest =>
    nopBytes nops ++ beginToken name pad ++ propsBytes props ++ children.bytes ++
      beBytes FDT_END_NODE ++ rest.bytes

/-- The name is in the strings block, and the value is filled up to whole words. -/
structure FlatProp.WellFormed (m : Mem) (strings : Word) (p : FlatProp) : Prop where
  name : CString m (strings + p.nameOff.setWidth 64) p.name
  pad_lt : p.pad.length < 4
  aligned : (p.value.length + p.pad.length) % 4 = 0

def Flat.WellFormed (m : Mem) (strings : Word) : Flat → Prop
  | stop _ => True
  | node _ name pad props children rest =>
    (0 ∉ name ∧ pad.length < 4 ∧ (name.length + 1 + pad.length) % 4 = 0) ∧
      (∀ p ∈ props, p.WellFormed m strings) ∧
      children.WellFormed m strings ∧ rest.WellFormed m strings

structure Cells where
  address : BitVec 32
  size : BitVec 32
  deriving DecidableEq

def FdtScanNode.cells (n : FdtScanNode) : Cells := ⟨n.addressCells, n.sizeCells⟩

def addressKey : List Byte := ascii "#address-cells".toList
def sizeKey : List Byte := ascii "#size-cells".toList

def FlatProp.CellSized (p : FlatProp) : Prop :=
  p.name = addressKey ∨ p.name = sizeKey → p.value.length = 4

def Flat.CellSized : Flat → Prop
  | stop _ => True
  | node _ _ _ props children rest =>
    (∀ p ∈ props, p.CellSized) ∧ children.CellSized ∧ rest.CellSized

def cellProp (key : List Byte) : List FlatProp → Option (BitVec 32)
  | [] => none
  | p :: ps =>
    (cellProp key ps).or (if p.name = key then some (BitVec.ofNat 32 (beNat p.value)) else none)

/-- The counts of a node with the properties `ps`, where `c` stands for those that
it does not have. -/
def cellsOver (ps : List FlatProp) (c : Cells) : Cells :=
  ⟨(cellProp addressKey ps).getD c.address, (cellProp sizeKey ps).getD c.size⟩

/-- The counts of the parent that a prop or done callback finds. -/
def Call.parentCells : Call → Option Cells
  | .nodeOpen _ => none
  | .nodeProp prop => prop.node.tail.head?.map FdtScanNode.cells
  | .nodeDone node => node.tail.head?.map FdtScanNode.cells

/-- The same for the nodes `f` below a node with the counts `up`, when the record
of the next child holds `c`. -/
def Flat.givenCells (up : Option Cells) : Cells → Flat → List (Option Cells)
  | _, stop _ => []
  | c, node _ _ _ props children rest =>
    [none] ++ List.replicate props.length up ++ [up] ++
      children.givenCells (some (cellsOver props c)) freshChild.cells ++
      rest.givenCells up (cellsOver props c)

/-- A call in terms of the tree: a node is the list of names from it up to the
root, and a property has a name, a length, and a value with its address. -/
inductive Event
  | nodeOpen (path : List (List Byte))
  | nodeProp (path : List (List Byte)) (name : List Byte) (len : ℤ) (addr : Word)
      (value : List Byte)
  | nodeDone (path : List (List Byte))
  deriving DecidableEq

def propEvents (path : List (List Byte)) : Word → List FlatProp → List Event
  | _, [] => []
  | a, p :: ps =>
    .nodeProp path p.name p.value.length (a + BitVec.ofNat 64 (4 * p.nops + 12)) p.value ::
      propEvents path (a + BitVec.ofNat 64 (nopBytes p.nops ++ p.token).length) ps

/-- The walk over the nodes encoded from address `a` on, below the node `path`. -/
def Flat.events (path : List (List Byte)) : Word → Flat → List Event
  | _, stop _ => []
  | a, node nops name pad props children rest =>
    let props' := a + BitVec.ofNat 64 (nopBytes nops ++ beginToken name pad).length
    let children' := props' + BitVec.ofNat 64 (propsBytes props).length
    let rest' := children' + BitVec.ofNat 64 (children.bytes ++ beBytes FDT_END_NODE).length
    [.nodeOpen (name :: path)] ++ propEvents (name :: path) props' props ++
      [.nodeDone (name :: path)] ++ children.events (name :: path) children' ++
      rest.events path rest'

def pathOf (m : Mem) (node : List FdtScanNode) : List (List Byte) :=
  node.map fun n => strAt m n.name

theorem pathOf_cons (m : Mem) (n : FdtScanNode) (up : List FdtScanNode) :
    pathOf m (n :: up) = strAt m n.name :: pathOf m up := rfl

def observe (m : Mem) : Call → Event
  | .nodeOpen node => .nodeOpen (pathOf m node)
  | .nodeProp p => .nodeProp (pathOf m p.node) (strAt m p.name) p.len.toInt p.value
      (ByteMem.read m p.value p.len.toNat)
  | .nodeDone node => .nodeDone (pathOf m node)

variable {σ α β : Type} {m : Mem} {strings : Word}

/-- The two computations are the same from every state with memory `m`. -/
def EqAt (m : Mem) (x y : Scan σ α) : Prop := ∀ s, s.mem = m → x s = y s

theorem EqAt.trans {x y z : Scan σ α} (hxy : EqAt m x y) (hyz : EqAt m y z) : EqAt m x z :=
  fun s hs => (hxy s hs).trans (hyz s hs)

/-- The calls of a scan leave memory alone. -/
theorem issueAll_mem (cb : FdtCb σ) {cs : List Call} {s s' : ScanState σ}
    (h : cb.issueAll cs s = .ok () s') : s'.mem = s.mem := by
  induction cs generalizing s with
  | nil =>
    injection h with _ hs
    rw [hs]
  | cons c cs ih =>
    obtain ⟨⟨⟩, t, ht, h⟩ := bind_eq_ok.mp h
    rw [ih h]
    rw [FdtCb.issue] at ht
    split at ht
    · injection ht with _ ht
      rw [← ht]
    · cases ht

theorem EqAt.issueAll_bind {cb : FdtCb σ} {cs : List Call} {x y : Scan σ α} (h : EqAt m x y) :
    EqAt m (cb.issueAll cs >>= fun _ => x) (cb.issueAll cs >>= fun _ => y) := by
  intro s hs
  rw [bind_run, bind_run]
  cases hr : cb.issueAll cs s with
  | ok a t => exact h t ((issueAll_mem cb hr).trans hs)
  | error e t => rfl

theorem EqAt.bind_left {x y : Scan σ α} (h : EqAt m x y) (f : α → Scan σ β) :
    EqAt m (x >>= f) (y >>= f) := by
  intro s hs
  rw [bind_run, bind_run, h s hs]

theorem issueAll_append (cb : FdtCb σ) (cs ds : List Call) :
    cb.issueAll (cs ++ ds) = cb.issueAll cs >>= fun _ => cb.issueAll ds := by
  induction cs with
  | nil => simp [FdtCb.issueAll]
  | cons c cs ih => simp [FdtCb.issueAll, ih]

theorem EqAt.calls {cb : FdtCb σ} {cs ds : List Call} {x y z : Scan σ α}
    (hx : EqAt m x (cb.issueAll cs >>= fun _ => y)) (hy : EqAt m y (cb.issueAll ds >>= fun _ => z)) :
    EqAt m x (cb.issueAll (cs ++ ds) >>= fun _ => z) := by
  rw [issueAll_append, bind_assoc]
  exact hx.trans hy.issueAll_bind

theorem issueAll_singleton (cb : FdtCb σ) (c : Call) : cb.issueAll [c] = cb.issue c := by
  simp [FdtCb.issueAll]

def doneCalls (last : Bool) (node : List FdtScanNode) : List Call :=
  if last ∨ node = [] then [] else [.nodeDone node]

theorem doneUnless_eq (cb : FdtCb σ) (last : Bool) (node : List FdtScanNode) :
    cb.doneUnless last node = cb.issueAll (doneCalls last node) := by
  rw [FdtCb.doneUnless, doneCalls]
  split_ifs
  · rfl
  · rw [issueAll_singleton]

variable {cb : FdtCb σ} {a : Word} {node : List FdtScanNode} {child : FdtScanNode} {last : Bool}

theorem add_append_length (a : Word) (bs cs : List Byte) :
    a + BitVec.ofNat 64 (bs ++ cs).length =
      a + BitVec.ofNat 64 bs.length + BitVec.ofNat 64 cs.length := by
  rw [List.length_append, add_ofNat_add]

@[simp] theorem beBytes_length (v : BitVec 32) : (beBytes v).length = 4 := rfl

theorem nopBytes_succ (n : ℕ) : nopBytes (n + 1) = beBytes FDT_NOP ++ nopBytes n := rfl

@[simp] theorem nopBytes_length (n : ℕ) : (nopBytes n).length = 4 * n := by
  induction n with
  | zero => rfl
  | succ n ih =>
    rw [nopBytes_succ, List.length_append, ih, beBytes_length]
    omega

theorem cell_zero {v : BitVec 32} (h : Stored m a (beBytes v)) : cell m a 0 = v :=
  cell_of_stored (by simpa using h)

theorem scan_nops {fuel n : ℕ} (h : Stored m a (nopBytes n)) :
    EqAt m (fdtScanHelper cb strings (fuel + n) a node child last)
      (fdtScanHelper cb strings fuel (a + BitVec.ofNat 64 (nopBytes n).length) node child last) := by
  induction n generalizing a with
  | zero =>
    intro s _
    simp
  | succ n ih =>
    rw [nopBytes_succ] at h ⊢
    obtain ⟨hnop, hrest⟩ := stored_append.mp h
    intro s hs
    rw [← Nat.add_assoc, fdtScanHelper_nop (by rw [hs]; exact cell_zero hnop), add_append_length]
    exact ih hrest s hs

theorem FlatProp.token_length (p : FlatProp) :
    p.token.length = 12 + p.value.length + p.pad.length := by
  simp [FlatProp.token]
  omega

theorem msb_ofNat_32 {n : ℕ} (hn : n < 2 ^ 31) : (BitVec.ofNat 32 n).msb = false := by
  rw [BitVec.msb_eq_decide, BitVec.toNat_ofNat, Nat.mod_eq_of_lt (by omega)]
  exact decide_eq_false (by omega)

theorem sdiv_four {n : ℕ} (hn : n < 2 ^ 31) :
    (BitVec.ofNat 32 n).sdiv 4 = BitVec.ofNat 32 (n / 4) := by
  have h4 : (4 : BitVec 32).msb = false := rfl
  rw [BitVec.sdiv_eq, msb_ofNat_32 hn, h4]
  apply BitVec.eq_of_toNat_eq
  rw [BitVec.udiv_eq, BitVec.toNat_udiv, BitVec.toNat_ofNat, BitVec.toNat_ofNat,
    Nat.mod_eq_of_lt (by omega), Nat.mod_eq_of_lt (by omega)]
  rfl

theorem afterProp_eq (lex : Word) {n : ℕ} (hn : n + 3 < 2 ^ 31) :
    afterProp lex (BitVec.ofNat 32 n) = lex + BitVec.ofNat 64 (12 + 4 * ((n + 3) / 4)) := by
  have hsum : BitVec.ofNat 32 n + 3 = BitVec.ofNat 32 (n + 3) := by
    rw [BitVec.ofNat_add]
    rfl
  have hwords : 3 + BitVec.ofNat 32 ((n + 3) / 4) = BitVec.ofNat 32 (3 + (n + 3) / 4) := by
    rw [BitVec.ofNat_add]
    rfl
  rw [afterProp, hsum, sdiv_four hn, hwords,
    BitVec.signExtend_eq_setWidth_of_msb_false (msb_ofNat_32 (by omega))]
  congr 1
  bv_omega

theorem token_cells {p : FlatProp} (h : Stored m a p.token) :
    cell m a 0 = FDT_PROP ∧ cell m a 1 = BitVec.ofNat 32 p.value.length ∧
      cell m a 2 = p.nameOff ∧ Stored m (a + 12) p.value := by
  simp only [FlatProp.token, stored_append] at h
  obtain ⟨⟨⟨⟨htok, hsize⟩, hoff⟩, hvalue⟩, -⟩ := h
  exact ⟨cell_zero htok, cell_of_stored hsize, cell_of_stored hoff, hvalue⟩

theorem scan_prop {fuel : ℕ} {p : FlatProp} (h : Stored m a p.token)
    (hp : p.WellFormed m strings) (hlen : p.token.length < 2 ^ 31) :
    EqAt m (fdtScanHelper cb strings (fuel + 1) a node child false)
      (cb.issueAll [.nodeProp (propAt m strings a node)] >>= fun _ =>
        fdtScanHelper cb strings fuel (a + BitVec.ofNat 64 p.token.length)
          (propAt m strings a node).node child false) := by
  obtain ⟨htok, hsize, -⟩ := token_cells h
  have hsize : (propAt m strings a node).len = BitVec.ofNat 32 p.value.length := hsize
  have hpad := hp.pad_lt
  have haligned := hp.aligned
  rw [p.token_length] at hlen
  have hnext : afterProp a (propAt m strings a node).len =
      a + BitVec.ofNat 64 p.token.length := by
    rw [hsize, afterProp_eq a (by omega), p.token_length]
    congr 2
    omega
  intro s hs
  rw [fdtScanHelper_prop (by rw [hs]; exact htok), issueAll_singleton, hs, hnext]

theorem cell_three {p : FlatProp} (h : Stored m a p.token) (hlen : p.value.length = 4) :
    cell m a 3 = BitVec.ofNat 32 (beNat p.value) := by
  obtain ⟨-, -, -, hvalue⟩ := token_cells h
  apply cell_of_stored
  rw [beBytes_beNat hlen]
  exact hvalue

theorem propAt_node {p : FlatProp} (h : Stored m a p.token) (hp : p.WellFormed m strings)
    (n : FdtScanNode) (up : List FdtScanNode) :
    ∃ n', (propAt m strings a (n :: up)).node = n' :: up ∧ n'.name = n.name ∧
      (p.CellSized → n'.cells = cellsOver [p] n.cells) := by
  obtain ⟨-, -, hoff, -⟩ := token_cells h
  have haddr : strcmp m (strings + p.nameOff.setWidth 64) (ascii "#address-cells".toList) = 0 ↔
      p.name = addressKey := strcmp_eq_zero_iff hp.name (by decide)
  have hsize : strcmp m (strings + p.nameOff.setWidth 64) (ascii "#size-cells".toList) = 0 ↔
      p.name = sizeKey := strcmp_eq_zero_iff hp.name (by decide)
  rw [propAt, hoff]
  dsimp only [setCells]
  simp only [haddr, hsize]
  refine ⟨_, rfl, ?_, ?_⟩
  · split_ifs <;> rfl
  · intro hcell
    have hne : addressKey ≠ sizeKey := by decide
    by_cases h1 : p.name = addressKey
    · simp [h1, hne, cellsOver, cellProp, FdtScanNode.cells, cell_three h (hcell (.inl h1))]
    · by_cases h2 : p.name = sizeKey
      · simp [h2, hne.symm, cellsOver, cellProp, FdtScanNode.cells, cell_three h (hcell (.inr h2))]
      · simp [h1, h2, cellsOver, cellProp, FdtScanNode.cells]

theorem cellsOver_cons (p : FlatProp) (ps : List FlatProp) (c : Cells) :
    cellsOver (p :: ps) c = cellsOver ps (cellsOver [p] c) := by
  simp only [cellsOver, cellProp, Option.none_or, Option.getD_or]

theorem observe_prop {p : FlatProp} (h : Stored m a p.token) (hp : p.WellFormed m strings)
    (hlen : p.token.length < 2 ^ 31) (hpath : pathOf m (propAt m strings a node).node = pathOf m node) :
    observe m (.nodeProp (propAt m strings a node)) =
      .nodeProp (pathOf m node) p.name p.value.length (a + 12) p.value := by
  obtain ⟨-, hsize, hoff, hvalue⟩ := token_cells h
  rw [p.token_length] at hlen
  have hnat : (BitVec.ofNat 32 p.value.length).toNat = p.value.length := by
    rw [BitVec.toNat_ofNat, Nat.mod_eq_of_lt (by omega)]
  have hint : (BitVec.ofNat 32 p.value.length).toInt = p.value.length := by
    rw [BitVec.toInt_eq_toNat_of_msb (msb_ofNat_32 (by omega)), hnat]
  have hread : ByteMem.read m (a + 12) p.value.length = p.value := hvalue
  rw [observe, hpath]
  simp only [propAt, hsize, hoff, hint, hnat, hread, strAt_eq hp.name]

theorem scan_props (n : FdtScanNode) (up : List FdtScanNode) {ps : List FlatProp}
    (h : Stored m a (propsBytes ps)) (hps : ∀ p ∈ ps, p.WellFormed m strings)
    (hlen : (propsBytes ps).length < 2 ^ 31) :
    ∃ calls n' k, k ≤ (propsBytes ps).length ∧
      calls.map (observe m) = propEvents (pathOf m (n :: up)) a ps ∧
      calls.map Call.parentCells = List.replicate ps.length (up.head?.map FdtScanNode.cells) ∧
      n'.name = n.name ∧ ((∀ p ∈ ps, p.CellSized) → n'.cells = cellsOver ps n.cells) ∧
      ∀ {σ : Type} (cb : FdtCb σ) (child : FdtScanNode) (fuel : ℕ),
        EqAt m (fdtScanHelper cb strings (fuel + k) a (n :: up) child false)
          (cb.issueAll calls >>= fun _ => fdtScanHelper cb strings fuel
            (a + BitVec.ofNat 64 (propsBytes ps).length) (n' :: up) child false) := by
  induction ps generalizing a n with
  | nil =>
    refine ⟨[], n, 0, le_rfl, rfl, rfl, rfl, fun _ => rfl, ?_⟩
    intro σ cb child fuel s _
    simp [propsBytes, FdtCb.issueAll]
  | cons p ps ih =>
    have hcons : propsBytes (p :: ps) = (nopBytes p.nops ++ p.token) ++ propsBytes ps := rfl
    rw [hcons] at h hlen ⊢
    obtain ⟨hfirst, hrest⟩ := stored_append.mp h
    obtain ⟨hnops, htok⟩ := stored_append.mp hfirst
    simp only [List.length_append, nopBytes_length] at hlen
    have hp := hps p List.mem_cons_self
    obtain ⟨n₁, hnode, hname, hcells⟩ := propAt_node htok hp n up
    have hsame : pathOf m (n₁ :: up) = pathOf m (n :: up) := by
      rw [pathOf_cons, pathOf_cons, hname]
    obtain ⟨calls, n', k, hk, hcalls, hgiven, hname', hcells', hrun⟩ := ih n₁ hrest
      (fun q hq => hps q (List.mem_cons_of_mem p hq)) (by omega)
    set prop := propAt m strings (a + BitVec.ofNat 64 (nopBytes p.nops).length) (n :: up)
      with hprop
    refine ⟨[.nodeProp prop] ++ calls, n', k + 1 + p.nops, ?_, ?_, ?_, hname'.trans hname, ?_, ?_⟩
    · simp only [List.length_append, nopBytes_length, p.token_length]
      omega
    · rw [List.singleton_append, List.map_cons, hcalls, hprop,
        observe_prop htok hp (by omega) (by rw [← hprop, hnode, hsame]), propEvents, hsame,
        nopBytes_length, BitVec.ofNat_add, add_assoc]
      rfl
    · rw [List.singleton_append, List.map_cons, hgiven, Call.parentCells, hnode]
      rfl
    · intro hsized
      obtain ⟨hp, hps⟩ := List.forall_mem_cons.mp hsized
      rw [hcells' hps, hcells hp, ← cellsOver_cons]
    · intro σ cb child fuel
      rw [← Nat.add_assoc, ← Nat.add_assoc]
      refine (scan_nops hnops).trans ((scan_prop htok hp (by omega)).trans ?_)
      rw [← hprop, hnode, ← add_append_length, add_append_length a (nopBytes p.nops ++ p.token),
        issueAll_append, bind_assoc]
      exact (hrun cb child fuel).issueAll_bind

/-- The words on which the scan of a node's children ends. -/
inductive Terminator : BitVec 32 → Word → Prop
  | endNode : Terminator FDT_END_NODE 4
  | theEnd : Terminator FDT_END 0

theorem scan_terminator {fuel : ℕ} {tok : BitVec 32} {skip : Word} (ht : Terminator tok skip)
    (h : cell m a 0 = tok) :
    EqAt m (fdtScanHelper cb strings (fuel + 1) a node child last)
      (cb.issueAll (doneCalls last node) >>= fun _ => pure (a + skip, node)) := by
  intro s hs
  rw [← doneUnless_eq]
  cases ht with
  | endNode => exact fdtScanHelper_endNode (by rw [hs]; exact h)
  | theEnd =>
    have hother : IsOther (cell s.mem a 0) := by
      rw [hs, h]
      unfold IsOther
      decide
    rw [fdtScanHelper_other hother, show a + 0 = a from BitVec.add_zero a]

theorem begin_name {name pad : List Byte} (h : Stored m a (beginToken name pad))
    (hnul : 0 ∉ name) : strAt m (a + 4) = name := by
  obtain ⟨htok, -⟩ := stored_append.mp h
  obtain ⟨-, hname⟩ := stored_append.mp htok
  exact strAt_eq (cString_of_stored hname hnul)

/-- The begin token: the calls before the node is entered, and where its
properties start. -/
theorem scan_begin {fuel : ℕ} {name pad : List Byte} (h : Stored m a (beginToken name pad))
    (hnul : 0 ∉ name) (hpad : pad.length < 4) (haligned : (name.length + 1 + pad.length) % 4 = 0)
    (hclose : cb.onClose = none) :
    EqAt m (fdtScanHelper cb strings (fuel + 1) a node child last)
      (cb.issueAll (doneCalls last node ++ [.nodeOpen ({ child with name := a + 4 } :: node)])
        >>= fun _ => fdtScanHelper cb strings fuel
          (a + BitVec.ofNat 64 (beginToken name pad).length)
          ({ child with name := a + 4 } :: node) freshChild false >>= fun r =>
        fdtScanHelper cb strings fuel r.1 node (r.2.headD { child with name := a + 4 }) true) := by
  have hstr := begin_name h hnul
  have htok : Stored m a (beBytes FDT_BEGIN_NODE) :=
    (stored_append.mp (stored_append.mp h).1).1
  have hplace : a + 4 * BitVec.ofNat 64 (2 + name.length / 4) =
      a + BitVec.ofNat 64 (beginToken name pad).length := by
    have hlen : (beginToken name pad).length = 4 * (2 + name.length / 4) := by
      simp only [beginToken, List.length_append, beBytes_length, List.length_singleton]
      omega
    rw [hlen, BitVec.ofNat_mul]
    rfl
  intro s hs
  rw [fdtScanHelper_begin (by rw [hs]; exact cell_zero htok), hs, hstr, hplace, doneUnless_eq,
    issueAll_append, issueAll_singleton, bind_assoc]
  simp only [FdtCb.closeNode_eq hclose, pure_bind]

/-- The nodes up to the word that ends them.  The done call of their parent
comes before the first of them. -/
theorem scan_flat {f : Flat} (node : List FdtScanNode) (child : FdtScanNode) (last : Bool)
    {tok : BitVec 32} {skip : Word} (ht : Terminator tok skip)
    (h : Stored m a (f.bytes ++ beBytes tok)) (hf : f.WellFormed m strings)
    (hlen : f.bytes.length < 2 ^ 31) :
    ∃ calls, calls.map (observe m) =
        (doneCalls last node).map (observe m) ++ f.events (pathOf m node) a ∧
      (f.CellSized → calls.map Call.parentCells = (doneCalls last node).map Call.parentCells ++
        f.givenCells (node.head?.map FdtScanNode.cells) child.cells) ∧
      ∀ {σ : Type} (cb : FdtCb σ), cb.onClose = none → ∀ fuel ≥ f.bytes.length + 4,
        EqAt m (fdtScanHelper cb strings fuel a node child last)
          (cb.issueAll calls >>= fun _ =>
            pure (a + BitVec.ofNat 64 f.bytes.length + skip, node)) := by
  induction f generalizing a node child last tok skip with
  | stop nops =>
    obtain ⟨hnops, htok⟩ := stored_append.mp h
    refine ⟨doneCalls last node, by simp [Flat.events], by simp [Flat.givenCells], ?_⟩
    intro σ cb _ fuel hfuel
    simp only [Flat.bytes, nopBytes_length] at hfuel
    obtain ⟨n, rfl⟩ : ∃ n, fuel = n + 1 + nops := ⟨fuel - 1 - nops, by omega⟩
    exact (scan_nops hnops).trans (scan_terminator ht (cell_zero htok))
  | node nops name pad props children rest ihc ihr =>
    obtain ⟨⟨hnul, hpad, haligned⟩, hprops, hchildren, hrest⟩ := hf
    simp only [Flat.bytes, stored_append, add_append_length] at h
    obtain ⟨⟨⟨⟨⟨⟨hN, hB⟩, hP⟩, hC⟩, hE⟩, hR⟩, hT⟩ := h
    simp only [Flat.bytes, List.length_append] at hlen
    have hname := begin_name hB hnul
    have hbegin : 4 ≤ (beginToken name pad).length := by simp [beginToken]
    -- the record of the children is that of this node, and later of its siblings
    set inner := { child with name := a + BitVec.ofNat 64 (nopBytes nops).length + 4 }
    obtain ⟨pcalls, n', k, hk, hpcalls, hpgiven, hsame, hcells, hprun⟩ :=
      scan_props inner node hP hprops (by omega)
    have hpathInner : pathOf m (inner :: node) = name :: pathOf m node := by
      rw [pathOf_cons, hname]
    have hpath : pathOf m (n' :: node) = name :: pathOf m node := by
      rw [← hpathInner, pathOf_cons, pathOf_cons, hsame]
    rw [hpathInner] at hpcalls
    obtain ⟨ccalls, hccalls, hcgiven, hcrun⟩ := ihc (n' :: node) freshChild false .endNode
      (stored_append.mpr ⟨hC, hE⟩) hchildren (by omega)
    obtain ⟨rcalls, hrcalls, hrgiven, hrrun⟩ := ihr node n' true ht
      (stored_append.mpr ⟨hR, hT⟩) hrest (by omega)
    have hdoneTrue : doneCalls true node = [] := rfl
    have hdoneFalse : doneCalls false (n' :: node) = [.nodeDone (n' :: node)] := rfl
    refine ⟨(doneCalls last node ++ [.nodeOpen (inner :: node)]) ++ ((pcalls ++ ccalls) ++ rcalls),
      ?_, ?_, ?_⟩
    · have hdone : (doneCalls false (n' :: node)).map (observe m) =
          [.nodeDone (name :: pathOf m node)] := by
        rw [hdoneFalse, List.map_singleton, observe, hpath]
      have hnone : (doneCalls true node).map (observe m) = [] := rfl
      have hopen : [Call.nodeOpen (inner :: node)].map (observe m) =
          [.nodeOpen (name :: pathOf m node)] := by
        rw [← hpathInner]
        rfl
      simp only [List.map_append, hpcalls, hccalls, hrcalls, hdone, hnone, hopen, hpath, Flat.events,
        add_append_length, List.append_assoc, List.nil_append]
    · rintro ⟨hpsized, hcsized, hrsized⟩
      have hn' : n'.cells = cellsOver props child.cells := hcells hpsized
      simp only [List.map_append, hpgiven, hcgiven hcsized, hrgiven hrsized, hdoneTrue, hdoneFalse,
        hn', Call.parentCells, Flat.givenCells, List.map_cons, List.map_nil, List.append_assoc,
        List.nil_append, List.tail_cons, List.head?_cons, Option.map_some]
    · intro σ cb hclose fuel hfuel
      simp only [Flat.bytes, List.length_append, nopBytes_length] at hfuel
      obtain ⟨n, rfl⟩ : ∃ n, fuel = n + 1 + nops := ⟨fuel - 1 - nops, by omega⟩
      obtain ⟨left, hleft⟩ : ∃ left, n = left + k := ⟨n - k, by omega⟩
      have hinner := (hprun cb freshChild left).calls (hcrun cb hclose left (by omega))
      rw [← hleft] at hinner
      simp only [Flat.bytes, add_append_length]
      refine (scan_nops hN).trans ((scan_begin hB hnul hpad haligned hclose).calls ?_)
      refine EqAt.calls ?_ (hrrun cb hclose n (by omega))
      refine (hinner.bind_left _).trans ?_
      rw [bind_assoc]
      intro s _
      rfl

/-- The device tree at `fdt` has a header that is accepted, and its structure
block encodes the nodes `f`. -/
structure Flattened (m : Mem) (fdt : Word) (f : Flat) : Prop where
  accepted : Accepts m fdt
  wellFormed : f.WellFormed m (stringsAt m fdt)
  stored : Stored m (structAt m fdt) (f.bytes ++ beBytes FDT_END)
  length_lt : (f.bytes ++ beBytes FDT_END).length < 2 ^ 31

/-- The calls of the whole scan, which do not depend on the callbacks. -/
theorem Flattened.calls {m : Mem} {fdt : Word} {f : Flat} (h : Flattened m fdt f) :
    ∃ calls, calls.map (observe m) = f.events [] (structAt m fdt) ∧
      (f.CellSized → calls.map Call.parentCells = f.givenCells none freshChild.cells) ∧
      ∀ {σ : Type} (cb : FdtCb σ), cb.onClose = none →
        ∀ fuel ≥ f.bytes.length + 4, ∀ s : ScanState σ, s.mem = m →
          fdtScanHelper cb (stringsAt m fdt) fuel (structAt m fdt) [] freshChild false s =
            (cb.issueAll calls >>= fun _ =>
              pure (structAt m fdt + BitVec.ofNat 64 f.bytes.length, [])) s ∧
          fdtScan cb fuel fdt s = cb.issueAll calls s := by
  have hlen := h.length_lt
  rw [List.length_append] at hlen
  obtain ⟨calls, hcalls, hgiven, hrun⟩ := scan_flat [] freshChild false .theEnd h.stored
    h.wellFormed (by omega)
  refine ⟨calls, hcalls, hgiven, ?_⟩
  intro σ cb hclose fuel hfuel s hs
  have hhelper := hrun cb hclose fuel hfuel s hs
  rw [show structAt m fdt + BitVec.ofNat 64 f.bytes.length + 0 =
    structAt m fdt + BitVec.ofNat 64 f.bytes.length from BitVec.add_zero _] at hhelper
  refine ⟨hhelper, ?_⟩
  rw [fdtScan, get_bind, hs, if_pos h.accepted, bind_run, hhelper, bind_run]
  cases cb.issueAll calls s with
  | ok u t => rfl
  | error e t => rfl

/-- With enough fuel and no close callback, the scan makes exactly the calls of
the depth-first walk, in its order, and it ends on the `FDT_END` word.  The only
assertions that can stop it are those of the callbacks. -/
theorem fdt_scan_depth_first (m : Mem) (fdt : Word) (f : Flat) (h : Flattened m fdt f) :
    cell m (structAt m fdt + BitVec.ofNat 64 f.bytes.length) 0 = FDT_END ∧
    ∃ calls, calls.map (observe m) = f.events [] (structAt m fdt) ∧
      ∀ {σ : Type} (cb : FdtCb σ), cb.onClose = none →
        ∀ fuel ≥ f.bytes.length + 4, ∀ s : ScanState σ, s.mem = m →
          fdtScanHelper cb (stringsAt m fdt) fuel (structAt m fdt) [] freshChild false s =
            (cb.issueAll calls >>= fun _ =>
              pure (structAt m fdt + BitVec.ofNat 64 f.bytes.length, [])) s ∧
          fdtScan cb fuel fdt s = cb.issueAll calls s := by
  obtain ⟨-, hend⟩ := stored_append.mp h.stored
  obtain ⟨calls, hcalls, -, hrun⟩ := h.calls
  exact ⟨cell_zero hend, calls, hcalls, hrun⟩

def smallTree : Flat :=
  .node 1 [] (toLE 3 0) [⟨1, 0, ascii "reg".toList, toLE 3 0x030201, [0]⟩]
    (.node 1 (ascii "cpu".toList) [] [] (.stop 2) (.stop 0)) (.stop 1)

def smallTreeMem : Mem :=
  write (fun _ => 0) 0x82000000
    (beBytes FDT_MAGIC ++ toLE 4 0 ++ beBytes 40 ++ beBytes 108 ++ toLE 8 0 ++ beBytes 16 ++
      toLE 12 0 ++ smallTree.bytes ++ beBytes FDT_END ++ ascii "reg".toList)

theorem smallTree_flattened : Flattened smallTreeMem 0x82000000 smallTree := by
  have hstrings : stringsAt smallTreeMem 0x82000000 = 0x8200006C := by decide +kernel
  refine ⟨by decide +kernel, ?_, ?_, by decide⟩
  · rw [hstrings]
    refine ⟨by decide, ?_, ⟨by decide, by simp, trivial, trivial⟩, trivial⟩
    intro p hp
    obtain rfl := List.mem_singleton.mp hp
    exact ⟨by decide +kernel, by decide, by decide⟩
  · rw [Stored]
    decide +kernel

theorem fdt_scan_depth_first_small :
    Flattened smallTreeMem 0x82000000 smallTree ∧
      ∃ calls : List Call, calls.map (observe smallTreeMem) =
        smallTree.events [] (structAt smallTreeMem 0x82000000) := by
  obtain ⟨-, calls, hcalls, -⟩ := fdt_scan_depth_first smallTreeMem 0x82000000 smallTree
    smallTree_flattened
  exact ⟨smallTree_flattened, calls, hcalls⟩

end ProxyKernel.Fdt
