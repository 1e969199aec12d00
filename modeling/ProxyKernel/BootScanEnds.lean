import ProxyKernel.BootScan
import ProxyKernel.DeviceTreeTrace

/-!
`query_htif` and `query_mem` on any memory.  Two loops decide: that of the scan,
whose tokens may lead back to where they were, and that of `mem_done`, which gets
no further when both cell counts are 0 or negative.
-/

namespace ProxyKernel.Fdt
open ByteMem Effect

def Ended {σ α : Type} : EStateM.Result ScanFault (ScanState σ) α → Prop
  | .ok _ _ => True
  | .error e _ => e ≠ .nullNode ∧ e ≠ .outOfFuel

section Callbacks

variable {σ : Type} {cb : FdtCb σ} {m : Mem} {fdt : Word}

/-- What the calls make of `extra`, up to the first callback that does not return. -/
def FdtCb.applyAll (cb : FdtCb σ) (m : Mem) (x : σ) (calls : List Call) : Except ScanFault σ :=
  calls.foldlM (cb.apply m) x

theorem applyAll_cons_of_ok {c : Call} {x x' : σ} (h : cb.apply m x c = .ok x')
    (calls : List Call) : cb.applyAll m x (c :: calls) = cb.applyAll m x' calls := by
  rw [FdtCb.applyAll, List.foldlM_cons, h]
  rfl

theorem applyAll_cons_of_error {c : Call} {x : σ} {e : ScanFault} (h : cb.apply m x c = .error e)
    (calls : List Call) : cb.applyAll m x (c :: calls) = .error e := by
  rw [FdtCb.applyAll, List.foldlM_cons, h]
  rfl

theorem applyAll_append (x : σ) (cs ds : List Call) :
    cb.applyAll m x (cs ++ ds) = cb.applyAll m x cs >>= fun x' => cb.applyAll m x' ds :=
  List.foldlM_append

theorem issueAll_of_ok {calls : List Call} {x x' : σ} (h : cb.applyAll m x calls = .ok x') :
    cb.issueAll calls ⟨m, x⟩ = .ok () ⟨m, x'⟩ := by
  induction calls generalizing x with
  | nil =>
    injection h with h
    rw [h]
    rfl
  | cons c calls ih =>
    cases hc : cb.apply m x c with
    | error e =>
      rw [applyAll_cons_of_error hc] at h
      cases h
    | ok y =>
      rw [applyAll_cons_of_ok hc] at h
      have hissue : cb.issue c ⟨m, x⟩ = .ok () ⟨m, y⟩ := by rw [FdtCb.issue, hc]
      rw [FdtCb.issueAll, bind_of_ok hissue]
      exact ih h

theorem issueAll_of_error {calls : List Call} {x : σ} {e : ScanFault}
    (h : cb.applyAll m x calls = .error e) :
    ∃ s, cb.issueAll calls ⟨m, x⟩ = .error e s := by
  induction calls generalizing x with
  | nil => cases h
  | cons c calls ih =>
    cases hc : cb.apply m x c with
    | error e' =>
      rw [applyAll_cons_of_error hc] at h
      injection h with h
      have hissue : cb.issue c ⟨m, x⟩ = .error e ⟨m, x⟩ := by rw [FdtCb.issue, hc, h]
      exact ⟨⟨m, x⟩, by rw [FdtCb.issueAll, bind_run, hissue]⟩
    | ok y =>
      rw [applyAll_cons_of_ok hc] at h
      have hissue : cb.issue c ⟨m, x⟩ = .ok () ⟨m, y⟩ := by rw [FdtCb.issue, hc]
      rw [FdtCb.issueAll, bind_of_ok hissue]
      exact ih h

theorem fdtScan_of_not_accepts (h : ¬ Accepts m fdt) (cb : FdtCb σ) (fuel : ℕ) (x : σ) :
    fdtScan cb fuel fdt ⟨m, x⟩ = .ok () ⟨m, x⟩ := by
  rw [fdtScan, get_bind, if_neg h]
  rfl

theorem fdtScan_eq (hclose : cb.onClose = none) (h : Accepts m fdt) (fuel : ℕ) (x : σ) :
    fdtScan cb fuel fdt ⟨m, x⟩ = (cb.issueAll (scanTrace m fdt fuel).1 >>= fun _ =>
      finish (scanTrace m fdt fuel).2 >>= fun _ => pure ()) ⟨m, x⟩ := by
  rw [fdtScan, get_bind, if_pos h, ← bind_assoc]
  exact (scan_trace hclose fuel _ _ _ _).bind_left _ _ rfl

/-- A callback that does not return decides the end of the scan. -/
theorem fdtScan_of_error (hclose : cb.onClose = none) (h : Accepts m fdt) {fuel : ℕ} {x : σ}
    {e : ScanFault} (he : cb.applyAll m x (scanTrace m fdt fuel).1 = .error e) :
    ∃ s, fdtScan cb fuel fdt ⟨m, x⟩ = .error e s := by
  obtain ⟨s, hs⟩ := issueAll_of_error he
  exact ⟨s, by rw [fdtScan_eq hclose h, bind_run, hs]⟩

theorem fdtScan_of_ok (hclose : cb.onClose = none) (h : Accepts m fdt) {fuel : ℕ} {x x' : σ}
    (hx : cb.applyAll m x (scanTrace m fdt fuel).1 = .ok x') :
    fdtScan cb fuel fdt ⟨m, x⟩ = match (scanTrace m fdt fuel).2 with
      | .ok _ => .ok () ⟨m, x'⟩
      | .error e => .error e ⟨m, x'⟩ := by
  rw [fdtScan_eq hclose h, bind_of_ok (issueAll_of_ok hx)]
  cases (scanTrace m fdt fuel).2 with
  | ok r => rfl
  | error e => rfl

end Callbacks

theorem htif_applyAll (m : Mem) (calls : List Call) (x : HtifState) :
    ∃ x', htifCb.applyAll m x calls = .ok x' := by
  induction calls generalizing x with
  | nil => exact ⟨x, rfl⟩
  | cons c calls ih =>
    have hc : ∃ y, htifCb.apply m x c = .ok y := by
      cases c with
      | nodeOpen node => exact ⟨_, rfl⟩
      | nodeProp prop =>
        change ∃ y, htifProp m prop x = .ok y
        unfold htifProp
        split_ifs
        · exact ⟨_, rfl⟩
        · exact ⟨_, rfl⟩
      | nodeDone node =>
        change ∃ y, htifDone m node x = .ok y
        unfold htifDone
        split_ifs
        · exact ⟨_, rfl⟩
        · exact ⟨_, rfl⟩
    obtain ⟨y, hy⟩ := hc
    rw [applyAll_cons_of_ok hy]
    exact ih y

def HtifEnds (m : Mem) (fdt : Word) (x : HtifState) : Prop :=
  ∃ fuel, Ended (queryHtif fuel fdt ⟨m, x⟩)

theorem htifEnds_iff (m : Mem) (fdt : Word) (x : HtifState) :
    HtifEnds m fdt x ↔ (Accepts m fdt → ¬ TokensRecur m fdt) := by
  by_cases h : Accepts m fdt
  · rw [← exists_complete_iff]
    simp only [h, forall_const]
    refine exists_congr fun fuel => ?_
    obtain ⟨x', hx'⟩ := htif_applyAll m (scanTrace m fdt fuel).1 x
    rw [queryHtif, fdtScan_of_ok rfl h hx', Complete]
    cases hend : (scanTrace m fdt fuel).2 with
    | ok r =>
      refine ⟨fun _ hfuel => ?_, fun _ => trivial⟩
      cases hfuel
    | error e =>
      rcases trace_error hend with rfl | rfl
      · exact ⟨fun _ => by simp, fun _ => by simp [Ended]⟩
      · exact ⟨fun hended => absurd rfl hended.2, fun hdone => absurd rfl hdone⟩
  · refine ⟨fun _ hacc => absurd hacc h, fun _ => ⟨0, ?_⟩⟩
    rw [queryHtif, fdtScan_of_not_accepts h]
    trivial

section MemDone

variable {m : Mem} {self : Word} {p : FdtScanNode} {stop value g : Word}

theorem getCells_fst (m : Mem) (n : ℕ) (value r : Word) :
    (getCells m n value r).1 = value + BitVec.ofNat 64 (4 * n) := by
  induction n generalizing value r with
  | zero => simp [getCells]
  | succ n ih =>
    rw [getCells, ih, Nat.mul_succ, BitVec.ofNat_add, add_assoc, add_comm (4 : Word)]
    rfl

def FdtScanNode.stride (p : FdtScanNode) : ℕ :=
  4 * p.addressCells.toInt.toNat + 4 * p.sizeCells.toInt.toNat

theorem FdtScanNode.stride_lt (p : FdtScanNode) : p.stride < 2 ^ 35 := by
  have haddr := BitVec.toInt_lt (x := p.addressCells)
  have hsize := BitVec.toInt_lt (x := p.sizeCells)
  unfold FdtScanNode.stride
  omega

theorem FdtScanNode.four_dvd_stride (p : FdtScanNode) : 4 ∣ p.stride :=
  ⟨p.addressCells.toInt.toNat + p.sizeCells.toInt.toNat, (mul_add 4 _ _).symm⟩

theorem memLoop_stop {parent : Option FdtScanNode} (hgo : ¬ 0 < (stop - value).toInt / 4)
    (fuel : ℕ) : memLoop m self parent stop (fuel + 1) value g = .ok (value, g) := by
  simp only [memLoop, if_neg hgo]

theorem memLoop_succ (hgo : 0 < (stop - value).toInt / 4) (fuel : ℕ) :
    ∃ g', memLoop m self (some p) stop (fuel + 1) value g =
      memLoop m self (some p) stop fuel (value + BitVec.ofNat 64 p.stride) g' := by
  have hnext : (fdtGetSize m p (fdtGetAddress m p value).1).1 =
      value + BitVec.ofNat 64 p.stride := by
    rw [fdtGetSize, fdtGetAddress, getCells_fst, getCells_fst, add_ofNat_add]
    rfl
  rw [memLoop, if_pos hgo]
  dsimp only
  rw [hnext]
  exact ⟨_, rfl⟩

theorem toInt_sub_ofNat {d : Word} {k : ℕ} (hd : 0 ≤ d.toInt) (hk : k < 2 ^ 62) :
    (d - BitVec.ofNat 64 k).toInt = d.toInt - k := by
  have hnat : (BitVec.ofNat 64 k).toInt = k := by
    rw [BitVec.toInt_eq_toNat_of_lt] <;> rw [BitVec.toNat_ofNat, Nat.mod_eq_of_lt (by omega)]
    omega
  have hlt := BitVec.toInt_lt (x := d)
  rw [BitVec.toInt_sub, hnat]
  apply Int.bmod_eq_of_le <;> omega

variable (m self g) in
/-- With a positive stride the loop ends, and on `stop` when the entries are whole. -/
theorem memLoop_ends (hpos : 0 < p.stride) {fuel : ℕ} (hfour : 4 ∣ (stop - value).toInt)
    (hlow : -(p.stride : ℤ) < (stop - value).toInt) (hfuel : (stop - value).toInt.toNat < fuel) :
    ∃ r, memLoop m self (some p) stop fuel value g = .ok r ∧
      (stop = r.1 ↔ (p.stride : ℤ) ∣ (stop - value).toInt) := by
  induction fuel generalizing value g with
  | zero => omega
  | succ fuel ih =>
    by_cases hgo : 0 < (stop - value).toInt / 4
    · obtain ⟨g', hturn⟩ := memLoop_succ (m := m) (p := p) (g := g) hgo fuel
      have hlt := p.stride_lt
      have hmul := p.four_dvd_stride
      have hleft : (stop - (value + BitVec.ofNat 64 p.stride)).toInt =
          (stop - value).toInt - p.stride := by
        rw [← sub_sub, toInt_sub_ofNat (by omega) (by omega)]
      have hfour' : 4 ∣ (stop - (value + BitVec.ofNat 64 p.stride)).toInt := by omega
      obtain ⟨r, hr, hend⟩ := ih g' hfour' (by omega) (by omega)
      refine ⟨r, hturn.trans hr, ?_⟩
      rw [hend, hleft, dvd_sub_self_right]
    · refine ⟨_, memLoop_stop hgo fuel, ?_⟩
      have hzero : stop = value ↔ (stop - value).toInt = 0 := by
        rw [← sub_eq_zero, ← BitVec.toInt_inj]
        rfl
      rw [hzero]
      constructor
      · intro h
        rw [h]
        exact dvd_zero _
      · intro hdvd
        rw [← dvd_neg] at hdvd
        have := Int.eq_zero_of_dvd_of_nonneg_of_lt (by omega) (by omega) hdvd
        omega

theorem memLoop_hangs (hzero : p.stride = 0) (hgo : 0 < (stop - value).toInt / 4) (fuel : ℕ) :
    memLoop m self (some p) stop fuel value g = .error .outOfFuel := by
  induction fuel generalizing g with
  | zero => rfl
  | succ fuel ih =>
    obtain ⟨g', hturn⟩ := memLoop_succ (m := m) (p := p) (g := g) hgo fuel
    rw [hturn, hzero, show value + BitVec.ofNat 64 0 = value from BitVec.add_zero value]
    exact ih

theorem memLoop_le {parent : Option FdtScanNode} {fuel fuel' : ℕ} (hle : fuel ≤ fuel')
    (h : memLoop m self parent stop fuel value g ≠ .error .outOfFuel) :
    memLoop m self parent stop fuel' value g = memLoop m self parent stop fuel value g := by
  induction fuel generalizing fuel' value g with
  | zero => exact absurd rfl h
  | succ fuel ih =>
    obtain ⟨fuel', rfl⟩ := Nat.exists_eq_succ_of_ne_zero (by omega : fuel' ≠ 0)
    by_cases hgo : 0 < (stop - value).toInt / 4
    · cases parent with
      | none => simp only [memLoop, if_pos hgo]
      | some p =>
        simp only [memLoop, if_pos hgo] at h ⊢
        exact ih (by omega) h
    · rw [memLoop_stop hgo, memLoop_stop hgo]

/-- The loop of `mem_done` has entries to read only if it has a parent to take the
cell counts from and one of them is positive. -/
def MemScan.Readable (scan : MemScan) (parent : Option FdtScanNode) : Prop :=
  scan.memory = true → scan.regValue ≠ 0 → scan.regLen.srem 4 = 0 → 0 < scan.regLen.toInt →
    ∃ p, parent = some p ∧ (0 < p.addressCells.toInt ∨ 0 < p.sizeCells.toInt)

/-- The assertions of `mem_done` hold: there is a `reg` property, and it is a list
of whole entries. -/
def MemScan.Whole (scan : MemScan) (parent : Option FdtScanNode) : Prop :=
  scan.memory = true → scan.regValue ≠ 0 ∧ (scan.regLen = 0 ∨
    0 < scan.regLen.toInt ∧ ∃ p, parent = some p ∧ (p.stride : ℤ) ∣ scan.regLen.toInt)

theorem stride_pos_iff (p : FdtScanNode) :
    0 < p.stride ↔ 0 < p.addressCells.toInt ∨ 0 < p.sizeCells.toInt := by
  unfold FdtScanNode.stride
  omega

theorem srem_four_eq_zero_iff (len : BitVec 32) : len.srem 4 = 0 ↔ 4 ∣ len.toInt := by
  rw [← BitVec.toInt_inj, BitVec.toInt_srem]
  exact (Int.dvd_iff_tmod_eq_zero).symm

theorem regEnd_sub {scan : MemScan} (h : 4 ∣ scan.regLen.toInt) :
    (scan.regEnd - scan.regValue).toInt = scan.regLen.toInt := by
  have hlow := BitVec.le_toInt (x := scan.regLen)
  have hhigh := BitVec.toInt_lt (x := scan.regLen)
  have hquot : ((scan.regLen.sdiv 4).signExtend 64).toInt = scan.regLen.toInt.tdiv 4 := by
    rw [BitVec.toInt_signExtend_of_le (by decide), BitVec.toInt_sdiv_of_ne_or_ne _ _ (.inr (by decide))]
    rfl
  have hbytes : (4 * (scan.regLen.sdiv 4).signExtend 64).toInt = scan.regLen.toInt := by
    rw [BitVec.toInt_mul, hquot, show (4 : Word).toInt = 4 from rfl, Int.mul_tdiv_cancel' h]
    apply Int.bmod_eq_of_le
    · omega
    · omega
  rw [MemScan.regEnd, add_sub_cancel_left, hbytes]

theorem memDone_eq (fuel : ℕ) (node : List FdtScanNode) {x : MemState} (hmem : x.scan.memory = true)
    (hreg : x.scan.regValue ≠ 0 ∧ x.scan.regLen.srem 4 = 0) :
    memDone self fuel m node x =
      match memLoop m self node.tail.head? x.scan.regEnd fuel x.scan.regValue x.gMemSize with
      | .ok (value, gMemSize) =>
        if x.scan.regEnd = value then .ok { x with gMemSize := gMemSize } else .error .callback
      | .error e => .error e := by
  rw [memDone, if_pos hmem, if_pos hreg]
  cases memLoop m self node.tail.head? x.scan.regEnd fuel x.scan.regValue x.gMemSize with
  | ok r => rfl
  | error e => rfl

variable (m self g) in
theorem memLoop_of_readable {fuel : ℕ} (hfuel : 2 ^ 31 ≤ fuel) {parent : Option FdtScanNode}
    {scan : MemScan} (h : scan.Readable parent) (hmem : scan.memory = true)
    (hreg : scan.regValue ≠ 0 ∧ scan.regLen.srem 4 = 0) :
    ∃ r, memLoop m self parent scan.regEnd fuel scan.regValue g = .ok r ∧
      (scan.regEnd = r.1 ↔ scan.Whole parent) := by
  have hfour := (srem_four_eq_zero_iff scan.regLen).mp hreg.2
  have hsub := regEnd_sub hfour
  have hlt := BitVec.toInt_lt (x := scan.regLen)
  by_cases hpos : 0 < scan.regLen.toInt
  · obtain ⟨p, rfl, hcells⟩ := h hmem hreg.1 hreg.2 hpos
    obtain ⟨r, hr, hend⟩ := memLoop_ends m self g ((stride_pos_iff p).mpr hcells)
      (hsub.symm ▸ hfour) (by omega) (by omega : _ < fuel)
    refine ⟨r, hr, hend.trans ?_⟩
    have hne : scan.regLen ≠ 0 := by
      intro hzero
      rw [hzero] at hpos
      exact absurd hpos (by decide)
    rw [hsub]
    constructor
    · intro hdvd _
      exact ⟨hreg.1, .inr ⟨hpos, p, rfl, hdvd⟩⟩
    · intro hwhole
      obtain ⟨-, q, hq, hdvd⟩ := (hwhole hmem).2.resolve_left hne
      injection hq with hq
      exact hq ▸ hdvd
  · obtain ⟨n, rfl⟩ := Nat.exists_eq_succ_of_ne_zero (by omega : fuel ≠ 0)
    refine ⟨_, memLoop_stop (by omega) n, ?_⟩
    have hzero : scan.regEnd = scan.regValue ↔ scan.regLen = 0 := by
      rw [← sub_eq_zero, ← BitVec.toInt_inj, hsub, ← BitVec.toInt_inj]
      rfl
    rw [hzero]
    constructor
    · intro hlen _
      exact ⟨hreg.1, .inl hlen⟩
    · intro hwhole
      exact (hwhole hmem).2.resolve_right fun hright => hpos hright.1

variable (m self) in
theorem memDone_of_readable {fuel : ℕ} (hfuel : 2 ^ 31 ≤ fuel) {node : List FdtScanNode}
    (x : MemState) (h : x.scan.Readable node.tail.head?) :
    (x.scan.Whole node.tail.head? ∧ ∃ g, memDone self fuel m node x = .ok ⟨x.scan, g⟩) ∨
      (¬ x.scan.Whole node.tail.head? ∧ memDone self fuel m node x = .error .callback) := by
  by_cases hmem : x.scan.memory = true
  · by_cases hreg : x.scan.regValue ≠ 0 ∧ x.scan.regLen.srem 4 = 0
    · obtain ⟨⟨value, gMemSize⟩, hloop, hend⟩ := memLoop_of_readable m self x.gMemSize hfuel h
        hmem hreg
      rw [memDone_eq fuel node hmem hreg, hloop]
      dsimp only at hend ⊢
      split_ifs with heq
      · exact .inl ⟨hend.mp heq, gMemSize, rfl⟩
      · exact .inr ⟨fun hwhole => heq (hend.mpr hwhole), rfl⟩
    · refine .inr ⟨fun hwhole => hreg ⟨(hwhole hmem).1, ?_⟩, ?_⟩
      · rw [srem_four_eq_zero_iff]
        rcases (hwhole hmem).2 with hzero | ⟨-, p, -, hdvd⟩
        · rw [hzero]
          exact dvd_zero _
        · exact (Int.natCast_dvd_natCast.mpr p.four_dvd_stride).trans hdvd
      · rw [memDone, if_pos hmem, if_neg hreg]
  · rw [memDone, if_neg hmem]
    exact .inl ⟨fun htrue => absurd htrue hmem, x.gMemSize, rfl⟩

variable (m self) in
/-- At a node that is not readable, `mem_done` follows a `NULL` or does not come to an end. -/
theorem memDone_of_not_readable (fuel : ℕ) {node : List FdtScanNode} (x : MemState)
    (h : ¬ x.scan.Readable node.tail.head?) :
    memDone self fuel m node x = .error .nullNode ∨
      memDone self fuel m node x = .error .outOfFuel := by
  unfold MemScan.Readable at h
  push Not at h
  obtain ⟨hmem, hvalue, hlen, hpos, hparent⟩ := h
  rw [memDone_eq fuel node hmem ⟨hvalue, hlen⟩]
  have hgo : 0 < (x.scan.regEnd - x.scan.regValue).toInt / 4 := by
    have hfour := (srem_four_eq_zero_iff x.scan.regLen).mp hlen
    rw [regEnd_sub hfour]
    omega
  cases hup : node.tail.head? with
  | none =>
    cases fuel with
    | zero => exact .inr rfl
    | succ fuel =>
      rw [memLoop, if_pos hgo]
      exact .inl rfl
  | some p =>
    have hzero : p.stride = 0 := by
      have hcells := hparent p hup
      have hiff := stride_pos_iff p
      omega
    rw [memLoop_hangs hzero hgo]
    exact .inr rfl

theorem memDone_le {fuel fuel' : ℕ} (hle : fuel ≤ fuel') {node : List FdtScanNode} {x : MemState}
    (h : memDone self fuel m node x ≠ .error .outOfFuel) :
    memDone self fuel' m node x = memDone self fuel m node x := by
  by_cases hmem : x.scan.memory = true
  · by_cases hreg : x.scan.regValue ≠ 0 ∧ x.scan.regLen.srem 4 = 0
    · rw [memDone_eq fuel node hmem hreg] at h ⊢
      rw [memDone_eq fuel' node hmem hreg, memLoop_le hle]
      intro hloop
      rw [hloop] at h
      exact h rfl
    · rw [memDone, memDone, if_pos hmem, if_neg hreg, if_pos hmem, if_neg hreg]
  · rw [memDone, memDone, if_neg hmem, if_neg hmem]

end MemDone

section QueryMem

variable {m : Mem} {self fdt : Word}

theorem memCb_apply_le {fuel fuel' : ℕ} (hle : fuel ≤ fuel') {x : MemState} {c : Call}
    (h : (memCb self fuel).apply m x c ≠ .error .outOfFuel) :
    (memCb self fuel').apply m x c = (memCb self fuel).apply m x c := by
  cases c with
  | nodeOpen node => rfl
  | nodeProp prop => rfl
  | nodeDone node => exact memDone_le hle h

theorem memCb_applyAll_le {fuel fuel' : ℕ} (hle : fuel ≤ fuel') {x : MemState} {calls : List Call}
    (h : (memCb self fuel).applyAll m x calls ≠ .error .outOfFuel) :
    (memCb self fuel').applyAll m x calls = (memCb self fuel).applyAll m x calls := by
  induction calls generalizing x with
  | nil => rfl
  | cons c calls ih =>
    cases hc : (memCb self fuel).apply m x c with
    | error e =>
      rw [applyAll_cons_of_error hc] at h
      have hc' : (memCb self fuel').apply m x c = .error e := by
        rw [memCb_apply_le hle (by rw [hc]; exact h), hc]
      rw [applyAll_cons_of_error hc, applyAll_cons_of_error hc']
    | ok y =>
      rw [applyAll_cons_of_ok hc] at h
      have hc' : (memCb self fuel').apply m x c = .ok y := by
        rw [memCb_apply_le hle (by rw [hc]; exact nofun), hc]
      rw [applyAll_cons_of_ok hc, applyAll_cons_of_ok hc']
      exact ih h

def MemEnds (m : Mem) (self fdt : Word) (x : MemState) : Prop :=
  ∃ fuel, Ended (queryMem self fuel fdt ⟨m, x⟩)

/-- The last assertion of `query_mem` changes nothing. -/
theorem ended_queryMem_iff (fuel : ℕ) (x : MemState) :
    Ended (queryMem self fuel fdt ⟨m, x⟩) ↔
      Ended (fdtScan (memCb self fuel) fuel fdt ⟨m, ⟨x.scan, 0⟩⟩) := by
  have hmodify : (modify fun s => { s with extra := { s.extra with gMemSize := 0 } } :
      Scan MemState Unit) ⟨m, x⟩ = .ok () ⟨m, ⟨x.scan, 0⟩⟩ := rfl
  rw [queryMem, bind_of_ok hmodify, bind_run]
  cases fdtScan (memCb self fuel) fuel fdt ⟨m, ⟨x.scan, 0⟩⟩ with
  | error e s => rfl
  | ok u s =>
    dsimp only
    rw [get_bind]
    split_ifs
    · exact Iff.rfl
    · exact ⟨fun _ => trivial, fun _ => by simp [Ended]⟩

def lastReg (m : Mem) (ps : List FdtScanProp) : Option FdtScanProp :=
  ps.reverse.find? fun p => CString m p.name regKey

def nodeScan (m : Mem) (ps : List FdtScanProp) : MemScan where
  memory := decide (∃ p ∈ ps, CString m p.name deviceTypeKey ∧ CString m p.value memoryType)
  regValue := ((lastReg m ps).map FdtScanProp.value).getD 0
  regLen := ((lastReg m ps).map FdtScanProp.len).getD 0

structure DoneNode where
  props : List FdtScanProp
  parent : Option FdtScanNode

def doneNodes (ps : List FdtScanProp) : List Call → List DoneNode
  | [] => []
  | .nodeOpen _ :: cs => doneNodes [] cs
  | .nodeProp p :: cs => doneNodes (ps ++ [p]) cs
  | .nodeDone node :: cs => ⟨ps, node.tail.head?⟩ :: doneNodes ps cs

/-- The nodes are readable up to the first that fails an assertion. -/
def AllReadable (m : Mem) : List DoneNode → Prop
  | [] => True
  | d :: ds => (nodeScan m d.props).Readable d.parent ∧
    ((nodeScan m d.props).Whole d.parent → AllReadable m ds)

def NodesReadable (m : Mem) (fdt : Word) : Prop :=
  ∀ fuel, Complete (scanTrace m fdt fuel) → AllReadable m (doneNodes [] (scanTrace m fdt fuel).1)

theorem lastReg_append (ps : List FdtScanProp) (p : FdtScanProp) :
    lastReg m (ps ++ [p]) = if CString m p.name regKey then some p else lastReg m ps := by
  rw [lastReg, List.reverse_append, List.reverse_singleton, List.singleton_append, List.find?_cons]
  split_ifs with h
  · simp [h]
  · simp [h, lastReg]

/-- `mem_prop` keeps the record up with the properties. -/
theorem memProp_nodeScan (ps : List FdtScanProp) (p : FdtScanProp) (g : Word) :
    memProp m p ⟨nodeScan m ps, g⟩ = .ok ⟨nodeScan m (ps ++ [p]), g⟩ := by
  have htype : strcmp m p.name (ascii "device_type".toList) = 0 ↔ CString m p.name deviceTypeKey :=
    strcmp_eq_zero_iff_cString (by decide)
  have hmem : strcmp m p.value (ascii "memory".toList) = 0 ↔ CString m p.value memoryType :=
    strcmp_eq_zero_iff_cString (by decide)
  have hreg : strcmp m p.name (ascii "reg".toList) = 0 ↔ CString m p.name regKey :=
    strcmp_eq_zero_iff_cString (by decide)
  simp only [memProp, htype, hmem, hreg, nodeScan, lastReg_append]
  by_cases hp : CString m p.name deviceTypeKey ∧ CString m p.value memoryType
  · -- a name is not both
    have hother : ¬ CString m p.name regKey := by
      intro h
      have heq := (strAt_eq hp.1).symm.trans (strAt_eq h)
      exact absurd heq (by decide)
    rw [if_pos hp, if_neg hother]
    simp [hp]
  · rw [if_neg hp]
    split_ifs with hname
    · simp [hp]
    · simp [hp]

def Outcome (m : Mem) (ds : List DoneNode) (r : Except ScanFault MemState) : Prop :=
  (AllReadable m ds ∧ ((∃ x, r = .ok x) ∨ r = .error .callback)) ∨
    (¬ AllReadable m ds ∧ (r = .error .nullNode ∨ r = .error .outOfFuel))

theorem applyAll_nodes {fuel : ℕ} (hfuel : 2 ^ 31 ≤ fuel) (ps : List FdtScanProp)
    (calls : List Call) (g : Word) :
    Outcome m (doneNodes ps calls) ((memCb self fuel).applyAll m ⟨nodeScan m ps, g⟩ calls) := by
  induction calls generalizing ps g with
  | nil => exact .inl ⟨trivial, .inl ⟨_, rfl⟩⟩
  | cons c calls ih =>
    cases c with
    | nodeOpen node => exact ih [] g
    | nodeProp p =>
      have hp : (memCb self fuel).apply m ⟨nodeScan m ps, g⟩ (.nodeProp p) = _ :=
        memProp_nodeScan ps p g
      rw [applyAll_cons_of_ok hp]
      exact ih (ps ++ [p]) g
    | nodeDone node =>
      have hcall : (memCb self fuel).apply m ⟨nodeScan m ps, g⟩ (.nodeDone node) =
        memDone self fuel m node ⟨nodeScan m ps, g⟩ := rfl
      by_cases hread : (nodeScan m ps).Readable node.tail.head?
      · rcases memDone_of_readable m self hfuel ⟨nodeScan m ps, g⟩ hread with
          ⟨hwhole, g', hdone⟩ | ⟨hwhole, hdone⟩
        · rw [applyAll_cons_of_ok (hcall.trans hdone)]
          rcases ih ps g' with ⟨hall, hend⟩ | ⟨hall, hend⟩
          · exact .inl ⟨⟨hread, fun _ => hall⟩, hend⟩
          · exact .inr ⟨fun h => hall (h.2 hwhole), hend⟩
        · rw [applyAll_cons_of_error (hcall.trans hdone)]
          exact .inl ⟨⟨hread, fun h => absurd h hwhole⟩, .inr rfl⟩
      · refine .inr ⟨fun h => hread h.1, ?_⟩
        rcases memDone_of_not_readable m self fuel ⟨nodeScan m ps, g⟩ hread with hdone | hdone
        · exact .inl (applyAll_cons_of_error (hcall.trans hdone) calls)
        · exact .inr (applyAll_cons_of_error (hcall.trans hdone) calls)

def OpensFirst : List Call → Prop
  | [] => True
  | .nodeOpen _ :: _ => True
  | .nodeProp _ :: cs => OpensFirst cs
  | .nodeDone _ :: _ => False

theorem OpensFirst.outcome {fuel : ℕ} (hfuel : 2 ^ 31 ≤ fuel) {calls : List Call}
    (h : OpensFirst calls) (ps : List FdtScanProp) (x : MemState) :
    Outcome m (doneNodes ps calls) ((memCb self fuel).applyAll m x calls) := by
  induction calls generalizing ps x with
  | nil => exact .inl ⟨trivial, .inl ⟨x, rfl⟩⟩
  | cons c calls ih =>
    cases c with
    | nodeOpen node => exact applyAll_nodes hfuel [] calls x.gMemSize
    | nodeProp p =>
      have hp : ∃ y, (memCb self fuel).apply m x (.nodeProp p) = .ok y := by
        change ∃ y, memProp m p x = .ok y
        unfold memProp
        split_ifs
        · exact ⟨_, rfl⟩
        · exact ⟨_, rfl⟩
        · exact ⟨_, rfl⟩
      obtain ⟨y, hy⟩ := hp
      rw [applyAll_cons_of_ok hy]
      exact ih h (ps ++ [p]) y
    | nodeDone node => exact h.elim

theorem trace_opensFirst (strings lex : Word) (fuel : ℕ) (child : FdtScanNode) (last : Bool) :
    OpensFirst (trace m strings fuel lex [] child last).1 := by
  have hdone : doneCalls last [] = [] := if_pos (.inr rfl)
  induction fuel generalizing lex with
  | zero => trivial
  | succ fuel ih =>
    rcases token_cases (cell m lex 0) with htok | htok | htok | htok | htok
    · rw [trace_nop htok]
      exact ih _
    · cases last with
      | true =>
        rw [trace_prop_true htok]
        trivial
      | false =>
        rw [trace_prop htok]
        exact ih _
    · rw [trace_begin htok, hdone]
      dsimp only
      split
      next => trivial
      next => trivial
    · rw [trace_endNode htok, hdone]
      trivial
    · rw [trace_other htok, hdone]
      trivial

variable (m self fdt) in
theorem outcome_scanTrace {fuel : ℕ} (hfuel : 2 ^ 31 ≤ fuel) (n : ℕ) (x : MemState) :
    Outcome m (doneNodes [] (scanTrace m fdt n).1)
      ((memCb self fuel).applyAll m x (scanTrace m fdt n).1) :=
  (trace_opensFirst _ _ n freshChild false).outcome hfuel [] x

theorem memEnds_of_readable (hacc : Accepts m fdt) (htokens : ¬ TokensRecur m fdt) (x : MemState)
    (h : NodesReadable m fdt) : MemEnds m self fdt x := by
  obtain ⟨n, hn⟩ := (exists_complete_iff m fdt).mpr htokens
  set fuel := max n (2 ^ 31) with hfuel
  have hsame : scanTrace m fdt fuel = scanTrace m fdt n :=
    (trace_le m (stringsAt m fdt) (le_max_left n (2 ^ 31)) _ _ _ _).2 hn
  have hdone : Complete (scanTrace m fdt fuel) := hsame ▸ hn
  refine ⟨fuel, (ended_queryMem_iff fuel x).mpr ?_⟩
  rcases outcome_scanTrace m self fdt (le_max_right n (2 ^ 31)) fuel ⟨x.scan, 0⟩ with
    ⟨-, ⟨x', hx'⟩ | herror⟩ | ⟨hbad, -⟩
  · rw [fdtScan_of_ok rfl hacc hx']
    cases hend : (scanTrace m fdt fuel).2 with
    | ok r => trivial
    | error e =>
      rcases trace_error hend with rfl | rfl
      · simp [Ended]
      · exact absurd hend hdone
  · obtain ⟨s, hs⟩ := fdtScan_of_error rfl hacc herror
    rw [hs]
    simp [Ended]
  · exact absurd (h fuel hdone) hbad

/-- The calls of any trace come first in a complete one, and a complete one has no
more than another. -/
theorem scanTrace_of_complete {n : ℕ} (hn : Complete (scanTrace m fdt n)) (fuel : ℕ) :
    (scanTrace m fdt fuel).1 <+: (scanTrace m fdt n).1 ∧
      (Complete (scanTrace m fdt fuel) → scanTrace m fdt fuel = scanTrace m fdt n) := by
  rcases le_total fuel n with hle | hle
  · obtain ⟨hcalls, hsame⟩ := trace_le m (stringsAt m fdt) hle (structAt m fdt) [] freshChild false
    exact ⟨hcalls, fun h => (hsame h).symm⟩
  · have hsame : scanTrace m fdt fuel = scanTrace m fdt n :=
      (trace_le m (stringsAt m fdt) hle _ _ _ _).2 hn
    exact ⟨hsame ▸ List.prefix_rfl, fun _ => hsame⟩

theorem readable_of_memEnds (hacc : Accepts m fdt) {x : MemState} (h : MemEnds m self fdt x) :
    NodesReadable m fdt := by
  intro n hn
  obtain ⟨fuel, hended⟩ := h
  rw [ended_queryMem_iff] at hended
  -- enough fuel for the loops of all nodes
  set big := max fuel (2 ^ 31) with hbig
  rcases outcome_scanTrace m self fdt (le_max_right fuel (2 ^ 31)) n ⟨x.scan, 0⟩ with
    ⟨hall, -⟩ | ⟨-, hstop⟩
  · exact hall
  · exfalso
    obtain ⟨⟨ds, hcalls⟩, hsame⟩ := scanTrace_of_complete hn fuel
    cases hresult : (memCb self fuel).applyAll m ⟨x.scan, 0⟩ (scanTrace m fdt fuel).1 with
    | error e =>
      obtain ⟨s, hs⟩ := fdtScan_of_error rfl hacc hresult
      rw [hs] at hended
      have hearly : (memCb self big).applyAll m ⟨x.scan, 0⟩ (scanTrace m fdt fuel).1 = .error e := by
        rw [memCb_applyAll_le (le_max_left fuel (2 ^ 31)), hresult]
        rw [hresult]
        intro he
        injection he with he
        exact hended.2 he
      rw [← hcalls, applyAll_append, hearly] at hstop
      rcases hstop with hstop | hstop
      · injection hstop with hstop
        exact hended.1 hstop
      · injection hstop with hstop
        exact hended.2 hstop
    | ok x' =>
      rw [fdtScan_of_ok rfl hacc hresult] at hended
      have hdone : Complete (scanTrace m fdt fuel) := by
        intro hend
        rw [hend] at hended
        exact hended.2 rfl
      have hlate : (memCb self big).applyAll m ⟨x.scan, 0⟩ (scanTrace m fdt n).1 = .ok x' := by
        rw [← hsame hdone, memCb_applyAll_le (le_max_left fuel (2 ^ 31)), hresult]
        rw [hresult]
        exact nofun
      rw [hlate] at hstop
      rcases hstop with hstop | hstop
      · cases hstop
      · cases hstop

/-- Both scans end, or stop at an assertion, exactly when the tokens do not lead
back and every memory node that is reached is readable. -/
theorem boot_scans_end_iff (m : Mem) (self fdt : Word) (x : HtifState) (y : MemState) :
    (HtifEnds m fdt x ∧ MemEnds m self fdt y) ↔
      (Accepts m fdt → ¬ TokensRecur m fdt ∧ NodesReadable m fdt) := by
  rw [htifEnds_iff]
  by_cases hacc : Accepts m fdt
  · constructor
    · rintro ⟨htokens, hmem⟩ _
      exact ⟨htokens hacc, readable_of_memEnds hacc hmem⟩
    · intro h
      obtain ⟨htokens, hreadable⟩ := h hacc
      exact ⟨fun _ => htokens, memEnds_of_readable hacc htokens y hreadable⟩
  · refine ⟨fun _ h => absurd h hacc, fun _ => ⟨fun h => absurd h hacc, 0, ?_⟩⟩
    rw [ended_queryMem_iff, fdtScan_of_not_accepts hacc]
    trivial

end QueryMem

/-- From the address `a` on, every word is `FDT_END`, and all strings end. -/
structure BootImage (m : Mem) (fdt a : Word) : Prop where
  endFilled : ∀ i, a.toNat + 4 * i + 4 ≤ 2 ^ 64 →
    cell m (a + BitVec.ofNat 64 (4 * i)) 0 = FDT_END
  strings : ∀ off : BitVec 32, ∃ name, CString m (stringsAt m fdt + off.setWidth 64) name

/-- A node without a name whose property has the length -15, and then nothing but
`FDT_END`. -/
def loopMem : Mem := fun a =>
  if 0x8200003C ≤ a.toNat then if a.toNat % 4 = 3 then 9 else 0
  else write (fun _ => 0) 0x82000000
    (beBytes FDT_MAGIC ++ toLE 4 0 ++ beBytes 40 ++ beBytes 60 ++ toLE 8 0 ++ beBytes 16 ++
      toLE 12 0 ++ beBytes FDT_BEGIN_NODE ++ toLE 4 0 ++ beBytes FDT_PROP ++ beBytes (-15) ++
      beBytes 0) a

/-- In the address space, a NUL is met from everywhere. -/
theorem exists_cString {m : Mem} {z : Word} (hz : m z = 0) (a : Word) : ∃ name, CString m a name := by
  have hcount : ∀ k a, m (a + BitVec.ofNat 64 k) = 0 → ∃ name, CString m a name := by
    intro k
    induction k with
    | zero =>
      intro a ha
      have h0 : m a = 0 := by simpa using ha
      exact ⟨[], h0⟩
    | succ k ih =>
      intro a ha
      by_cases h0 : m a = 0
      · exact ⟨[], h0⟩
      · obtain ⟨name, hname⟩ := ih (a + 1) (by rwa [add_one_ofNat])
        exact ⟨m a :: name, h0, rfl, hname⟩
  apply hcount (z - a).toNat
  rw [BitVec.ofNat_toNat, BitVec.setWidth_eq, add_sub_cancel]
  exact hz

theorem loopMem_bootImage : BootImage loopMem 0x82000000 0x8200003C where
  endFilled := by
    intro i hi
    have hbase : (0x8200003C : Word).toNat = 0x8200003C := rfl
    rw [hbase] at hi
    have hbyte : ∀ j < 4, loopMem (0x8200003C + BitVec.ofNat 64 (4 * i) + BitVec.ofNat 64 j) =
        if j = 3 then 9 else 0 := by
      intro j hj
      have htoNat : (0x8200003C + BitVec.ofNat 64 (4 * i) + BitVec.ofNat 64 j : Word).toNat =
          0x8200003C + 4 * i + j := by
        rw [BitVec.toNat_add, BitVec.toNat_add, BitVec.toNat_ofNat, BitVec.toNat_ofNat, hbase]
        omega
      have hmod : (0x8200003C + 4 * i + j) % 4 = 3 ↔ j = 3 := by omega
      rw [loopMem, htoNat, if_pos (by omega)]
      simp only [hmod]
    apply cell_zero
    refine read_eq_of_getElem rfl ?_
    intro j hj
    have hlt : j < 4 := hj
    rw [hbyte j hlt]
    interval_cases j <;> rfl
  strings := fun off => exists_cString (z := 0) (by decide +kernel) _

theorem loopMem_tokensRecur : TokensRecur loopMem 0x82000000 := by
  have hstart : structAt loopMem 0x82000000 = 0x82000028 := by decide +kernel
  have hname : afterName loopMem 0x82000028 = 0x82000030 := by
    have hstr : CString loopMem (0x82000028 + 4) [] := by decide +kernel
    rw [afterName, strAt_eq hstr]
    rfl
  have hfirst : nextPlace loopMem ((0x82000028, false), 0) = some ((0x82000030, false), 1) := by
    rw [nextPlace_begin (by decide +kernel), hname]
  have hagain : nextPlace loopMem ((0x82000030, false), 1) = some ((0x82000030, false), 1) := by
    rw [nextPlace_prop (by decide +kernel)]
    decide +kernel
  refine ⟨1, 2, (0x82000030, false), 1, 0, by decide, ?_, ?_⟩
  · rw [hstart, after_succ_of_some hfirst]
    rfl
  · rw [hstart, after_succ_of_some hfirst, after_succ_of_some hagain]
    rfl

/-- The advance of the property is 0, and both scans read it again and again. -/
theorem boot_scans_hang : BootImage loopMem 0x82000000 0x8200003C ∧ Accepts loopMem 0x82000000 ∧
    ¬ HtifEnds loopMem 0x82000000 ⟨false, 0⟩ := by
  have hacc : Accepts loopMem 0x82000000 := by decide +kernel
  refine ⟨loopMem_bootImage, hacc, ?_⟩
  rw [htifEnds_iff]
  exact fun h => h hacc loopMem_tokensRecur

end ProxyKernel.Fdt
