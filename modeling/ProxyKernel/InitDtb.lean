import ProxyKernel.SpikeMemory
import ProxyKernel.KernelLines
import ProxyKernel.PanicMessage

namespace ProxyKernel.Fdt
open ByteMem Effect Print Syscall

variable {m : Mem}

def compatibleKey : List Byte := ascii "compatible".toList
def htifName : List Byte := ascii "ucb,htif0".toList

/-- The value holds a string, if the property is `compatible`. -/
def FlatProp.Listed (p : FlatProp) : Prop := p.name = compatibleKey → 0 ∈ p.value

/-- The first string of `compatible` is that of the device. -/
def FlatProp.IsHtif (p : FlatProp) : Prop := p.name = compatibleKey ∧ cPart p.value = htifName

instance (p : FlatProp) : Decidable p.IsHtif := inferInstanceAs (Decidable (_ ∧ _))

def Flat.Listed : Flat → Prop
  | stop _ => True
  | node _ _ _ props children rest => (∀ p ∈ props, p.Listed) ∧ children.Listed ∧ rest.Listed

def Flat.hasHtif : Flat → Bool
  | stop _ => false
  | node _ _ _ props children rest =>
    props.any (fun p => p.IsHtif) || children.hasHtif || rest.hasHtif

def htifEvent (m : Mem) (x : HtifState) : Event → HtifState
  | .nodeOpen _ => { x with compat := false }
  | .nodeProp _ name _ addr _ =>
    if name = compatibleKey ∧ strcmp m addr htifName = 0 then { x with compat := true } else x
  | .nodeDone _ => if x.compat then { x with htif := 1 } else x

theorem htif_apply (m : Mem) (x : HtifState) (c : Call) :
    htifCb.apply m x c = .ok (htifEvent m x (observe m c)) := by
  cases c with
  | nodeOpen node => rfl
  | nodeProp prop =>
    have hname : strcmp m prop.name compatibleKey = 0 ↔ strAt m prop.name = compatibleKey :=
      strcmp_eq_zero_iff_strAt (by decide) (by decide)
    have hprop : htifProp m prop x =
        if strAt m prop.name = compatibleKey ∧ strcmp m prop.value htifName = 0 then
          .ok { x with compat := true } else .ok x := by
      simp only [← hname]
      rfl
    change htifProp m prop x = _
    rw [hprop, observe, htifEvent]
    split_ifs <;> rfl
  | nodeDone node =>
    change htifDone m node x = _
    rw [htifDone, observe, htifEvent]
    split_ifs <;> rfl

theorem htif_issueAll (calls : List Call) (x : HtifState) :
    htifCb.issueAll calls ⟨m, x⟩ = .ok () ⟨m, (calls.map (observe m)).foldl (htifEvent m) x⟩ := by
  induction calls generalizing x with
  | nil => rfl
  | cons c calls ih =>
    have hfirst := issueAll_singleton_of_apply (htif_apply m x c)
    rw [← List.singleton_append, issueAll_append_of_ok hfirst, ih]
    rfl

theorem exists_after_cPart {t : List Byte} (h : 0 ∈ t) : ∃ rest, t = (cPart t ++ [0]) ++ rest := by
  induction t with
  | nil => cases h
  | cons b t ih =>
    by_cases hb : b = 0
    · exact ⟨t, by simp [cPart, hb]⟩
    · obtain ⟨rest, hrest⟩ := ih ((List.mem_cons.mp h).resolve_left (Ne.symm hb))
      refine ⟨rest, ?_⟩
      have hc : cPart (b :: t) = b :: cPart t := List.takeWhile_cons_of_pos (by simpa using hb)
      rw [hc, List.cons_append, List.cons_append, ← hrest]

/-- The comparison is that of the first string in the value. -/
theorem isHtif_iff {p : FlatProp} {addr : Word} (hstored : Stored m addr p.value) (hp : p.Listed) :
    (p.name = compatibleKey ∧ strcmp m addr htifName = 0) ↔ p.IsHtif := by
  refine and_congr_right fun hname => ?_
  have hstr : CString m addr (cPart p.value) := by
    obtain ⟨rest, hrest⟩ := exists_after_cPart (hp hname)
    rw [hrest] at hstored
    exact cString_of_stored (stored_append.mp hstored).1 (zero_not_mem_cPart _)
  rw [strcmp_eq_zero_iff_cString (by decide)]
  exact ⟨fun h => by rw [← strAt_eq hstr, strAt_eq h], fun h => h ▸ hstr⟩

theorem foldl_props {path : List (List Byte)} {ps : List FlatProp} {a : Word}
    (hstored : Stored m a (propsBytes ps)) (hlisted : ∀ p ∈ ps, p.Listed)
    (hspace : a.toNat + (propsBytes ps).length < 2 ^ 64) (x : HtifState) :
    (propEvents path a ps).foldl (htifEvent m) x =
      { x with compat := x.compat || ps.any fun p => p.IsHtif } := by
  induction ps generalizing a x with
  | nil => simp [propEvents]
  | cons p ps ih =>
    obtain ⟨⟨hvalue, -⟩, hrest, hspace'⟩ := first_prop hstored hspace
    obtain ⟨hp, hps⟩ := List.forall_mem_cons.mp hlisted
    rw [propEvents, List.foldl_cons, ih hrest hps hspace', htifEvent]
    simp only [isHtif_iff hvalue hp, List.any_cons]
    split_ifs with hhtif
    · simp [hhtif]
    · simp [hhtif]

theorem foldl_events {f : Flat} {path : List (List Byte)} {a : Word} (hstored : Stored m a f.bytes)
    (hlisted : f.Listed) (hspace : a.toNat + f.bytes.length < 2 ^ 64) (x : HtifState) :
    ((f.events path a).foldl (htifEvent m) x).htif = if f.hasHtif then 1 else x.htif := by
  induction f generalizing path a x with
  | stop nops => rfl
  | node nops name pad props children rest ihc ihr =>
    obtain ⟨hprops, hchildren, hrest⟩ := hlisted
    obtain ⟨hP, hC, hR⟩ := node_parts hstored hspace
    simp only [Flat.events, List.foldl_append, List.foldl_cons, List.foldl_nil]
    rw [ihr hR.1 hrest hR.2, ihc hC.1 hchildren hC.2, foldl_props hP.1 hprops hP.2]
    simp only [htifEvent, Flat.hasHtif, Bool.false_or, Bool.or_eq_true]
    by_cases h1 : rest.hasHtif
    · simp [h1]
    · by_cases h2 : children.hasHtif
      · simp [h2]
      · cases h3 : props.any fun p => p.IsHtif <;> simp [h1, h2]

/-- `query_htif` sets `htif` exactly when the tree has the device. -/
theorem queryHtif_run {fdt : Word} {f : Flat} (h : Flattened m fdt f) (hlisted : f.Listed)
    (hspace : (structAt m fdt).toNat + f.bytes.length < 2 ^ 64) {fuel : ℕ}
    (hfuel : f.bytes.length + 4 ≤ fuel) (x : HtifState) :
    ∃ x', queryHtif fuel fdt ⟨m, x⟩ = .ok () ⟨m, x'⟩ ∧
      x'.htif = if f.hasHtif then 1 else x.htif := by
  obtain ⟨calls, hcalls, -, hrun⟩ := h.calls
  refine ⟨(f.events [] (structAt m fdt)).foldl (htifEvent m) x, ?_, ?_⟩
  · rw [queryHtif, (hrun htifCb rfl fuel hfuel ⟨m, x⟩ rfl).2, htif_issueAll, hcalls]
  · exact foldl_events (stored_append.mp h.stored).1 hlisted hspace x

def availableFmt : List Byte := ascii "HTIF is available!\r\n".toList
def memorySizeFmt : List Byte := ascii "(Emulated) memory size: %ld MB\n".toList

/-- The variables `htif` and `g_mem_size` after the scans, or the assertion that has
failed, with what has been printed before. -/
def initDtb (self : Word) (fuel : ℕ) (k k' : KernelContext) (dtb : Word) (m : Mem) (h : HtifState)
    (x : MemState) : List HostWrite × Except ScanFault (Word × Word) :=
  match queryHtif fuel dtb ⟨m, h⟩ with
  | .error e _ => ([], .error e)
  | .ok () s =>
    let available := if s.extra.htif ≠ 0 then [sprint k availableFmt []] else []
    match queryMem self fuel dtb ⟨s.mem, x⟩ with
    | .error e _ => (available, .error e)
    | .ok () t =>
      (available ++ [sprint k' memorySizeFmt [.ofMem t.mem (t.extra.gMemSize >>> 20)]],
        .ok (s.extra.htif, t.extra.gMemSize))

def memorySizeText (n : ℕ) : List Byte :=
  ascii "(Emulated) memory size: ".toList ++ numeral n ++ ascii " MB\n".toList

theorem sprint_memorySize (k : KernelContext) (arg : VaArg) (h : arg.word.toNat < 2 ^ 63) :
    (sprint k memorySizeFmt [arg]).bytes = memorySizeText arg.word.toNat := by
  have hint : arg.word.toInt = arg.word.toNat := BitVec.toInt_eq_toNat_of_lt (by omega)
  have hmin : arg.word ≠ BitVec.intMin 64 := by
    intro hmin
    rw [hmin] at h
    exact absurd h (by decide)
  have hgiven : (Piece.long arg.word).Given arg := rfl
  have hrendered : (Piece.long arg.word).rendered = numeral arg.word.toNat := by
    rw [Piece.rendered, decimalText_eq hmin, hint]
  have hlen := numeral_length arg.word
  have hfmt : memorySizeFmt = ascii "(Emulated) memory size: ".toList ++
      ((Piece.long arg.word).format ++ ascii " MB\n".toList) := rfl
  have hfirst : (ascii "(Emulated) memory size: ".toList).length = 24 := by decide
  have hlast : (ascii " MB\n".toList).length = 4 := by decide
  rw [hint] at hlen
  rw [hfmt, sprint_piece hgiven (by decide) (by decide), hrendered]
  · rfl
  · rw [hrendered, List.length_append, List.length_append]
    omega

theorem sprint_available (k : KernelContext) : (sprint k availableFmt []).bytes = availableFmt :=
  sprint_bytes_plain (by decide) (by decide) k

/-- On a device tree in which `query_mem` finds the bank that holds the kernel,
`init_dtb` returns.  It says that the HTIF is there, and sets `htif`, exactly when
some node of the tree is the device, at any depth; then it says how many MB the
bank has. -/
theorem init_dtb_reports (m : Mem) (dtb : Word) (f : Flat) (self : Word) (b : Bank)
    (h : HoldsKernel m dtb f self b)
    (hlast : ∃ b', (f.memoryBanks.filter fun b => b.Reaches self.toNat).getLast? = some b' ∧
      b'.size = b.size)
    (hlisted : f.Listed) (k k' : KernelContext) (s : HtifState) (x : MemState) (hs : s.htif = 0)
    (fuel : ℕ) (hfuel : f.bytes.length + 4 ≤ fuel) :
    ∃ ws g, initDtb self fuel k k' dtb m s x = (ws, .ok (if f.hasHtif then 1 else 0, g)) ∧
      g.toNat = b.size ∧
      ws.map HostWrite.bytes =
        (if f.hasHtif then [availableFmt] else []) ++ [memorySizeText (b.size / 2 ^ 20)] := by
  obtain ⟨s', hhtif, hset⟩ := queryHtif_run h.flattened hlisted h.inSpace hfuel s
  obtain ⟨scan, hmem⟩ := queryMem_run h.flattened h.cellSized h.memoryTree h.inSpace self hfuel x
  have hsize : (f.memoryBanks.foldl (Bank.update self) 0).toNat = b.size := by
    obtain ⟨b', hb', hsame⟩ := hlast
    rw [foldl_update fun b hb => ⟨h.fits b hb, h.memoryTree.size_lt hb⟩, hb', ← hsame]
  generalize f.memoryBanks.foldl (Bank.update self) 0 = g at hmem hsize
  have hpos : 0 < g := by
    rw [BitVec.lt_def, hsize]
    exact h.size_pos
  rw [hs] at hset
  dsimp only at hmem
  rw [if_pos hpos] at hmem
  have hshift : (g >>> 20).toNat = b.size / 2 ^ 20 := by
    rw [BitVec.toNat_ushiftRight, Nat.shiftRight_eq_div_pow, hsize]
  refine ⟨(if s'.htif ≠ 0 then [sprint k availableFmt []] else []) ++
    [sprint k' memorySizeFmt [.ofMem m (g >>> 20)]], g, ?_, hsize, ?_⟩
  · rw [initDtb, hhtif]
    dsimp only
    rw [hmem, hset]
  · have hmemory := sprint_memorySize k' (.ofMem m (g >>> 20)) (by rw [VaArg.ofMem, hshift]; omega)
    rw [VaArg.ofMem, hshift] at hmemory
    rw [List.map_append, List.map_singleton, VaArg.ofMem, hmemory, hset]
    cases f.hasHtif with
    | false => rfl
    | true => simp [sprint_available]

def spikeTree : Flat :=
  .node 0 [] (toLE 3 0) []
    (.node 0 memoryType [0]
      [⟨0, 0, deviceTypeKey, memoryType ++ [0], [0]⟩,
        ⟨0, 12, regKey, beBytes 0 ++ beBytes 0x80000000 ++ beBytes 0x80000000, []⟩]
      (.stop 0)
      (.node 0 (ascii ['h', 't', 'i', 'f']) (toLE 3 0)
        [⟨0, 16, compatibleKey, htifName ++ [0], toLE 2 0⟩] (.stop 0) (.stop 0)))
    (.stop 0)

def spikeTreeMem : Mem :=
  write (fun _ => 0) 0x82000000
    (beBytes FDT_MAGIC ++ toLE 4 0 ++ beBytes 40 ++ beBytes (BitVec.ofNat 32 (44 + spikeTree.bytes.length)) ++
      toLE 8 0 ++ beBytes 16 ++ toLE 12 0 ++ spikeTree.bytes ++ beBytes FDT_END ++
      (deviceTypeKey ++ [0]) ++ (regKey ++ [0]) ++ compatibleKey)

theorem spikeTree_flattened : Flattened spikeTreeMem 0x82000000 spikeTree := by
  refine ⟨by decide +kernel, ?_, ?_, by decide +kernel⟩
  · refine ⟨by decide, by simp, ⟨by decide, ?_, trivial, by decide, ?_, trivial, trivial⟩, trivial⟩
    · rintro p (_ | ⟨_, _ | ⟨_, ⟨⟩⟩⟩)
      · exact ⟨by decide +kernel, by decide, by decide⟩
      · exact ⟨by decide +kernel, by decide, by decide⟩
    · rintro p (_ | ⟨_, ⟨⟩⟩)
      exact ⟨by decide +kernel, by decide, by decide⟩
  · rw [Stored]
    decide +kernel

theorem spikeTree_holdsKernel :
    HoldsKernel spikeTreeMem 0x82000000 spikeTree 0x80001ABC ⟨0x80000000, 0x80000000⟩ where
  flattened := spikeTree_flattened
  inSpace := by decide +kernel
  cellSized := by
    refine ⟨by simp, ⟨?_, trivial, ?_, trivial, trivial⟩, trivial⟩
    · rintro p (_ | ⟨_, _ | ⟨_, ⟨⟩⟩⟩) (hname | hname) <;> cases hname
    · rintro p (_ | ⟨_, ⟨⟩⟩) (hname | hname) <;> cases hname
  memoryTree := by
    refine ⟨id, by simp, by decide, by decide, ⟨?_, ?_, trivial, ?_, ?_, trivial, trivial⟩⟩
    · rintro p (_ | ⟨_, _ | ⟨_, ⟨⟩⟩⟩) hname
      · exact ⟨memoryType, by decide, rfl⟩
      · cases hname
    · exact fun _ => ⟨_, rfl, by decide⟩
    · rintro p (_ | ⟨_, ⟨⟩⟩) hname
      cases hname
    · intro hmem
      exact absurd hmem (by decide)
  fits := by decide +kernel
  disjoint := by
    have hbanks : spikeTree.memoryBanks = [⟨0x80000000, 0x80000000⟩] := by decide +kernel
    rw [hbanks]
    exact List.pairwise_singleton _ _
  mem := by decide +kernel
  contains := ⟨by decide, by decide⟩

theorem spikeTree_listed : spikeTree.Listed := by
  refine ⟨by simp, ⟨?_, trivial, ?_, trivial, trivial⟩, trivial⟩
  · rintro p (_ | ⟨_, _ | ⟨_, ⟨⟩⟩⟩) hname <;> cases hname
  · rintro p (_ | ⟨_, ⟨⟩⟩) -
    decide

theorem init_dtb_reports_spike : ∃ ws g,
    initDtb 0x80001ABC 200 (zeroContext zeroArg) (zeroContext oneArg) 0x82000000 spikeTreeMem ⟨false, 0⟩
      ⟨⟨false, 0, 0⟩, 0⟩ = (ws, .ok (1, g)) ∧
    ws.map HostWrite.bytes =
      [ascii "HTIF is available!\r\n".toList, ascii "(Emulated) memory size: 2048 MB\n".toList] := by
  obtain ⟨ws, g, hrun, -, hbytes⟩ := init_dtb_reports _ _ _ _ _ spikeTree_holdsKernel
    ⟨⟨0x80000000, 0x80000000⟩, by decide +kernel, rfl⟩
    spikeTree_listed (zeroContext zeroArg) (zeroContext oneArg) ⟨false, 0⟩ ⟨⟨false, 0, 0⟩, 0⟩ rfl 200 (by decide +kernel)
  have hhtif : spikeTree.hasHtif = true := by decide +kernel
  rw [hhtif] at hrun hbytes
  refine ⟨ws, g, hrun, hbytes.trans ?_⟩
  decide +kernel

end ProxyKernel.Fdt
