import ProxyKernel.Elf

namespace ProxyKernel.Elf
open ByteMem Effect

/-- The host serves one file.  `fault n` is the error of the `n`-th call, if it fails. -/
def plainHost (file : List Byte) (fault : ℕ → Option (Fin 4095)) : Host := fun n size off =>
  match fault n with
  | some e => .error e
  | none => .data ((file.drop off.toNat).take size.toNat)

def slice (file : List Byte) (off : Word) (n : ℕ) : List Byte := (file.drop off.toNat).take n

theorem slice_length_le (file : List Byte) (off : Word) (n : ℕ) :
    (slice file off n).length ≤ n := by simp [slice]

theorem slice_getElem? (file : List Byte) (off : Word) {n i : ℕ} (hi : i < n) :
    (slice file off n)[i]? = file[off.toNat + i]? := by
  simp [slice, hi, List.getElem?_drop]

def transferred (file : List Byte) (fault : Option (Fin 4095)) (nb off : Word) : List Byte :=
  match fault with
  | none => slice file off nb.toNat
  | some _ => []

variable {file : List Byte} {fault : ℕ → Option (Fin 4095)} {s s' : LoadState}

theorem plainHost_bytes (n : ℕ) (nb off : Word) :
    (plainHost file fault n nb off).bytes nb = transferred file (fault n) nb off := by
  cases hf : fault n <;> simp [plainHost, hf, Reply.bytes, transferred, slice]

theorem transferred_length_le (f : Option (Fin 4095)) (nb off : Word) :
    (transferred file f nb off).length ≤ nb.toNat := by
  cases f with
  | none => exact slice_length_le file off nb.toNat
  | some e => simp [transferred]

theorem plainHost_ret_of_none {n : ℕ} (nb off : Word) (hf : fault n = none) :
    (plainHost file fault n nb off).ret nb = nb ↔
      (slice file off nb.toNat).length = nb.toNat := by
  have hle := slice_length_le file off nb.toNat
  have hlt := nb.isLt
  have hret : (plainHost file fault n nb off).ret nb =
      BitVec.ofNat 64 (slice file off nb.toNat).length := by
    simp [plainHost, hf, Reply.ret, slice]
  rw [hret, ← BitVec.toNat_inj, BitVec.toNat_ofNat, Nat.mod_eq_of_lt (by omega)]

/-- A size below the error codes is returned only by a complete read. -/
theorem plainHost_ret_iff {n : ℕ} {nb off : Word} (hnb : nb.toNat < 2 ^ 32) :
    (plainHost file fault n nb off).ret nb = nb ↔
      fault n = none ∧ (slice file off nb.toNat).length = nb.toNat := by
  cases hf : fault n with
  | none => simpa using plainHost_ret_of_none nb off hf
  | some e =>
    have he := e.isLt
    simp only [plainHost, hf, Reply.ret, reduceCtorEq, false_and, iff_false]
    bv_omega

/-- A header of type `ELF_PROG_LOAD`, with the host's fault when its bytes are read. -/
structure Segment where
  ph : ProgHeader
  fault : Option (Fin 4095)

/-- The segments among `n` headers from offset `off` on, the next host call being the `c`-th. -/
def segmentsFrom (file : List Byte) (fault : ℕ → Option (Fin 4095)) :
    ℕ → ℕ → BitVec 32 → List Segment
  | 0, _, _ => []
  | n + 1, c, off =>
    let ph := ProgHeader.decode (slice file (off.signExtend 64) 56)
    if ph.type ≠ ELF_PROG_LOAD then segmentsFrom file fault n (c + 1) (off + 56)
    else ⟨ph, fault (c + 1)⟩ :: segmentsFrom file fault n (c + 2) (off + 56)

def segments (file : List Byte) (fault : ℕ → Option (Fin 4095)) (ehdr : ElfHeader)
    (s : LoadState) : List Segment :=
  segmentsFrom file fault ehdr.phnum.toNat s.reads.length (ehdr.phoff.setWidth 32)

def Segment.block (file : List Byte) (seg : Segment) : Word × List Byte :=
  (seg.ph.vaddr, transferred file seg.fault seg.ph.memsz seg.ph.off)

/-- What the checks of the loop say of a segment that passed them. -/
structure Segment.Accepted (file : List Byte) (seg : Segment) : Prop where
  filesz_le : seg.ph.filesz.toNat ≤ seg.ph.memsz.toNat
  in_range : seg.ph.vaddr.toNat + seg.ph.memsz.toNat < 2 ^ 64
  full : seg.fault = none → (slice file seg.ph.off seg.ph.memsz.toNat).length = seg.ph.memsz.toNat

theorem loadSegment_ok {ph : ProgHeader}
    (h : loadSegment (plainHost file fault) ph s = .ok () s') :
    Segment.Accepted file ⟨ph, fault s.reads.length⟩ ∧
      s'.mem = write s.mem ph.vaddr (transferred file (fault s.reads.length) ph.memsz ph.off) ∧
      s'.reads.length = s.reads.length + 1 := by
  rw [loadSegment] at h
  split_ifs at h with hsize hwrap
  · cases h
  · cases h
  rw [bind_of_ok (elfFpreadTo_run _ _ _ _ _)] at h
  split_ifs at h with hr
  · cases h
  injection h with _ hs
  have hr := not_not.mp hr
  refine ⟨⟨by bv_omega, by bv_omega, fun hf => (plainHost_ret_of_none _ _ hf).mp hr⟩, ?_, ?_⟩
  · rw [← hs, stored_mem, plainHost_bytes]
    rfl
  · rw [← hs, stored_reads, logged_calls]

/-- The loop writes the blocks of the segments in the order of the table, and
comes to its end only when it accepted all of them. -/
theorem elfLoadLoop_ok (n : ℕ) (off : BitVec 32)
    (h : elfLoadLoop (plainHost file fault) n off s = .ok () s') :
    s'.mem = writeAll s.mem
        ((segmentsFrom file fault n s.reads.length off).map (Segment.block file)) ∧
      ∀ seg ∈ segmentsFrom file fault n s.reads.length off, seg.Accepted file := by
  induction n generalizing off s with
  | zero =>
    injection h with _ hs
    subst hs
    simp [segmentsFrom]
  | succ n ih =>
    have h56 : (56 : Word).toNat = 56 := rfl
    rw [elfLoadLoop, bind_of_ok (elfFpread_run _ _ _ _)] at h
    split_ifs at h with hret htype
    · cases h
    all_goals
      -- 56 is no error code, so the header is the one in the file
      obtain ⟨hf, -⟩ := (plainHost_ret_iff (by decide)).mp (not_not.mp hret)
      simp only [plainHost_bytes, hf, transferred, h56] at h htype
    · have hrest := ih _ h
      simp only [logged_calls, logged_mem] at hrest
      rw [segmentsFrom, if_pos htype]
      exact hrest
    · obtain ⟨⟨⟩, t, hseg, h⟩ := bind_eq_ok.mp h
      obtain ⟨hacc, hmem, hcalls⟩ := loadSegment_ok hseg
      obtain ⟨hrest, hall⟩ := ih _ h
      simp only [logged_calls, logged_mem] at hacc hmem hcalls
      rw [hcalls] at hrest hall
      rw [segmentsFrom, if_neg htype, List.map_cons, writeAll_cons]
      refine ⟨?_, ?_⟩
      · rw [hrest, hmem]
        rfl
      · intro seg hmem
        rcases List.mem_cons.mp hmem with rfl | hmem
        · exact hacc
        · exact hall seg hmem

/-- A segment as it should stand in memory: its file bytes, then zeroes up to `memsz`. -/
def SegmentImage (file : List Byte) (ph : ProgHeader) (m : Mem) : Prop :=
  (∀ i < ph.filesz.toNat,
      file[ph.off.toNat + i]? = some (m (ph.vaddr + BitVec.ofNat 64 i))) ∧
    ∀ i, ph.filesz.toNat ≤ i → i < ph.memsz.toNat → m (ph.vaddr + BitVec.ofNat 64 i) = 0

/-- Every segment stands in the new memory, and nothing else has changed. -/
structure LoadedImage (file : List Byte) (phs : List ProgHeader) (m m' : Mem) : Prop where
  image : ∀ ph ∈ phs, SegmentImage file ph m'
  frame : ∀ x, (∀ ph ∈ phs, ¬ InBlock ph.vaddr ph.memsz.toNat x) → m' x = m x

def DisjointSegments (segs : List Segment) : Prop :=
  segs.Pairwise fun a b =>
    Apart a.ph.vaddr a.ph.memsz.toNat b.ph.vaddr b.ph.memsz.toNat

theorem disjoint_of_mem {segs : List Segment} (hdisj : DisjointSegments segs) {a b : Segment}
    (ha : a ∈ segs) (hb : b ∈ segs) (hne : a ≠ b) :
    Apart a.ph.vaddr a.ph.memsz.toNat b.ph.vaddr b.ph.memsz.toNat := by
  obtain ⟨i, hi, rfl⟩ := List.getElem_of_mem ha
  obtain ⟨j, hj, rfl⟩ := List.getElem_of_mem hb
  rcases lt_trichotomy i j with h | rfl | h
  · exact List.pairwise_iff_getElem.mp hdisj i j hi hj h
  · exact absurd rfl hne
  · exact (List.pairwise_iff_getElem.mp hdisj j i hj hi h).symm

/-- The file itself has zeroes behind the segment's `filesz` bytes.  A segment
whose read failed was accepted because its `memsz` is the error code; it is in
place only when memory had it from the start. -/
def Segment.Clean (file : List Byte) (m : Mem) (seg : Segment) : Prop :=
  match seg.fault with
  | none => ∀ i, seg.ph.filesz.toNat ≤ i → i < seg.ph.memsz.toNat →
      file[seg.ph.off.toNat + i]? = some 0
  | some _ => SegmentImage file seg.ph m

theorem segment_bytes {segs : List Segment} {m : Mem} {seg : Segment}
    (hdisj : DisjointSegments segs) (hseg : seg ∈ segs) (hacc : seg.Accepted file) {i : ℕ}
    (hi : i < seg.ph.memsz.toNat) :
    writeAll m (segs.map (Segment.block file)) (seg.ph.vaddr + BitVec.ofNat 64 i) =
      match seg.fault with
      | none => (file[seg.ph.off.toNat + i]?).getD 0
      | some _ => m (seg.ph.vaddr + BitVec.ofNat 64 i) := by
  have h64 : i < 2 ^ 64 := by have := seg.ph.memsz.isLt; omega
  have hin : InBlock seg.ph.vaddr seg.ph.memsz.toNat (seg.ph.vaddr + BitVec.ofNat 64 i) := by
    rw [InBlock, offset_ofNat _ h64]
    exact hi
  have hsub (c : Segment) {x : Word} (hx : InBlock (c.block file).1 (c.block file).2.length x) :
      InBlock c.ph.vaddr c.ph.memsz.toNat x :=
    lt_of_lt_of_le hx (transferred_length_le c.fault c.ph.memsz c.ph.off)
  cases hf : seg.fault with
  | none =>
    have hlen : (seg.block file).2.length = seg.ph.memsz.toNat := by
      simpa [Segment.block, hf, transferred] using hacc.full hf
    have hoff : offset (seg.block file).1 (seg.ph.vaddr + BitVec.ofNat 64 i) = i :=
      offset_ofNat seg.ph.vaddr h64
    -- no other segment covers this address
    have huniq : (segs.map (Segment.block file)).Pairwise fun c d =>
        ¬ (InBlock c.1 c.2.length (seg.ph.vaddr + BitVec.ofNat 64 i) ∧
          InBlock d.1 d.2.length (seg.ph.vaddr + BitVec.ofNat 64 i)) :=
      List.pairwise_map.mpr (hdisj.imp fun hab hx => hab _ (hsub _ hx.1) (hsub _ hx.2))
    have hbyte := writeAll_of_mem (m := m) (List.mem_map_of_mem hseg)
      (by rw [InBlock, hoff, hlen]; exact hi) huniq
    rw [hoff, Segment.block, hf] at hbyte
    rw [← slice_getElem? file seg.ph.off hi]
    change (slice file seg.ph.off seg.ph.memsz.toNat)[i]? = _ at hbyte
    rw [hbyte, Option.getD_some]
  | some e =>
    -- nothing was transferred for this segment, and no other one reaches it
    apply writeAll_of_not_mem
    intro b hb hx
    obtain ⟨c, hc, rfl⟩ := List.mem_map.mp hb
    by_cases hcs : c = seg
    · subst hcs
      simp [Segment.block, hf, transferred, InBlock] at hx
    · exact disjoint_of_mem hdisj hc hseg hcs _ (hsub c hx) hin

/-- The bytes of a segment come out right exactly when the segment is clean. -/
theorem segmentImage_iff {segs : List Segment} {m : Mem} {seg : Segment}
    (hdisj : DisjointSegments segs) (hseg : seg ∈ segs) (hacc : seg.Accepted file) :
    SegmentImage file seg.ph (writeAll m (segs.map (Segment.block file))) ↔ seg.Clean file m := by
  have hbytes {i : ℕ} (hi : i < seg.ph.memsz.toNat) := segment_bytes (m := m) hdisj hseg hacc hi
  have hle := hacc.filesz_le
  cases hf : seg.fault with
  | none =>
    have hlen := hacc.full hf
    have hget {i : ℕ} (hi : i < seg.ph.memsz.toNat) :
        file[seg.ph.off.toNat + i]? = some ((file[seg.ph.off.toNat + i]?).getD 0) := by
      rw [← slice_getElem? file seg.ph.off hi, List.getElem?_eq_getElem (by omega),
        Option.getD_some]
    simp only [hf] at hbytes
    simp only [SegmentImage, Segment.Clean, hf]
    constructor
    · rintro ⟨-, hzero⟩ i hi hi'
      rw [hget hi', ← hbytes hi', hzero i hi hi']
    · intro hclean
      refine ⟨fun i hi => ?_, fun i hi hi' => ?_⟩
      · rw [hbytes (by omega)]
        exact hget (by omega)
      · rw [hbytes hi', hclean i hi hi']
        rfl
  | some e =>
    simp only [hf] at hbytes
    simp only [SegmentImage, Segment.Clean, hf]
    refine and_congr (forall₂_congr fun i hi => ?_) (forall₃_congr fun i hi hi' => ?_)
    · rw [hbytes (by omega)]
    · rw [hbytes hi']

/-- A run that returns `EL_OK` builds the image of the file exactly when every
segment is clean: the file has zeroes between `filesz` and `memsz`. -/
theorem elf_load_image_iff (file : List Byte) (fault : ℕ → Option (Fin 4095))
    (ehdr : ElfHeader) (s : LoadState)
    (hok : (elfLoad (plainHost file fault) ehdr s).1 = .EL_OK)
    (hdisj : DisjointSegments (segments file fault ehdr s)) :
    LoadedImage file ((segments file fault ehdr s).map Segment.ph) s.mem
        (elfLoad (plainHost file fault) ehdr s).2.mem ↔
      ∀ seg ∈ segments file fault ehdr s, seg.Clean file s.mem := by
  obtain ⟨⟨⟩, t, hrun⟩ := statusOf_eq_ok.mp hok
  have ht : (elfLoad (plainHost file fault) ehdr s).2 = t := by
    rw [elfLoad, hrun]
    rfl
  obtain ⟨hmem, hacc⟩ := elfLoadLoop_ok _ _ hrun
  change t.mem = writeAll s.mem ((segments file fault ehdr s).map (Segment.block file)) at hmem
  rw [ht, hmem]
  constructor
  · intro himage seg hseg
    exact (segmentImage_iff hdisj hseg (hacc seg hseg)).mp
      (himage.image _ (List.mem_map_of_mem hseg))
  · intro hclean
    refine ⟨?_, ?_⟩
    · intro ph hph
      obtain ⟨seg, hseg, rfl⟩ := List.mem_map.mp hph
      exact (segmentImage_iff hdisj hseg (hacc seg hseg)).mpr (hclean seg hseg)
    · intro x hx
      apply writeAll_of_not_mem
      intro b hb hxb
      obtain ⟨seg, hseg, rfl⟩ := List.mem_map.mp hb
      exact hx seg.ph (List.mem_map_of_mem hseg)
        (lt_of_lt_of_le hxb (transferred_length_le seg.fault seg.ph.memsz seg.ph.off))

/-- A file with one segment of two bytes at `0x81000000`.  The first byte is the
segment's own, the second lies behind its `filesz`. -/
def oneSegmentFile (behind : Byte) : List Byte :=
  toLE 4 0x464C457F ++ toLE 28 0 ++ toLE 8 64 ++ toLE 14 0 ++ toLE 2 56 ++ toLE 2 1 ++ toLE 6 0 ++
    (toLE 4 1 ++ toLE 4 0 ++ toLE 8 120 ++ toLE 8 0x81000000 ++ toLE 8 0 ++ toLE 8 1 ++
      toLE 8 2 ++ toLE 8 0) ++ [0xAA, behind]

def freshState : LoadState := ⟨fun _ => 0, [], []⟩

theorem elf_load_image_zero_behind :
    LoadedImage (oneSegmentFile 0) ((segments (oneSegmentFile 0) (fun _ => none)
      (ElfHeader.decode (oneSegmentFile 0)) freshState).map Segment.ph) freshState.mem
      (elfLoad (plainHost (oneSegmentFile 0) fun _ => none)
        (ElfHeader.decode (oneSegmentFile 0)) freshState).2.mem := by
  have hdisj : DisjointSegments (segments (oneSegmentFile 0) (fun _ => none)
      (ElfHeader.decode (oneSegmentFile 0)) freshState) := List.pairwise_singleton _ _
  refine (elf_load_image_iff _ _ _ _ (by decide) hdisj).mpr ?_
  intro seg hseg
  rw [List.mem_singleton.mp hseg]
  intro i hlo hhi
  have hi : i = 1 := Nat.le_antisymm (Nat.le_of_lt_succ hhi) hlo
  subst hi
  rfl

/-- With another byte there, the loader returns `EL_OK` and leaves that byte in
the place of a zero. -/
theorem elf_load_bss_not_zeroed :
    (elfLoad (plainHost (oneSegmentFile 0xBB) fun _ => none)
        (ElfHeader.decode (oneSegmentFile 0xBB)) freshState).1 = .EL_OK ∧
      DisjointSegments (segments (oneSegmentFile 0xBB) (fun _ => none)
        (ElfHeader.decode (oneSegmentFile 0xBB)) freshState) ∧
      ¬ LoadedImage (oneSegmentFile 0xBB) ((segments (oneSegmentFile 0xBB) (fun _ => none)
        (ElfHeader.decode (oneSegmentFile 0xBB)) freshState).map Segment.ph) freshState.mem
        (elfLoad (plainHost (oneSegmentFile 0xBB) fun _ => none)
          (ElfHeader.decode (oneSegmentFile 0xBB)) freshState).2.mem := by
  refine ⟨by decide, List.pairwise_singleton _ _, ?_⟩
  intro h
  have hzero := (h.image ⟨1, 120, 0x81000000, 1, 2⟩ (by decide)).2 1 (by decide) (by decide)
  exact absurd hzero (by decide)

end ProxyKernel.Elf
