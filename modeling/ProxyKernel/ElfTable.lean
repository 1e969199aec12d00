import ProxyKernel.ElfImage

namespace ProxyKernel.Elf
open ByteMem Effect

structure Round where
  off : BitVec 32
  header : Reply
  segment : Option Reply

def Round.ph (r : Round) : ProgHeader := ProgHeader.decode (r.header.bytes 56)

structure Round.Passes (r : Round) : Prop where
  header : r.header.ret 56 = 56
  filesz_le : r.segment.isSome → ¬ r.ph.memsz < r.ph.filesz
  no_wrap : r.segment.isSome → ¬ r.ph.vaddr + r.ph.memsz < r.ph.vaddr
  segment : ∀ reply ∈ r.segment, reply.ret r.ph.memsz = r.ph.memsz

def Round.reads (r : Round) : List Read :=
  ⟨56, r.off.signExtend 64, r.header⟩ :: r.segment.toList.map fun q => ⟨r.ph.memsz, r.ph.off, q⟩

def roundAt (host : Host) (c : ℕ) (off : BitVec 32) : Round :=
  let header := host c 56 (off.signExtend 64)
  let ph := ProgHeader.decode (header.bytes 56)
  ⟨off, header, if ph.type ≠ ELF_PROG_LOAD then none else some (host (c + 1) ph.memsz ph.off)⟩

def rounds (host : Host) : ℕ → ℕ → BitVec 32 → List Round
  | 0, _, _ => []
  | n + 1, c, off =>
    roundAt host c off :: rounds host n (c + (roundAt host c off).reads.length) (off + 56)

def LoadState.after (s : LoadState) (r : Round) : LoadState :=
  let u := s.logged 56 (r.off.signExtend 64) r.header
  match r.segment with
  | none => u
  | some q => (u.logged r.ph.memsz r.ph.off q).stored r.ph.vaddr (q.bytes r.ph.memsz)

theorem after_reads (s : LoadState) (r : Round) : (s.after r).reads = s.reads ++ r.reads := by
  unfold LoadState.after Round.reads
  cases r.segment with
  | none => rfl
  | some q => simp [LoadState.logged, LoadState.stored]

variable {host : Host} {s t : LoadState} {n : ℕ} {off : BitVec 32}

theorem loadSegment_run (host : Host) (ph : ProgHeader) : loadSegment host ph s =
    let q := host s.reads.length ph.memsz ph.off
    let u := (s.logged ph.memsz ph.off q).stored ph.vaddr (q.bytes ph.memsz)
    if ph.memsz < ph.filesz then .error elErr s
    else if ph.vaddr + ph.memsz < ph.vaddr then .error elErr s
    else if q.ret ph.memsz ≠ ph.memsz then .error eio u else .ok () u := by
  rw [loadSegment]
  dsimp only
  split_ifs with hsize hwrap hret
  · rfl
  · rfl
  · rw [bind_of_ok (elfFpreadTo_run _ _ _ _ _), if_pos hret]
    rfl
  · rw [bind_of_ok (elfFpreadTo_run _ _ _ _ _), if_neg hret]
    rfl

theorem elfLoadLoop_succ : elfLoadLoop host (n + 1) off s =
    let r := roundAt host s.reads.length off
    let u := s.logged 56 (off.signExtend 64) r.header
    if r.header.ret 56 ≠ 56 then .error eio u
    else if r.ph.type ≠ ELF_PROG_LOAD then elfLoadLoop host n (off + 56) u
    else (loadSegment host r.ph >>= fun _ => elfLoadLoop host n (off + 56)) u := by
  have hr : (roundAt host s.reads.length off).header = host s.reads.length 56 (off.signExtend 64) := rfl
  rw [elfLoadLoop, bind_of_ok (elfFpread_run _ _ _ _)]
  dsimp only
  rw [Round.ph, hr]
  split_ifs <;> rfl

theorem elfLoadLoop_succ_of_passes (h : (roundAt host s.reads.length off).Passes) :
    elfLoadLoop host (n + 1) off s =
      elfLoadLoop host n (off + 56) (s.after (roundAt host s.reads.length off)) := by
  rw [elfLoadLoop_succ]
  dsimp only
  rw [if_neg (not_not.mpr h.header)]
  unfold LoadState.after
  by_cases htype : (roundAt host s.reads.length off).ph.type ≠ ELF_PROG_LOAD
  · have hseg : (roundAt host s.reads.length off).segment = none := if_pos htype
    rw [if_pos htype, hseg]
    rfl
  · have hseg : (roundAt host s.reads.length off).segment =
        some (host (s.reads.length + 1) (roundAt host s.reads.length off).ph.memsz
          (roundAt host s.reads.length off).ph.off) := if_neg htype
    have hsize := h.filesz_le (by rw [hseg]; rfl)
    have hwrap := h.no_wrap (by rw [hseg]; rfl)
    have hret := h.segment _ hseg
    have hload := loadSegment_run host (s := s.logged 56 (off.signExtend 64)
      (roundAt host s.reads.length off).header) (roundAt host s.reads.length off).ph
    dsimp only at hload
    rw [logged_calls, if_neg hsize, if_neg hwrap, if_neg (not_not.mpr hret)] at hload
    rw [if_neg htype, bind_of_ok hload, hseg]
    rfl

theorem elfLoadLoop_succ_of_not_passes (h : ¬ (roundAt host s.reads.length off).Passes) :
    ∃ e u, elfLoadLoop host (n + 1) off s = .error e u := by
  rw [elfLoadLoop_succ]
  dsimp only
  split_ifs with hret htype
  · exact ⟨_, _, rfl⟩
  · -- a header of another type has nothing more to pass
    have hseg : (roundAt host s.reads.length off).segment = none := if_pos htype
    exact absurd ⟨not_not.mp hret, by simp [hseg], by simp [hseg], by simp [hseg]⟩ h
  · have hseg : (roundAt host s.reads.length off).segment =
        some (host (s.reads.length + 1) (roundAt host s.reads.length off).ph.memsz
          (roundAt host s.reads.length off).ph.off) := if_neg htype
    rw [bind_run, loadSegment_run]
    dsimp only
    rw [logged_calls]
    split_ifs with hsize hwrap hfull
    · exact ⟨_, _, rfl⟩
    · exact ⟨_, _, rfl⟩
    · exact ⟨_, _, rfl⟩
    · refine absurd ⟨not_not.mp hret, fun _ => hsize, fun _ => hwrap, ?_⟩ h
      rw [hseg]
      simpa using hfull

/-- The loop comes to its end exactly when all rounds pass. -/
theorem elfLoadLoop_ok_iff : (∃ t, elfLoadLoop host n off s = .ok () t) ↔
    ∀ r ∈ rounds host n s.reads.length off, r.Passes := by
  induction n generalizing off s with
  | zero => simp [rounds, elfLoadLoop]
  | succ n ih =>
    rw [rounds, List.forall_mem_cons]
    by_cases h : (roundAt host s.reads.length off).Passes
    · rw [elfLoadLoop_succ_of_passes h, ih, after_reads, List.length_append]
      simp [h]
    · obtain ⟨e, u, hu⟩ := elfLoadLoop_succ_of_not_passes (n := n) h
      simp [hu, h]

theorem elfLoadLoop_reads (h : elfLoadLoop host n off s = .ok () t) :
    t.reads = s.reads ++ (rounds host n s.reads.length off).flatMap Round.reads := by
  induction n generalizing off s with
  | zero =>
    injection h with _ h
    simp [rounds, h]
  | succ n ih =>
    by_cases hpass : (roundAt host s.reads.length off).Passes
    · rw [elfLoadLoop_succ_of_passes hpass] at h
      rw [ih h, after_reads, List.length_append, rounds, List.flatMap_cons, List.append_assoc]
    · obtain ⟨e, u, hu⟩ := elfLoadLoop_succ_of_not_passes (n := n) hpass
      rw [hu] at h
      cases h

def tableRounds (host : Host) (ehdr : ElfHeader) (s : LoadState) : List Round :=
  rounds host ehdr.phnum.toNat s.reads.length (ehdr.phoff.setWidth 32)

theorem elfLoad_ok_iff {ehdr : ElfHeader} : (elfLoad host ehdr s).1 = .EL_OK ↔
    ∀ r ∈ tableRounds host ehdr s, r.Passes := by
  rw [tableRounds, ← elfLoadLoop_ok_iff]
  refine statusOf_eq_ok.trans ?_
  constructor
  · rintro ⟨_, t, h⟩
    exact ⟨t, h⟩
  · rintro ⟨t, h⟩
    exact ⟨(), t, h⟩

def Read.Complete (rd : Read) : Prop := (rd.reply.bytes rd.size).length = rd.size.toNat

/-- The segment's read fails, with an error whose code is the segment's size. -/
def Round.Masked (r : Round) : Prop :=
  ∃ e : Fin 4095, r.segment = some (.error e) ∧ r.ph.memsz = -BitVec.ofNat 64 (e.val + 1)

/-- `EL_OK` is returned only when every read of the run was complete. -/
def NoFalseSuccess (host : Host) (ehdr : ElfHeader) (s : LoadState) : Prop :=
  (elfLoad host ehdr s).1 = .EL_OK →
    ∀ rd ∈ (elfLoad host ehdr s).2.reads.drop s.reads.length, rd.Complete

theorem complete_of_ret {bs : List Byte} {size : Word} (h : (Reply.data bs).ret size = size) :
    ((Reply.data bs).bytes size).length = size.toNat := by
  have hle : (bs.take size.toNat).length ≤ size.toNat := List.length_take_le _ _
  have hlt := size.isLt
  have hret := congrArg BitVec.toNat h
  rwa [Reply.ret, BitVec.toNat_ofNat, Nat.mod_eq_of_lt (by omega)] at hret

/-- A read that returns a size below the error codes is complete. -/
theorem complete_of_small {q : Reply} {size : Word} (h : q.ret size = size)
    (hsize : size.toNat < 2 ^ 32) : (q.bytes size).length = size.toNat := by
  cases q with
  | data bs => exact complete_of_ret h
  | error e =>
    have he := e.isLt
    simp only [Reply.ret] at h
    bv_omega

theorem Round.Passes.complete {r : Round} (h : r.Passes) (hmask : ¬ r.Masked) :
    ∀ rd ∈ r.reads, rd.Complete := by
  intro rd hrd
  rcases List.mem_cons.mp hrd with rfl | hrd
  · exact complete_of_small h.header (by decide : (56 : Word).toNat < 2 ^ 32)
  · obtain ⟨q, hq, rfl⟩ := List.mem_map.mp hrd
    have hq : r.segment = some q := Option.mem_toList.mp hq
    have hret := h.segment q hq
    cases q with
    | data bs => exact complete_of_ret hret
    | error e => exact absurd ⟨e, hq, hret.symm⟩ hmask

theorem Round.Masked.not_complete {r : Round} (h : r.Masked) : ∃ rd ∈ r.reads, ¬ rd.Complete := by
  obtain ⟨e, hseg, hsize⟩ := h
  have he := e.isLt
  refine ⟨⟨r.ph.memsz, r.ph.off, .error e⟩, by simp [Round.reads, hseg], ?_⟩
  intro hc
  have hlen : r.ph.memsz.toNat = 0 := hc.symm
  rw [hsize] at hlen
  bv_omega

theorem elfLoad_reads {ehdr : ElfHeader} (h : (elfLoad host ehdr s).1 = .EL_OK) :
    (elfLoad host ehdr s).2.reads.drop s.reads.length =
      (tableRounds host ehdr s).flatMap Round.reads := by
  obtain ⟨⟨⟩, t, hrun⟩ := statusOf_eq_ok.mp h
  have hfinal : (elfLoad host ehdr s).2 = t := by
    rw [elfLoad, hrun]
    rfl
  rw [hfinal, elfLoadLoop_reads hrun, List.drop_left]
  rfl

/-- A failed read is taken for a success exactly when all rounds pass and one of
them has a failed read whose error code is its `memsz`. -/
theorem elf_load_false_success_iff (host : Host) (ehdr : ElfHeader) (s : LoadState) :
    NoFalseSuccess host ehdr s ↔
      ¬ ((∀ r ∈ tableRounds host ehdr s, r.Passes) ∧ ∃ r ∈ tableRounds host ehdr s, r.Masked) := by
  constructor
  · rintro hno ⟨hpass, r, hr, hmask⟩
    have hok := elfLoad_ok_iff.mpr hpass
    obtain ⟨rd, hrd, hbad⟩ := hmask.not_complete
    apply hbad
    apply hno hok
    rw [elfLoad_reads hok]
    exact List.mem_flatMap.mpr ⟨r, hr, hrd⟩
  · intro hno hok rd hrd
    rw [elfLoad_reads hok] at hrd
    obtain ⟨r, hr, hrd⟩ := List.mem_flatMap.mp hrd
    have hpass := elfLoad_ok_iff.mp hok
    exact (hpass r hr).complete (fun hmask => hno ⟨hpass, r, hr, hmask⟩) rd hrd

def hugeHeader : List Byte := toLE 4 1 ++ toLE 36 0 ++ toLE 8 (2 ^ 64 - 5) ++ toLE 8 0

def failingHost : Host := fun n _ _ => if n = 0 then .data hugeHeader else .error 4

def oneHeader : ElfHeader where
  magic := ELF_MAGIC
  entry := 0
  phoff := 64
  shoff := 0
  phentsize := 56
  phnum := 1
  shentsize := 0
  shnum := 0

theorem elf_load_error_accepted : (elfLoad failingHost oneHeader freshState).1 = .EL_OK ∧
    ¬ NoFalseSuccess failingHost oneHeader freshState := by
  have hok : (elfLoad failingHost oneHeader freshState).1 = .EL_OK := by decide
  refine ⟨hok, fun hno => ?_⟩
  have hmask : (roundAt failingHost 0 64).Masked := ⟨4, by decide, by decide⟩
  obtain ⟨rd, hrd, hbad⟩ := hmask.not_complete
  apply hbad
  apply hno hok
  rw [elfLoad_reads hok]
  exact List.mem_flatMap.mpr ⟨_, List.mem_singleton_self _, hrd⟩

/-- The `n` bytes from `off` on lie in the file. -/
def InFile (file : List Byte) (off n : ℕ) : Prop := ∀ k < n, off + k < file.length

instance (file : List Byte) (off n : ℕ) : Decidable (InFile file off n) :=
  inferInstanceAs (Decidable (∀ k < n, off + k < file.length))

def headerAt (file : List Byte) (o : ℕ) : ProgHeader := ProgHeader.decode ((file.drop o).take 56)

/-- The offset of the `i`-th round: the `int` of the loop, widened. -/
def visitedOff (ehdr : ElfHeader) (i : ℕ) : Word :=
  (ehdr.phoff.setWidth 32 + BitVec.ofNat 32 (56 * i)).signExtend 64

/-- A header at `o` with which the loop goes on. -/
structure Loadable (file : List Byte) (o : ℕ) : Prop where
  inside : InFile file o 56
  filesz_le : (headerAt file o).type = ELF_PROG_LOAD →
    (headerAt file o).filesz.toNat ≤ (headerAt file o).memsz.toNat
  in_range : (headerAt file o).type = ELF_PROG_LOAD →
    (headerAt file o).vaddr.toNat + (headerAt file o).memsz.toNat < 2 ^ 64
  bytes : (headerAt file o).type = ELF_PROG_LOAD →
    InFile file (headerAt file o).off.toNat (headerAt file o).memsz.toNat

/-- A valid executable: only `filesz` bytes of a segment need to be in the file. -/
structure ValidExecutable (file : List Byte) (ehdr : ElfHeader) : Prop where
  table : ∀ i < ehdr.phnum.toNat, InFile file (ehdr.phoff.toNat + 56 * i) 56
  filesz_le : ∀ i < ehdr.phnum.toNat,
    (headerAt file (ehdr.phoff.toNat + 56 * i)).type = ELF_PROG_LOAD →
      (headerAt file (ehdr.phoff.toNat + 56 * i)).filesz.toNat ≤
        (headerAt file (ehdr.phoff.toNat + 56 * i)).memsz.toNat
  in_range : ∀ i < ehdr.phnum.toNat,
    (headerAt file (ehdr.phoff.toNat + 56 * i)).type = ELF_PROG_LOAD →
      (headerAt file (ehdr.phoff.toNat + 56 * i)).vaddr.toNat +
        (headerAt file (ehdr.phoff.toNat + 56 * i)).memsz.toNat < 2 ^ 64
  bytes : ∀ i < ehdr.phnum.toNat,
    (headerAt file (ehdr.phoff.toNat + 56 * i)).type = ELF_PROG_LOAD →
      InFile file (headerAt file (ehdr.phoff.toNat + 56 * i)).off.toNat
        (headerAt file (ehdr.phoff.toNat + 56 * i)).filesz.toNat

theorem slice_full_iff (file : List Byte) (off : Word) (n : ℕ) :
    (slice file off n).length = n ↔ InFile file off.toNat n := by
  have hlen : (slice file off n).length = min n (file.length - off.toNat) := by simp [slice]
  rw [hlen, InFile]
  constructor
  · intro h k hk
    omega
  · intro h
    cases n with
    | zero => simp
    | succ n =>
      have := h n (by omega)
      omega

variable {file : List Byte}

/-- A host without errors serves a read exactly when the file holds its bytes. -/
theorem plainHost_ret_iff_inFile (c : ℕ) (nb off : Word) :
    (plainHost file (fun _ => none) c nb off).ret nb = nb ↔ InFile file off.toNat nb.toNat :=
  (plainHost_ret_of_none nb off rfl).trans (slice_full_iff file off nb.toNat)

theorem roundAt_passes_iff (c : ℕ) (off : BitVec 32) :
    (roundAt (plainHost file fun _ => none) c off).Passes ↔
      Loadable file (off.signExtend 64).toNat := by
  have hph : (roundAt (plainHost file fun _ => none) c off).ph =
      headerAt file (off.signExtend 64).toNat := by
    simp [roundAt, Round.ph, headerAt, plainHost_bytes, transferred, slice]
  have hhead : (roundAt (plainHost file fun _ => none) c off).header.ret 56 = 56 ↔
      InFile file (off.signExtend 64).toNat 56 := plainHost_ret_iff_inFile c 56 _
  have hseg : (roundAt (plainHost file fun _ => none) c off).segment =
      if (headerAt file (off.signExtend 64).toNat).type ≠ ELF_PROG_LOAD then none
      else some (plainHost file (fun _ => none) (c + 1)
        (headerAt file (off.signExtend 64).toNat).memsz
        (headerAt file (off.signExtend 64).toNat).off) := by
    rw [← hph]
    rfl
  have hwrap (a b : Word) : ¬ a + b < a ↔ a.toNat + b.toNat < 2 ^ 64 := by
    constructor <;> intro h <;> bv_omega
  constructor
  · intro h
    have hmem (htype : (headerAt file (off.signExtend 64).toNat).type = ELF_PROG_LOAD) :
        (roundAt (plainHost file fun _ => none) c off).segment.isSome := by
      rw [hseg, if_neg (not_not.mpr htype)]
      rfl
    refine ⟨hhead.mp h.header, fun htype => ?_, fun htype => ?_, fun htype => ?_⟩
    · have := h.filesz_le (hmem htype)
      rw [hph] at this
      exact not_lt.mp this
    · have := h.no_wrap (hmem htype)
      rwa [hph, hwrap] at this
    · have := h.segment _ (by rw [hseg, if_neg (not_not.mpr htype)]; rfl)
      rwa [hph, plainHost_ret_iff_inFile] at this
  · intro h
    have htype (hs : (roundAt (plainHost file fun _ => none) c off).segment.isSome) :
        (headerAt file (off.signExtend 64).toNat).type = ELF_PROG_LOAD := by
      by_contra hne
      rw [hseg, if_pos hne] at hs
      cases hs
    refine ⟨hhead.mpr h.inside, fun hs => ?_, fun hs => ?_, fun q hq => ?_⟩
    · rw [hph]
      exact not_lt.mpr (h.filesz_le (htype hs))
    · rw [hph, hwrap]
      exact h.in_range (htype hs)
    · have ht := htype (Option.isSome_of_mem hq)
      rw [hseg, if_neg (not_not.mpr ht)] at hq
      rw [hph, ← Option.mem_some.mp hq, plainHost_ret_iff_inFile]
      exact h.bytes ht

theorem rounds_pass_iff (n c : ℕ) (off : BitVec 32) :
    (∀ r ∈ rounds (plainHost file fun _ => none) n c off, r.Passes) ↔
      ∀ i < n, Loadable file ((off + BitVec.ofNat 32 (56 * i)).signExtend 64).toNat := by
  induction n generalizing c off with
  | zero => simp [rounds]
  | succ n ih =>
    have hnext (i : ℕ) : off + 56 + BitVec.ofNat 32 (56 * i) = off + BitVec.ofNat 32 (56 * (i + 1)) := by
      bv_omega
    rw [rounds, List.forall_mem_cons, roundAt_passes_iff, ih, Nat.forall_lt_succ_left]
    simp only [hnext, Nat.mul_zero, BitVec.add_zero]

/-- The offset as a number: bit 31 of the `int` is its sign. -/
theorem visitedOff_toNat (ehdr : ElfHeader) (i : ℕ) : (visitedOff ehdr i).toNat =
    if (ehdr.phoff.toNat + 56 * i) % 2 ^ 32 < 2 ^ 31 then (ehdr.phoff.toNat + 56 * i) % 2 ^ 32
    else (ehdr.phoff.toNat + 56 * i) % 2 ^ 32 + (2 ^ 64 - 2 ^ 32) := by
  have hx : (ehdr.phoff.setWidth 32 + BitVec.ofNat 32 (56 * i)).toNat =
      (ehdr.phoff.toNat + 56 * i) % 2 ^ 32 := by
    simp [BitVec.toNat_add, BitVec.toNat_setWidth, BitVec.toNat_ofNat]
  have hmsb : (ehdr.phoff.setWidth 32 + BitVec.ofNat 32 (56 * i)).msb =
      decide (2 ^ 31 ≤ (ehdr.phoff.toNat + 56 * i) % 2 ^ 32) := by
    rw [BitVec.msb_eq_decide, hx]
  rw [visitedOff, BitVec.toNat_signExtend, hmsb, BitVec.toNat_setWidth, hx]
  split_ifs with h1 h2
  all_goals simp only [decide_eq_true_eq] at *
  all_goals omega

/-- A valid executable is accepted exactly when the headers that the loop looks
at are loadable.  For a table below `2 ^ 31` these are the headers of the table,
and what is asked of a segment is that all of its `memsz` bytes are in the file. -/
theorem elf_load_accepts_iff (file : List Byte) (ehdr : ElfHeader) (s : LoadState)
    (hvalid : ValidExecutable file ehdr) :
    ((elfLoad (plainHost file fun _ => none) ehdr s).1 = .EL_OK ↔
      ∀ i < ehdr.phnum.toNat, Loadable file (visitedOff ehdr i).toNat) ∧
    (ehdr.phoff.toNat + 56 * ehdr.phnum.toNat ≤ 2 ^ 31 →
      ((elfLoad (plainHost file fun _ => none) ehdr s).1 = .EL_OK ↔
        ∀ i < ehdr.phnum.toNat,
          (headerAt file (ehdr.phoff.toNat + 56 * i)).type = ELF_PROG_LOAD →
            InFile file (headerAt file (ehdr.phoff.toNat + 56 * i)).off.toNat
              (headerAt file (ehdr.phoff.toNat + 56 * i)).memsz.toNat)) := by
  have hiff : (elfLoad (plainHost file fun _ => none) ehdr s).1 = .EL_OK ↔
      ∀ i < ehdr.phnum.toNat, Loadable file (visitedOff ehdr i).toNat :=
    elfLoad_ok_iff.trans (rounds_pass_iff _ _ _)
  refine ⟨hiff, fun hlow => hiff.trans (forall₂_congr fun i hi => ?_)⟩
  have hoff : (visitedOff ehdr i).toNat = ehdr.phoff.toNat + 56 * i := by
    rw [visitedOff_toNat]
    split_ifs <;> omega
  rw [hoff]
  constructor
  · exact fun h => h.bytes
  · exact fun h => ⟨hvalid.table i hi, hvalid.filesz_le i hi, hvalid.in_range i hi, h⟩

theorem elf_load_accepts_full :
    (elfLoad (plainHost (oneSegmentFile 0) fun _ => none) oneHeader freshState).1 = .EL_OK := by
  have hvalid : ValidExecutable (oneSegmentFile 0) oneHeader :=
    ⟨by decide +kernel, by decide +kernel, by decide +kernel, by decide +kernel⟩
  apply ((elf_load_accepts_iff _ _ freshState hvalid).2 (by decide)).mpr
  decide +kernel

/-- Without the byte behind `filesz`, which belongs to the `bss` only. -/
theorem elf_load_rejects_bss : ValidExecutable ((oneSegmentFile 0).take 121) oneHeader ∧
    (elfLoad (plainHost ((oneSegmentFile 0).take 121) fun _ => none) oneHeader freshState).1 ≠
      .EL_OK :=
  ⟨⟨by decide +kernel, by decide +kernel, by decide +kernel, by decide +kernel⟩, by decide +kernel⟩

def LogGrows (s t : LoadState) : Prop := s.reads <+: t.reads

theorem LogGrows.trans (a b c : LoadState) (h : LogGrows a b) (h' : LogGrows b c) : LogGrows a c :=
  List.IsPrefix.trans h h'

theorem loadSegment_logGrows (ph : ProgHeader) : Always LogGrows (loadSegment host ph) := by
  intro s
  rw [loadSegment_run]
  dsimp only
  split_ifs
  · exact List.prefix_rfl
  · exact List.prefix_rfl
  · exact List.prefix_append _ _
  · exact List.prefix_append _ _

theorem elfLoadLoop_logGrows (n : ℕ) (off : BitVec 32) :
    Always LogGrows (elfLoadLoop host n off) := by
  induction n generalizing off with
  | zero => exact fun s => List.prefix_rfl
  | succ n ih =>
    intro s
    have hlog (q : Reply) : LogGrows s (s.logged 56 (off.signExtend 64) q) := List.prefix_append _ _
    rw [elfLoadLoop_succ]
    dsimp only
    split_ifs
    · exact hlog _
    · exact LogGrows.trans _ _ _ (hlog _) (ih _ _)
    · exact LogGrows.trans _ _ _ (hlog _)
        (Always.bind LogGrows.trans (loadSegment_logGrows _) (fun _ => ih _) _)

theorem elfLoadLoop_first (n : ℕ) (off : BitVec 32) (s : LoadState) :
    ∃ reply, (finalState (elfLoadLoop host (n + 1) off s)).reads[s.reads.length]? =
      some ⟨56, off.signExtend 64, reply⟩ := by
  have hrest (t : LoadState) (q : Reply)
      (h : LogGrows (s.logged 56 (off.signExtend 64) q) t) :
      t.reads[s.reads.length]? = some ⟨56, off.signExtend 64, q⟩ := by
    obtain ⟨l, hl⟩ := h
    rw [← hl]
    simp [LoadState.logged]
  refine ⟨(roundAt host s.reads.length off).header, hrest _ _ ?_⟩
  rw [elfLoadLoop_succ]
  dsimp only
  split_ifs
  · exact List.prefix_rfl
  · exact elfLoadLoop_logGrows _ _ _
  · exact Always.bind LogGrows.trans (loadSegment_logGrows _) (fun _ => elfLoadLoop_logGrows _ _) _

theorem elfLoadLoop_add {i : ℕ} (h : elfLoadLoop host i off s = .ok () t) (k : ℕ) :
    elfLoadLoop host (i + k) off s = elfLoadLoop host k (off + BitVec.ofNat 32 (56 * i)) t := by
  induction i generalizing off s with
  | zero =>
    injection h with _ h
    simp [h]
  | succ i ih =>
    have hnext : off + 56 + BitVec.ofNat 32 (56 * i) = off + BitVec.ofNat 32 (56 * (i + 1)) := by
      bv_omega
    by_cases hpass : (roundAt host s.reads.length off).Passes
    · rw [elfLoadLoop_succ_of_passes hpass] at h
      rw [Nat.add_right_comm, elfLoadLoop_succ_of_passes hpass, ih h, hnext]
    · obtain ⟨e, u, hu⟩ := elfLoadLoop_succ_of_not_passes (n := i) hpass
      rw [hu] at h
      cases h

/-- Whatever the host serves, each header that the loop gets to is read at its
place in the table that the ELF header describes. -/
def VisitsTable (ehdr : ElfHeader) : Prop :=
  ∀ (host : Host) (s t : LoadState) (i : ℕ), i < ehdr.phnum.toNat →
    elfLoadLoop host i (ehdr.phoff.setWidth 32) s = .ok () t →
      ∃ off reply, (elfLoad host ehdr s).2.reads[t.reads.length]? = some ⟨56, off, reply⟩ ∧
        off.toNat = ehdr.phoff.toNat + i * ehdr.phentsize.toNat

theorem elfLoad_visits {ehdr : ElfHeader} {i : ℕ} (hi : i < ehdr.phnum.toNat)
    (h : elfLoadLoop host i (ehdr.phoff.setWidth 32) s = .ok () t) :
    ∃ reply, (elfLoad host ehdr s).2.reads[t.reads.length]? = some ⟨56, visitedOff ehdr i, reply⟩ := by
  obtain ⟨k, hk⟩ := Nat.exists_eq_add_of_lt hi
  have hrun := elfLoadLoop_add h (k + 1)
  rw [← Nat.add_assoc, ← hk] at hrun
  unfold elfLoad
  dsimp only
  rw [hrun]
  exact elfLoadLoop_first k _ t

def blankHost : Host := fun _ _ _ => .data (List.replicate 56 0)

theorem elfLoadLoop_blank (n : ℕ) (off : BitVec 32) (s : LoadState) :
    ∃ t, elfLoadLoop blankHost n off s = .ok () t := by
  induction n generalizing off s with
  | zero => exact ⟨s, rfl⟩
  | succ n ih =>
    have hseg (c : ℕ) : (roundAt blankHost c off).segment = none := by rfl
    have hpass : (roundAt blankHost s.reads.length off).Passes :=
      ⟨by rfl, by simp [hseg], by simp [hseg], by simp [hseg]⟩
    rw [elfLoadLoop_succ_of_passes hpass]
    exact ih _ _

theorem visitsTable_iff {ehdr : ElfHeader} : VisitsTable ehdr ↔ ∀ i < ehdr.phnum.toNat,
    (visitedOff ehdr i).toNat = ehdr.phoff.toNat + i * ehdr.phentsize.toNat := by
  constructor
  · intro h i hi
    obtain ⟨t, ht⟩ := elfLoadLoop_blank i (ehdr.phoff.setWidth 32) freshState
    obtain ⟨off, reply, hread, hoff⟩ := h _ _ _ i hi ht
    obtain ⟨reply', hread'⟩ := elfLoad_visits hi ht
    rw [hread] at hread'
    injection hread' with hread'
    injection hread' with _ hsame
    rw [← hsame, hoff]
  · intro h host s t i hi ht
    obtain ⟨reply, hread⟩ := elfLoad_visits hi ht
    exact ⟨_, reply, hread, h i hi⟩

theorem visitedOff_eq_iff (ehdr : ElfHeader) (i : ℕ) (hi : i < 2 ^ 16) :
    (visitedOff ehdr i).toNat = ehdr.phoff.toNat + 56 * i ↔
      ehdr.phoff.toNat + 56 * i < 2 ^ 31 ∨
        2 ^ 64 - 2 ^ 31 ≤ ehdr.phoff.toNat + 56 * i ∧ ehdr.phoff.toNat + 56 * i < 2 ^ 64 := by
  have hlt := ehdr.phoff.isLt
  rw [visitedOff_toNat]
  split_ifs <;> omega

/-- Two rounds show whether the stride of the file is that of the loop. -/
theorem phentsize_of_visited {ehdr : ElfHeader}
    (h0 : (visitedOff ehdr 0).toNat = ehdr.phoff.toNat)
    (h1 : (visitedOff ehdr 1).toNat = ehdr.phoff.toNat + ehdr.phentsize.toNat) :
    ehdr.phentsize = 56 := by
  have hent := ehdr.phentsize.isLt
  rw [visitedOff_toNat] at h0 h1
  apply BitVec.eq_of_toNat_eq
  change ehdr.phentsize.toNat = 56
  split_ifs at h0 h1 <;> omega

/-- The table is found exactly when all its offsets survive the conversion to `int`
and its stride is that of the C structure. -/
theorem elf_load_visits_table_iff (ehdr : ElfHeader) :
    VisitsTable ehdr ↔ ehdr.phnum = 0 ∨
      ((ehdr.phnum = 1 ∨ ehdr.phentsize = 56) ∧
        (ehdr.phoff.toNat + 56 * (ehdr.phnum.toNat - 1) < 2 ^ 31 ∨
          2 ^ 64 - 2 ^ 31 ≤ ehdr.phoff.toNat ∧
            ehdr.phoff.toNat + 56 * (ehdr.phnum.toNat - 1) < 2 ^ 64)) := by
  rw [visitsTable_iff]
  have hnum := ehdr.phnum.isLt
  have hzero : ehdr.phnum = 0 ↔ ehdr.phnum.toNat = 0 := by simp [← BitVec.toNat_inj]
  have hone : ehdr.phnum = 1 ↔ ehdr.phnum.toNat = 1 := by simp [← BitVec.toNat_inj]
  rw [hzero, hone]
  constructor
  · intro h
    by_cases hn : ehdr.phnum.toNat = 0
    · exact .inl hn
    have h0 : (visitedOff ehdr 0).toNat = ehdr.phoff.toNat := by simpa using h 0 (by omega)
    have hstride : ehdr.phnum.toNat = 1 ∨ ehdr.phentsize = 56 := by
      by_cases h1 : ehdr.phnum.toNat = 1
      · exact .inl h1
      · exact .inr (phentsize_of_visited h0 (by simpa using h 1 (by omega)))
    refine .inr ⟨hstride, ?_⟩
    -- the first offset and the last one decide for all
    have hfirst := (visitedOff_eq_iff ehdr 0 (by omega)).mp (by simpa using h0)
    have hlast := (visitedOff_eq_iff ehdr (ehdr.phnum.toNat - 1) (by omega)).mp (by
      rw [h _ (by omega)]
      rcases hstride with h1 | h56
      · simp [h1]
      · rw [h56, Nat.mul_comm]
        rfl)
    omega
  · rintro (hn | ⟨hstride, hrange⟩) i hi
    · omega
    have hoff := (visitedOff_eq_iff ehdr i (by omega)).mpr (by omega)
    rw [hoff]
    rcases hstride with h1 | h56
    · obtain rfl : i = 0 := by omega
      simp
    · rw [h56, Nat.mul_comm]
      rfl

/-- A table of one header at offset `2 ^ 31`. -/
theorem elf_load_misses_high_table :
    ¬ VisitsTable { oneHeader with phoff := 0x80000000 } := by
  rw [visitsTable_iff]
  intro h
  exact absurd (h 0 (by decide)) (by decide)

end ProxyKernel.Elf
