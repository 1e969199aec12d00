import ProxyKernel.ElfImage

namespace ProxyKernel.Elf
open ByteMem Effect

/-- What the host's answer to a read of a section header is taken for. -/
def headerReply (host : Host) (ehdr : ElfHeader) (c : ℕ) (idx : BitVec 32) :
    Option SectionHeader :=
  if (host c 64 (sectionOffset ehdr idx)).ret 64 = 64 then
    some (SectionHeader.decode ((host c 64 (sectionOffset ehdr idx)).bytes 64))
  else none

variable {host : Host} {ehdr : ElfHeader} {s t : LoadState} {p : Word}

theorem getElfSectionHeader_reply (idx : BitVec 32) :
    getElfSectionHeader host ehdr idx s =
      .ok (headerReply host ehdr s.reads.length idx)
        (s.logged 64 (sectionOffset ehdr idx)
          (host s.reads.length 64 (sectionOffset ehdr idx))) := rfl

theorem index_succ (k : BitVec 32) (i : ℕ) :
    k + 1 + BitVec.ofNat 32 i = k + BitVec.ofNat 32 (i + 1) := by
  rw [add_assoc, BitVec.ofNat_add, add_comm 1]
  rfl

/-- The first `k` headers are read, and none is of a symbol table. -/
def ScanPasses (host : Host) (ehdr : ElfHeader) (c : ℕ) (i : BitVec 32) (k : ℕ) : Prop :=
  ∀ j < k, ∃ sect, headerReply host ehdr (c + j) (i + BitVec.ofNat 32 j) = some sect ∧
    sect.type ≠ SHT_SYMTAB

def ScanStops (host : Host) (ehdr : ElfHeader) (c : ℕ) (i : BitVec 32) (k : ℕ)
    (symHdr : SectionHeader) : Prop :=
  ScanPasses host ehdr c i k ∧
    headerReply host ehdr (c + k) (i + BitVec.ofNat 32 k) = some symHdr ∧
    symHdr.type = SHT_SYMTAB

theorem scanPasses_succ {c k : ℕ} {i : BitVec 32} :
    ScanPasses host ehdr c i (k + 1) ↔
      (∃ sect, headerReply host ehdr c i = some sect ∧ sect.type ≠ SHT_SYMTAB) ∧
        ScanPasses host ehdr (c + 1) (i + 1) k := by
  have hnext (j : ℕ) : headerReply host ehdr (c + 1 + j) (i + 1 + BitVec.ofNat 32 j) =
      headerReply host ehdr (c + (j + 1)) (i + BitVec.ofNat 32 (j + 1)) := by
    rw [index_succ, show c + 1 + j = c + (j + 1) by omega]
  unfold ScanPasses
  simp only [hnext]
  constructor
  · intro h
    exact ⟨by simpa using h 0 (by omega), fun j hj => h (j + 1) (by omega)⟩
  · rintro ⟨h0, h⟩ j hj
    cases j with
    | zero => simpa using h0
    | succ j => exact h j (by omega)

theorem scanStops_succ {c k : ℕ} {i : BitVec 32} {symHdr : SectionHeader} :
    ScanStops host ehdr c i (k + 1) symHdr ↔
      (∃ sect, headerReply host ehdr c i = some sect ∧ sect.type ≠ SHT_SYMTAB) ∧
        ScanStops host ehdr (c + 1) (i + 1) k symHdr := by
  rw [ScanStops, ScanStops, scanPasses_succ, index_succ,
    show c + 1 + k = c + (k + 1) by omega, and_assoc]

theorem scanStops_zero {c : ℕ} {i : BitVec 32} {symHdr : SectionHeader} :
    ScanStops host ehdr c i 0 symHdr ↔
      headerReply host ehdr c i = some symHdr ∧ symHdr.type = SHT_SYMTAB := by
  have hnone : ScanPasses host ehdr c i 0 := fun j hj => absurd hj (Nat.not_lt_zero j)
  simp [ScanStops, hnone]

theorem findSymtab_succ (n : ℕ) (i : BitVec 32) :
    findSymtab host ehdr (n + 1) i s =
      match headerReply host ehdr s.reads.length i with
      | none => .error .sectionHeader (s.logged 64 (sectionOffset ehdr i)
          (host s.reads.length 64 (sectionOffset ehdr i)))
      | some sect =>
        if sect.type = SHT_SYMTAB then .ok (some sect) (s.logged 64 (sectionOffset ehdr i)
          (host s.reads.length 64 (sectionOffset ehdr i)))
        else findSymtab host ehdr n (i + 1) (s.logged 64 (sectionOffset ehdr i)
          (host s.reads.length 64 (sectionOffset ehdr i))) := by
  rw [findSymtab, bind_of_ok (getElfSectionHeader_reply i)]
  cases headerReply host ehdr s.reads.length i with
  | none => rfl
  | some sect =>
    dsimp only
    split_ifs
    · rfl
    · rfl

/-- The scan keeps what it reads in a local variable. -/
theorem findSymtab_mem {n : ℕ} {i : BitVec 32} {r : Option SectionHeader}
    (h : findSymtab host ehdr n i s = .ok r t) : t.mem = s.mem := by
  induction n generalizing i s with
  | zero =>
    injection h with _ ht
    rw [ht]
  | succ n ih =>
    rw [findSymtab_succ] at h
    split at h
    · cases h
    · split_ifs at h
      · injection h with _ ht
        rw [← ht]
        rfl
      · have hmem := ih h
        rwa [logged_mem] at hmem

theorem findSymtab_none_iff {n : ℕ} {i : BitVec 32} :
    (∃ t, findSymtab host ehdr n i s = .ok none t) ↔
      ScanPasses host ehdr s.reads.length i n := by
  induction n generalizing i s with
  | zero =>
    constructor
    · intro _ j hj
      exact absurd hj (Nat.not_lt_zero j)
    · intro _
      exact ⟨s, rfl⟩
  | succ n ih =>
    rw [scanPasses_succ, findSymtab_succ]
    cases hr : headerReply host ehdr s.reads.length i with
    | none => simp
    | some sect =>
      by_cases htype : sect.type = SHT_SYMTAB
      · simp [htype]
      · simp only [htype, if_false, ih, logged_calls]
        simp [htype]

theorem findSymtab_some_iff {n : ℕ} {i : BitVec 32} {symHdr : SectionHeader} {c : ℕ} :
    (∃ t, findSymtab host ehdr n i s = .ok (some symHdr) t ∧ t.reads.length = c) ↔
      ∃ k < n, ScanStops host ehdr s.reads.length i k symHdr ∧
        c = s.reads.length + (k + 1) := by
  induction n generalizing i s with
  | zero =>
    constructor
    · rintro ⟨t, ht, -⟩
      cases ht
    · rintro ⟨k, hk, -⟩
      exact absurd hk (Nat.not_lt_zero k)
  | succ n ih =>
    have hsplit : (∃ k < n + 1, ScanStops host ehdr s.reads.length i k symHdr ∧
        c = s.reads.length + (k + 1)) ↔
        (ScanStops host ehdr s.reads.length i 0 symHdr ∧ c = s.reads.length + 1) ∨
        ∃ k < n, ScanStops host ehdr s.reads.length i (k + 1) symHdr ∧
          c = s.reads.length + (k + 1 + 1) := by
      constructor
      · rintro ⟨k, hk, hstop, hc⟩
        cases k with
        | zero => exact .inl ⟨hstop, hc⟩
        | succ k => exact .inr ⟨k, by omega, hstop, hc⟩
      · rintro (⟨hstop, hc⟩ | ⟨k, hk, hstop, hc⟩)
        · exact ⟨0, by omega, hstop, hc⟩
        · exact ⟨k + 1, by omega, hstop, hc⟩
    rw [hsplit, scanStops_zero, findSymtab_succ]
    simp only [scanStops_succ]
    cases hr : headerReply host ehdr s.reads.length i with
    | none => simp
    | some sect =>
      simp only [Option.some.injEq, exists_eq_left']
      by_cases htype : sect.type = SHT_SYMTAB
      · rw [if_pos htype]
        constructor
        · rintro ⟨t, ht, hc⟩
          injection ht with hsome ht
          injection hsome with hsect
          subst hsect ht
          exact .inl ⟨⟨rfl, htype⟩, by rw [← hc, logged_calls]⟩
        · rintro (⟨⟨rfl, -⟩, hc⟩ | ⟨k, -, ⟨hother, -⟩, -⟩)
          · exact ⟨_, rfl, by rw [hc, logged_calls]⟩
          · exact absurd htype hother
      · rw [if_neg htype, ih, logged_calls]
        constructor
        · rintro ⟨k, hk, hstop, hc⟩
          exact .inr ⟨k, hk, ⟨htype, hstop⟩, by omega⟩
        · rintro (⟨⟨rfl, hsym⟩, -⟩ | ⟨k, hk, ⟨-, hstop⟩, hc⟩)
          · exact absurd hsym htype
          · exact ⟨k, hk, hstop, by omega⟩

/-- The string table is read after the header that `link` points to. -/
def StringsReply (host : Host) (ehdr : ElfHeader) (c : ℕ) (link : BitVec 32) : Prop :=
  ∃ strHdr, headerReply host ehdr c link = some strHdr ∧
    strHdr.size.toNat ≤ MAX_USER_STRTAB ∧
    (host (c + 1) strHdr.size strHdr.off).ret strHdr.size = strHdr.size

theorem loadStrtab_ok_iff {link : BitVec 32} :
    (∃ t, loadStrtab host ehdr p link s = .ok () t) ↔
      StringsReply host ehdr s.reads.length link := by
  rw [loadStrtab, bind_of_ok (getElfSectionHeader_reply link), StringsReply]
  cases headerReply host ehdr s.reads.length link with
  | none =>
    constructor
    · rintro ⟨t, ht⟩
      cases ht
    · rintro ⟨strHdr, hr, -⟩
      cases hr
  | some strHdr =>
    simp only [Option.some.injEq, exists_eq_left']
    split_ifs with hsize
    · constructor
      · rintro ⟨t, ht⟩
        cases ht
      · rintro ⟨hle, -⟩
        exact absurd hle (not_le.mpr hsize)
    · rw [bind_of_ok (elfFpreadTo_run _ _ _ _ _), logged_calls]
      split_ifs with hret
      · constructor
        · rintro ⟨t, ht⟩
          cases ht
        · rintro ⟨-, hret'⟩
          exact absurd hret' hret
      · constructor
        · intro _
          exact ⟨not_lt.mp hsize, not_not.mp hret⟩
        · intro _
          exact ⟨_, rfl⟩

/-- The product and the sum of `get_elf_section_header` for an index of the
table: no negative index, no `int` overflow, no wrapped offset. -/
structure IndexExact (ehdr : ElfHeader) (idx : BitVec 32) : Prop where
  index_lt : idx.toNat < ehdr.shnum.toNat
  nonneg : 0 ≤ idx.toInt
  product : idx.toInt * ehdr.shentsize.toNat < 2 ^ 31
  offset : (sectionOffset ehdr idx).toNat = ehdr.shoff.toNat + idx.toNat * ehdr.shentsize.toNat

def IndexFits (ehdr : ElfHeader) (idx : ℕ) : Prop :=
  idx < ehdr.shnum.toNat ∧ idx * ehdr.shentsize.toNat < 2 ^ 31 ∧
    ehdr.shoff.toNat + idx * ehdr.shentsize.toNat < 2 ^ 64

theorem sectionOffset_toNat {idx : BitVec 32}
    (h : idx.toNat * ehdr.shentsize.toNat < 2 ^ 31) :
    (sectionOffset ehdr idx).toNat =
      (ehdr.shoff.toNat + idx.toNat * ehdr.shentsize.toNat) % 2 ^ 64 := by
  have hwidth : (ehdr.shentsize.setWidth 32).toNat = ehdr.shentsize.toNat := by
    rw [BitVec.toNat_setWidth]
    have := ehdr.shentsize.isLt
    omega
  have hmul : (idx * ehdr.shentsize.setWidth 32).toNat = idx.toNat * ehdr.shentsize.toNat := by
    rw [BitVec.toNat_mul, hwidth, Nat.mod_eq_of_lt (by omega)]
  have hmsb : (idx * ehdr.shentsize.setWidth 32).msb = false := by
    rw [BitVec.msb_eq_decide, hmul]
    simpa using h
  rw [sectionOffset, BitVec.toNat_add, BitVec.signExtend_eq_setWidth_of_msb_false hmsb,
    BitVec.toNat_setWidth, hmul, Nat.add_mod_mod]

theorem indexExact_iff {idx : BitVec 32} :
    IndexExact ehdr idx ↔ IndexFits ehdr idx.toNat := by
  have hshnum := ehdr.shnum.isLt
  have hint (h : idx.toNat < ehdr.shnum.toNat) : idx.toInt = idx.toNat :=
    BitVec.toInt_eq_toNat_of_lt (by omega)
  constructor
  · rintro ⟨hlt, -, hprod, hoff⟩
    rw [hint hlt] at hprod
    have hprod : idx.toNat * ehdr.shentsize.toNat < 2 ^ 31 := by exact_mod_cast hprod
    have hbound := (sectionOffset ehdr idx).isLt
    exact ⟨hlt, hprod, by omega⟩
  · rintro ⟨hlt, hprod, hoff⟩
    refine ⟨hlt, by rw [hint hlt]; omega, ?_, ?_⟩
    · rw [hint hlt]
      exact_mod_cast hprod
    · rw [sectionOffset_toNat hprod, Nat.mod_eq_of_lt hoff]

/-- Every section header that a run reads has an exact offset, and the divisor
of the symbol count is not zero.  The scan gets to index `k` when it passes over
the `k` headers before it. -/
structure SectionsExact (host : Host) (ehdr : ElfHeader) (p : Word) (s : LoadState) : Prop where
  scan : ∀ k < ehdr.shnum.toNat, (∃ t, findSymtab host ehdr k 0 s = .ok none t) →
    IndexExact ehdr (BitVec.ofNat 32 k)
  link : ∀ symHdr t, findSymtab host ehdr ehdr.shnum.toNat 0 s = .ok (some symHdr) t →
    IndexExact ehdr symHdr.link
  divisor : ∀ symHdr t u, findSymtab host ehdr ehdr.shnum.toNat 0 s = .ok (some symHdr) t →
    loadStrtab host ehdr p symHdr.link t = .ok () u → symHdr.entsize ≠ 0

/-- The headers that the host hands out stay in range: those passed over, the
one that the first symbol table links to, and its entry size. -/
structure SectionsInRange (host : Host) (ehdr : ElfHeader) (c : ℕ) : Prop where
  scan : ∀ k < ehdr.shnum.toNat, ScanPasses host ehdr c 0 k → IndexFits ehdr k
  link : ∀ k < ehdr.shnum.toNat, ∀ symHdr, ScanStops host ehdr c 0 k symHdr →
    IndexFits ehdr symHdr.link.toNat
  divisor : ∀ k < ehdr.shnum.toNat, ∀ symHdr, ScanStops host ehdr c 0 k symHdr →
    StringsReply host ehdr (c + (k + 1)) symHdr.link → symHdr.entsize ≠ 0

/-- The arithmetic of a run is exact exactly when the headers stay in range. -/
theorem load_user_symbols_exact_iff (host : Host) (ehdr : ElfHeader) (p : Word) (s : LoadState) :
    SectionsExact host ehdr p s ↔ SectionsInRange host ehdr s.reads.length := by
  have hindex {k : ℕ} (hk : k < ehdr.shnum.toNat) :
      IndexExact ehdr (BitVec.ofNat 32 k) ↔ IndexFits ehdr k := by
    have hshnum := ehdr.shnum.isLt
    rw [indexExact_iff, BitVec.toNat_ofNat, Nat.mod_eq_of_lt (by omega)]
  constructor
  · intro h
    refine ⟨?_, ?_, ?_⟩
    · intro k hk hpass
      exact (hindex hk).mp (h.scan k hk (findSymtab_none_iff.mpr hpass))
    · intro k hk symHdr hstop
      obtain ⟨t, ht, -⟩ := findSymtab_some_iff.mpr ⟨k, hk, hstop, rfl⟩
      exact indexExact_iff.mp (h.link symHdr t ht)
    · intro k hk symHdr hstop hstr
      obtain ⟨t, ht, hcalls⟩ := findSymtab_some_iff.mpr ⟨k, hk, hstop, rfl⟩
      rw [← hcalls] at hstr
      obtain ⟨u, hu⟩ := loadStrtab_ok_iff.mpr hstr
      exact h.divisor symHdr t u ht hu
  · intro h
    refine ⟨?_, ?_, ?_⟩
    · intro k hk hpass
      exact (hindex hk).mpr (h.scan k hk (findSymtab_none_iff.mp hpass))
    · intro symHdr t ht
      obtain ⟨k, hk, hstop, -⟩ := findSymtab_some_iff.mp ⟨t, ht, rfl⟩
      exact indexExact_iff.mpr (h.link k hk symHdr hstop)
    · intro symHdr t u ht hu
      obtain ⟨k, hk, hstop, hcalls⟩ := findSymtab_some_iff.mp ⟨t, ht, rfl⟩
      have hstr := loadStrtab_ok_iff.mp ⟨u, hu⟩
      rw [hcalls] at hstr
      exact h.divisor k hk symHdr hstop hstr

def zeroEntsizeFile : List Byte :=
  toLE 4 0x464C457F ++ toLE 36 0 ++ toLE 8 64 ++ toLE 10 0 ++ toLE 2 64 ++ toLE 2 1 ++ toLE 2 0 ++
    (toLE 4 0 ++ toLE 4 2 ++ toLE 24 0 ++ toLE 8 24 ++ toLE 24 0)

theorem load_user_symbols_divides_by_zero :
    ¬ SectionsExact (plainHost zeroEntsizeFile fun _ => none)
      (ElfHeader.decode zeroEntsizeFile) 0x80010000 freshState := by
  have hnum : (ElfHeader.decode zeroEntsizeFile).shnum.toNat = 1 := by decide +kernel
  have hsect : headerReply (plainHost zeroEntsizeFile fun _ => none)
      (ElfHeader.decode zeroEntsizeFile) 0 0 = some ⟨2, 0, 24, 0, 0⟩ := by decide +kernel
  have hstr : StringsReply (plainHost zeroEntsizeFile fun _ => none)
      (ElfHeader.decode zeroEntsizeFile) (0 + 0 + 1) 0 :=
    ⟨⟨2, 0, 24, 0, 0⟩, by decide +kernel⟩
  intro h
  -- the first section is a symbol table, and it is its own string table
  have hfind : ∃ t, findSymtab (plainHost zeroEntsizeFile fun _ => none)
      (ElfHeader.decode zeroEntsizeFile) (ElfHeader.decode zeroEntsizeFile).shnum.toNat 0
      freshState = .ok (some ⟨2, 0, 24, 0, 0⟩) t ∧ t.reads.length = 0 + 0 + 1 :=
    findSymtab_some_iff.mpr ⟨0, by omega, scanStops_zero.mpr ⟨hsect, rfl⟩, rfl⟩
  obtain ⟨t, ht, hcalls⟩ := hfind
  rw [← hcalls] at hstr
  obtain ⟨u, hu⟩ := loadStrtab_ok_iff.mpr hstr
  exact h.divisor _ t u ht hu rfl

end ProxyKernel.Elf
