import ProxyKernel.ElfTable
import ProxyKernel.ElfSymbols
import ProxyKernel.SymbolLookup

namespace ProxyKernel.Elf
open ByteMem Effect

def decodeSymbol (bs : List Byte) : ElfSymbol where
  name := BitVec.ofNat 32 (field bs 0 4)
  info := BitVec.ofNat 8 (field bs 4 1)
  value := BitVec.ofNat 64 (field bs 8 8)
  size := BitVec.ofNat 64 (field bs 16 8)

theorem symbolAt_eq_decode (m : Mem) (p : Word) (i : ℕ) :
    symbolAt m p i = decodeSymbol (ByteMem.read m (p + BitVec.ofNat 64 (symtabOff + 24 * i)) 24) := by
  have hinfo (b : Byte) : BitVec.ofNat 8 (leNat [b]) = b := by simp [leNat]
  simp only [symbolAt, decodeSymbol, field, load64]
  rw [read_drop_take m _ (by omega : 0 + 4 ≤ 24), read_drop_take m _ (by omega : 4 + 1 ≤ 24),
    read_drop_take m _ (by omega : 8 + 8 ≤ 24), read_drop_take m _ (by omega : 16 + 8 ≤ 24)]
  have hone (a : Word) : ByteMem.read m a 1 = [m a] := by simp [ByteMem.read]
  rw [hone, hinfo]
  simp

variable {file : List Byte} {fault : ℕ → Option (Fin 4095)} {ehdr : ElfHeader}
  {s t : LoadState} {p : Word} {symHdr strHdr : SectionHeader} {link : BitVec 32}

structure SymbolsFit (file : List Byte) (symHdr : SectionHeader) : Prop where
  entsize : symHdr.entsize = 24
  count_le : symHdr.size.toNat / 24 ≤ MAX_USER_SYMS
  full : (slice file symHdr.off symHdr.size.toNat).length = symHdr.size.toNat

def withSymbols (file : List Byte) (p : Word) (symHdr : SectionHeader) (m : Mem) : Mem :=
  write (write m (p + BitVec.ofNat 64 symtabOff) (slice file symHdr.off symHdr.size.toNat))
    (p + BitVec.ofNat 64 symCountOff) (toLE 8 (symHdr.size.toNat / 24))

theorem SymbolsFit.size_le (h : SymbolsFit file symHdr) :
    symHdr.size.toNat ≤ 24 * MAX_USER_SYMS + 23 := by
  have := h.count_le
  omega

theorem loadSymtab_ok (h : loadSymtab (plainHost file fault) p symHdr s = .ok () t) :
    SymbolsFit file symHdr ∧ t.mem = withSymbols file p symHdr s.mem := by
  rw [loadSymtab] at h
  split_ifs at h with hcount hent
  · cases h
  · cases h
  rw [bind_of_ok (elfFpreadTo_run _ _ _ _ _)] at h
  split_ifs at h with hret
  · cases h
  have hent : symHdr.entsize = 24 := not_not.mp hent
  rw [hent] at hcount h
  have hlt : symHdr.size.toNat < 2 ^ 32 := lt_of_le_of_lt (size_le_of_count hcount) (by decide)
  obtain ⟨hf, hfull⟩ := (plainHost_ret_iff hlt).mp (not_not.mp hret)
  rw [divu_24] at hcount
  injection h with _ ht
  refine ⟨⟨hent, not_lt.mp hcount, hfull⟩, ?_⟩
  rw [← ht]
  simp only [stored_mem, logged_mem, plainHost_bytes, hf, transferred, withSymbols, divu_24]

theorem loadSymtab_of_fit (hfit : SymbolsFit file symHdr) (hf : fault s.reads.length = none) :
    ∃ t, loadSymtab (plainHost file fault) p symHdr s = .ok () t := by
  have hlt : symHdr.size.toNat < 2 ^ 32 := lt_of_le_of_lt hfit.size_le (by decide)
  have hret : (plainHost file fault s.reads.length symHdr.size symHdr.off).ret symHdr.size =
      symHdr.size := (plainHost_ret_iff hlt).mpr ⟨hf, hfit.full⟩
  have hcount := hfit.count_le
  rw [loadSymtab, hfit.entsize, divu_24, if_neg (not_lt.mpr hcount), if_neg (not_not.mpr rfl),
    bind_of_ok (elfFpreadTo_run _ _ _ _ _), if_neg (not_not.mpr hret)]
  exact ⟨_, rfl⟩

/-- The tables that the loader finds in the file. -/
structure Tables (file : List Byte) (ehdr : ElfHeader) (k : ℕ)
    (symHdr strHdr : SectionHeader) : Prop where
  first : FirstSymtab file ehdr ehdr.shnum.toNat 0 k symHdr
  strings : StringsFit file ehdr symHdr.link strHdr
  symbols : SymbolsFit file symHdr

def withTables (file : List Byte) (p : Word) (symHdr strHdr : SectionHeader) (m : Mem) : Mem :=
  withSymbols file p symHdr (withStrings file p strHdr m)

/-- No section of the file is a symbol table, and all of their headers are there. -/
def NoSymtab (file : List Byte) (ehdr : ElfHeader) : Prop :=
  ∀ k < ehdr.shnum.toNat, ∃ sect, sectionAt file ehdr (BitVec.ofNat 32 k) = some sect ∧
    sect.type ≠ SHT_SYMTAB

/-- What a run that returns has found and stored. -/
theorem loadUserSymbols_ok
    (h : loadUserSymbols (plainHost file fault) ehdr p s = .ok () t) :
    (NoSymtab file ehdr ∧ t.mem = s.mem) ∨
      ∃ k symHdr strHdr, Tables file ehdr k symHdr strHdr ∧
        t.mem = withTables file p symHdr strHdr s.mem := by
  rw [loadUserSymbols] at h
  split_ifs at h with hnum
  · injection h with _ ht
    refine .inl ⟨?_, by rw [ht]⟩
    intro k hk
    rw [hnum] at hk
    cases hk
  obtain ⟨r, u, hu, h⟩ := bind_eq_ok.mp h
  cases r with
  | none =>
    injection h with _ ht
    refine .inl ⟨?_, by rw [← ht]; exact findSymtab_mem hu⟩
    intro k hk
    obtain ⟨sect, hsect, htype⟩ := findSymtab_none_iff.mp ⟨u, hu⟩ k hk
    rw [headerReply_plain, zero_add] at hsect
    split_ifs at hsect
    exact ⟨sect, hsect, htype⟩
  | some symHdr =>
    obtain ⟨k, hfirst, -, humem, -⟩ := findSymtab_ok hu
    obtain ⟨⟨⟩, v, hv, h⟩ := bind_eq_ok.mp h
    obtain ⟨strHdr, hstr, -, -, hvmem, -⟩ := loadStrtab_ok hv
    obtain ⟨hsym, htmem⟩ := loadSymtab_ok h
    refine .inr ⟨k, symHdr, strHdr, ⟨hfirst, hstr, hsym⟩, ?_⟩
    rw [htmem, hvmem, humem, withTables]

theorem loadUserSymbols_of_tables {k : ℕ} (htab : Tables file ehdr k symHdr strHdr)
    (hf : ∀ i, fault i = none) :
    ∃ t, loadUserSymbols (plainHost file fault) ehdr p s = .ok () t := by
  obtain ⟨u, hu, -, -⟩ := findSymtab_of_first (s := s) htab.first fun i _ => hf _
  obtain ⟨v, hv, -, -⟩ := loadStrtab_of_fit (s := u) (p := p) htab.strings (hf _) (hf _)
  obtain ⟨t, ht⟩ := loadSymtab_of_fit (s := v) (p := p) htab.symbols (hf v.reads.length)
  have hnum : ehdr.shnum ≠ 0 := by
    intro h0
    have hlt := htab.first.1
    rw [h0] at hlt
    cases hlt
  refine ⟨t, ?_⟩
  rw [loadUserSymbols, if_neg hnum, bind_of_ok hu]
  dsimp only
  rw [bind_of_ok hv, ht]

theorem loadUserSymbols_of_noSymtab (hno : NoSymtab file ehdr) (hf : ∀ i, fault i = none) :
    ∃ t, loadUserSymbols (plainHost file fault) ehdr p s = .ok () t := by
  rw [loadUserSymbols]
  split_ifs with hnum
  · exact ⟨s, rfl⟩
  · have hpass : ScanPasses (plainHost file fault) ehdr s.reads.length 0 ehdr.shnum.toNat := by
      intro j hj
      obtain ⟨sect, hsect, htype⟩ := hno j hj
      refine ⟨sect, ?_, htype⟩
      rw [headerReply_plain, if_pos (hf _), zero_add, hsect]
    obtain ⟨t, ht⟩ := findSymtab_none_iff.mpr hpass
    exact ⟨t, by rw [bind_of_ok ht]; rfl⟩

theorem withTables_symCount (m : Mem) :
    (symCount (withTables file p symHdr strHdr m) p).toNat = symHdr.size.toNat / 24 := by
  have hsize := symHdr.size.isLt
  exact load64_write_toLE _ _ (by omega)

theorem withTables_strtabSz (hsym : SymbolsFit file symHdr) (m : Mem) :
    (strtabSz (withTables file p symHdr strHdr m) p).toNat = strHdr.size.toNat := by
  have hbelow : strtabSz (withTables file p symHdr strHdr m) p =
      strtabSz (withStrings file p strHdr m) p := by
    apply load64_congr
    intro x hx
    have hle := hsym.size_le
    have hfull := hsym.full
    simp only [InBlock, offset, symtabOff, symCountOff, strtabOff, strtabSzOff, MAX_USER_SYMS,
      MAX_USER_STRTAB] at hx hle
    rw [withTables, withSymbols, write_of_not_mem, write_of_not_mem]
    · rw [hfull, InBlock, offset, symtabOff]
      bv_omega
    · simp only [toLE_length, InBlock, offset, symCountOff, symtabOff, MAX_USER_SYMS]
      bv_omega
  rw [hbelow]
  exact load64_write_toLE _ _ strHdr.size.isLt

theorem withTables_symtab (hsym : SymbolsFit file symHdr) (m : Mem) {x : ℕ}
    (hx : x < symHdr.size.toNat) (hx' : x < 24 * MAX_USER_SYMS) :
    file[symHdr.off.toNat + x]? =
      some (withTables file p symHdr strHdr m (p + BitVec.ofNat 64 (symtabOff + x))) := by
  have hlt : x < (slice file symHdr.off symHdr.size.toNat).length := by
    rw [hsym.full]
    exact hx
  rw [← slice_getElem? file symHdr.off hx, withTables, withSymbols,
    write_field_below (by simp only [symCountOff]; omega) (by simp [symCountOff, symtabOff,
      MAX_USER_SYMS]),
    write_field (by omega) (by simp only [symtabOff, MAX_USER_SYMS] at *; omega),
    Nat.add_sub_cancel_left, List.getElem?_eq_getElem hlt, Option.getD_some]

/-- A byte of the string table: what is left over of the symbol table comes over it. -/
theorem withTables_strtab (hsym : SymbolsFit file symHdr) (hstr : StringsFit file ehdr link strHdr)
    (m : Mem) {j : ℕ} (hj : j < MAX_USER_STRTAB) :
    some (withTables file p symHdr strHdr m (p + BitVec.ofNat 64 (strtabOff + j))) =
      if surplusOff + j < symHdr.size.toNat then file[symHdr.off.toNat + (surplusOff + j)]?
      else if j < strHdr.size.toNat then file[strHdr.off.toNat + j]?
      else some (m (p + BitVec.ofNat 64 (strtabOff + j))) := by
  have hcount : (toLE 8 (symHdr.size.toNat / 24))[strtabOff + j - symCountOff]? = none :=
    List.getElem?_eq_none (by rw [toLE_length, strtabOff]; omega)
  have hbound : strtabOff + j < 2 ^ 64 := by
    simp only [strtabOff, symCountOff, symtabOff, MAX_USER_SYMS, MAX_USER_STRTAB] at *
    omega
  have hdist : strtabOff + j - symtabOff = surplusOff + j := by
    simp only [surplusOff, strtabOff, symCountOff]
    omega
  have hstrings : withStrings file p strHdr m (p + BitVec.ofNat 64 (strtabOff + j)) =
      (slice file strHdr.off strHdr.size.toNat)[j]?.getD
        (m (p + BitVec.ofNat 64 (strtabOff + j))) := by
    rw [withStrings, write_field_below (by rw [strtabSzOff]; omega) (by
      simp [strtabSzOff, strtabOff, symCountOff, symtabOff, MAX_USER_SYMS, MAX_USER_STRTAB]),
      write_field (by omega) hbound, Nat.add_sub_cancel_left]
  rw [withTables, withSymbols, write_field (by rw [strtabOff]; omega) hbound, hcount,
    Option.getD_none, write_field (by simp only [strtabOff, symCountOff]; omega) hbound, hdist,
    hstrings]
  split_ifs with h1 h2
  · rw [← slice_getElem? file symHdr.off h1,
      List.getElem?_eq_getElem (by rw [hsym.full]; exact h1), Option.getD_some]
  · rw [List.getElem?_eq_none (by rw [hsym.full]; omega), Option.getD_none,
      ← slice_getElem? file strHdr.off h2,
      List.getElem?_eq_getElem (by rw [hstr.full]; exact h2), Option.getD_some]
  · rw [List.getElem?_eq_none (by rw [hsym.full]; omega), Option.getD_none,
      List.getElem?_eq_none (by rw [hstr.full]; omega), Option.getD_none]

theorem withTables_frame (hsym : SymbolsFit file symHdr) (hstr : StringsFit file ehdr link strHdr)
    (m : Mem) {x : Word}
    (hsymtab : ¬ InBlock (p + BitVec.ofNat 64 symtabOff) symHdr.size.toNat x)
    (hcount : ¬ InBlock (p + BitVec.ofNat 64 symCountOff) 8 x)
    (hstrtab : ¬ InBlock (p + BitVec.ofNat 64 strtabOff) strHdr.size.toNat x)
    (hsize : ¬ InBlock (p + BitVec.ofNat 64 strtabSzOff) 8 x) :
    withTables file p symHdr strHdr m x = m x := by
  rw [withTables, withSymbols, withStrings, write_of_not_mem, write_of_not_mem, write_of_not_mem,
    write_of_not_mem]
  · rw [hstr.full]
    exact hstrtab
  · rw [toLE_length]
    exact hsize
  · rw [hsym.full]
    exact hsymtab
  · rw [toLE_length]
    exact hcount

def sectionHeader (file : List Byte) (ehdr : ElfHeader) (k : ℕ) : SectionHeader :=
  SectionHeader.decode ((file.drop (ehdr.shoff.toNat + 64 * k)).take 64)

def IsSymtab (file : List Byte) (ehdr : ElfHeader) (k : ℕ) : Prop :=
  k < ehdr.shnum.toNat ∧ (sectionHeader file ehdr k).type = SHT_SYMTAB

/-- Headers of 64 bytes, and a symbol table of whole entries that links to a
section.  The length of a file is an `off_t`. -/
structure WellFormedSections (file : List Byte) (ehdr : ElfHeader) : Prop where
  length_lt : file.length < 2 ^ 63
  stride : ehdr.shentsize = 64
  link_lt : ∀ k, First (IsSymtab file ehdr) k →
    (sectionHeader file ehdr k).link.toNat < ehdr.shnum.toNat
  size_mod : ∀ k, First (IsSymtab file ehdr) k → (sectionHeader file ehdr k).size.toNat % 24 = 0

/-- The index as the loader passes it, for a table that starts inside the file. -/
theorem sectionOffset_stride (hstride : ehdr.shentsize = 64) (hoff : ehdr.shoff.toNat < 2 ^ 63)
    {k : ℕ} (hk : k < ehdr.shnum.toNat) :
    (sectionOffset ehdr (BitVec.ofNat 32 k)).toNat = ehdr.shoff.toNat + 64 * k := by
  have hnum := ehdr.shnum.isLt
  have hidx : (BitVec.ofNat 32 k).toNat = k := by
    rw [BitVec.toNat_ofNat, Nat.mod_eq_of_lt (by omega)]
  have h64 : ehdr.shentsize.toNat = 64 := by rw [hstride]; rfl
  rw [sectionOffset_toNat (by rw [hidx, h64]; omega), hidx, h64, Nat.mod_eq_of_lt (by omega),
    Nat.mul_comm]

theorem sectionAt_exact (hstride : ehdr.shentsize = 64) (hoff : ehdr.shoff.toNat < 2 ^ 63)
    {k : ℕ} (hk : k < ehdr.shnum.toNat) :
    sectionAt file ehdr (BitVec.ofNat 32 k) =
      if InFile file (ehdr.shoff.toNat + 64 * k) 64 then some (sectionHeader file ehdr k)
      else none := by
  have hoffset := sectionOffset_stride hstride hoff hk
  simp only [sectionAt, slice_full_iff, hoffset]
  rw [slice, hoffset, sectionHeader]

theorem shoff_lt (hlen : file.length < 2 ^ 63) {sect : SectionHeader}
    (h : sectionAt file ehdr 0 = some sect) : ehdr.shoff.toNat < 2 ^ 63 := by
  rw [sectionAt] at h
  split_ifs at h with hfull
  have hzero : sectionOffset ehdr 0 = ehdr.shoff := by simp [sectionOffset]
  have hin := (slice_full_iff _ _ _).mp hfull 0 (by decide)
  rw [hzero] at hin
  omega

theorem first_of_firstSymtab (hwf : WellFormedSections file ehdr) {k : ℕ}
    (h : FirstSymtab file ehdr ehdr.shnum.toNat 0 k symHdr) :
    ehdr.shoff.toNat < 2 ^ 63 ∧ First (IsSymtab file ehdr) k ∧
      symHdr = sectionHeader file ehdr k := by
  obtain ⟨hk, hS, htype, hbefore⟩ := h
  have hoff : ehdr.shoff.toNat < 2 ^ 63 := by
    cases k with
    | zero => exact shoff_lt hwf.length_lt hS
    | succ k =>
      obtain ⟨sect, hsect, -⟩ := hbefore 0 (by omega)
      exact shoff_lt hwf.length_lt hsect
  have hexact {j : ℕ} (hj : j < ehdr.shnum.toNat) {sect : SectionHeader}
      (hsect : sectionAt file ehdr (0 + BitVec.ofNat 32 j) = some sect) :
      sect = sectionHeader file ehdr j := by
    rw [zero_add, sectionAt_exact hwf.stride hoff hj] at hsect
    split_ifs at hsect
    exact (Option.some.inj hsect).symm
  have hself := hexact hk hS
  refine ⟨hoff, ⟨⟨hk, hself ▸ htype⟩, ?_⟩, hself⟩
  rintro j hj ⟨hjn, hjtype⟩
  obtain ⟨sect, hsect, hother⟩ := hbefore j hj
  rw [hexact hjn hsect] at hother
  exact hother hjtype

theorem link_of_strings (hwf : WellFormedSections file ehdr) (hoff : ehdr.shoff.toNat < 2 ^ 63)
    (hlink : link.toNat < ehdr.shnum.toNat) (h : StringsFit file ehdr link strHdr) :
    strHdr = sectionHeader file ehdr link.toNat := by
  have hsect := h.header
  have hidx : link = BitVec.ofNat 32 link.toNat := by simp
  rw [hidx, sectionAt_exact hwf.stride hoff hlink] at hsect
  split_ifs at hsect
  exact (Option.some.inj hsect).symm

structure HoldsTables (file : List Byte) (p : Word) (S L : SectionHeader) (m m' : Mem) :
    Prop where
  count : (symCount m' p).toNat = S.size.toNat / 24
  count_le : (symCount m' p).toNat ≤ MAX_USER_SYMS
  bytes : ∀ i < S.size.toNat / 24,
    ByteMem.read m' (p + BitVec.ofNat 64 (symtabOff + 24 * i)) 24 =
      (file.drop (S.off.toNat + 24 * i)).take 24
  symbols : ∀ i < S.size.toNat / 24,
    symbolAt m' p i = decodeSymbol ((file.drop (S.off.toNat + 24 * i)).take 24)
  strtabSz : (strtabSz m' p).toNat = L.size.toNat
  strtabSz_le : (ProxyKernel.strtabSz m' p).toNat ≤ MAX_USER_STRTAB
  strings : ∀ j < L.size.toNat,
    file[L.off.toNat + j]? = some (m' (p + BitVec.ofNat 64 (strtabOff + j)))
  rest : ∀ x, ¬ InBlock (p + BitVec.ofNat 64 symtabOff) S.size.toNat x →
    ¬ InBlock (p + BitVec.ofNat 64 symCountOff) 8 x →
    ¬ InBlock (p + BitVec.ofNat 64 strtabOff) L.size.toNat x →
    ¬ InBlock (p + BitVec.ofNat 64 strtabSzOff) 8 x → m' x = m x

theorem withTables_symbol_bytes (hsym : SymbolsFit file symHdr) (m : Mem) {i : ℕ}
    (hi : i < symHdr.size.toNat / 24) :
    ByteMem.read (withTables file p symHdr strHdr m) (p + BitVec.ofNat 64 (symtabOff + 24 * i))
      24 = (file.drop (symHdr.off.toNat + 24 * i)).take 24 := by
  have hcount := hsym.count_le
  have hbyte (j : ℕ) (hj : j < 24) : file[symHdr.off.toNat + (24 * i + j)]? =
      some (withTables file p symHdr strHdr m (p + BitVec.ofNat 64 (symtabOff + (24 * i + j)))) :=
    withTables_symtab hsym m (by omega) (by omega)
  apply read_eq_of_getElem
  · have hlast := hbyte 23 (by decide)
    have hin : symHdr.off.toNat + (24 * i + 23) < file.length := by
      by_contra hout
      rw [List.getElem?_eq_none (by omega)] at hlast
      cases hlast
    simp
    omega
  · intro j hj
    rw [List.getElem?_take, if_pos hj, List.getElem?_drop, add_assoc, hbyte j hj,
      ← add_assoc symtabOff, BitVec.ofNat_add _ j, add_assoc p]

theorem withTables_holds (hsym : SymbolsFit file symHdr) (hstr : StringsFit file ehdr link strHdr)
    (hmod : symHdr.size.toNat % 24 = 0) (m : Mem) :
    HoldsTables file p symHdr strHdr m (withTables file p symHdr strHdr m) := by
  have hcount : (symCount (withTables file p symHdr strHdr m) p).toNat =
      symHdr.size.toNat / 24 := withTables_symCount m
  have hsize : (strtabSz (withTables file p symHdr strHdr m) p).toNat = strHdr.size.toNat :=
    withTables_strtabSz hsym m
  have hle := hsym.count_le
  refine ⟨hcount, by rw [hcount]; exact hle, fun i hi => withTables_symbol_bytes hsym m hi,
    fun i hi => ?_, hsize, by rw [hsize]; exact hstr.size_le, fun j hj => ?_, ?_⟩
  · rw [symbolAt_eq_decode, withTables_symbol_bytes hsym m hi]
  · have hj' : j < MAX_USER_STRTAB := lt_of_lt_of_le hj hstr.size_le
    -- whole entries do not reach the string table
    have hover : ¬ surplusOff + j < symHdr.size.toNat := by
      simp only [surplusOff, strtabOff, symCountOff, symtabOff, MAX_USER_SYMS] at *
      omega
    rw [withTables_strtab hsym hstr m hj', if_neg hover, if_pos hj]
  · intro x h1 h2 h3 h4
    exact withTables_frame hsym hstr m h1 h2 h3 h4

/-- All that the loader has to read lies in the file, and the tables fit. -/
structure TablesInFile (file : List Byte) (ehdr : ElfHeader) : Prop where
  headers : ∀ k < ehdr.shnum.toNat, InFile file (ehdr.shoff.toNat + 64 * k) 64
  entsize : ∀ k, First (IsSymtab file ehdr) k → (sectionHeader file ehdr k).entsize = 24
  count_le : ∀ k, First (IsSymtab file ehdr) k →
    (sectionHeader file ehdr k).size.toNat / 24 ≤ MAX_USER_SYMS
  symbols : ∀ k, First (IsSymtab file ehdr) k →
    InFile file (sectionHeader file ehdr k).off.toNat (sectionHeader file ehdr k).size.toNat
  size_le : ∀ k, First (IsSymtab file ehdr) k →
    (sectionHeader file ehdr (sectionHeader file ehdr k).link.toNat).size.toNat ≤ MAX_USER_STRTAB
  strings : ∀ k, First (IsSymtab file ehdr) k →
    InFile file (sectionHeader file ehdr (sectionHeader file ehdr k).link.toNat).off.toNat
      (sectionHeader file ehdr (sectionHeader file ehdr k).link.toNat).size.toNat

theorem tables_of_inFile (hwf : WellFormedSections file ehdr) (hin : TablesInFile file ehdr)
    {k : ℕ} (hk : First (IsSymtab file ehdr) k) :
    Tables file ehdr k (sectionHeader file ehdr k)
      (sectionHeader file ehdr (sectionHeader file ehdr k).link.toNat) := by
  have hlen := hwf.length_lt
  have hoff : ehdr.shoff.toNat < 2 ^ 63 := by
    have := hin.headers k hk.1.1 0 (by decide)
    omega
  have hsect {j : ℕ} (hj : j < ehdr.shnum.toNat) :
      sectionAt file ehdr (BitVec.ofNat 32 j) = some (sectionHeader file ehdr j) := by
    rw [sectionAt_exact hwf.stride hoff hj, if_pos (hin.headers j hj)]
  refine ⟨⟨hk.1.1, ?_, hk.1.2, ?_⟩, ⟨?_, hin.size_le k hk, ?_⟩, hin.entsize k hk,
    hin.count_le k hk, ?_⟩
  · rw [zero_add, hsect hk.1.1]
  · intro i hi
    have hin : i < ehdr.shnum.toNat := lt_trans hi hk.1.1
    exact ⟨_, by rw [zero_add, hsect hin], fun htype => hk.2 i hi ⟨hin, htype⟩⟩
  · have hlink := hsect (hwf.link_lt k hk)
    rwa [BitVec.ofNat_toNat, BitVec.setWidth_eq] at hlink
  · exact (slice_full_iff _ _ _).mpr (hin.strings k hk)
  · exact (slice_full_iff _ _ _).mpr (hin.symbols k hk)

theorem noSymtab_of_inFile (hwf : WellFormedSections file ehdr) (hin : TablesInFile file ehdr)
    (hno : ¬ ∃ k, IsSymtab file ehdr k) : NoSymtab file ehdr := by
  intro k hk
  have hlen := hwf.length_lt
  have hoff : ehdr.shoff.toNat < 2 ^ 63 := by
    have := hin.headers k hk 0 (by decide)
    omega
  refine ⟨sectionHeader file ehdr k, ?_, fun htype => hno ⟨k, hk, htype⟩⟩
  rw [sectionAt_exact hwf.stride hoff hk, if_pos (hin.headers k hk)]

/-- The tables that a run leaves in the process are those of the file, and a run
over tables that fit does not panic. -/
theorem load_user_symbols_tables (file : List Byte) (ehdr : ElfHeader)
    (hwf : WellFormedSections file ehdr) (p : Word) (s : LoadState) :
    (∀ fault t, loadUserSymbols (plainHost file fault) ehdr p s = .ok () t →
      ((¬ ∃ k, IsSymtab file ehdr k) → t.mem = s.mem) ∧
      ∀ k, First (IsSymtab file ehdr) k →
        HoldsTables file p (sectionHeader file ehdr k)
          (sectionHeader file ehdr (sectionHeader file ehdr k).link.toNat) s.mem t.mem) ∧
    (TablesInFile file ehdr →
      ∃ t, loadUserSymbols (plainHost file fun _ => none) ehdr p s = .ok () t) := by
  constructor
  · intro fault t hok
    rcases loadUserSymbols_ok hok with ⟨hno, hmem⟩ | ⟨k, symHdr, strHdr, htab, hmem⟩
    · refine ⟨fun _ => hmem, ?_⟩
      -- the headers were all read, and none of them is a symbol table
      rintro k ⟨⟨hk, htype⟩, -⟩
      obtain ⟨sect, hsect, hother⟩ := hno k hk
      obtain ⟨sect0, hsect0, -⟩ := hno 0 (by omega)
      rw [sectionAt_exact hwf.stride (shoff_lt hwf.length_lt hsect0) hk] at hsect
      split_ifs at hsect
      rw [← Option.some.inj hsect] at hother
      exact absurd htype hother
    · obtain ⟨hoff, hfirst, rfl⟩ := first_of_firstSymtab hwf htab.first
      refine ⟨fun hno => absurd ⟨k, hfirst.1⟩ hno, ?_⟩
      intro k' hk'
      obtain rfl := First.unique hfirst hk'
      have hlink := link_of_strings hwf hoff (hwf.link_lt k hfirst) htab.strings
      rw [hmem, ← hlink]
      exact withTables_holds htab.symbols htab.strings (hwf.size_mod k hfirst) s.mem
  · intro hin
    by_cases hex : ∃ k, IsSymtab file ehdr k
    · obtain ⟨j, hj⟩ := hex
      obtain ⟨k, -, hk⟩ := exists_first hj
      exact loadUserSymbols_of_tables (tables_of_inFile hwf hin hk) fun _ => rfl
    · exact loadUserSymbols_of_noSymtab (noSymtab_of_inFile hwf hin hex) fun _ => rfl

def symbolFileHead (n : ℕ) : List Byte :=
  toLE 4 0x464C457F ++ toLE 36 0 ++ toLE 8 64 ++ toLE 10 0 ++ toLE 2 64 ++ toLE 2 2 ++ toLE 2 0 ++
    (toLE 4 0 ++ toLE 4 2 ++ toLE 16 0 ++ toLE 8 192 ++ toLE 8 24 ++ toLE 4 1 ++ toLE 12 0 ++
      toLE 8 24) ++
    (toLE 4 0 ++ toLE 4 3 ++ toLE 16 0 ++ toLE 8 216 ++ toLE 8 n ++ toLE 24 0) ++
    (toLE 4 1 ++ [0x12] ++ toLE 3 0 ++ toLE 8 0x81000000 ++ toLE 8 16)

def symbolFile : List Byte := symbolFileHead 4 ++ toLE 4 0x6600

theorem symbolFile_symtab : First (IsSymtab symbolFile (ElfHeader.decode symbolFile)) 0 :=
  ⟨⟨by decide +kernel, by decide +kernel⟩, by omega⟩

theorem symbolFile_header : sectionHeader symbolFile (ElfHeader.decode symbolFile) 0 =
    ⟨2, 192, 24, 1, 24⟩ := by decide +kernel

theorem symbolFile_wellFormed : WellFormedSections symbolFile (ElfHeader.decode symbolFile) := by
  refine ⟨by decide +kernel, by decide +kernel, ?_, ?_⟩
  · intro k hk
    rw [First.unique hk symbolFile_symtab, symbolFile_header]
    decide +kernel
  · intro k hk
    rw [First.unique hk symbolFile_symtab, symbolFile_header]
    decide

theorem symbolFile_inFile : TablesInFile symbolFile (ElfHeader.decode symbolFile) := by
  have hlink : sectionHeader symbolFile (ElfHeader.decode symbolFile) (1 : BitVec 32).toNat =
      ⟨3, 216, 4, 0, 0⟩ := by decide +kernel
  refine ⟨by decide +kernel, ?_, ?_, ?_, ?_, ?_⟩ <;> intro k hk <;>
    rw [First.unique hk symbolFile_symtab, symbolFile_header]
  · decide
  · decide +kernel
  · rw [hlink]
    decide
  · rw [hlink]
    decide +kernel

/-- The run on that file returns with its one symbol in the process. -/
theorem load_user_symbols_tables_one :
    ∃ t, loadUserSymbols (plainHost symbolFile fun _ => none) (ElfHeader.decode symbolFile)
        0x80010000 freshState = .ok () t ∧
      HoldsTables symbolFile 0x80010000 (sectionHeader symbolFile (ElfHeader.decode symbolFile) 0)
        (sectionHeader symbolFile (ElfHeader.decode symbolFile)
          (sectionHeader symbolFile (ElfHeader.decode symbolFile) 0).link.toNat)
        freshState.mem t.mem := by
  obtain ⟨hforward, hback⟩ := load_user_symbols_tables symbolFile (ElfHeader.decode symbolFile)
    symbolFile_wellFormed 0x80010000 freshState
  obtain ⟨t, ht⟩ := hback symbolFile_inFile
  exact ⟨t, ht, (hforward _ t ht).2 0 symbolFile_symtab⟩

end ProxyKernel.Elf
