import ProxyKernel.SymbolTables

namespace ProxyKernel.Elf
open ByteMem Effect

variable {file : List Byte} {fault : ℕ → Option (Fin 4095)} {ehdr : ElfHeader}
  {s t : LoadState} {p : Word} {symHdr strHdr : SectionHeader} {link : BitVec 32}

/-- From the pointer that the lookup returns there is a NUL before the end of
`strtab`. -/
def NamesEnd (m : Mem) (p : Word) : Prop :=
  ∀ a ptr, findSymbolName m p a = some ptr →
    ∃ x, offset (p + BitVec.ofNat 64 strtabOff) ptr ≤ offset (p + BitVec.ofNat 64 strtabOff) x ∧
      InBlock (p + BitVec.ofNat 64 strtabOff) MAX_USER_STRTAB x ∧ m x = 0

theorem offset_symbolName (m : Mem) (p : Word) (i : ℕ) :
    offset (p + BitVec.ofNat 64 strtabOff) (symbolName m p i) = (symbolAt m p i).name.toNat := by
  rw [offset, symbolName, add_sub_cancel_left, BitVec.toNat_setWidth]
  have := (symbolAt m p i).name.isLt
  omega

theorem namesEnd_iff {m : Mem} :
    NamesEnd m p ↔ ∀ a i, First (Resolves m p a) i →
      ∃ j, (symbolAt m p i).name.toNat ≤ j ∧ j < MAX_USER_STRTAB ∧
        m (p + BitVec.ofNat 64 (strtabOff + j)) = 0 := by
  have haddr (j : ℕ) : p + BitVec.ofNat 64 (strtabOff + j) =
      p + BitVec.ofNat 64 strtabOff + BitVec.ofNat 64 j := by
    rw [BitVec.ofNat_add, add_assoc]
  constructor
  · intro h a i hi
    obtain ⟨x, hle, hin, hx⟩ := h a _ (findSymbolName_eq_some_iff.mpr ⟨i, hi, rfl⟩)
    rw [offset_symbolName] at hle
    refine ⟨offset (p + BitVec.ofNat 64 strtabOff) x, hle, hin, ?_⟩
    rw [haddr, offset, BitVec.ofNat_toNat, BitVec.setWidth_eq, add_sub_cancel]
    exact hx
  · intro h a ptr hptr
    obtain ⟨i, hi, rfl⟩ := findSymbolName_eq_some_iff.mp hptr
    obtain ⟨j, hle, hj, hx⟩ := h a i hi
    have hoff : offset (p + BitVec.ofNat 64 strtabOff)
        (p + BitVec.ofNat 64 strtabOff + BitVec.ofNat 64 j) = j :=
      offset_ofNat _ (by simp only [MAX_USER_STRTAB] at hj; omega)
    rw [haddr] at hx
    exact ⟨_, by rwa [offset_symbolName, hoff], by rwa [InBlock, hoff], hx⟩

def fileSymbol (file : List Byte) (symHdr : SectionHeader) (i : ℕ) : ElfSymbol :=
  decodeSymbol ((file.drop (symHdr.off.toNat + 24 * i)).take 24)

/-- The `i`-th symbol of the section covers the address and has a name in the
string table. -/
def FileResolves (file : List Byte) (symHdr strHdr : SectionHeader) (a : Word) (i : ℕ) : Prop :=
  i < symHdr.size.toNat / 24 ∧ (fileSymbol file symHdr i).covers a ∧
    (fileSymbol file symHdr i).name.toNat < strHdr.size.toNat

/-- The byte of the file that ends up in `strtab[j]`. -/
def loadedString (file : List Byte) (symHdr strHdr : SectionHeader) (j : ℕ) : Option Byte :=
  if surplusOff + j < symHdr.size.toNat then file[symHdr.off.toNat + (surplusOff + j)]?
  else file[strHdr.off.toNat + j]?

/-- The string table fills the array, and the name of a symbol that some address
is resolved to runs to the end of it. -/
structure Unterminated (file : List Byte) (ehdr : ElfHeader) (k : ℕ)
    (symHdr strHdr : SectionHeader) (i : ℕ) : Prop where
  tables : Tables file ehdr k symHdr strHdr
  fills : strHdr.size.toNat = MAX_USER_STRTAB
  found : ∃ a, First (FileResolves file symHdr strHdr a) i
  no_nul : ∀ j, (fileSymbol file symHdr i).name.toNat ≤ j → j < MAX_USER_STRTAB →
    loadedString file symHdr strHdr j ≠ some 0

theorem resolves_withTables (hsym : SymbolsFit file symHdr) (m : Mem) (a : Word) :
    Resolves (withTables file p symHdr strHdr m) p a = FileResolves file symHdr strHdr a := by
  funext i
  have hsymbol (hi : i < symHdr.size.toNat / 24) :
      symbolAt (withTables file p symHdr strHdr m) p i = fileSymbol file symHdr i := by
    rw [symbolAt_eq_decode, withTables_symbol_bytes hsym m hi, fileSymbol]
  rw [Resolves, FileResolves, withTables_symCount, withTables_strtabSz hsym]
  apply propext
  constructor
  · rintro ⟨hi, hrest⟩
    rw [hsymbol hi] at hrest
    exact ⟨hi, hrest⟩
  · rintro ⟨hi, hrest⟩
    rw [← hsymbol hi] at hrest
    exact ⟨hi, hrest⟩

theorem withTables_strtab_full (hsym : SymbolsFit file symHdr)
    (hstr : StringsFit file ehdr link strHdr) (hfull : strHdr.size.toNat = MAX_USER_STRTAB)
    (m : Mem) {j : ℕ} (hj : j < MAX_USER_STRTAB) :
    some (withTables file p symHdr strHdr m (p + BitVec.ofNat 64 (strtabOff + j))) =
      loadedString file symHdr strHdr j := by
  rw [withTables_strtab hsym hstr m hj, loadedString, hfull]
  simp only [hj, if_true]

/-- A string table that does not fill the array leaves a zero at its end. -/
theorem withTables_strtab_last (hsym : SymbolsFit file symHdr)
    (hstr : StringsFit file ehdr link strHdr) (hlt : strHdr.size.toNat < MAX_USER_STRTAB)
    {m : Mem} (hzero : ∀ x, SymbolArea p x → m x = 0) :
    withTables file p symHdr strHdr m
      (p + BitVec.ofNat 64 (strtabOff + (MAX_USER_STRTAB - 1))) = 0 := by
  have hlast : MAX_USER_STRTAB - 1 < MAX_USER_STRTAB := by decide
  have harea : SymbolArea p (p + BitVec.ofNat 64 (strtabOff + (MAX_USER_STRTAB - 1))) := by
    refine .inr (.inr (.inl ?_))
    rw [BitVec.ofNat_add, ← add_assoc, InBlock, offset_ofNat _ (by decide)]
    exact hlast
  have hover : ¬ surplusOff + (MAX_USER_STRTAB - 1) < symHdr.size.toNat := by
    have hle := hsym.size_le
    simp only [surplusOff, strtabOff, symCountOff, symtabOff, MAX_USER_SYMS, MAX_USER_STRTAB] at *
    omega
  apply Option.some.inj
  rw [withTables_strtab hsym hstr m hlast, if_neg hover, if_neg (by omega), hzero _ harea]

theorem Tables.unique {k k' : ℕ} {symHdr' strHdr' : SectionHeader}
    (h : Tables file ehdr k symHdr strHdr) (h' : Tables file ehdr k' symHdr' strHdr') :
    k = k' ∧ symHdr = symHdr' ∧ strHdr = strHdr' := by
  have hbefore {j j' : ℕ} {S S' L L' : SectionHeader} (hj : Tables file ehdr j S L)
      (hj' : Tables file ehdr j' S' L') : ¬ j < j' := by
    intro hlt
    obtain ⟨sect, hsect, htype⟩ := hj'.first.2.2.2 j hlt
    rw [hj.first.2.1] at hsect
    exact htype (Option.some.inj hsect ▸ hj.first.2.2.1)
  have hk : k = k' := by
    have h1 := hbefore h h'
    have h2 := hbefore h' h
    omega
  subst hk
  have hS := h.first.2.1
  rw [h'.first.2.1] at hS
  obtain rfl := Option.some.inj hS
  have hL := h.strings.header
  rw [h'.strings.header] at hL
  exact ⟨rfl, rfl, (Option.some.inj hL).symm⟩

theorem namesEnd_withTables (hsym : SymbolsFit file symHdr)
    (hstr : StringsFit file ehdr link strHdr) {m : Mem} (hzero : ∀ x, SymbolArea p x → m x = 0) :
    NamesEnd (withTables file p symHdr strHdr m) p ↔
      ¬ ∃ i, strHdr.size.toNat = MAX_USER_STRTAB ∧
        (∃ a, First (FileResolves file symHdr strHdr a) i) ∧
        ∀ j, (fileSymbol file symHdr i).name.toNat ≤ j → j < MAX_USER_STRTAB →
          loadedString file symHdr strHdr j ≠ some 0 := by
  have hname {i : ℕ} {a : Word} (hi : First (FileResolves file symHdr strHdr a) i) :
      (symbolAt (withTables file p symHdr strHdr m) p i).name =
        (fileSymbol file symHdr i).name := by
    rw [symbolAt_eq_decode, withTables_symbol_bytes hsym m hi.1.1, fileSymbol]
  rw [namesEnd_iff]
  simp only [resolves_withTables hsym]
  constructor
  · rintro h ⟨i, hfull, ⟨a, hi⟩, hno⟩
    obtain ⟨j, hle, hj, hx⟩ := h a i hi
    rw [hname hi] at hle
    have hbyte := withTables_strtab_full (p := p) hsym hstr hfull m hj
    rw [hx] at hbyte
    exact hno j hle hj hbyte.symm
  · intro h a i hi
    rw [hname hi]
    rcases Nat.lt_or_eq_of_le hstr.size_le with hlt | hfull
    · have hlast := withTables_strtab_last hsym hstr hlt hzero
      have hin := hi.1.2.2
      exact ⟨MAX_USER_STRTAB - 1, by omega, by decide, hlast⟩
    · by_contra hnone
      push Not at hnone
      refine h ⟨i, hfull, ⟨a, hi⟩, ?_⟩
      intro j hle hj hzero'
      rw [← withTables_strtab_full (p := p) hsym hstr hfull m hj] at hzero'
      exact hnone j hle hj (Option.some.inj hzero')

theorem namesEnd_of_zero {m : Mem} (hzero : ∀ x, SymbolArea p x → m x = 0) : NamesEnd m p := by
  have hcount : symCount m p = 0 := by
    have hread : symCount m p = load64 (fun _ => 0) (p + BitVec.ofNat 64 symCountOff) :=
      load64_congr fun x hx => hzero x (.inr (.inl hx))
    have hbytes : ByteMem.read (fun _ => 0) (p + BitVec.ofNat 64 symCountOff) 8 = toLE 8 0 := rfl
    rw [hread, load64, hbytes, leNat_toLE, Nat.zero_mod]
    rfl
  intro a ptr h
  rw [findSymbolName, if_pos (.inl hcount)] at h
  cases h

/-- A run over a file with an unterminated name ends with the tables of that file. -/
theorem not_namesEnd_of_unterminated (hzero : ∀ x, SymbolArea p x → s.mem x = 0)
    (hok : loadUserSymbols (plainHost file fault) ehdr p s = .ok () t) {k i : ℕ}
    (hun : Unterminated file ehdr k symHdr strHdr i) : ¬ NamesEnd t.mem p := by
  rcases loadUserSymbols_ok hok with ⟨hno, -⟩ | ⟨k', symHdr', strHdr', htab, hmem⟩
  · obtain ⟨hk, hS, htype, -⟩ := hun.tables.first
    obtain ⟨sect, hsect, hother⟩ := hno k hk
    rw [zero_add, hsect] at hS
    exact absurd (Option.some.inj hS ▸ htype) hother
  · obtain ⟨rfl, rfl, rfl⟩ := htab.unique hun.tables
    rw [hmem, namesEnd_withTables htab.symbols htab.strings hzero, not_not]
    exact ⟨i, hun.fills, hun.found, hun.no_nul⟩

/-- The lookup hands out only terminated names exactly when no name of the file
runs to the end of a string table that fills the array. -/
theorem symbol_names_end_iff (file : List Byte) (fault : ℕ → Option (Fin 4095))
    (ehdr : ElfHeader) (p : Word) (s t : LoadState) (hzero : ∀ x, SymbolArea p x → s.mem x = 0)
    (hok : loadUserSymbols (plainHost file fault) ehdr p s = .ok () t) :
    NamesEnd t.mem p ↔ ¬ ∃ k symHdr strHdr i, Unterminated file ehdr k symHdr strHdr i := by
  constructor
  · rintro hend ⟨k, symHdr, strHdr, i, hun⟩
    exact not_namesEnd_of_unterminated hzero hok hun hend
  · intro hno
    rcases loadUserSymbols_ok hok with ⟨-, hmem⟩ | ⟨k, symHdr, strHdr, htab, hmem⟩
    · rw [hmem]
      exact namesEnd_of_zero hzero
    · rw [hmem, namesEnd_withTables htab.symbols htab.strings hzero]
      rintro ⟨i, hfull, hfound, hnul⟩
      exact hno ⟨k, symHdr, strHdr, i, htab, hfull, hfound, hnul⟩

theorem symbol_names_end_small : ∃ t, loadUserSymbols (plainHost symbolFile fun _ => none)
      (ElfHeader.decode symbolFile) 0x80010000 freshState = .ok () t ∧
    NamesEnd t.mem 0x80010000 := by
  have htab := tables_of_inFile symbolFile_wellFormed symbolFile_inFile symbolFile_symtab
  have hok : ∃ t, loadUserSymbols (plainHost symbolFile fun _ => none)
      (ElfHeader.decode symbolFile) 0x80010000 freshState = .ok () t :=
    loadUserSymbols_of_tables htab fun _ => rfl
  obtain ⟨t, ht⟩ := hok
  refine ⟨t, ht, (symbol_names_end_iff symbolFile _ _ 0x80010000 freshState t (fun _ _ => rfl)
    ht).mpr ?_⟩
  rintro ⟨k, symHdr, strHdr, i, hun⟩
  obtain ⟨rfl, rfl, rfl⟩ := htab.unique hun.tables
  exact absurd hun.fills (by decide +kernel)

def unterminatedFile : List Byte := symbolFileHead 8192 ++ List.replicate 8192 0x41

theorem unterminatedFile_length : unterminatedFile.length = 216 + 8192 := by
  rw [unterminatedFile, List.length_append, List.length_replicate]
  rfl

theorem unterminatedFile_string {j : ℕ} (hj : j < 8192) :
    unterminatedFile[216 + j]? = some 0x41 := by
  have hhead : (symbolFileHead 8192).length = 216 := rfl
  rw [unterminatedFile, List.getElem?_append_right (by omega), hhead, Nat.add_sub_cancel_left,
    List.getElem?_replicate, if_pos hj]

theorem unterminatedFile_names :
    Unterminated unterminatedFile (ElfHeader.decode unterminatedFile) 0 ⟨2, 192, 24, 1, 24⟩
      ⟨3, 216, 8192, 0, 0⟩ 0 := by
  have hfull (off : Word) (n : ℕ) (h : off.toNat + n ≤ 216 + 8192) :
      (slice unterminatedFile off n).length = n := by
    rw [slice_full_iff]
    intro k hk
    rw [unterminatedFile_length]
    omega
  have hsymbol : fileSymbol unterminatedFile ⟨2, 192, 24, 1, 24⟩ 0 =
      ⟨1, 0x12, 0x81000000, 16⟩ := by decide
  refine ⟨⟨⟨by decide, by decide, rfl, by omega⟩, ⟨by decide, by decide, hfull _ _ (by decide)⟩,
    ⟨rfl, by decide, hfull _ _ (by decide)⟩⟩, rfl, ⟨0x81000000, ?_, by omega⟩, ?_⟩
  · rw [FileResolves, hsymbol]
    decide
  · intro j _ hj
    have hover : ¬ surplusOff + j < (24 : Word).toNat := by
      have hfar : (24 : Word).toNat ≤ surplusOff := by decide
      omega
    have hbyte : unterminatedFile[(216 : Word).toNat + j]? = some 0x41 :=
      unterminatedFile_string hj
    rw [loadedString, if_neg hover, hbyte]
    decide

theorem symbol_name_unterminated :
    ∃ t, loadUserSymbols (plainHost unterminatedFile fun _ => none)
        (ElfHeader.decode unterminatedFile) 0x80010000 freshState = .ok () t ∧
      ¬ NamesEnd t.mem 0x80010000 := by
  have hok : ∃ t, loadUserSymbols (plainHost unterminatedFile fun _ => none)
      (ElfHeader.decode unterminatedFile) 0x80010000 freshState = .ok () t :=
    loadUserSymbols_of_tables unterminatedFile_names.tables fun _ => rfl
  obtain ⟨t, ht⟩ := hok
  exact ⟨t, ht, not_namesEnd_of_unterminated (fun _ _ => rfl) ht unterminatedFile_names⟩

end ProxyKernel.Elf
