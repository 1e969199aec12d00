import ProxyKernel.ElfSections

namespace ProxyKernel.Elf
open ByteMem Effect

/-- The computation adds only blocks inside `A` to the log of writes. -/
def WritesIn (A : Word → Prop) (s s' : LoadState) : Prop :=
  ∃ bs, s'.writes = s.writes ++ bs ∧ ∀ b ∈ bs, ∀ x, InBlock b.1 b.2.length x → A x

variable {ε α : Type} {A : Word → Prop}

theorem WritesIn.refl (A : Word → Prop) (s : LoadState) : WritesIn A s s := ⟨[], by simp⟩

theorem WritesIn.trans (a b c : LoadState) (hab : WritesIn A a b) (hbc : WritesIn A b c) :
    WritesIn A a c := by
  obtain ⟨bs, hbs, hA⟩ := hab
  obtain ⟨cs, hcs, hA'⟩ := hbc
  refine ⟨bs ++ cs, by rw [hcs, hbs, List.append_assoc], ?_⟩
  intro b hb
  rcases List.mem_append.mp hb with hb | hb
  · exact hA b hb
  · exact hA' b hb

theorem writesIn_stored {s : LoadState} {dest : Word} {bs : List Byte}
    (h : ∀ x, InBlock dest bs.length x → A x) : WritesIn A s (s.stored dest bs) :=
  ⟨[(dest, bs)], rfl, by simpa using h⟩

theorem always_pure (a : α) : Always (WritesIn A) (pure a : Loader ε α) := fun s => .refl A s

theorem always_throw (e : ε) : Always (WritesIn A) (throw e : Loader ε α) := fun s => .refl A s

theorem always_fpread (host : Host) (nb off : Word) :
    Always (WritesIn A) (elfFpread host nb off : Loader ε _) := fun _ => ⟨[], by simp [elfFpread_run]⟩

theorem always_put {dest : Word} {bs : List Byte} (h : ∀ x, InBlock dest bs.length x → A x) :
    Always (WritesIn A) (put dest bs : Loader ε Unit) := fun _ => writesIn_stored h

theorem Reply.bytes_length_le (r : Reply) (size : Word) : (r.bytes size).length ≤ size.toNat := by
  cases r <;> simp [Reply.bytes]

theorem always_fpreadTo {host : Host} {dest nb off : Word} {n : ℕ} (hn : nb.toNat ≤ n)
    (h : ∀ x, InBlock dest n x → A x) :
    Always (WritesIn A) (elfFpreadTo host dest nb off : Loader ε _) := by
  intro s
  refine ⟨[(dest, (host s.reads.length nb off).bytes nb)], rfl, ?_⟩
  intro b hb x hx
  rw [List.mem_singleton.mp hb] at hx
  exact h x (lt_of_lt_of_le hx (((host s.reads.length nb off).bytes_length_le nb).trans hn))

def SymbolArea (p x : Word) : Prop :=
  InBlock (p + BitVec.ofNat 64 symtabOff) (24 * MAX_USER_SYMS) x ∨
    InBlock (p + BitVec.ofNat 64 symCountOff) 8 x ∨
    InBlock (p + BitVec.ofNat 64 strtabOff) MAX_USER_STRTAB x ∨
    InBlock (p + BitVec.ofNat 64 strtabSzOff) 8 x

theorem always_sectionHeader (host : Host) (ehdr : ElfHeader) (idx : BitVec 32) :
    Always (WritesIn A) (getElfSectionHeader host ehdr idx) :=
  Always.bind WritesIn.trans (always_fpread host _ _) fun _ => always_pure _

theorem always_findSymtab (host : Host) (ehdr : ElfHeader) (n : ℕ) (k : BitVec 32) :
    Always (WritesIn A) (findSymtab host ehdr n k) := by
  induction n generalizing k with
  | zero => exact always_pure _
  | succ n ih =>
    refine Always.bind WritesIn.trans (always_sectionHeader host ehdr k) fun o => ?_
    cases o with
    | none => exact always_throw _
    | some sect =>
      dsimp only
      split_ifs
      · exact always_pure _
      · exact ih _

theorem always_loadStrtab (host : Host) (ehdr : ElfHeader) (p : Word) (link : BitVec 32) :
    Always (WritesIn (SymbolArea p)) (loadStrtab host ehdr p link) := by
  refine Always.bind WritesIn.trans (always_sectionHeader host ehdr link) fun o => ?_
  cases o with
  | none => exact always_throw _
  | some strHdr =>
    dsimp only
    split_ifs with hsize
    · exact always_throw _
    · refine Always.bind WritesIn.trans
        (always_fpreadTo (not_lt.mp hsize) fun x hx => .inr (.inr (.inl hx))) fun r => ?_
      split_ifs
      · exact always_throw _
      · exact always_put fun x hx => .inr (.inr (.inr (by simpa using hx)))

/-- A table of at most 512 entries has at most 12311 bytes. -/
theorem size_le_of_count {size : Word} (h : ¬ (divu size 24).toNat > MAX_USER_SYMS) :
    size.toNat ≤ 24 * MAX_USER_SYMS + 23 := by
  simp only [divu, MAX_USER_SYMS] at *
  have h24 : (24 : Word).toNat = 24 := rfl
  rw [if_neg (by decide), BitVec.toNat_udiv, h24] at h
  omega

theorem symbolArea_of_surplus {p x : Word}
    (h : InBlock (p + BitVec.ofNat 64 symtabOff) (24 * MAX_USER_SYMS + 23) x) :
    SymbolArea p x := by
  simp only [SymbolArea, InBlock, offset, symtabOff, symCountOff, strtabOff, strtabSzOff,
    MAX_USER_SYMS, MAX_USER_STRTAB] at *
  bv_omega

theorem always_loadSymtab (host : Host) (p : Word) (symHdr : SectionHeader) :
    Always (WritesIn (SymbolArea p)) (loadSymtab host p symHdr) := by
  rw [loadSymtab]
  split_ifs with hcount hent
  · exact always_throw _
  · exact always_throw _
  · rw [not_not.mp hent] at hcount ⊢
    refine Always.bind WritesIn.trans
      (always_fpreadTo (size_le_of_count hcount) fun x hx => symbolArea_of_surplus hx) fun r => ?_
    split_ifs
    · exact always_throw _
    · exact always_put fun x hx => .inr (.inl (by simpa using hx))

/-- Whatever the host and the file are, the loader writes only the four fields. -/
theorem loadUserSymbols_writesIn (host : Host) (ehdr : ElfHeader) (p : Word) (s : LoadState) :
    WritesIn (SymbolArea p) s (finalState (loadUserSymbols host ehdr p s)) := by
  suffices h : Always (WritesIn (SymbolArea p)) (loadUserSymbols host ehdr p) from h s
  rw [loadUserSymbols]
  split_ifs
  · exact always_pure _
  · refine Always.bind WritesIn.trans (always_findSymtab host ehdr _ _) fun o => ?_
    cases o with
    | none => exact always_pure _
    | some symHdr =>
      exact Always.bind WritesIn.trans (always_loadStrtab host ehdr p symHdr.link) fun _ =>
        always_loadSymtab host p symHdr

def sectionAt (file : List Byte) (ehdr : ElfHeader) (k : BitVec 32) : Option SectionHeader :=
  if (slice file (sectionOffset ehdr k) 64).length = 64 then
    some (SectionHeader.decode (slice file (sectionOffset ehdr k) 64))
  else none

variable {file : List Byte} {fault : ℕ → Option (Fin 4095)} {ehdr : ElfHeader}
  {s t : LoadState} {p : Word}

theorem headerReply_plain (c : ℕ) (k : BitVec 32) :
    headerReply (plainHost file fault) ehdr c k =
      if fault c = none then sectionAt file ehdr k else none := by
  have h64 : (64 : Word).toNat = 64 := rfl
  have hret : (plainHost file fault c 64 (sectionOffset ehdr k)).ret 64 = 64 ↔
      fault c = none ∧
        (slice file (sectionOffset ehdr k) (64 : Word).toNat).length = (64 : Word).toNat :=
    plainHost_ret_iff (by decide)
  rw [headerReply, plainHost_bytes]
  by_cases hf : fault c = none
  · simp only [hret, hf, true_and, h64, if_true, transferred, sectionAt]
  · simp only [hret, hf, false_and, if_false]

theorem getElfSectionHeader_run (k : BitVec 32) :
    getElfSectionHeader (plainHost file fault) ehdr k s =
      .ok (if fault s.reads.length = none then sectionAt file ehdr k else none)
        (s.logged 64 (sectionOffset ehdr k)
          (plainHost file fault s.reads.length 64 (sectionOffset ehdr k))) := by
  rw [getElfSectionHeader_reply, headerReply_plain]

/-- The scan ends at the first symbol table: every header before it is complete
and of another type. -/
def FirstSymtab (file : List Byte) (ehdr : ElfHeader) (n : ℕ) (k : BitVec 32) (j : ℕ)
    (symHdr : SectionHeader) : Prop :=
  j < n ∧ sectionAt file ehdr (k + BitVec.ofNat 32 j) = some symHdr ∧
    symHdr.type = SHT_SYMTAB ∧
    ∀ i < j, ∃ sect, sectionAt file ehdr (k + BitVec.ofNat 32 i) = some sect ∧
      sect.type ≠ SHT_SYMTAB

theorem headerReply_plain_some {c : ℕ} {k : BitVec 32} {sect : SectionHeader} :
    headerReply (plainHost file fault) ehdr c k = some sect ↔
      fault c = none ∧ sectionAt file ehdr k = some sect := by
  rw [headerReply_plain]
  split_ifs with hf
  · simp [hf]
  · simp [hf]

/-- The scan stops at the first symbol table of the file, if the reads up to it
do not fail. -/
theorem scanStops_plain {c n j : ℕ} {k : BitVec 32} {symHdr : SectionHeader} :
    (j < n ∧ ScanStops (plainHost file fault) ehdr c k j symHdr) ↔
      FirstSymtab file ehdr n k j symHdr ∧ ∀ i ≤ j, fault (c + i) = none := by
  simp only [ScanStops, ScanPasses, FirstSymtab, headerReply_plain_some]
  constructor
  · rintro ⟨hj, hpass, ⟨hf, hS⟩, htype⟩
    refine ⟨⟨hj, hS, htype, ?_⟩, ?_⟩
    · intro i hi
      obtain ⟨sect, ⟨-, hsect⟩, hother⟩ := hpass i hi
      exact ⟨sect, hsect, hother⟩
    · intro i hi
      rcases Nat.lt_or_eq_of_le hi with hlt | rfl
      · obtain ⟨-, ⟨hfi, -⟩, -⟩ := hpass i hlt
        exact hfi
      · exact hf
  · rintro ⟨⟨hj, hS, htype, hbefore⟩, hf⟩
    refine ⟨hj, ?_, ⟨hf j le_rfl, hS⟩, htype⟩
    intro i hi
    obtain ⟨sect, hsect, hother⟩ := hbefore i hi
    exact ⟨sect, ⟨hf i (Nat.le_of_lt hi), hsect⟩, hother⟩

theorem findSymtab_ok {n : ℕ} {k : BitVec 32} {symHdr : SectionHeader}
    (h : findSymtab (plainHost file fault) ehdr n k s = .ok (some symHdr) t) :
    ∃ j, FirstSymtab file ehdr n k j symHdr ∧ (∀ i ≤ j, fault (s.reads.length + i) = none) ∧
      t.mem = s.mem ∧ t.reads.length = s.reads.length + (j + 1) := by
  obtain ⟨j, hj, hstop, hcalls⟩ := findSymtab_some_iff.mp ⟨t, h, rfl⟩
  obtain ⟨hfirst, hf⟩ := scanStops_plain.mp ⟨hj, hstop⟩
  exact ⟨j, hfirst, hf, findSymtab_mem h, hcalls⟩

theorem findSymtab_of_first {n j : ℕ} {k : BitVec 32} {symHdr : SectionHeader}
    (hfirst : FirstSymtab file ehdr n k j symHdr)
    (hf : ∀ i ≤ j, fault (s.reads.length + i) = none) :
    ∃ t, findSymtab (plainHost file fault) ehdr n k s = .ok (some symHdr) t ∧ t.mem = s.mem ∧
      t.reads.length = s.reads.length + (j + 1) := by
  obtain ⟨hj, hstop⟩ := scanStops_plain.mpr ⟨hfirst, hf⟩
  obtain ⟨t, ht, hcalls⟩ := findSymtab_some_iff.mpr ⟨j, hj, hstop, rfl⟩
  exact ⟨t, ht, findSymtab_mem ht, hcalls⟩

structure StringsFit (file : List Byte) (ehdr : ElfHeader) (link : BitVec 32)
    (strHdr : SectionHeader) : Prop where
  header : sectionAt file ehdr link = some strHdr
  size_le : strHdr.size.toNat ≤ MAX_USER_STRTAB
  full : (slice file strHdr.off strHdr.size.toNat).length = strHdr.size.toNat

def withStrings (file : List Byte) (p : Word) (strHdr : SectionHeader) (m : Mem) : Mem :=
  write (write m (p + BitVec.ofNat 64 strtabOff) (slice file strHdr.off strHdr.size.toNat))
    (p + BitVec.ofNat 64 strtabSzOff) (toLE 8 strHdr.size.toNat)

theorem loadStrtab_ok {link : BitVec 32}
    (h : loadStrtab (plainHost file fault) ehdr p link s = .ok () t) :
    ∃ strHdr, StringsFit file ehdr link strHdr ∧ fault s.reads.length = none ∧
      fault (s.reads.length + 1) = none ∧ t.mem = withStrings file p strHdr s.mem ∧
      t.reads.length = s.reads.length + 2 := by
  rw [loadStrtab, bind_of_ok (getElfSectionHeader_run link)] at h
  split_ifs at h with hf
  · cases hsect : sectionAt file ehdr link with
    | none => rw [hsect] at h; cases h
    | some strHdr =>
      rw [hsect] at h
      dsimp only at h
      split_ifs at h with hsize
      · cases h
      rw [bind_of_ok (elfFpreadTo_run _ _ _ _ _)] at h
      split_ifs at h with hr
      · cases h
      have hsize : strHdr.size.toNat ≤ MAX_USER_STRTAB := not_lt.mp hsize
      have hlt : strHdr.size.toNat < 2 ^ 32 := lt_of_le_of_lt hsize (by decide)
      obtain ⟨hf', hfull⟩ := (plainHost_ret_iff hlt).mp (not_not.mp hr)
      rw [logged_calls] at hf'
      injection h with _ ht
      refine ⟨strHdr, ⟨hsect, hsize, hfull⟩, hf, hf', ?_, ?_⟩
      · rw [← ht]
        simp only [stored_mem, logged_mem, logged_calls, plainHost_bytes, hf', transferred,
          withStrings]
      · rw [← ht]
        simp
  · cases h

theorem loadStrtab_of_fit {link : BitVec 32} {strHdr : SectionHeader}
    (hfit : StringsFit file ehdr link strHdr) (hf : fault s.reads.length = none)
    (hf' : fault (s.reads.length + 1) = none) :
    ∃ t, loadStrtab (plainHost file fault) ehdr p link s = .ok () t ∧
      t.mem = withStrings file p strHdr s.mem ∧ t.reads.length = s.reads.length + 2 := by
  have hlt : strHdr.size.toNat < 2 ^ 32 := lt_of_le_of_lt hfit.size_le (by decide)
  rw [loadStrtab, bind_of_ok (getElfSectionHeader_run link), if_pos hf, hfit.header]
  dsimp only
  rw [if_neg (not_lt.mpr hfit.size_le), bind_of_ok (elfFpreadTo_run _ _ _ _ _),
    if_neg (not_not.mpr ((plainHost_ret_iff hlt).mpr ⟨by rwa [logged_calls], hfit.full⟩))]
  refine ⟨_, rfl, ?_, by simp⟩
  simp only [stored_mem, logged_mem, logged_calls, plainHost_bytes, hf', transferred, withStrings]

def surplusOff : ℕ := strtabOff - symtabOff

theorem offset_symtab_strtab (p : Word) {j : ℕ} (hj : j < MAX_USER_STRTAB) :
    offset (p + BitVec.ofNat 64 symtabOff)
      (p + BitVec.ofNat 64 strtabOff + BitVec.ofNat 64 j) = surplusOff + j := by
  simp only [offset, surplusOff, symtabOff, symCountOff, strtabOff, MAX_USER_SYMS,
    MAX_USER_STRTAB] at *
  bv_omega

theorem not_mem_symCount (p : Word) {j : ℕ} (hj : j < MAX_USER_STRTAB) :
    ¬ InBlock (p + BitVec.ofNat 64 symCountOff) 8
      (p + BitVec.ofNat 64 strtabOff + BitVec.ofNat 64 j) := by
  simp only [InBlock, offset, symtabOff, symCountOff, strtabOff, MAX_USER_SYMS,
    MAX_USER_STRTAB] at *
  bv_omega

/-- A byte of the string table after the symbol table has been read: the bytes
from `surplusOff` on of what was transferred have gone over it. -/
theorem loadSymtab_strtab (symHdr : SectionHeader) {j : ℕ} (hj : j < MAX_USER_STRTAB) :
    (finalState (loadSymtab (plainHost file fault) p symHdr s)).mem
        (p + BitVec.ofNat 64 strtabOff + BitVec.ofNat 64 j) =
      if (divu symHdr.size symHdr.entsize).toNat ≤ MAX_USER_SYMS ∧ symHdr.entsize = 24 then
        (transferred file (fault s.reads.length) symHdr.size symHdr.off)[surplusOff + j]?.getD
          (s.mem (p + BitVec.ofNat 64 strtabOff + BitVec.ofNat 64 j))
      else s.mem (p + BitVec.ofNat 64 strtabOff + BitVec.ofNat 64 j) := by
  by_cases hboth : (divu symHdr.size symHdr.entsize).toNat ≤ MAX_USER_SYMS ∧ symHdr.entsize = 24
  · obtain ⟨hcount, hent⟩ := hboth
    have hstored (bs : List Byte) : write s.mem (p + BitVec.ofNat 64 symtabOff) bs
        (p + BitVec.ofNat 64 strtabOff + BitVec.ofNat 64 j) =
          bs[surplusOff + j]?.getD (s.mem (p + BitVec.ofNat 64 strtabOff + BitVec.ofNat 64 j)) := by
      rw [write, offset_symtab_strtab p hj]
    rw [if_pos ⟨hcount, hent⟩, loadSymtab, if_neg (not_lt.mpr hcount), if_neg (not_not.mpr hent),
      bind_of_ok (elfFpreadTo_run _ _ _ _ _)]
    split_ifs
    · rw [throw_run, finalState_error, stored_mem, logged_mem, plainHost_bytes, hstored]
    · rw [put, finalState_ok, stored_mem,
        write_of_not_mem (by simpa using not_mem_symCount p hj), stored_mem, logged_mem,
        plainHost_bytes, hstored]
  · rw [if_neg hboth, loadSymtab]
    split_ifs with hcount hent
    · rfl
    · rfl
    · exact absurd ⟨not_lt.mp hcount, not_not.mp hent⟩ hboth

/-- The loader stays inside the fields of the symbols, and the string table is
the same after the symbol table has been read as before. -/
structure SymbolsConfined (host : Host) (ehdr : ElfHeader) (p : Word) (s : LoadState) : Prop where
  footprint : WritesIn (SymbolArea p) s (finalState (loadUserSymbols host ehdr p s))
  strtab_kept : ∀ symHdr t u, findSymtab host ehdr ehdr.shnum.toNat 0 s = .ok (some symHdr) t →
    loadStrtab host ehdr p symHdr.link t = .ok () u →
    ∀ j < MAX_USER_STRTAB,
      (finalState (loadSymtab host p symHdr u)).mem
          (p + BitVec.ofNat 64 strtabOff + BitVec.ofNat 64 j) =
        u.mem (p + BitVec.ofNat 64 strtabOff + BitVec.ofNat 64 j)

/-- The tables of the file that make the symbol read run over the string table:
the reads up to it succeed, the rounded count passes its check, and from byte
`surplusOff` on the section holds other bytes than those they come to lie on. -/
structure SymtabOverrun (file : List Byte) (fault : ℕ → Option (Fin 4095)) (ehdr : ElfHeader)
    (p : Word) (s : LoadState) (k : ℕ) (symHdr strHdr : SectionHeader) : Prop where
  first : FirstSymtab file ehdr ehdr.shnum.toNat 0 k symHdr
  strings : StringsFit file ehdr symHdr.link strHdr
  no_fault : ∀ i ≤ k + 3, fault (s.reads.length + i) = none
  entsize : symHdr.entsize = 24
  count_le : symHdr.size.toNat / 24 ≤ MAX_USER_SYMS
  differs : ∃ j < MAX_USER_STRTAB, ∃ b,
    (slice file symHdr.off symHdr.size.toNat)[surplusOff + j]? = some b ∧
      b ≠ withStrings file p strHdr s.mem (p + BitVec.ofNat 64 strtabOff + BitVec.ofNat 64 j)

theorem divu_24 (a : Word) : (divu a 24).toNat = a.toNat / 24 := by
  rw [divu, if_neg (by decide), BitVec.toNat_udiv]
  rfl

theorem not_confined_of_overrun {k : ℕ} {symHdr strHdr : SectionHeader}
    (hover : SymtabOverrun file fault ehdr p s k symHdr strHdr) :
    ¬ SymbolsConfined (plainHost file fault) ehdr p s := by
  intro hconf
  obtain ⟨t, ht, htmem, htcalls⟩ := findSymtab_of_first (s := s) hover.first fun i hi =>
    hover.no_fault i (by omega)
  obtain ⟨u, hu, humem, hucalls⟩ := loadStrtab_of_fit (s := t) (p := p) hover.strings
    (by rw [htcalls]; exact hover.no_fault _ (by omega))
    (by rw [htcalls, add_assoc]; exact hover.no_fault _ (by omega))
  obtain ⟨j, hj, b, hb, hne⟩ := hover.differs
  have hkept := hconf.strtab_kept symHdr t u ht hu j hj
  have hf3 : fault u.reads.length = none := by
    rw [hucalls, htcalls, add_assoc]
    exact hover.no_fault _ (by omega)
  have hchecks : (divu symHdr.size symHdr.entsize).toNat ≤ MAX_USER_SYMS ∧
      symHdr.entsize = 24 := by
    rw [hover.entsize, divu_24]
    exact ⟨hover.count_le, rfl⟩
  rw [loadSymtab_strtab symHdr hj, if_pos hchecks, hf3, transferred, hb, Option.getD_some,
    humem, htmem] at hkept
  exact hne hkept

/-- The loader is confined exactly when the file has no such tables. -/
theorem load_user_symbols_confined_iff (file : List Byte) (fault : ℕ → Option (Fin 4095))
    (ehdr : ElfHeader) (p : Word) (s : LoadState) :
    SymbolsConfined (plainHost file fault) ehdr p s ↔
      ¬ ∃ k symHdr strHdr, SymtabOverrun file fault ehdr p s k symHdr strHdr := by
  constructor
  · rintro hconf ⟨k, symHdr, strHdr, hover⟩
    exact not_confined_of_overrun hover hconf
  · intro hno
    refine ⟨loadUserSymbols_writesIn _ ehdr p s, ?_⟩
    intro symHdr t u ht hu j hj
    obtain ⟨k, hfirst, hfault, htmem, htcalls⟩ := findSymtab_ok ht
    obtain ⟨strHdr, hfit, hf1, hf2, humem, hucalls⟩ := loadStrtab_ok hu
    rw [loadSymtab_strtab symHdr hj]
    split_ifs with hboth
    · obtain ⟨hcount, hent⟩ := hboth
      rw [hent, divu_24] at hcount
      cases hf3 : fault u.reads.length with
      | some e => rfl
      | none =>
        rw [transferred]
        cases hb : (slice file symHdr.off symHdr.size.toNat)[surplusOff + j]? with
        | none => rfl
        | some b =>
          rw [Option.getD_some]
          -- a byte that came out different makes an overrun of the file's tables
          by_contra hne
          rw [humem, htmem] at hne
          refine hno ⟨k, symHdr, strHdr, hfirst, hfit, ?_, hent, hcount, j, hj, b, hb, hne⟩
          intro i hi
          rcases Nat.lt_or_ge k i with hik | hik
          · rw [htcalls] at hf1 hf2 hucalls
            rw [hucalls] at hf3
            obtain rfl | rfl | rfl : i = k + 1 ∨ i = k + 1 + 1 ∨ i = k + 1 + 2 := by omega
            · exact hf1
            · exact hf2
            · exact hf3
          · exact hfault i hik
    · rfl

/-- The head of a file with two sections: a symbol table of 12311 bytes right
behind the head, and a string table made of the first sixteen bytes. -/
def oddSymtabHead : List Byte :=
  toLE 4 0x464C457F ++ toLE 36 0 ++ toLE 8 64 ++ toLE 10 0 ++ toLE 2 64 ++ toLE 2 2 ++ toLE 2 0 ++
    (toLE 4 0 ++ toLE 4 2 ++ toLE 16 0 ++ toLE 8 192 ++ toLE 8 12311 ++ toLE 4 1 ++ toLE 12 0 ++
      toLE 8 24) ++
    (toLE 4 0 ++ toLE 4 3 ++ toLE 24 0 ++ toLE 8 16 ++ toLE 24 0)

def oddSymtabFile : List Byte := oddSymtabHead ++ List.replicate 12311 0xEE

theorem load_user_symbols_overruns_strtab :
    ¬ SymbolsConfined (plainHost oddSymtabFile fun _ => none)
      (ElfHeader.decode oddSymtabFile) 0x80010000 freshState := by
  have hfill (n i : ℕ) (hi : i < n) :
      (oddSymtabHead ++ List.replicate n (0xEE : Byte))[192 + i]? = some 0xEE := by
    have hhead : oddSymtabHead.length = 192 := by simp [oddSymtabHead]
    rw [List.getElem?_append_right (by omega), hhead, Nat.add_sub_cancel_left,
      List.getElem?_replicate, if_pos hi]
  have hbyte : oddSymtabFile[192 + (surplusOff + 0)]? = some 0xEE := hfill 12311 _ (by decide)
  have hover : SymtabOverrun oddSymtabFile (fun _ => none) (ElfHeader.decode oddSymtabFile)
      0x80010000 freshState 0 ⟨2, 192, 12311, 1, 24⟩ ⟨3, 0, 16, 0, 0⟩ :=
    { first := ⟨by decide, by decide, by decide, by omega⟩
      strings := ⟨by decide, by decide, by decide⟩
      no_fault := fun _ _ => rfl
      entsize := rfl
      count_le := by decide
      differs := ⟨0, by decide, 0xEE, (slice_getElem? _ _ (by decide)).trans hbyte, by decide⟩ }
  exact not_confined_of_overrun hover

end ProxyKernel.Elf
