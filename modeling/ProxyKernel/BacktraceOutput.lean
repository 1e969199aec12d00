import ProxyKernel.SymbolNames
import ProxyKernel.BacktraceChain
import ProxyKernel.KernelLines
import ProxyKernel.PanicMessage

namespace ProxyKernel.Backtrace
open ByteMem Effect Elf Print Syscall

variable {file : List Byte} {fault : ℕ → Option (Fin 4095)} {ehdr : ElfHeader} {S T : SectionHeader}
  {p a : Word} {m m' : Mem} {g : List Byte} {gs : List (List Byte)}

structure NameAt (file : List Byte) (T : SectionHeader) (j : ℕ) (g : List Byte) : Prop where
  nul_free : 0 ∉ g
  inside : j + g.length < T.size.toNat
  bytes : ∀ n ≤ g.length, file[T.off.toNat + (j + n)]? = (g ++ [0])[n]?

def FileName (file : List Byte) (S T : SectionHeader) (a : Word) (g : List Byte) : Prop :=
  ∃ i, First (FileResolves file S T a) i ∧ NameAt file T (fileSymbol file S i).name.toNat g

def SameTables (p : Word) (m m' : Mem) : Prop := ∀ x, SymbolArea p x → m' x = m x

theorem SameTables.symCount (h : SameTables p m m') : symCount m' p = symCount m p :=
  load64_congr fun x hx => h x (.inr (.inl hx))

theorem SameTables.strtabSz (h : SameTables p m m') : strtabSz m' p = strtabSz m p :=
  load64_congr fun x hx => h x (.inr (.inr (.inr hx)))

theorem SameTables.symbolAt (h : SameTables p m m') {i : ℕ} (hi : i < MAX_USER_SYMS) :
    symbolAt m' p i = symbolAt m p i := by
  have hbytes : ByteMem.read m' (p + BitVec.ofNat 64 (symtabOff + 24 * i)) 24 =
      ByteMem.read m (p + BitVec.ofNat 64 (symtabOff + 24 * i)) 24 := by
    refine read_congr (by decide) fun x hx => h x (.inl ?_)
    rw [← add_ofNat_add] at hx
    exact hx.of_sub (by omega) (by decide)
  rw [symbolAt_eq_decode, symbolAt_eq_decode, hbytes]

theorem SameTables.resolves (h : SameTables p m m') (hcount : (ProxyKernel.symCount m p).toNat ≤ MAX_USER_SYMS) :
    Resolves m' p a = Resolves m p a := by
  funext i
  rw [Resolves, Resolves, h.symCount, h.strtabSz]
  apply propext
  apply and_congr_right
  intro hi
  rw [h.symbolAt (by omega)]

def HasTables (file : List Byte) (S T : SectionHeader) (p : Word) (m : Mem) : Prop :=
  ∃ m₀, SameTables p (withTables file p S T m₀) m

theorem HasTables.resolves (h : HasTables file S T p m) (hsym : SymbolsFit file S) :
    Resolves m p a = FileResolves file S T a := by
  obtain ⟨m₀, h⟩ := h
  have hcount : (ProxyKernel.symCount (withTables file p S T m₀) p).toNat ≤ MAX_USER_SYMS := by
    rw [withTables_symCount]
    exact hsym.count_le
  rw [h.resolves hcount, resolves_withTables hsym]

theorem HasTables.symbolAt (h : HasTables file S T p m) (hsym : SymbolsFit file S) {i : ℕ}
    (hi : i < S.size.toNat / 24) : ProxyKernel.symbolAt m p i = fileSymbol file S i := by
  obtain ⟨m₀, h⟩ := h
  have hle := hsym.count_le
  rw [h.symbolAt (by omega), symbolAt_eq_decode, withTables_symbol_bytes hsym m₀ hi, fileSymbol]

/-- A symbol table of whole entries does not reach the strings. -/
theorem HasTables.string (h : HasTables file S T p m) (hsym : SymbolsFit file S) {link : BitVec 32}
    (hstr : StringsFit file ehdr link T) (hmod : S.size.toNat % 24 = 0) {j : ℕ}
    (hj : j < T.size.toNat) :
    file[T.off.toNat + j]? = some (m (p + BitVec.ofNat 64 strtabOff + BitVec.ofNat 64 j)) := by
  obtain ⟨m₀, h⟩ := h
  have hlt : j < MAX_USER_STRTAB := lt_of_lt_of_le hj hstr.size_le
  have hle := hsym.count_le
  have hno : ¬ surplusOff + j < S.size.toNat := by
    simp only [surplusOff, strtabOff, symCountOff, symtabOff, MAX_USER_SYMS] at *
    omega
  have harea : SymbolArea p (p + BitVec.ofNat 64 strtabOff + BitVec.ofNat 64 j) := by
    refine .inr (.inr (.inl ?_))
    rw [InBlock, offset_ofNat _ (lt_trans hlt (by decide))]
    exact hlt
  have hbyte := withTables_strtab (p := p) hsym hstr m₀ hlt
  rw [if_neg hno, if_pos hj, ← add_ofNat_add] at hbyte
  rw [h _ harea, hbyte]

theorem findSymbolName_of_file (h : HasTables file S T p m) {k : ℕ} (htab : Tables file ehdr k S T)
    (hmod : S.size.toNat % 24 = 0) (hname : FileName file S T a g) :
    ∃ ptr, findSymbolName m p a = some ptr ∧ CString m ptr g := by
  obtain ⟨i, hfirst, hat⟩ := hname
  have hsymbol := h.symbolAt htab.symbols hfirst.1.1
  refine ⟨symbolName m p i, ?_, ?_⟩
  · rw [findSymbolName_eq_some_iff, h.resolves htab.symbols]
    exact ⟨i, hfirst, rfl⟩
  · have hptr : symbolName m p i =
        p + BitVec.ofNat 64 strtabOff + BitVec.ofNat 64 (fileSymbol file S i).name.toNat := by
      rw [symbolName, hsymbol, ← BitVec.ofNat_toNat]
    apply cString_of_stored _ hat.nul_free
    rw [hptr, Stored]
    refine read_eq_of_getElem rfl fun n hn => ?_
    have hlen : n < g.length + 1 := by simpa using hn
    have hinside := hat.inside
    have hfile := h.string htab.symbols htab.strings hmod
      (j := (fileSymbol file S i).name.toNat + n) (by omega)
    rw [hat.bytes n (by omega)] at hfile
    rw [add_ofNat_add]
    exact hfile

inductive FileChain (file : List Byte) (S T : SectionHeader) (m : Mem) (sp : Word) :
    Word → List (List Byte) → Prop
  | main {fp : Word} (hrange : InRange sp fp)
      (hret : FileName file S T (load64 m (frameView fp 1)) mainName) : FileChain file S T m sp fp []
  | call {fp : Word} {g : List Byte} {gs : List (List Byte)} (hrange : InRange sp fp)
      (hret : FileName file S T (load64 m (frameView fp 1)) g)
      (hname : g ≠ mainName ∧ g ≠ printBacktraceName ∧ g ≠ doUserCallName)
      (hup : fp < load64 m (frameView fp 2))
      (hrest : FileChain file S T m sp (load64 m (frameView fp 2)) gs) :
      FileChain file S T m sp fp (g :: gs)

theorem FileChain.chain {sp fp : Word} (h : FileChain file S T m sp fp gs)
    (hm : HasTables file S T p m) {k : ℕ} (htab : Tables file ehdr k S T)
    (hmod : S.size.toNat % 24 = 0) : Chain m p sp fp gs := by
  induction h with
  | main hrange hret => exact .main hrange (findSymbolName_of_file hm htab hmod hret)
  | call hrange hret hname hup _ ih =>
    exact .call hrange (findSymbolName_of_file hm htab hmod hret) hname hup ih

theorem Prints.bytes {c : SprintCall} (h : Prints m c g) (k : KernelContext) (hlen : g.length < 255) :
    (sprint k c.fmt [.ofMem m c.arg]).bytes = g ++ [chr '\n'] := by
  obtain ⟨hfmt, hstr⟩ := h
  have hgiven : (Piece.string g).Given (.ofMem m c.arg) := strAt_eq hstr
  have hshort : ([] ++ (Piece.string g).rendered ++ [chr '\n']).length < 256 := by
    rw [List.nil_append, List.length_append]
    exact Nat.succ_lt_succ hlen
  rw [hfmt]
  exact sprint_piece hgiven List.not_mem_nil (by decide) hshort

end ProxyKernel.Backtrace
