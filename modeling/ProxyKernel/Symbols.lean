import ProxyKernel.Elf

/-!
`strcmp` of `util/string.c` against a string constant, and `find_symbol_name` of
`kernel/syscall.c`, which reads the tables that the loader has left in the
`process` structure.
-/

namespace ProxyKernel
open ByteMem Elf

def ascii (cs : List Char) : List Byte := cs.map fun c => BitVec.ofNat 8 c.toNat

/-- The bytes at `a` are the string `bs` and its terminating NUL. -/
def CString (m : Mem) : Word → List Byte → Prop
  | a, [] => m a = 0
  | a, b :: bs => b ≠ 0 ∧ m a = b ∧ CString m (a + 1) bs

instance CString.decidable (m : Mem) : (a : Word) → (bs : List Byte) → Decidable (CString m a bs)
  | a, [] => inferInstanceAs (Decidable (m a = 0))
  | a, b :: bs =>
    have := CString.decidable m (a + 1) bs
    inferInstanceAs (Decidable (b ≠ 0 ∧ m a = b ∧ CString m (a + 1) bs))

/-- The bytes from `a` up to the first NUL, among the next `n`. -/
def strLoop (m : Mem) : ℕ → Word → List Byte
  | 0, _ => []
  | n + 1, a => if m a = 0 then [] else m a :: strLoop m n (a + 1)

/-- The string at `a`.  The bound is the size of the address space. -/
def strAt (m : Mem) (a : Word) : List Byte := strLoop m (2 ^ 64) a

theorem zero_not_mem_strLoop (m : Mem) (n : ℕ) (a : Word) : 0 ∉ strLoop m n a := by
  induction n generalizing a with
  | zero => simp [strLoop]
  | succ n ih =>
    unfold strLoop
    split_ifs with h
    · simp
    · intro hmem
      rcases List.mem_cons.mp hmem with h0 | hmem
      · exact h h0.symm
      · exact ih (a + 1) hmem

theorem strLoop_of_cString {m : Mem} {a : Word} {bs : List Byte} (h : CString m a bs) {n : ℕ}
    (hn : bs.length < n) : strLoop m n a = bs := by
  induction bs generalizing a n with
  | nil =>
    obtain ⟨k, rfl⟩ := Nat.exists_eq_add_of_lt hn
    have h0 : m a = 0 := h
    simp [strLoop, h0]
  | cons b bs ih =>
    obtain ⟨k, rfl⟩ := Nat.exists_eq_succ_of_ne_zero (by omega : n ≠ 0)
    obtain ⟨hb, hm, hrest⟩ := h
    rw [strLoop, hm, if_neg hb, ih hrest (by simpa using hn)]

theorem strAt_of_cString {m : Mem} {a : Word} {bs : List Byte} (h : CString m a bs)
    (hlen : bs.length < 2 ^ 64) : strAt m a = bs :=
  strLoop_of_cString h hlen

theorem cString_of_stored {m : Mem} {a : Word} {name : List Byte}
    (h : Stored m a (name ++ [0])) (hnul : 0 ∉ name) : CString m a name := by
  induction name generalizing a with
  | nil => exact stored_singleton.mp h
  | cons b bs ih =>
    obtain ⟨hb, hrest⟩ := stored_append.mp (show Stored m a ([b] ++ (bs ++ [0])) from h)
    refine ⟨fun h0 => hnul (h0 ▸ List.mem_cons_self), stored_singleton.mp hb, ?_⟩
    exact ih hrest fun h0 => hnul (List.mem_cons_of_mem b h0)

theorem CString.byte_ne_zero {m : Mem} {a : Word} {name : List Byte} (h : CString m a name) {i : ℕ}
    (hi : i < name.length) : m (a + BitVec.ofNat 64 i) ≠ 0 := by
  induction name generalizing a i with
  | nil => cases hi
  | cons b bs ih =>
    obtain ⟨hb, hm, hrest⟩ := h
    cases i with
    | zero => simpa [hm] using hb
    | succ i =>
      have := ih hrest (Nat.lt_of_succ_lt_succ hi)
      rwa [add_one_ofNat] at this

theorem CString.byte_end {m : Mem} {a : Word} {name : List Byte} (h : CString m a name) :
    m (a + BitVec.ofNat 64 name.length) = 0 := by
  induction name generalizing a with
  | nil =>
    have hm : m a = 0 := h
    simpa using hm
  | cons b bs ih =>
    have := ih h.2.2
    rwa [add_one_ofNat] at this

/-- A string that did not end would come round to its own bytes. -/
theorem CString.length_lt {m : Mem} {a : Word} {name : List Byte} (h : CString m a name) :
    name.length < 2 ^ 64 := by
  by_contra hlen
  refine h.byte_ne_zero (i := name.length - 2 ^ 64) (by omega) ?_
  have hround : BitVec.ofNat 64 (name.length - 2 ^ 64) = BitVec.ofNat 64 name.length := by
    apply BitVec.eq_of_toNat_eq
    rw [BitVec.toNat_ofNat, BitVec.toNat_ofNat]
    omega
  rw [hround]
  exact h.byte_end

theorem strAt_eq {m : Mem} {a : Word} {name : List Byte} (h : CString m a name) :
    strAt m a = name :=
  strAt_of_cString h h.length_lt

/-- `strcmp(s1, s2)` for a constant `s2`: the loop stops at the end of either
string or at the first difference. -/
def strcmp (m : Mem) : Word → List Byte → ℤ
  | s1, [] => (m s1).toNat
  | s1, c2 :: s2 =>
    if m s1 ≠ 0 ∧ m s1 = c2 then strcmp m (s1 + 1) s2 else (m s1).toNat - c2.toNat

theorem strcmp_eq_zero_iff_cString {m : Mem} {s1 : Word} {s2 : List Byte} (h2 : 0 ∉ s2) :
    strcmp m s1 s2 = 0 ↔ CString m s1 s2 := by
  induction s2 generalizing s1 with
  | nil =>
    unfold strcmp CString
    rw [← BitVec.toNat_inj]
    exact Int.natCast_eq_zero
  | cons c cs ih =>
    have hc : c ≠ 0 := fun h => h2 (h ▸ List.mem_cons_self)
    have hcs : 0 ∉ cs := fun h => h2 (List.mem_cons_of_mem c h)
    unfold strcmp CString
    by_cases hbyte : m s1 = c
    · rw [if_pos ⟨hbyte ▸ hc, hbyte⟩, ih hcs]
      exact ⟨fun h => ⟨hc, hbyte, h⟩, fun h => h.2.2⟩
    · have hne : (m s1).toNat ≠ c.toNat := fun h => hbyte (BitVec.toNat_inj.mp h)
      rw [if_neg fun h => hbyte h.2]
      constructor
      · intro h
        omega
      · rintro ⟨-, h, -⟩
        exact absurd h hbyte

theorem strcmp_eq_zero_iff {m : Mem} {s1 : Word} {name s2 : List Byte}
    (hname : CString m s1 name) (h2 : 0 ∉ s2) : strcmp m s1 s2 = 0 ↔ name = s2 := by
  rw [strcmp_eq_zero_iff_cString h2]
  constructor
  · intro h
    rw [← strAt_eq hname, strAt_eq h]
  · rintro rfl
    exact hname

theorem cString_of_strLoop {m : Mem} {a : Word} {bs : List Byte} {n : ℕ} (h : strLoop m n a = bs)
    (hn : bs.length < n) : CString m a bs := by
  induction bs generalizing a n with
  | nil =>
    obtain ⟨k, rfl⟩ := Nat.exists_eq_succ_of_ne_zero (by omega : n ≠ 0)
    rw [strLoop] at h
    split_ifs at h with h0
    exact h0
  | cons b bs ih =>
    obtain ⟨k, rfl⟩ := Nat.exists_eq_succ_of_ne_zero (by omega : n ≠ 0)
    rw [strLoop] at h
    split_ifs at h with h0
    obtain ⟨hb, hrest⟩ := List.cons_eq_cons.mp h
    exact ⟨hb ▸ h0, hb, ih hrest (by simpa using hn)⟩

theorem strcmp_eq_zero_iff_strAt {m : Mem} {a : Word} {s2 : List Byte} (h2 : 0 ∉ s2)
    (hlen : s2.length < 2 ^ 64) : strcmp m a s2 = 0 ↔ strAt m a = s2 := by
  rw [strcmp_eq_zero_iff_cString h2]
  exact ⟨strAt_eq, fun h => cString_of_strLoop h hlen⟩

/-- `elf_symbol`, the fields that the lookup reads. -/
structure ElfSymbol where
  name : BitVec 32
  info : Byte
  value : Word
  size : Word
  deriving DecidableEq

/-- `p->symtab[i]`. -/
def symbolAt (m : Mem) (p : Word) (i : ℕ) : ElfSymbol :=
  let a := p + BitVec.ofNat 64 (symtabOff + 24 * i)
  { name := BitVec.ofNat 32 (leNat (read m a 4))
    info := m (a + 4)
    value := load64 m (a + 8)
    size := load64 m (a + 16) }

def symCount (m : Mem) (p : Word) : Word := load64 m (p + BitVec.ofNat 64 symCountOff)
def strtabSz (m : Mem) (p : Word) : Word := load64 m (p + BitVec.ofNat 64 strtabSzOff)

def STT_FUNC : Byte := 2

def stType (info : Byte) : Byte := info &&& 0xf

/-- The tests that the loop makes on one symbol.  The end of the range is a
64-bit sum, and a symbol without a size counts as one instruction. -/
def ElfSymbol.covers (sym : ElfSymbol) (vaddr : Word) : Prop :=
  stType sym.info = STT_FUNC ∧ sym.value ≠ 0 ∧ sym.value ≤ vaddr ∧
    vaddr < sym.value + (if sym.size ≠ 0 then sym.size else 4)

instance (sym : ElfSymbol) (vaddr : Word) : Decidable (sym.covers vaddr) :=
  inferInstanceAs (Decidable (_ ∧ _ ∧ _ ∧ _))

/-- The loop over the remaining `n` symbols from the `i`-th on. -/
def findSymbolLoop (m : Mem) (p vaddr : Word) : ℕ → ℕ → Option Word
  | 0, _ => none
  | n + 1, i =>
    let sym := symbolAt m p i
    if sym.covers vaddr ∧ sym.name.toNat < (strtabSz m p).toNat then
      some (p + BitVec.ofNat 64 strtabOff + sym.name.setWidth 64)
    else findSymbolLoop m p vaddr n (i + 1)

/-- The pointer that `find_symbol_name` returns, `none` for `NULL`. -/
def findSymbolName (m : Mem) (p vaddr : Word) : Option Word :=
  if symCount m p = 0 ∨ strtabSz m p = 0 then none
  else findSymbolLoop m p vaddr (symCount m p).toNat 0

theorem findSymbolLoop_ne_zero {m : Mem} {p vaddr sym : Word} {n i : ℕ}
    (h : findSymbolLoop m p vaddr n i = some sym) : vaddr ≠ 0 := by
  induction n generalizing i with
  | zero => cases h
  | succ n ih =>
    rw [findSymbolLoop] at h
    split_ifs at h with hcov
    · obtain ⟨⟨-, hne, hle, -⟩, -⟩ := hcov
      rintro rfl
      exact hne (BitVec.le_zero_iff.mp hle)
    · exact ih h

/-- Address zero has no name: a symbol of value zero is passed over. -/
theorem findSymbolName_ne_zero {m : Mem} {p vaddr sym : Word}
    (h : findSymbolName m p vaddr = some sym) : vaddr ≠ 0 := by
  unfold findSymbolName at h
  split_ifs at h
  exact findSymbolLoop_ne_zero h

end ProxyKernel
