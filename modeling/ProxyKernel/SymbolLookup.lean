import ProxyKernel.Symbols
import Mathlib.Order.CompletePartialOrder

namespace ProxyKernel
open ByteMem Elf

/-- The least index with the property `P`. -/
def First (P : ℕ → Prop) (i : ℕ) : Prop := P i ∧ ∀ j < i, ¬ P j

theorem First.unique {P : ℕ → Prop} {i j : ℕ} (hi : First P i) (hj : First P j) : i = j := by
  by_contra hne
  rcases Nat.lt_or_gt_of_ne hne with h | h
  · exact hj.2 i h hi.1
  · exact hi.2 j h hj.1

theorem exists_first {P : ℕ → Prop} {i : ℕ} (h : P i) : ∃ k ≤ i, First P k := by
  classical
  have hex : ∃ i, P i := ⟨i, h⟩
  exact ⟨Nat.find hex, Nat.find_min' hex h, Nat.find_spec hex, fun j hj => Nat.find_min hex hj⟩

/-- `p->strtab + cursor->name` for the `i`-th symbol. -/
def symbolName (m : Mem) (p : Word) (i : ℕ) : Word :=
  p + BitVec.ofNat 64 strtabOff + (symbolAt m p i).name.setWidth 64

/-- The `i`-th symbol passes all the tests of the loop. -/
def Resolves (m : Mem) (p a : Word) (i : ℕ) : Prop :=
  i < (symCount m p).toNat ∧ (symbolAt m p i).covers a ∧
    (symbolAt m p i).name.toNat < (strtabSz m p).toNat

variable {m : Mem} {p a : Word}

theorem findSymbolLoop_eq_some_iff {n i : ℕ} {ptr : Word} :
    findSymbolLoop m p a n i = some ptr ↔
      ∃ k < n, ((symbolAt m p (i + k)).covers a ∧
          (symbolAt m p (i + k)).name.toNat < (strtabSz m p).toNat) ∧
        (∀ j < k, ¬ ((symbolAt m p (i + j)).covers a ∧
          (symbolAt m p (i + j)).name.toNat < (strtabSz m p).toNat)) ∧
        ptr = symbolName m p (i + k) := by
  induction n generalizing i with
  | zero => simp [findSymbolLoop]
  | succ n ih =>
    have hnext (k : ℕ) : i + 1 + k = i + (k + 1) := by omega
    rw [findSymbolLoop]
    split_ifs with hgood
    · constructor
      · intro h
        exact ⟨0, by omega, hgood, by omega, (Option.some.inj h).symm⟩
      · rintro ⟨k, -, -, hbefore, rfl⟩
        cases k with
        | zero => rfl
        | succ k => exact absurd hgood (hbefore 0 (by omega))
    · rw [ih]
      constructor
      · rintro ⟨k, hk, hgood', hbefore, hptr⟩
        rw [hnext] at hgood' hptr
        refine ⟨k + 1, by omega, hgood', ?_, hptr⟩
        intro j hj
        cases j with
        | zero => exact hgood
        | succ j =>
          rw [← hnext]
          exact hbefore j (by omega)
      · rintro ⟨k, hk, hgood', hbefore, hptr⟩
        cases k with
        | zero => exact absurd hgood' hgood
        | succ k =>
          rw [← hnext] at hgood' hptr
          refine ⟨k, by omega, hgood', ?_, hptr⟩
          intro j hj
          rw [hnext]
          exact hbefore (j + 1) (by omega)

theorem findSymbolName_eq_some_iff {ptr : Word} :
    findSymbolName m p a = some ptr ↔
      ∃ i, First (Resolves m p a) i ∧ ptr = symbolName m p i := by
  have hloop : findSymbolLoop m p a (symCount m p).toNat 0 = some ptr ↔
      ∃ i, First (Resolves m p a) i ∧ ptr = symbolName m p i := by
    rw [findSymbolLoop_eq_some_iff]
    simp only [Nat.zero_add]
    constructor
    · rintro ⟨k, hk, hgood, hbefore, hptr⟩
      exact ⟨k, ⟨⟨hk, hgood⟩, fun j hj hr => hbefore j hj hr.2⟩, hptr⟩
    · rintro ⟨k, ⟨⟨hk, hgood⟩, hbefore⟩, hptr⟩
      exact ⟨k, hk, hgood, fun j hj hr => hbefore j hj ⟨by omega, hr⟩, hptr⟩
  rw [findSymbolName]
  split_ifs with hempty
  · -- without symbols or without names nothing passes the tests
    simp only [false_iff, not_exists, not_and]
    rintro i ⟨⟨hi, -, hname⟩, -⟩ -
    rcases hempty with h | h
    · rw [h] at hi
      cases hi
    · rw [h] at hname
      cases hname
  · exact hloop

theorem findSymbolName_eq_none_iff :
    findSymbolName m p a = none ↔ ∀ i, ¬ Resolves m p a i := by
  constructor
  · intro h i hi
    obtain ⟨k, -, hk⟩ := exists_first hi
    have := findSymbolName_eq_some_iff.mpr ⟨k, hk, rfl⟩
    rw [h] at this
    cases this
  · intro h
    cases hr : findSymbolName m p a with
    | none => rfl
    | some ptr =>
      obtain ⟨i, hi, -⟩ := findSymbolName_eq_some_iff.mp hr
      exact absurd hi.1 (h i)

def ElfSymbol.span (sym : ElfSymbol) : ℕ := if sym.size ≠ 0 then sym.size.toNat else 4

def ElfSymbol.Holds (sym : ElfSymbol) (a : Word) : Prop :=
  stType sym.info = STT_FUNC ∧ sym.value ≠ 0 ∧ sym.value.toNat ≤ a.toNat ∧
    a.toNat < sym.value.toNat + sym.span

def ElfSymbol.Wraps (sym : ElfSymbol) : Prop := 2 ^ 64 ≤ sym.value.toNat + sym.span

theorem covers_iff (sym : ElfSymbol) (a : Word) : sym.covers a ↔ sym.Holds a ∧ ¬ sym.Wraps := by
  have hspan : (if sym.size ≠ 0 then sym.size else 4).toNat = sym.span := by
    rw [ElfSymbol.span]
    split_ifs <;> rfl
  unfold ElfSymbol.covers ElfSymbol.Holds ElfSymbol.Wraps
  rw [BitVec.le_def, BitVec.lt_def, BitVec.toNat_add, hspan]
  have h1 := sym.value.isLt
  have h2 : sym.span < 2 ^ 64 := hspan ▸ (if sym.size ≠ 0 then sym.size else 4).isLt
  constructor
  · rintro ⟨htype, hvalue, hle, hlt⟩
    exact ⟨⟨htype, hvalue, hle, by omega⟩, by omega⟩
  · rintro ⟨⟨htype, hvalue, hle, hlt⟩, hwrap⟩
    exact ⟨htype, hvalue, hle, by omega⟩

/-- The `i`-th symbol matches the address, all sums being exact. -/
def Matches (m : Mem) (p a : Word) (i : ℕ) : Prop :=
  i < (symCount m p).toNat ∧ (symbolAt m p i).Holds a ∧
    (symbolAt m p i).name.toNat < (strtabSz m p).toNat

theorem resolves_iff {i : ℕ} :
    Resolves m p a i ↔ Matches m p a i ∧ ¬ (symbolAt m p i).Wraps := by
  rw [Resolves, Matches, covers_iff]
  constructor
  · rintro ⟨hi, ⟨hholds, hwrap⟩, hname⟩
    exact ⟨⟨hi, hholds, hname⟩, hwrap⟩
  · rintro ⟨⟨hi, hholds, hname⟩, hwrap⟩
    exact ⟨hi, ⟨hholds, hwrap⟩, hname⟩

theorem resolves_fun :
    Resolves m p a = fun i => Matches m p a i ∧ ¬ (symbolAt m p i).Wraps := by
  funext i
  exact propext resolves_iff

/-- The result is the name of the first match, and `NULL` when there is none. -/
structure FindsFirst (m : Mem) (p a : Word) (result : Option Word) : Prop where
  null_iff : result = none ↔ ¬ ∃ i, Matches m p a i
  first : ∀ i, First (Matches m p a) i → result = some (symbolName m p i)

/-- The first match reaches `2 ^ 64`, and the first one that does not is missing
or has another name. -/
def Hidden (m : Mem) (p a : Word) (i : ℕ) : Prop :=
  First (Matches m p a) i ∧ (symbolAt m p i).Wraps ∧
    ∀ k, First (fun j => Matches m p a j ∧ ¬ (symbolAt m p j).Wraps) k →
      (symbolAt m p k).name ≠ (symbolAt m p i).name

theorem symbolName_inj {i k : ℕ} :
    symbolName m p i = symbolName m p k ↔ (symbolAt m p i).name = (symbolAt m p k).name := by
  unfold symbolName
  constructor <;> intro h <;> bv_omega

theorem findSymbolName_of_first {i : ℕ} (hi : First (Matches m p a) i)
    (hno : ¬ Hidden m p a i) : findSymbolName m p a = some (symbolName m p i) := by
  by_cases hwrap : (symbolAt m p i).Wraps
  · -- a later match, whose range does not wrap, has the same name
    have hk : ∃ k, First (fun j => Matches m p a j ∧ ¬ (symbolAt m p j).Wraps) k ∧
        (symbolAt m p k).name = (symbolAt m p i).name := by
      by_contra hnone
      push Not at hnone
      exact hno ⟨hi, hwrap, hnone⟩
    obtain ⟨k, hk, hname⟩ := hk
    rw [← resolves_fun] at hk
    exact findSymbolName_eq_some_iff.mpr ⟨k, hk, symbolName_inj.mpr hname.symm⟩
  · have hfirst : First (Resolves m p a) i :=
      ⟨resolves_iff.mpr ⟨hi.1, hwrap⟩, fun j hj hr => hi.2 j hj (resolves_iff.mp hr).1⟩
    exact findSymbolName_eq_some_iff.mpr ⟨i, hfirst, rfl⟩

/-- The lookup is complete and picks the first match exactly when no first match
is hidden by the wrapped end of its range. -/
theorem find_symbol_name_first_iff (m : Mem) (p a : Word) :
    FindsFirst m p a (findSymbolName m p a) ↔ ¬ ∃ i, Hidden m p a i := by
  constructor
  · rintro h ⟨i, hi, hwrap, hname⟩
    obtain ⟨k, hk, hptr⟩ := findSymbolName_eq_some_iff.mp (h.first i hi)
    rw [resolves_fun] at hk
    exact hname k hk (symbolName_inj.mp hptr).symm
  · intro hno
    have hfirst (i : ℕ) (hi : First (Matches m p a) i) :
        findSymbolName m p a = some (symbolName m p i) :=
      findSymbolName_of_first hi fun hh => hno ⟨i, hh⟩
    refine ⟨⟨?_, ?_⟩, hfirst⟩
    · rintro hnone ⟨j, hj⟩
      obtain ⟨i, -, hi⟩ := exists_first hj
      rw [hfirst i hi] at hnone
      cases hnone
    · intro hnone
      exact findSymbolName_eq_none_iff.mpr fun i hi => hnone ⟨i, (resolves_iff.mp hi).1⟩

def processMem (p : Word) (syms : List ElfSymbol) (strings : List Byte) : Mem :=
  let symtab := syms.flatMap fun sym =>
    toLE 4 sym.name.toNat ++ [sym.info] ++ toLE 3 0 ++ toLE 8 sym.value.toNat ++
      toLE 8 sym.size.toNat
  let m := write (fun _ => 0) (p + BitVec.ofNat 64 symtabOff) symtab
  let m := write m (p + BitVec.ofNat 64 symCountOff) (toLE 8 syms.length)
  let m := write m (p + BitVec.ofNat 64 strtabOff) strings
  write m (p + BitVec.ofNat 64 strtabSzOff) (toLE 8 strings.length)

def topMem : Mem := processMem 0x80010000 [⟨1, 0x12, 0xFFFFFFFFFFFFFFF0, 16⟩] (toLE 3 0x6600)

theorem find_symbol_name_misses_top :
    (symCount topMem 0x80010000).toNat ≤ MAX_USER_SYMS ∧
      ¬ FindsFirst topMem 0x80010000 0xFFFFFFFFFFFFFFF8
        (findSymbolName topMem 0x80010000 0xFFFFFFFFFFFFFFF8) := by
  have hcount : (symCount topMem 0x80010000).toNat = 1 := by decide +kernel
  have hsize : (strtabSz topMem 0x80010000).toNat = 3 := by decide +kernel
  have hsym : symbolAt topMem 0x80010000 0 = ⟨1, 0x12, 0xFFFFFFFFFFFFFFF0, 16⟩ := by
    decide +kernel
  have hnull : findSymbolName topMem 0x80010000 0xFFFFFFFFFFFFFFF8 = none := by decide +kernel
  have hmatch : Matches topMem 0x80010000 0xFFFFFFFFFFFFFFF8 0 := by
    rw [Matches, hcount, hsize, hsym]
    exact ⟨by decide, ⟨by decide, by decide, by decide, by decide⟩, by decide⟩
  refine ⟨by rw [hcount]; decide, ?_⟩
  intro h
  exact h.null_iff.mp hnull ⟨0, hmatch⟩

/-- The addresses of a function, `[value, value + size)`. -/
def ElfSymbol.range (sym : ElfSymbol) : Set ℕ :=
  Set.Ico sym.value.toNat (sym.value.toNat + sym.size.toNat)

/-- The functions of the table have an address, a name and a range of their own. -/
structure FunctionTable (m : Mem) (p : Word) : Prop where
  value_ne : ∀ i < (symCount m p).toNat, stType (symbolAt m p i).info = STT_FUNC →
    (symbolAt m p i).value ≠ 0
  name_lt : ∀ i < (symCount m p).toNat, stType (symbolAt m p i).info = STT_FUNC →
    (symbolAt m p i).name.toNat < (strtabSz m p).toNat
  disjoint : ∀ i < (symCount m p).toNat, ∀ j < (symCount m p).toNat, i ≠ j →
    stType (symbolAt m p i).info = STT_FUNC → stType (symbolAt m p j).info = STT_FUNC →
    Disjoint (symbolAt m p i).range (symbolAt m p j).range

/-- The call at `c` is an instruction of the `f`-th symbol. -/
structure CallIn (m : Mem) (p : Word) (f : ℕ) (c : Word) : Prop where
  index_lt : f < (symCount m p).toNat
  func : stType (symbolAt m p f).info = STT_FUNC
  start_le : (symbolAt m p f).value.toNat ≤ c.toNat
  end_le : c.toNat + 4 ≤ (symbolAt m p f).value.toNat + (symbolAt m p f).size.toNat

/-- The name found for the return address of the call at `c` is that of `f`. -/
def Attributed (m : Mem) (p : Word) (f : ℕ) (c : Word) : Prop :=
  ∃ ptr, findSymbolName m p (c + 4) = some ptr ∧ strAt m ptr = strAt m (symbolName m p f)

def SameName (m : Mem) (p : Word) (k f : ℕ) : Prop :=
  strAt m (symbolName m p k) = strAt m (symbolName m p f)

/-- More of the function follows the call, and the function ends below `2 ^ 64`. -/
def ReturnsInside (m : Mem) (p : Word) (f : ℕ) (c : Word) : Prop :=
  c.toNat + 4 < (symbolAt m p f).value.toNat + (symbolAt m p f).size.toNat ∧
    (symbolAt m p f).value.toNat + (symbolAt m p f).size.toNat < 2 ^ 64

/-- A symbol without a size that the lookup takes for the four bytes around `a`. -/
def Label (m : Mem) (p a : Word) (k : ℕ) : Prop :=
  (symbolAt m p k).size = 0 ∧ Resolves m p a k

/-- The symbol that is found when nothing of `f` follows the call: not `f` itself, but
the function that starts where `f` ends, or a label. -/
structure Behind (m : Mem) (p : Word) (f : ℕ) (c : Word) (k : ℕ) : Prop where
  first : First (Resolves m p (c + 4)) k
  ne : k ≠ f
  value : c.toNat + 4 < 2 ^ 64 → (symbolAt m p k).value = c + 4 ∨ (symbolAt m p k).size = 0

variable {f : ℕ} {c : Word}

theorem attributed_iff_first :
    Attributed m p f c ↔ ∃ k, First (Resolves m p (c + 4)) k ∧ SameName m p k f := by
  constructor
  · rintro ⟨ptr, hptr, hname⟩
    obtain ⟨k, hk, rfl⟩ := findSymbolName_eq_some_iff.mp hptr
    exact ⟨k, hk, hname⟩
  · rintro ⟨k, hk, hname⟩
    exact ⟨symbolName m p k, findSymbolName_eq_some_iff.mpr ⟨k, hk, rfl⟩, hname⟩

theorem return_toNat (hin : ReturnsInside m p f c) : (c + 4).toNat = c.toNat + 4 := by
  have h := lt_trans hin.1 hin.2
  have h4 : (4 : Word).toNat = 4 := rfl
  rw [BitVec.toNat_add, h4, Nat.mod_eq_of_lt h]

theorem CallIn.span (hcall : CallIn m p f c) : (symbolAt m p f).span = (symbolAt m p f).size.toNat := by
  have hsize : (symbolAt m p f).size ≠ 0 := by
    intro h0
    have h1 := hcall.start_le
    have h2 := hcall.end_le
    rw [h0] at h2
    have h00 : (0 : Word).toNat = 0 := rfl
    omega
  rw [ElfSymbol.span, if_pos hsize]

theorem resolves_self (htab : FunctionTable m p) (hcall : CallIn m p f c)
    (hin : ReturnsInside m p f c) : Resolves m p (c + 4) f := by
  have hspan := hcall.span
  have hret := return_toNat hin
  have hstart := hcall.start_le
  refine resolves_iff.mpr ⟨⟨hcall.index_lt, ⟨hcall.func, htab.value_ne f hcall.index_lt hcall.func,
    ?_, ?_⟩, htab.name_lt f hcall.index_lt hcall.func⟩, ?_⟩
  · omega
  · rw [hret, hspan]
    exact hin.1
  · rw [ElfSymbol.Wraps, hspan]
    exact not_le.mpr hin.2

/-- Of the other symbols only those without a size can cover the return address. -/
theorem size_eq_zero_of_resolves (htab : FunctionTable m p) (hcall : CallIn m p f c)
    (hin : ReturnsInside m p f c) {k : ℕ} (hk : Resolves m p (c + 4) k) (hne : k ≠ f) :
    (symbolAt m p k).size = 0 := by
  by_contra hsize
  obtain ⟨⟨hlt, ⟨hfunc, -, hle, hend⟩, -⟩, -⟩ := resolves_iff.mp hk
  rw [ElfSymbol.span, if_pos hsize] at hend
  have hret := return_toNat hin
  have hstart := hcall.start_le
  have hdisj := htab.disjoint k hlt f hcall.index_lt hne hfunc hcall.func
  have hmem : (c + 4).toNat ∈ (symbolAt m p f).range := by
    rw [hret]
    exact ⟨by omega, hin.1⟩
  exact Set.disjoint_left.mp hdisj ⟨hle, hend⟩ hmem

theorem CallIn.behind (htab : FunctionTable m p) (hcall : CallIn m p f c)
    (hout : ¬ ReturnsInside m p f c) {k : ℕ} (hk : First (Resolves m p (c + 4)) k) :
    Behind m p f c k := by
  obtain ⟨⟨hlt, ⟨hfunc, -, hle, hend⟩, -⟩, hwraps⟩ := resolves_iff.mp hk.1
  have hstart := hcall.start_le
  have hcend := hcall.end_le
  have h4 : (c + 4).toNat = (c.toNat + 4) % 2 ^ 64 := BitVec.toNat_add c 4
  have hne : k ≠ f := by
    rintro rfl
    rw [hcall.span] at hend
    rw [ElfSymbol.Wraps, hcall.span, not_le] at hwraps
    refine hout ⟨?_, hwraps⟩
    rw [h4, Nat.mod_eq_of_lt (lt_of_le_of_lt hcend hwraps)] at hend
    exact hend
  refine ⟨hk, hne, fun hsmall => or_iff_not_imp_right.mpr fun hsize => ?_⟩
  rw [ElfSymbol.span, if_pos hsize] at hend
  rw [Nat.mod_eq_of_lt hsmall] at h4
  -- a function that starts before the return address would share the call with `f`
  have hdisj := htab.disjoint k hlt f hcall.index_lt hne hfunc hcall.func
  have hfrom : ¬ (symbolAt m p k).value.toNat ≤ c.toNat + 3 := fun hbefore =>
    Set.disjoint_left.mp hdisj (show c.toNat + 3 ∈ (symbolAt m p k).range from ⟨hbefore, by omega⟩)
      ⟨by omega, by omega⟩
  exact BitVec.eq_of_toNat_eq (by omega)

/-- The frame is attributed to the caller exactly when more of it follows the
call and no earlier label of another name takes the return address, or when
the call is its last instruction and what lies behind has the same name. -/
theorem frame_attributed_iff (m : Mem) (p : Word) (htab : FunctionTable m p) (f : ℕ) (c : Word)
    (hcall : CallIn m p f c) :
    Attributed m p f c ↔
      (ReturnsInside m p f c ∧ ∀ k < f, First (Label m p (c + 4)) k → SameName m p k f) ∨
      (¬ ReturnsInside m p f c ∧ ∃ k, Behind m p f c k ∧ SameName m p k f) := by
  rw [attributed_iff_first]
  by_cases hin : ReturnsInside m p f c
  · simp only [hin, true_and, not_true_eq_false, false_and, or_false]
    have hself := resolves_self htab hcall hin
    have hzero {k : ℕ} (hk : Resolves m p (c + 4) k) (hne : k ≠ f) : Label m p (c + 4) k :=
      ⟨size_eq_zero_of_resolves htab hcall hin hk hne, hk⟩
    constructor
    · rintro ⟨k, hk, hname⟩ j hj hlabel
      -- the first label before the caller is the first symbol found
      have hfirst : First (Resolves m p (c + 4)) j :=
        ⟨hlabel.1.2, fun i hi hr => hlabel.2 i hi (hzero hr (by omega))⟩
      rwa [First.unique hfirst hk]
    · intro hnone
      obtain ⟨k, hkf, hk⟩ := exists_first hself
      refine ⟨k, hk, ?_⟩
      rcases Nat.eq_or_lt_of_le hkf with rfl | hlt
      · rfl
      · exact hnone k hlt ⟨hzero hk.1 (by omega), fun i hi hl => hk.2 i hi hl.2⟩
  · simp only [hin, false_and, not_false_eq_true, true_and, false_or]
    exact exists_congr fun k => and_congr_left fun _ => ⟨hcall.behind htab hin, Behind.first⟩

def adjacentMem : Mem :=
  processMem 0x80010000 [⟨1, 0x12, 0x81000000, 16⟩, ⟨3, 0x12, 0x81000010, 16⟩] (toLE 5 0x67006600)

theorem adjacentMem_sym0 :
    symbolAt adjacentMem 0x80010000 0 = ⟨1, 0x12, 0x81000000, 16⟩ := by decide +kernel

theorem adjacentMem_sym1 :
    symbolAt adjacentMem 0x80010000 1 = ⟨3, 0x12, 0x81000010, 16⟩ := by decide +kernel

theorem adjacentMem_count : (symCount adjacentMem 0x80010000).toNat = 2 := by decide +kernel

theorem adjacentMem_table : FunctionTable adjacentMem 0x80010000 := by
  have hsize : (strtabSz adjacentMem 0x80010000).toNat = 5 := by decide +kernel
  have htwo {i : ℕ} (hi : i < (symCount adjacentMem 0x80010000).toNat) : i = 0 ∨ i = 1 := by
    rw [adjacentMem_count] at hi
    omega
  have hdisj : Disjoint (symbolAt adjacentMem 0x80010000 0).range
      (symbolAt adjacentMem 0x80010000 1).range := by
    rw [adjacentMem_sym0, adjacentMem_sym1]
    exact Set.Ico_disjoint_Ico_same
  refine ⟨?_, ?_, ?_⟩
  · intro i hi _
    obtain rfl | rfl := htwo hi
    · rw [adjacentMem_sym0]
      decide
    · rw [adjacentMem_sym1]
      decide
  · intro i hi _
    rw [hsize]
    obtain rfl | rfl := htwo hi
    · rw [adjacentMem_sym0]
      decide
    · rw [adjacentMem_sym1]
      decide
  · intro i hi j hj hne _ _
    obtain rfl | rfl := htwo hi <;> obtain rfl | rfl := htwo hj
    · exact absurd rfl hne
    · exact hdisj
    · exact hdisj.symm
    · exact absurd rfl hne

theorem adjacentMem_call {c : Word} (h : 0x81000000 ≤ c.toNat) (h' : c.toNat + 4 ≤ 0x81000010) :
    CallIn adjacentMem 0x80010000 0 c := by
  refine ⟨by rw [adjacentMem_count]; decide, ?_, ?_, ?_⟩ <;> rw [adjacentMem_sym0]
  · decide
  · exact h
  · exact h'

theorem frame_attributed_inner :
    CallIn adjacentMem 0x80010000 0 0x81000004 ∧ Attributed adjacentMem 0x80010000 0 0x81000004 := by
  have hcall : CallIn adjacentMem 0x80010000 0 0x81000004 := adjacentMem_call (by decide) (by decide)
  refine ⟨hcall, (frame_attributed_iff adjacentMem 0x80010000 adjacentMem_table 0 0x81000004
    hcall).mpr (.inl ⟨?_, by omega⟩)⟩
  rw [ReturnsInside, adjacentMem_sym0]
  decide

/-- The last call of the first function is attributed to the second. -/
theorem frame_attributed_to_next :
    FunctionTable adjacentMem 0x80010000 ∧ CallIn adjacentMem 0x80010000 0 0x8100000C ∧
      ¬ Attributed adjacentMem 0x80010000 0 0x8100000C := by
  refine ⟨adjacentMem_table, adjacentMem_call (by decide) (by decide), ?_⟩
  rintro ⟨ptr, hptr, hname⟩
  have hnext : findSymbolName adjacentMem 0x80010000 (0x8100000C + 4) =
      some (symbolName adjacentMem 0x80010000 1) := by decide +kernel
  have hg : CString adjacentMem (symbolName adjacentMem 0x80010000 1) [0x67] := by decide +kernel
  have hf : CString adjacentMem (symbolName adjacentMem 0x80010000 0) [0x66] := by decide +kernel
  rw [hnext] at hptr
  obtain rfl := Option.some.inj hptr
  rw [strAt_of_cString hg (by decide), strAt_of_cString hf (by decide)] at hname
  exact absurd hname (by decide)

end ProxyKernel
