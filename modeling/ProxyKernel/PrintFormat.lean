import ProxyKernel.PrintSize

namespace ProxyKernel.Print
open ByteMem Buffer

inductive Piece
  | literal (c : Byte) (hc : c ≠ chr '%' ∧ c ≠ 0)
  | int (v : BitVec 32)
  | long (v : Word)
  | hex (v : BitVec 32)
  | longHex (v : Word)
  | pointer (v : Word)
  | string (t : List Byte)
  | char (v : BitVec 32)

def Piece.format : Piece → List Byte
  | literal c _ => [c]
  | int _ => ascii ['%', 'd']
  | long _ => ascii ['%', 'l', 'd']
  | hex _ => ascii ['%', 'x']
  | longHex _ => ascii ['%', 'l', 'x']
  | pointer _ => ascii ['%', 'p']
  | string _ => ascii ['%', 's']
  | char _ => ascii ['%', 'c']

def numeral (z : ℤ) : List Byte :=
  (if z < 0 then [chr '-'] else []) ++ (Nat.toDigits 10 z.natAbs).map chr

/-- The last `width` hexadecimal digits of a number. -/
def hexNumeral (width v : ℕ) : List Byte :=
  (List.range width).reverse.map fun i => chr (Nat.digitChar (v / 16 ^ i % 16))

def Piece.text : Piece → List Byte
  | literal c _ => [c]
  | int v => numeral v.toInt
  | long v => numeral v.toInt
  | hex v => hexNumeral 8 v.toNat
  | longHex v => hexNumeral 16 v.toNat
  | pointer v => ascii ['0', 'x'] ++ hexNumeral 16 v.toNat
  | string t => t
  | char v => [v.setWidth 8]

def Piece.Given (a : VaArg) : Piece → Prop
  | literal _ _ => True
  | int v => a.word.setWidth 32 = v
  | long v => a.word = v
  | hex v => a.word.setWidth 32 = v
  | longHex v => a.word = v
  | pointer v => a.word = v
  | string t => a.str = t
  | char v => a.word.setWidth 32 = v

def Piece.args : Piece → ℕ
  | literal _ _ => 0
  | _ => 1

def Matching (va : VaList) : ℕ → List Piece → Prop
  | _, [] => True
  | k, p :: ps => p.Given (va k) ∧ Matching va (k + p.args) ps

def formatOf (ps : List Piece) : List Byte := ps.flatMap Piece.format
def textOf (ps : List Piece) : List Byte := ps.flatMap Piece.text

/-- The shift is arithmetic, but the four bits are those of the number. -/
theorem shifted_nibble (num : Word) {i : ℕ} (hi : i < 16) :
    (num.sshiftRight (4 * i) &&& 0xF).toNat = num.toNat / 16 ^ i % 16 := by
  have hlogical : num.sshiftRight (4 * i) &&& 0xF = num >>> (4 * i) &&& 0xF := by
    apply BitVec.eq_of_getLsbD_eq
    intro j hj
    have hmask : (0xF : Word).getLsbD j = decide (j < 4) := by
      revert j
      decide
    rw [BitVec.getLsbD_and, BitVec.getLsbD_and, hmask]
    by_cases hj4 : j < 4
    · have hin : 4 * i + j < 64 := by omega
      rw [BitVec.getLsbD_sshiftRight, BitVec.getLsbD_ushiftRight, if_pos hin,
        decide_eq_false (not_le.mpr hj)]
      rfl
    · simp [hj4]
  rw [hlogical, BitVec.toNat_and, BitVec.toNat_ushiftRight, Nat.shiftRight_eq_div_pow,
    show (0xF : Word).toNat = 2 ^ 4 - 1 from rfl, Nat.and_two_pow_sub_one_eq_mod, pow_mul]
  rfl

theorem hexDigit_eq (num : Word) {i : ℕ} (hi : i < 16) :
    hexDigit num i = chr (Nat.digitChar (num.toNat / 16 ^ i % 16)) := by
  have hchar (d : ℕ) (hd : d < 16) :
      BitVec.ofNat 8 (if d < 10 then '0'.toNat + d else 'a'.toNat + d - 10) =
        chr (Nat.digitChar d) := by
    interval_cases d <;> rfl
  rw [hexDigit, shifted_nibble num hi]
  exact hchar _ (Nat.mod_lt _ (by decide))

theorem hexText_long (v : Word) : hexText v true = hexNumeral 16 v.toNat := by
  apply List.map_congr_left
  intro i hi
  simp only [hexIndices, List.mem_reverse, List.mem_range] at hi
  exact hexDigit_eq v hi

/-- An `int` is widened with its sign, which its own eight digits do not show. -/
theorem hexText_int (v : BitVec 32) : hexText (v.signExtend 64) false = hexNumeral 8 v.toNat := by
  have hlow : (v.signExtend 64).toNat % 2 ^ 32 = v.toNat := by
    have hv := v.isLt
    rw [BitVec.toNat_signExtend, BitVec.toNat_setWidth]
    split_ifs <;> omega
  apply List.map_congr_left
  intro i hi
  simp only [hexIndices, List.mem_reverse, List.mem_range] at hi
  rw [hexDigit_eq _ (by simp at hi; omega), ← hlow]
  generalize (v.signExtend 64).toNat = x
  have hi8 : i < 8 := hi
  congr 2
  interval_cases i <;> omega

theorem decDigit_eq {v : Word} (h : v.toNat < 2 ^ 63) :
    decDigit v = chr (Nat.digitChar (v.toNat % 10)) := by
  have hrem : (v.srem 10).toInt = (v.toNat % 10 : ℕ) := by
    rw [BitVec.toInt_srem, BitVec.toInt_eq_toNat_of_lt (by omega)]
    rfl
  have hchar (d : ℕ) (hd : d < 10) :
      BitVec.ofInt 8 ('0'.toNat + (d : ℤ)) = chr (Nat.digitChar d) := by
    interval_cases d <;> rfl
  rw [decDigit, hrem]
  exact hchar _ (Nat.mod_lt _ (by decide))

theorem toNat_sdiv_ten {v : Word} (h : v.toNat < 2 ^ 63) : (v.sdiv 10).toNat = v.toNat / 10 := by
  have hv : v.msb = false := by
    rw [BitVec.msb_eq_decide]
    exact decide_eq_false (by omega)
  have hten : (10 : Word).msb = false := rfl
  rw [BitVec.sdiv_eq, hv, hten]
  exact BitVec.toNat_udiv

theorem decText_eq {fuel : ℕ} {v : Word} (h : v.toNat < 2 ^ 63) (hfuel : v.toNat < 10 ^ (fuel + 1)) :
    decText (digitsLoop fuel v) v = (Nat.toDigits 10 v.toNat).map chr := by
  induction fuel generalizing v with
  | zero =>
    rw [digitsLoop, decText, decText, decDigit_eq h, Nat.toDigits_of_lt_base (by omega),
      Nat.mod_eq_of_lt (by omega)]
    rfl
  | succ fuel ih =>
    have hdiv := toNat_sdiv_ten h
    have hzero : v.sdiv 10 = 0 ↔ v.toNat < 10 := by
      rw [← BitVec.toNat_inj, hdiv]
      change v.toNat / 10 = 0 ↔ _
      omega
    rw [digitsLoop]
    split_ifs with hlast
    · have hsmall := hzero.mp hlast
      rw [decText, decText, decDigit_eq h, Nat.toDigits_of_lt_base hsmall, Nat.mod_eq_of_lt hsmall]
      rfl
    · have hlarge : 10 ≤ v.toNat := not_lt.mp (hzero.not.mp hlast)
      rw [decText, ih (by omega) (by rw [hdiv]; rw [pow_succ] at hfuel; omega), decDigit_eq h, hdiv,
        Nat.toDigits_of_base_le (by decide) hlarge, List.map_append]
      rfl

def decimalText (num : Word) : List Byte :=
  if num.slt 0 then chr '-' :: decText (digits (-num)) (-num) else decText (digits num) num

/-- All numbers but the least have a negation that is not negative. -/
theorem decimalText_eq {num : Word} (h : num ≠ BitVec.intMin 64) :
    decimalText num = numeral num.toInt := by
  have hslt : num.slt 0 ↔ num.toInt < 0 := BitVec.slt_iff_toInt_lt
  have hdigits {v : Word} (hv : v.toNat < 2 ^ 63) :
      decText (digits v) v = (Nat.toDigits 10 v.toNat).map chr :=
    decText_eq hv (lt_trans hv (by norm_num))
  rw [decimalText, numeral]
  by_cases hneg : num.toInt < 0
  · have hnat : (-num).toNat = num.toInt.natAbs ∧ (-num).toNat < 2 ^ 63 := by
      have hmin : num.toNat ≠ 2 ^ 63 := fun hn => h (BitVec.eq_of_toNat_eq hn)
      have hint := BitVec.toInt_eq_toNat_cond num
      have := num.isLt
      rw [BitVec.toNat_neg]
      omega
    rw [if_pos (hslt.mpr hneg), if_pos hneg, hdigits hnat.2, hnat.1]
    rfl
  · have hnat : num.toNat = num.toInt.natAbs ∧ num.toNat < 2 ^ 63 := by
      have hint := BitVec.toInt_eq_toNat_cond num
      have := num.isLt
      omega
    rw [if_neg (hslt.not.mpr hneg), if_neg hneg, hdigits hnat.2, hnat.1]
    rfl

/-- The least number is its own negation, and its digits come out below `'0'`. -/
theorem decimalText_intMin : (decimalText (BitVec.intMin 64)).length =
    (numeral (BitVec.intMin 64).toInt).length ∧
      decimalText (BitVec.intMin 64) ≠ numeral (BitVec.intMin 64).toInt := by
  decide +kernel

theorem digitsLoop_le (fuel : ℕ) (num : Word) : digitsLoop fuel num ≤ fuel + 1 := by
  induction fuel generalizing num with
  | zero => exact le_rfl
  | succ fuel ih =>
    rw [digitsLoop]
    split_ifs
    · omega
    · exact Nat.succ_le_succ (ih _)

theorem decimalText_length (num : Word) : (decimalText num).length ≤ 21 := by
  have hdigits (v : Word) : (decText (digits v) v).length ≤ 20 := by
    rw [decText_length]
    exact digitsLoop_le 19 v
  rw [decimalText]
  split_ifs
  · exact Nat.succ_le_succ (hdigits _)
  · exact (hdigits num).trans (by decide)

def Spec.rest (k : ℕ) : Spec := ⟨false, false, k⟩

def Piece.rendered : Piece → List Byte
  | long v => decimalText v
  | p => p.text

theorem rendered_of_ne {p : Piece} (h : p ≠ .long (BitVec.intMin 64)) : p.rendered = p.text := by
  cases p with
  | long v => exact decimalText_eq fun hv => h (congrArg Piece.long hv)
  | _ => rfl

theorem rendered_length (p : Piece) : p.rendered.length = p.text.length := by
  by_cases h : p = .long (BitVec.intMin 64)
  · subst h
    exact decimalText_intMin.1
  · rw [rendered_of_ne h]

/-- The flags are back at rest after every piece. -/
theorem render_piece {va : VaList} {k : ℕ} {p : Piece} (h : p.Given (va k)) (s : List Byte) :
    (Spec.rest k).render va (p.format ++ s) = p.rendered ++ (Spec.rest (k + p.args)).render va s := by
  cases p with
  | literal c hc =>
    have hemit : (Spec.rest k).emit va c = [c] := by simp [Spec.emit, Spec.rest, hc.1]
    have hnext : (Spec.rest k).next c = Spec.rest k := by simp [Spec.next, Spec.rest, hc.1]
    rw [Piece.format, List.singleton_append, Spec.render, hemit, hnext]
    rfl
  | int v =>
    have hnum : Spec.num va ⟨true, false, k⟩ = v.signExtend 64 := by
      rw [← (h : (va k).word.setWidth 32 = v)]
      rfl
    have hmin : v.signExtend 64 ≠ BitVec.intMin 64 := by
      intro heq
      have hint := congrArg BitVec.toInt heq
      rw [BitVec.toInt_signExtend_of_le (by decide),
        show (BitVec.intMin 64).toInt = -2 ^ 63 from rfl] at hint
      have := v.le_toInt
      omega
    have htext : Spec.decimal va ⟨true, false, k⟩ = numeral v.toInt := by
      rw [← BitVec.toInt_signExtend_of_le (by decide : 32 ≤ 64), ← decimalText_eq hmin, ← hnum]
      rfl
    rw [rendered_of_ne (by simp), Piece.text, ← htext]
    rfl
  | long v =>
    have hnum : Spec.num va ⟨true, true, k⟩ = v := h
    rw [Piece.rendered, ← hnum]
    rfl
  | hex v =>
    have hnum : Spec.num va ⟨true, false, k⟩ = v.signExtend 64 := by
      rw [← (h : (va k).word.setWidth 32 = v)]
      rfl
    rw [rendered_of_ne (by simp), Piece.text, ← hexText_int, ← hnum]
    rfl
  | longHex v =>
    have hnum : Spec.num va ⟨true, true, k⟩ = v := h
    rw [rendered_of_ne (by simp), Piece.text, ← hexText_long, ← hnum]
    rfl
  | pointer v =>
    have hnum : Spec.num va ⟨true, true, k⟩ = v := h
    rw [rendered_of_ne (by simp), Piece.text, ← hexText_long, ← hnum]
    rfl
  | string t =>
    rw [rendered_of_ne (by simp), Piece.text, ← (h : (va k).str = t)]
    rfl
  | char v =>
    have hchar : v.setWidth 8 = (va k).word.setWidth 8 := by
      rw [← (h : (va k).word.setWidth 32 = v), BitVec.setWidth_setWidth_of_le _ (by decide)]
    rw [rendered_of_ne (by simp), Piece.text, hchar]
    rfl

theorem render_pieces {va : VaList} {k : ℕ} {ps : List Piece} (h : Matching va k ps) :
    (Spec.rest k).render va (formatOf ps) = ps.flatMap Piece.rendered := by
  induction ps generalizing k with
  | nil => rfl
  | cons p ps ih =>
    rw [formatOf, List.flatMap_cons, render_piece h.1, List.flatMap_cons]
    exact congrArg _ (ih h.2)

/-- The code's text has the length of the right one, and it is the right one unless
the least number is printed. -/
theorem rendered_eq_iff (ps : List Piece) :
    (ps.flatMap Piece.rendered).length = (textOf ps).length ∧
      (ps.flatMap Piece.rendered = textOf ps ↔ Piece.long (BitVec.intMin 64) ∉ ps) := by
  induction ps with
  | nil => simp [textOf]
  | cons p ps ih =>
    obtain ⟨hlen, hiff⟩ := ih
    have htext : textOf (p :: ps) = p.text ++ textOf ps := rfl
    rw [htext, List.flatMap_cons]
    refine ⟨by rw [List.length_append, List.length_append, hlen, rendered_length], ?_⟩
    rw [List.mem_cons, not_or, ← hiff]
    constructor
    · intro heq
      obtain ⟨hp, hps⟩ := List.append_inj heq (rendered_length p)
      refine ⟨?_, hps⟩
      rintro rfl
      exact decimalText_intMin.2 hp
    · rintro ⟨hp, hps⟩
      rw [rendered_of_ne (Ne.symm hp), hps]

/-- With room for the text, the buffer gets it, a NUL follows, and the value that
is returned is its length. -/
structure FormatsText (ps : List Piece) (n : ℕ) (r : Formatted) : Prop where
  text : r.text n = textOf ps
  nul : r.out (textOf ps).length = 0
  ret : r.ret.toInt = (textOf ps).length

/-- The text comes out right for every format and every value but the least `long`, as
long as the length is an `int`. -/
theorem vsnprintf_formats_iff (ps : List Piece) (va : VaList) (n : ℕ) (out : ℕ → Byte)
    (hva : Matching va 0 ps) (hn : (textOf ps).length < n) :
    FormatsText ps n (vsnprintf out n (formatOf ps) va) ↔
      Piece.long (BitVec.intMin 64) ∉ ps ∧ (textOf ps).length < 2 ^ 31 := by
  obtain ⟨hlen, hiff⟩ := rendered_eq_iff ps
  have htext : formattedText (formatOf ps) va = ps.flatMap Piece.rendered := render_pieces hva
  have hroom : (formattedText (formatOf ps) va).length < n := by rwa [htext, hlen]
  have hwhole : (vsnprintf out n (formatOf ps) va).text n = ps.flatMap Piece.rendered := by
    rw [vsnprintf_text out (by omega), List.take_of_length_le (by omega), htext]
  have hnul := vsnprintf_nul out (by omega : 0 < n) (formatOf ps) va
  rw [min_eq_left (by omega), htext, hlen] at hnul
  have hret : (vsnprintf out n (formatOf ps) va).ret.toInt = (textOf ps).length ↔
      (textOf ps).length < 2 ^ 31 := by
    rw [Formatted.ret, vsnprintf_pos, countedText_of_room hroom, htext, hlen,
      BitVec.toInt_eq_toNat_cond, BitVec.toNat_ofNat]
    split_ifs <;> omega
  constructor
  · rintro ⟨h, -, hr⟩
    exact ⟨hiff.mp (hwhole ▸ h), hret.mp hr⟩
  · rintro ⟨hp, hlt⟩
    exact ⟨hwhole.trans (hiff.mpr hp), hnul, hret.mpr hlt⟩

theorem vsnprintf_formats_int_min :
    FormatsText [.int (BitVec.intMin 32)] 12
      (vsnprintf (fun _ => 0) 12 (formatOf [.int (BitVec.intMin 32)])
        fun _ => ⟨0x80000000, [], by decide⟩) :=
  (vsnprintf_formats_iff [.int (BitVec.intMin 32)] (fun _ => ⟨0x80000000, [], by decide⟩) 12
    (fun _ => 0) ⟨rfl, trivial⟩ (by decide +kernel)).mpr ⟨by simp, by decide +kernel⟩

/-- `"%ld"` with the least `long`: `-` and nineteen characters below `'0'`. -/
theorem vsnprintf_misformats_long_min :
    ¬ FormatsText [.long (BitVec.intMin 64)] 21
      (vsnprintf (fun _ => 0) 21 (formatOf [.long (BitVec.intMin 64)])
        fun _ => ⟨BitVec.intMin 64, [], by decide⟩) := by
  rintro ⟨htext, -, -⟩
  revert htext
  decide +kernel

end ProxyKernel.Print
