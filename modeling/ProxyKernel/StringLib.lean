import ProxyKernel.PrintFormat
import ProxyKernel.UserPrint

namespace ProxyKernel.StringLib
open ByteMem Print Syscall

/-- `while (*str) { res *= 10; res += *str++ - '0'; }` -/
def atolLoop (res : Word) : List Byte → Word
  | [] => res
  | c :: cs => atolLoop (res * 10 + BitVec.ofInt 64 ((c.toNat : ℤ) - '0'.toNat)) cs

def atolString (s : List Byte) : Word :=
  match s.dropWhile (· = chr ' ') with
  | [] => 0
  | c :: cs =>
    if c = chr '-' ∨ c = chr '+' then
      if c = chr '-' then -atolLoop 0 cs else atolLoop 0 cs
    else atolLoop 0 (c :: cs)

def atol (m : Mem) (str : Word) : Word := atolString (strAt m str)

theorem atolLoop_append (res : Word) (s t : List Byte) :
    atolLoop res (s ++ t) = atolLoop (atolLoop res s) t := by
  induction s generalizing res with
  | nil => rfl
  | cons c s ih => exact ih _

theorem atolLoop_digit (res : Word) {d : ℕ} (hd : d < 10) :
    atolLoop res [chr (Nat.digitChar d)] = res * 10 + BitVec.ofNat 64 d := by
  have hchar : ((chr (Nat.digitChar d)).toNat : ℤ) - '0'.toNat = d := by
    interval_cases d <;> rfl
  rw [atolLoop, hchar, BitVec.ofInt_natCast]
  rfl

theorem atolLoop_toDigits (n : ℕ) : atolLoop 0 ((Nat.toDigits 10 n).map chr) = BitVec.ofNat 64 n := by
  induction n using Nat.strong_induction_on with
  | _ n ih =>
    by_cases hn : n < 10
    · rw [Nat.toDigits_of_lt_base hn]
      exact (atolLoop_digit 0 hn).trans (by simp)
    · have hsum : n = n / 10 * 10 + n % 10 := by omega
      rw [Nat.toDigits_of_base_le (by decide) (not_lt.mp hn), List.map_append, atolLoop_append,
        ih (n / 10) (by omega)]
      refine (atolLoop_digit _ (Nat.mod_lt n (by decide))).trans ?_
      conv_rhs => rw [hsum, BitVec.ofNat_add, BitVec.ofNat_mul]
      rfl

theorem exists_first_digit (n : ℕ) : ∃ c cs, (Nat.toDigits 10 n).map chr = c :: cs ∧
    c ≠ chr ' ' ∧ c ≠ chr '-' ∧ c ≠ chr '+' := by
  induction n using Nat.strong_induction_on with
  | _ n ih =>
    by_cases hn : n < 10
    · rw [Nat.toDigits_of_lt_base hn]
      refine ⟨_, _, rfl, ?_⟩
      interval_cases n <;> decide
    · obtain ⟨c, cs, hdigits, hc⟩ := ih (n / 10) (by omega)
      rw [Nat.toDigits_of_base_le (by decide) (not_lt.mp hn), List.map_append, hdigits]
      exact ⟨c, _, rfl, hc⟩

theorem atolString_blanks (k : ℕ) (s : List Byte) :
    atolString (List.replicate k (chr ' ') ++ s) = atolString s := by
  rw [atolString, atolString, List.dropWhile_append_of_pos]
  intro c hc
  rw [List.eq_of_mem_replicate hc]
  decide

/-- Numbers outside of `long` wrap around. -/
theorem atolString_numeral (z : ℤ) : atolString (numeral z) = BitVec.ofInt 64 z := by
  have hloop := atolLoop_toDigits z.natAbs
  obtain ⟨c, cs, hdigits, hblank, hminus, hplus⟩ := exists_first_digit z.natAbs
  rw [numeral]
  split_ifs with hneg
  · have hz : z = -(z.natAbs : ℤ) := by omega
    have hminus' : ¬ chr '-' = chr ' ' := by decide
    rw [List.singleton_append, atolString, List.dropWhile_cons_of_neg (by simpa using hminus')]
    dsimp only
    rw [if_pos (.inl rfl), if_pos rfl, hloop]
    conv_rhs => rw [hz, BitVec.ofInt_neg, BitVec.ofInt_natCast]
  · have hz : z = (z.natAbs : ℤ) := by omega
    rw [List.nil_append, hdigits, atolString, List.dropWhile_cons_of_neg (by simpa using hblank)]
    dsimp only
    rw [if_neg (not_or.mpr ⟨hminus, hplus⟩), ← hdigits, hloop]
    conv_rhs => rw [hz, BitVec.ofInt_natCast]

/-- What `%ld` makes of a number is read back as that number, also where the text is
not its numeral. -/
theorem atolString_decimalText (x : Word) : atolString (decimalText x) = x := by
  by_cases hmin : x = BitVec.intMin 64
  · rw [hmin]
    decide +kernel
  · rw [decimalText_eq hmin, atolString_numeral, BitVec.ofInt_toInt]

theorem zero_not_mem_decimalText (x : Word) : 0 ∉ decimalText x := by
  by_cases hmin : x = BitVec.intMin 64
  · rw [hmin]
    decide +kernel
  · have hdigit {n : ℕ} {c : Char} (hc : c ∈ Nat.toDigits 10 n) : chr c ≠ 0 := by
      have hrange : 48 ≤ c.toNat ∧ c.toNat ≤ 57 :=
        Char.isDigit_iff_toNat.mp (Nat.isDigit_of_mem_toDigits (by decide) (by decide) hc)
      rw [chr]
      bv_omega
    rw [decimalText_eq hmin, numeral, List.mem_append, List.mem_map]
    rintro (hsign | ⟨c, hc, hzero⟩)
    · split_ifs at hsign
      · exact absurd (List.mem_singleton.mp hsign) (by decide)
      · cases hsign
    · exact hdigit hc hzero

def blanksLong (k : ℕ) : List Byte := List.replicate k (chr ' ') ++ ascii ['%', 'l', 'd']

theorem formattedText_blanksLong (k : ℕ) (va : VaList) :
    formattedText (blanksLong k) va = List.replicate k (chr ' ') ++ decimalText (va 0).word := by
  have hgiven : (Piece.long (va 0).word).Given (va 0) := rfl
  have hplain : chr '%' ∉ List.replicate k (chr ' ') := by
    intro hmem
    exact absurd (List.eq_of_mem_replicate hmem) (by decide)
  rw [blanksLong, formattedText_append hplain]
  exact congrArg _ ((render_piece hgiven []).trans (List.append_nil _))

def filledBuffer (out : ℕ → Byte) (n : ℕ) (s : List Byte) (va : VaList) : List Byte :=
  (List.range n).map (vsnprintf out n s va).out

theorem strAt_filledBuffer (m : Mem) (buf : Word) (out : ℕ → Byte) {n : ℕ} {s : List Byte}
    {va : VaList} (hroom : (formattedText s va).length < n) (hn : n ≤ 2 ^ 64)
    (hnul : 0 ∉ formattedText s va) :
    strAt (write m buf (filledBuffer out n s va)) buf = formattedText s va := by
  have hcell (i : ℕ) (hi : i < n) :
      write m buf (filledBuffer out n s va) (buf + BitVec.ofNat 64 i) = (vsnprintf out n s va).out i := by
    rw [write_at (by simpa [filledBuffer] using hi) (by omega)]
    simp [filledBuffer]
  apply strAt_of_cString
  · apply cString_of_bytes hnul
    · intro i hi
      rw [hcell i (by omega)]
      exact vsnprintf_out_of_lt hi (by omega)
    · have hend := vsnprintf_nul out (by omega : 0 < n) s va
      rw [min_eq_left (by omega)] at hend
      rw [hcell _ hroom, hend]
  · omega

/-- A `long` that is printed with `%ld`, behind any number of blanks, to a buffer in which
the text has room, and read back from it by `atol` is the same, for all values, `LONG_MIN`
included. -/
theorem atol_of_printed_long (m : Mem) (buf : Word) (out : ℕ → Byte) (va : VaList) (k n : ℕ)
    (hroom : k + (decimalText (va 0).word).length < n) (hn : n ≤ 2 ^ 64) :
    atol (write m buf (filledBuffer out n (blanksLong k) va)) buf = (va 0).word := by
  have htext := formattedText_blanksLong k va
  have hlen : (formattedText (blanksLong k) va).length < n := by
    rwa [htext, List.length_append, List.length_replicate]
  have hnul : 0 ∉ formattedText (blanksLong k) va := by
    rw [htext, List.mem_append]
    rintro (hblank | hdigit)
    · exact absurd (List.eq_of_mem_replicate hblank) (by decide)
    · exact zero_not_mem_decimalText _ hdigit
  rw [atol, strAt_filledBuffer m buf out hlen hn hnul, htext, atolString_blanks,
    atolString_decimalText]

theorem atol_of_printed_long_min :
    atol (write (fun _ => 0) 0x81000000 (filledBuffer (fun _ => 0) 24 (blanksLong 3)
      fun _ => ⟨BitVec.intMin 64, [], VaArg.empty_nul_free⟩)) 0x81000000 = BitVec.intMin 64 :=
  atol_of_printed_long _ _ _ _ 3 24 (by decide +kernel) (by decide)

/-- `while (n-- > 0) *d++ = *s++` -/
def moveUp (m : Mem) (d s : Word) : ℕ → Mem
  | 0 => m
  | n + 1 => moveUp (Function.update m d (m s)) (d + 1) (s + 1) n

/-- `while (n-- > 0) *--d = *--s` -/
def moveDown (m : Mem) (d s : Word) : ℕ → Mem
  | 0 => m
  | n + 1 => moveDown (Function.update m (d - 1) (m (s - 1))) (d - 1) (s - 1) n

def memmove (m : Mem) (dst src n : Word) : Word × Mem :=
  if src < dst ∧ src + n > dst then (dst, moveDown m (dst + n) (src + n) n.toNat)
  else (dst, moveUp m dst src n.toNat)

/-- The block at `src` as it was stands at `dst`, and nothing else has changed. -/
def Moved (m m' : Mem) (dst src : Word) (n : ℕ) : Prop :=
  ∀ x, m' x = if InBlock dst n x then m (src + (x - dst)) else m x

theorem inBlock_succ {a x : Word} {n : ℕ} (hn : n < 2 ^ 64) :
    InBlock a (n + 1) x ↔ x = a ∨ InBlock (a + 1) n x := by
  simp only [InBlock, offset]
  bv_omega

theorem inBlock_succ_last {a x : Word} {n : ℕ} (hn : n < 2 ^ 64) :
    InBlock a (n + 1) x ↔ x = a + BitVec.ofNat 64 n ∨ InBlock a n x := by
  simp only [InBlock, offset]
  bv_omega

/-- Going up, a byte is read before its place is written if the target begins below the
source or behind it. -/
theorem moveUp_moved {n : ℕ} {d s : Word} (hd : d.toNat + n ≤ 2 ^ 64) (hs : s.toNat + n ≤ 2 ^ 64)
    (horder : d.toNat ≤ s.toNat ∨ s.toNat + n ≤ d.toNat) (m : Mem) :
    Moved m (moveUp m d s n) d s n := by
  induction n generalizing d s m with
  | zero => exact fun x => (if_neg (Nat.not_lt_zero _)).symm
  | succ n ih =>
    intro x
    have hnext := ih (d := d + 1) (s := s + 1) (by bv_omega) (by bv_omega) (by bv_omega)
      (Function.update m d (m s)) x
    rw [moveUp, hnext]
    by_cases hx : InBlock (d + 1) n x
    · have hread : s + 1 + (x - (d + 1)) ≠ d := by
        simp only [InBlock, offset] at hx
        bv_omega
      rw [if_pos hx, if_pos ((inBlock_succ (by omega)).mpr (.inr hx)),
        Function.update_of_ne hread]
      congr 1
      bv_omega
    · rw [if_neg hx]
      by_cases hxd : x = d
      · subst hxd
        rw [if_pos ((inBlock_succ (by omega)).mpr (.inl rfl)), Function.update_self]
        congr 1
        bv_omega
      · rw [if_neg, Function.update_of_ne hxd]
        exact fun h => ((inBlock_succ (by omega)).mp h).elim hxd hx

/-- Going down, if it begins above the source or ends below it. -/
theorem moveDown_moved {n : ℕ} {d s : Word} (hd : d.toNat + n ≤ 2 ^ 64)
    (hs : s.toNat + n ≤ 2 ^ 64) (horder : s.toNat ≤ d.toNat ∨ d.toNat + n ≤ s.toNat) (m : Mem) :
    Moved m (moveDown m (d + BitVec.ofNat 64 n) (s + BitVec.ofNat 64 n) n) d s n := by
  induction n generalizing m with
  | zero => exact fun x => (if_neg (Nat.not_lt_zero _)).symm
  | succ n ih =>
    have hlast (a : Word) : a + BitVec.ofNat 64 (n + 1) - 1 = a + BitVec.ofNat 64 n := by bv_omega
    intro x
    rw [moveDown, hlast, hlast, ih (by omega) (by omega) (by omega)]
    by_cases hx : InBlock d n x
    · have hread : s + (x - d) ≠ d + BitVec.ofNat 64 n := by
        simp only [InBlock, offset] at hx
        bv_omega
      rw [if_pos hx, if_pos ((inBlock_succ_last (by omega)).mpr (.inr hx)),
        Function.update_of_ne hread]
    · rw [if_neg hx]
      by_cases hxd : x = d + BitVec.ofNat 64 n
      · subst hxd
        rw [if_pos ((inBlock_succ_last (by omega)).mpr (.inl rfl)), Function.update_self]
        congr 1
        bv_omega
      · rw [if_neg, Function.update_of_ne hxd]
        exact fun h => ((inBlock_succ_last (by omega)).mp h).elim hxd hx

/-- Whatever way the two blocks overlap, the bytes of the source as they were before are at
the target, and no other byte has changed. -/
theorem memmove_moves (m : Mem) (dst src n : Word) (hdst : dst.toNat + n.toNat ≤ 2 ^ 64)
    (hsrc : src.toNat + n.toNat ≤ 2 ^ 64) :
    (memmove m dst src n).1 = dst ∧ Moved m (memmove m dst src n).2 dst src n.toNat := by
  rw [memmove]
  split_ifs with hbehind
  · have hdown := moveDown_moved hdst hsrc (.inl (by bv_omega)) m
    rw [BitVec.ofNat_toNat, BitVec.setWidth_eq] at hdown
    exact ⟨rfl, hdown⟩
  · refine ⟨rfl, moveUp_moved hdst hsrc ?_ m⟩
    -- an end of the source at the top of the address space compares as 0
    by_cases hlt : src < dst
    · have hle : ¬ src + n > dst := fun h => hbehind ⟨hlt, h⟩
      bv_omega
    · exact .inl (by bv_omega)

theorem memmove_moves_up :
    Moved (fun a => a.setWidth 8) (memmove (fun a => a.setWidth 8) 0x81000012 0x81000010 4).2
      0x81000012 0x81000010 4 :=
  (memmove_moves (fun a => a.setWidth 8) 0x81000012 0x81000010 4 (by decide) (by decide)).2

/-- `while (--n > 0 && (*s++ = *t++) != 0);` with `n` rounds left, and the pointer `s`
behind it. -/
def safestrcpyLoop (m : Mem) (s t : Word) : ℕ → Mem × Word
  | 0 => (m, s)
  | n + 1 =>
    if m t ≠ 0 then safestrcpyLoop (Function.update m s (m t)) (s + 1) (t + 1) n
    else (Function.update m s (m t), s + 1)

def safestrcpyBytes (m : Mem) (s t : Word) (n : ℕ) : Mem :=
  Function.update (safestrcpyLoop m s t n).1 (safestrcpyLoop m s t n).2 0

def safestrcpy (m : Mem) (s t : Word) (n : BitVec 32) : Word × Mem :=
  if n.toInt ≤ 0 then (s, m) else (s, safestrcpyBytes m s t (n.toInt.toNat - 1))

section Safestrcpy

variable {m : Mem} {s t x : Word} {n : ℕ}

theorem safestrcpyBytes_nul (h : m t = 0) (n : ℕ) : safestrcpyBytes m s t (n + 1) =
    Function.update (Function.update m s 0) (s + 1) 0 := by
  rw [safestrcpyBytes, safestrcpyLoop, if_neg (not_not.mpr h), h]

theorem safestrcpyBytes_byte (h : m t ≠ 0) (n : ℕ) : safestrcpyBytes m s t (n + 1) =
    safestrcpyBytes (Function.update m s (m t)) (s + 1) (t + 1) n := by
  rw [safestrcpyBytes, safestrcpyLoop, if_pos h]
  rfl

theorem safestrcpyBytes_outside (hn : n + 1 < 2 ^ 64) (hx : ¬ InBlock s (n + 1) x) :
    safestrcpyBytes m s t n x = m x := by
  induction n generalizing m s t with
  | zero =>
    rw [inBlock_succ (by omega)] at hx
    exact Function.update_of_ne (fun h => hx (.inl h)) _ _
  | succ n ih =>
    rw [inBlock_succ (by omega)] at hx
    have hxs : x ≠ s := fun h => hx (.inl h)
    have hrest : ¬ InBlock (s + 1) (n + 1) x := fun h => hx (.inr h)
    by_cases hnul : m t = 0
    · have hxs1 : x ≠ s + 1 := fun h => hrest ((inBlock_succ (by omega)).mpr (.inl h))
      rw [safestrcpyBytes_nul hnul, Function.update_of_ne hxs1, Function.update_of_ne hxs]
    · rw [safestrcpyBytes_byte hnul, ih (by omega) hrest, Function.update_of_ne hxs]

/-- The byte at `s` stays when the loop goes on behind it. -/
theorem safestrcpyBytes_first (hn : n + 2 < 2 ^ 64) (b : Byte) :
    safestrcpyBytes (Function.update m s b) (s + 1) t n s = b := by
  have hout : ¬ InBlock (s + 1) (n + 1) s := by
    simp only [InBlock, offset]
    bv_omega
  rw [safestrcpyBytes_outside (by omega) hout, Function.update_self]

theorem cString_congr {m' : Mem} {bs : List Byte} (h : CString m t bs)
    (hm : ∀ x, InBlock t (bs.length + 1) x → m' x = m x) : CString m' t bs := by
  have hlen := h.length_lt
  induction bs generalizing t with
  | nil => exact (hm t ((inBlock_succ hlen).mpr (.inl rfl))).trans h
  | cons b bs ih =>
    obtain ⟨hb, hfirst, hrest⟩ := h
    refine ⟨hb, (hm t ((inBlock_succ hlen).mpr (.inl rfl))).trans hfirst, ih hrest ?_ hrest.length_lt⟩
    exact fun x hx => hm x ((inBlock_succ hlen).mpr (.inr hx))

/-- Whatever the source is, a string of at most `n` bytes comes out. -/
theorem exists_cString_safestrcpyBytes (hn : n + 1 < 2 ^ 64) :
    ∃ bs, bs.length ≤ n ∧ CString (safestrcpyBytes m s t n) s bs := by
  induction n generalizing m s t with
  | zero => exact ⟨[], le_rfl, Function.update_self _ _ _⟩
  | succ n ih =>
    by_cases hnul : m t = 0
    · refine ⟨[], Nat.zero_le _, ?_⟩
      have hne : s ≠ s + 1 := by bv_omega
      rw [CString, safestrcpyBytes_nul hnul, Function.update_of_ne hne, Function.update_self]
    · obtain ⟨bs, hlen, hbs⟩ := ih (m := Function.update m s (m t)) (s := s + 1) (t := t + 1) (by omega)
      refine ⟨m t :: bs, Nat.succ_le_succ hlen, hnul, ?_, ?_⟩
      · rw [safestrcpyBytes_byte hnul, safestrcpyBytes_first hn]
      · rwa [safestrcpyBytes_byte hnul]

/-- From a string that is not written over, the first `n` bytes. -/
theorem cString_safestrcpyBytes {str : List Byte} (hn : n + 1 < 2 ^ 64) (hstr : CString m t str)
    (happart : Apart s (n + 1) t (str.length + 1)) :
    CString (safestrcpyBytes m s t n) s (str.take n) := by
  induction n generalizing m s t str with
  | zero => exact Function.update_self _ _ _
  | succ n ih =>
    cases str with
    | nil =>
      have hne : s ≠ s + 1 := by bv_omega
      rw [List.take_nil, CString, safestrcpyBytes_nul hstr, Function.update_of_ne hne,
        Function.update_self]
    | cons b str =>
      have hlen : str.length + 1 < 2 ^ 64 := hstr.length_lt
      obtain ⟨hb, hm, hrest⟩ := hstr
      have hnul : m t ≠ 0 := by rwa [hm]
      have hrest' : CString (Function.update m s (m t)) (t + 1) str := by
        refine cString_congr hrest fun x hx => Function.update_of_ne ?_ _ _
        rintro rfl
        exact happart x ((inBlock_succ (by omega)).mpr (.inl rfl))
          ((inBlock_succ (by omega)).mpr (.inr hx))
      have happart' : Apart (s + 1) (n + 1) (t + 1) (str.length + 1) := fun x hx hx' =>
        happart x ((inBlock_succ (by omega)).mpr (.inr hx)) ((inBlock_succ (by omega)).mpr (.inr hx'))
      rw [safestrcpyBytes_byte hnul, List.take_succ_cons]
      refine ⟨hb, ?_, ih (by omega) hrest' happart'⟩
      rw [safestrcpyBytes_first hn, hm]

end Safestrcpy

/-- With no room nothing is written.  Otherwise nothing outside of the `n` bytes at `s`
changes, and a string with less than `n` characters is there in the end, in any case;
and it is the beginning of the source, where this is a string that does not overlap. -/
theorem safestrcpy_terminates (m : Mem) (s t : Word) (n : BitVec 32) :
    (safestrcpy m s t n).1 = s ∧ (n.toInt ≤ 0 → (safestrcpy m s t n).2 = m) ∧
      (0 < n.toInt → (∀ x, ¬ InBlock s n.toInt.toNat x → (safestrcpy m s t n).2 x = m x) ∧
        (∃ bs, bs.length < n.toInt.toNat ∧ CString (safestrcpy m s t n).2 s bs) ∧
        ∀ str, CString m t str → Apart s n.toInt.toNat t (str.length + 1) →
          CString (safestrcpy m s t n).2 s (str.take (n.toInt.toNat - 1))) := by
  rw [safestrcpy]
  split_ifs with hn
  · exact ⟨rfl, fun _ => rfl, fun hpos => absurd hpos (not_lt.mpr hn)⟩
  · have hlt : n.toInt < 2 ^ 31 := n.toInt_lt
    obtain ⟨k, hk⟩ : ∃ k, n.toInt.toNat = k + 1 := ⟨n.toInt.toNat - 1, by omega⟩
    have hsize : k + 1 < 2 ^ 64 := by omega
    refine ⟨rfl, fun hle => absurd hle hn, fun _ => ?_⟩
    rw [hk, Nat.add_sub_cancel]
    refine ⟨fun x hx => safestrcpyBytes_outside hsize hx, ?_, fun str hstr happart =>
      cString_safestrcpyBytes hsize hstr happart⟩
    obtain ⟨bs, hlen, hbs⟩ := exists_cString_safestrcpyBytes (m := m) (s := s) (t := t) hsize
    exact ⟨bs, Nat.lt_succ_of_le hlen, hbs⟩

theorem safestrcpy_terminates_short :
    let m := write (fun _ => 1) 0x81000010 (ascii ['a', 'b'] ++ [0])
    CString (safestrcpy m 0x81000000 0x81000010 2).2 0x81000000 (ascii ['a']) :=
  ((safestrcpy_terminates _ 0x81000000 0x81000010 2).2.2 (by decide)).2.2 (ascii ['a', 'b']) (by decide)
    (apart_of_offset (by decide) (by decide))

end ProxyKernel.StringLib
