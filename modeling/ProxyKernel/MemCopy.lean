import ProxyKernel.Base.Memory
import ProxyKernel.Base.Loop

/-!
The two functions of `util/string.c`.  Each has a loop over words for aligned
blocks and one over bytes, and each loop compares its pointer with an end that is
computed beforehand.  The end of a block that reaches up to the last byte of the
address space is not an address: it comes out as 0.
-/

namespace ProxyKernel.MemCopy
open ByteMem

def DRAM_BASE : ℕ := 0x80000000

structure Copy where
  mem : Mem
  d : Word
  s : Word

def copyWord (dest len : Word) (c : Copy) : Copy ⊕ Copy :=
  if c.d < dest + len - 7 then
    .inl ⟨store64 c.mem c.d (load64 c.mem c.s), c.d + 8, c.s + 8⟩
  else .inr c

def copyByte (dest len : Word) (c : Copy) : Copy ⊕ Copy :=
  if c.d < dest + len then .inl ⟨write c.mem c.d [c.mem c.s], c.d + 1, c.s + 1⟩ else .inr c

/-- `memcpy(dest, src, len)`, with at most `fuel` rounds of each loop. -/
def memcpy (fuel : ℕ) (m : Mem) (dest src len : Word) : Option (Word × Mem) := do
  let c ← if (dest ||| src) &&& 7 = 0 then Loop.run (copyWord dest len) fuel ⟨m, dest, src⟩
    else some ⟨m, dest, src⟩
  let c ← Loop.run (copyByte dest len) fuel c
  some (dest, c.mem)

structure Fill where
  mem : Mem
  d : Word

def fillWord (byte : BitVec 32) : Word :=
  let word := (byte &&& 0xFF).signExtend 64
  let word := word ||| word <<< 8
  let word := word ||| word <<< 16
  word ||| word <<< 16 <<< 16

def setWord (dest len word : Word) (c : Fill) : Fill ⊕ Fill :=
  if c.d < dest + len then .inl ⟨store64 c.mem c.d word, c.d + 8⟩ else .inr c

def setByte (dest len : Word) (byte : BitVec 32) (c : Fill) : Fill ⊕ Fill :=
  if c.d < dest + len then .inl ⟨write c.mem c.d [byte.setWidth 8], c.d + 1⟩ else .inr c

/-- `memset(dest, byte, len)`, with at most `fuel` rounds. -/
def memset (fuel : ℕ) (m : Mem) (dest : Word) (byte : BitVec 32) (len : Word) :
    Option (Word × Mem) := do
  let c ← if (dest ||| len) &&& 7 = 0 then
      Loop.run (setWord dest len (fillWord byte)) fuel ⟨m, dest⟩
    else Loop.run (setByte dest len byte) fuel ⟨m, dest⟩
  some (dest, c.mem)

variable {dest src len : Word} {m : Mem}

theorem toNat_end (h : dest.toNat + len.toNat < 2 ^ 64) :
    (dest + len).toNat = dest.toNat + len.toNat := by
  rw [BitVec.toNat_add, Nat.mod_eq_of_lt h]

/-- The end of a block that goes up to the top. -/
theorem end_eq_zero (h : dest.toNat + len.toNat = 2 ^ 64) : dest + len = 0 := by
  apply BitVec.eq_of_toNat_eq
  rw [BitVec.toNat_add, h]
  rfl

theorem lt_end_iff (h : dest.toNat + len.toNat < 2 ^ 64) {p : ℕ} (hp : p ≤ len.toNat) :
    dest + BitVec.ofNat 64 p < dest + len ↔ p < len.toNat := by
  rw [BitVec.lt_def, toNat_end h, toNat_add_ofNat (by omega)]
  omega

theorem not_lt_end (dest len : Word) : ¬ dest + BitVec.ofNat 64 len.toNat < dest + len := by
  rw [BitVec.ofNat_toNat, BitVec.setWidth_eq]
  exact BitVec.lt_irrefl _

theorem lt_wordEnd_iff (hdest : DRAM_BASE ≤ dest.toNat) (h : dest.toNat + len.toNat < 2 ^ 64)
    {p : ℕ} (hp : p ≤ len.toNat) :
    dest + BitVec.ofNat 64 p < dest + len - 7 ↔ p + 8 ≤ len.toNat := by
  have hsub : (dest + len - 7).toNat = dest.toNat + len.toNat - 7 := by
    rw [BitVec.toNat_sub, toNat_end h]
    change (2 ^ 64 - 7 + (dest.toNat + len.toNat)) % 2 ^ 64 = _
    unfold DRAM_BASE at hdest
    omega
  rw [BitVec.lt_def, hsub, toNat_add_ofNat (by omega)]
  unfold DRAM_BASE at hdest
  omega

theorem and_seven_eq_zero_iff (x : Word) : x &&& 7 = 0 ↔ x.toNat % 8 = 0 := by
  have hand : (x &&& 7).toNat = x.toNat % 8 := Nat.and_two_pow_sub_one_eq_mod x.toNat 3
  rw [← BitVec.toNat_inj, hand]
  rfl

theorem aligned_iff (x y : Word) :
    (x ||| y) &&& 7 = 0 ↔ x.toNat % 8 = 0 ∧ y.toNat % 8 = 0 := by
  rw [← and_seven_eq_zero_iff, ← and_seven_eq_zero_iff, BitVec.and_or_distrib_right]
  exact BitVec.or_eq_zero_iff

def copied (m : Mem) (dest src len : Word) (p : ℕ) : Copy :=
  ⟨write m dest ((read m src len.toNat).take p), dest + BitVec.ofNat 64 p, src + BitVec.ofNat 64 p⟩

theorem copied_zero (m : Mem) (dest src len : Word) : copied m dest src len 0 = ⟨m, dest, src⟩ := by
  simp [copied]

theorem copied_all (m : Mem) (dest src len : Word) :
    (copied m dest src len len.toNat).mem = write m dest (read m src len.toNat) := by
  rw [copied, List.take_of_length_le (by simp)]

theorem read_copied (hapart : Apart dest len.toNat src len.toNat) {p k : ℕ}
    (hp : p + k ≤ len.toNat) :
    read (copied m dest src len p).mem (copied m dest src len p).s k =
      ((read m src len.toNat).drop p).take k := by
  have hlen := len.isLt
  rw [read_drop_take m src hp]
  apply read_congr (by omega)
  intro x hx
  have hsrc : InBlock src len.toNat x := hx.of_sub hp (by omega)
  apply write_of_not_mem
  intro hin
  have hle : ((read m src len.toNat).take p).length ≤ len.toNat := by
    rw [List.length_take, read_length]
    omega
  exact hapart x (lt_of_lt_of_le hin hle) hsrc

theorem copied_add (hapart : Apart dest len.toNat src len.toNat) {p k : ℕ}
    (hp : p + k ≤ len.toNat) :
    (⟨write (copied m dest src len p).mem (copied m dest src len p).d
        (read (copied m dest src len p).mem (copied m dest src len p).s k),
      (copied m dest src len p).d + BitVec.ofNat 64 k,
      (copied m dest src len p).s + BitVec.ofNat 64 k⟩ : Copy) =
        copied m dest src len (p + k) := by
  have hlen := len.isLt
  rw [read_copied hapart hp]
  have hbytes : p + k ≤ (read m src len.toNat).length := by rwa [read_length]
  have hmem := write_take_chunk m dest hbytes (by rw [read_length]; omega)
  simp only [copied, add_ofNat_add, hmem]

theorem copyWord_next (hdest : DRAM_BASE ≤ dest.toNat) (htop : dest.toNat + len.toNat < 2 ^ 64)
    (hapart : Apart dest len.toNat src len.toNat) {p : ℕ} (hp : p + 8 ≤ len.toNat) :
    copyWord dest len (copied m dest src len p) = .inl (copied m dest src len (p + 8)) := by
  have hgo : (copied m dest src len p).d < dest + len - 7 :=
    (lt_wordEnd_iff hdest htop (by omega)).mpr hp
  rw [copyWord, if_pos hgo, store64_load64]
  exact congrArg Sum.inl (copied_add hapart hp)

theorem copyWord_exit (hdest : DRAM_BASE ≤ dest.toNat) (htop : dest.toNat + len.toNat < 2 ^ 64)
    {p : ℕ} (hp : p ≤ len.toNat) (hexit : len.toNat < p + 8) :
    copyWord dest len (copied m dest src len p) = .inr (copied m dest src len p) := by
  apply if_neg
  intro hgo
  have := (lt_wordEnd_iff hdest htop hp).mp hgo
  omega

theorem copyByte_next (htop : dest.toNat + len.toNat < 2 ^ 64)
    (hapart : Apart dest len.toNat src len.toNat) {p : ℕ} (hp : p < len.toNat) :
    copyByte dest len (copied m dest src len p) = .inl (copied m dest src len (p + 1)) := by
  have hgo : (copied m dest src len p).d < dest + len := (lt_end_iff htop hp.le).mpr hp
  have hread : [(copied m dest src len p).mem (copied m dest src len p).s] =
      read (copied m dest src len p).mem (copied m dest src len p).s 1 := by
    simp [ByteMem.read]
  rw [copyByte, if_pos hgo, hread]
  exact congrArg Sum.inl (copied_add hapart hp)

theorem copyWords (hdest : DRAM_BASE ≤ dest.toNat) (htop : dest.toNat + len.toNat < 2 ^ 64)
    (hapart : Apart dest len.toNat src len.toNat) {fuel : ℕ} (hfuel : len.toNat < fuel) :
    Loop.run (copyWord dest len) fuel (copied m dest src len 0) =
      some (copied m dest src len (8 * (len.toNat / 8))) := by
  apply Loop.run_chain (fun j => copied m dest src len (8 * j)) (n := len.toNat / 8)
  · intro j hj
    exact copyWord_next hdest htop hapart (by omega)
  · exact copyWord_exit hdest htop (by omega) (by omega)
  · omega

/-- The byte loop goes on where it is. -/
theorem copyBytes (htop : dest.toNat + len.toNat < 2 ^ 64)
    (hapart : Apart dest len.toNat src len.toNat) {p fuel : ℕ} (hp : p ≤ len.toNat)
    (hfuel : len.toNat < fuel) :
    Loop.run (copyByte dest len) fuel (copied m dest src len p) =
      some (copied m dest src len len.toNat) := by
  have hend : p + (len.toNat - p) = len.toNat := by omega
  apply Loop.run_chain (fun j => copied m dest src len (p + j)) (n := len.toNat - p)
  · intro j hj
    exact copyByte_next htop hapart (by omega)
  · rw [hend]
    exact if_neg (not_lt_end dest len)
  · omega

theorem memcpy_run (hdest : DRAM_BASE ≤ dest.toNat) (htop : dest.toNat + len.toNat < 2 ^ 64)
    (hapart : Apart dest len.toNat src len.toNat) (m : Mem) :
    memcpy (len.toNat + 1) m dest src len = some (dest, write m dest (read m src len.toNat)) := by
  have hbytes {p : ℕ} (hp : p ≤ len.toNat) :=
    copyBytes (m := m) htop hapart hp (Nat.lt_add_one len.toNat)
  have hwords := copyWords (m := m) hdest htop hapart (Nat.lt_add_one len.toNat)
  rw [memcpy, ← copied_zero m dest src len, ← copied_all]
  split_ifs
  · simp only [hwords, hbytes (Nat.mul_div_le len.toNat 8), Option.bind_eq_bind, Option.bind_some]
  · simp only [hbytes (Nat.zero_le len.toNat), Option.bind_eq_bind, Option.bind_some]

variable {byte : BitVec 32}

/-- What a block of `n` bytes is filled with. -/
def fillBytes (byte : BitVec 32) (n : ℕ) : List Byte := List.replicate n (byte.setWidth 8)

def filled (m : Mem) (dest : Word) (byte : BitVec 32) (p : ℕ) : Fill :=
  ⟨write m dest (fillBytes byte p), dest + BitVec.ofNat 64 p⟩

theorem filled_zero (m : Mem) (dest : Word) (byte : BitVec 32) :
    filled m dest byte 0 = ⟨m, dest⟩ := by
  simp [filled, fillBytes]

/-- Only the low byte of the `int` counts, whatever its sign. -/
theorem signExtend_low_byte (byte : BitVec 32) :
    (byte &&& 0xFF).signExtend 64 = (byte.setWidth 8).setWidth 64 := by
  have hlow : byte &&& 0xFF = (byte.setWidth 8).setWidth 32 := by
    apply BitVec.eq_of_toNat_eq
    have hand : (byte &&& 0xFF).toNat = byte.toNat % 2 ^ 8 :=
      Nat.and_two_pow_sub_one_eq_mod byte.toNat 8
    rw [hand, BitVec.toNat_setWidth, BitVec.toNat_setWidth]
    omega
  have hsign : ∀ b : Byte, (b.setWidth 32).signExtend 64 = b.setWidth 64 := by decide +kernel
  rw [hlow, hsign]

/-- The word holds the byte eight times. -/
theorem toLE_fillWord (byte : BitVec 32) : toLE 8 (fillWord byte).toNat = fillBytes byte 8 := by
  have hall : ∀ b : Byte,
      toLE 8 ((b.setWidth 64 ||| b.setWidth 64 <<< 8) |||
        (b.setWidth 64 ||| b.setWidth 64 <<< 8) <<< 16 |||
        ((b.setWidth 64 ||| b.setWidth 64 <<< 8) |||
        (b.setWidth 64 ||| b.setWidth 64 <<< 8) <<< 16) <<< 16 <<< 16 : Word).toNat =
          List.replicate 8 b := by
    decide +kernel
  simp only [fillWord, signExtend_low_byte]
  exact hall (byte.setWidth 8)

theorem filled_add (m : Mem) (dest : Word) (byte : BitVec 32) {p k : ℕ} (hp : p + k ≤ 2 ^ 64) :
    (⟨write (filled m dest byte p).mem (filled m dest byte p).d (fillBytes byte k),
      (filled m dest byte p).d + BitVec.ofNat 64 k⟩ : Fill) = filled m dest byte (p + k) := by
  have hmem := write_append m dest (fillBytes byte p) (fillBytes byte k) (by simpa [fillBytes])
  simp only [fillBytes, List.length_replicate, List.replicate_append_replicate] at hmem
  simp only [filled, fillBytes, add_ofNat_add, hmem]

theorem setWord_next (htop : dest.toNat + len.toNat < 2 ^ 64) {p : ℕ} (hp : p + 8 ≤ len.toNat) :
    setWord dest len (fillWord byte) (filled m dest byte p) =
      .inl (filled m dest byte (p + 8)) := by
  have hgo : (filled m dest byte p).d < dest + len := (lt_end_iff htop (by omega)).mpr (by omega)
  rw [setWord, if_pos hgo, store64, toLE_fillWord]
  exact congrArg Sum.inl (filled_add m dest byte (by omega))

theorem setByte_next (htop : dest.toNat + len.toNat < 2 ^ 64) {p : ℕ} (hp : p < len.toNat) :
    setByte dest len byte (filled m dest byte p) = .inl (filled m dest byte (p + 1)) := by
  have hgo : (filled m dest byte p).d < dest + len := (lt_end_iff htop hp.le).mpr hp
  rw [setByte, if_pos hgo]
  exact congrArg Sum.inl (filled_add m dest byte (p := p) (k := 1) (by omega))

theorem setWords (m : Mem) (byte : BitVec 32) (htop : dest.toNat + len.toNat < 2 ^ 64)
    (hlen : len.toNat % 8 = 0) {fuel : ℕ} (hfuel : len.toNat < fuel) :
    Loop.run (setWord dest len (fillWord byte)) fuel (filled m dest byte 0) =
      some (filled m dest byte len.toNat) := by
  have hend : 8 * (len.toNat / 8) = len.toNat := by omega
  apply Loop.run_chain (fun j => filled m dest byte (8 * j)) (n := len.toNat / 8)
  · intro j hj
    exact setWord_next htop (by omega)
  · rw [hend]
    exact if_neg (not_lt_end dest len)
  · omega

theorem setBytes (m : Mem) (byte : BitVec 32) (htop : dest.toNat + len.toNat < 2 ^ 64) {fuel : ℕ}
    (hfuel : len.toNat < fuel) :
    Loop.run (setByte dest len byte) fuel (filled m dest byte 0) =
      some (filled m dest byte len.toNat) := by
  apply Loop.run_chain (fun j => filled m dest byte j) (n := len.toNat)
  · intro j hj
    exact setByte_next htop hj
  · exact if_neg (not_lt_end dest len)
  · exact hfuel

theorem memset_run (htop : dest.toNat + len.toNat < 2 ^ 64) (m : Mem) (byte : BitVec 32) :
    memset (len.toNat + 1) m dest byte len =
      some (dest, write m dest (fillBytes byte len.toNat)) := by
  rw [memset, ← filled_zero m dest byte]
  split_ifs with haligned
  · have hlen : len.toNat % 8 = 0 := ((aligned_iff dest len).mp haligned).2
    rw [setWords m byte htop hlen (Nat.lt_add_one len.toNat)]
    rfl
  · rw [setBytes m byte htop (Nat.lt_add_one len.toNat)]
    rfl

theorem pos_of_top (h : dest.toNat + len.toNat = 2 ^ 64) : 0 < len.toNat := by
  have hdest := dest.isLt
  omega

theorem copyWord_top (h : dest.toNat + len.toNat = 2 ^ 64) (c : Copy) (hd : c.d.toNat % 8 = 0) :
    ∃ c', copyWord dest len c = .inl c' ∧ c'.d.toNat % 8 = 0 := by
  have hlt := c.d.isLt
  have hgo : c.d < dest + len - 7 := by
    rw [end_eq_zero h, BitVec.lt_def]
    change c.d.toNat < 2 ^ 64 - 7
    omega
  refine ⟨_, if_pos hgo, ?_⟩
  rw [BitVec.toNat_add]
  change (c.d.toNat + 8) % 2 ^ 64 % 8 = 0
  omega

theorem not_lt_top (h : dest.toNat + len.toNat = 2 ^ 64) (a : Word) : ¬ a < dest + len := by
  rw [end_eq_zero h]
  exact BitVec.not_lt_zero

/-- Aligned blocks are copied for ever and other blocks not at all. -/
theorem memcpy_top (h : dest.toNat + len.toNat = 2 ^ 64) {fuel : ℕ} {m' : Mem}
    (hrun : memcpy fuel m dest src len = some (dest, m')) : m' = m := by
  rw [memcpy] at hrun
  split_ifs at hrun with haligned
  · have hd : dest.toNat % 8 = 0 := ((aligned_iff dest src).mp haligned).1
    rw [Loop.run_eq_none (copyWord_top h) hd] at hrun
    cases hrun
  · rw [Option.bind_eq_bind, Option.bind_some] at hrun
    obtain ⟨c, hc, hr⟩ := Option.bind_eq_some_iff.mp hrun
    cases hr
    rw [Loop.eq_of_inr hc (if_neg (not_lt_top h dest))]

/-- No block is filled. -/
theorem memset_top (h : dest.toNat + len.toNat = 2 ^ 64) {fuel : ℕ} {m' : Mem}
    (hrun : memset fuel m dest byte len = some (dest, m')) : m' = m := by
  rw [memset] at hrun
  split_ifs at hrun
  all_goals
    obtain ⟨c, hc, hr⟩ := Option.bind_eq_some_iff.mp hrun
    cases hr
    rw [Loop.eq_of_inr hc (if_neg (not_lt_top h dest))]

/-- The block at `dest` becomes what is at `src` and nothing else changes. -/
def Copies (dest src len : Word) : Prop :=
  ∀ m, ∃ fuel, memcpy fuel m dest src len = some (dest, write m dest (read m src len.toNat))

/-- All bytes of the block become `byte & 0xFF` and nothing else changes. -/
def Fills (dest : Word) (byte : BitVec 32) (len : Word) : Prop :=
  ∀ m, ∃ fuel, memset fuel m dest byte len = some (dest, write m dest (fillBytes byte len.toNat))

theorem copies_iff (hdest : DRAM_BASE ≤ dest.toNat) (hin : dest.toNat + len.toNat ≤ 2 ^ 64)
    (hapart : Apart dest len.toNat src len.toNat) :
    Copies dest src len ↔ dest.toNat + len.toNat < 2 ^ 64 := by
  constructor
  · intro hcopies
    by_contra hnot
    have htop : dest.toNat + len.toNat = 2 ^ 64 := by omega
    have hpos := pos_of_top htop
    have hne : src ≠ dest := by
      rintro rfl
      exact hapart src (by simpa [InBlock, offset]) (by simpa [InBlock, offset])
    -- Only the first byte of the block is not zero.
    obtain ⟨fuel, hrun⟩ := hcopies fun x => if x = dest then 1 else 0
    have hsame := congrFun (memcpy_top htop hrun) dest
    rw [write_first _ _ (by simpa using hpos)] at hsame
    simp [ByteMem.read, hne] at hsame
  · intro htop m
    exact ⟨_, memcpy_run hdest htop hapart m⟩

theorem fills_iff (hin : dest.toNat + len.toNat ≤ 2 ^ 64) (byte : BitVec 32) :
    Fills dest byte len ↔ dest.toNat + len.toNat < 2 ^ 64 := by
  constructor
  · intro hfills
    by_contra hnot
    have htop : dest.toNat + len.toNat = 2 ^ 64 := by omega
    have hpos := pos_of_top htop
    obtain ⟨fuel, hrun⟩ := hfills fun _ => byte.setWidth 8 + 1
    have hsame := congrFun (memset_top htop hrun) dest
    rw [write_first _ _ (by simpa [fillBytes] using hpos)] at hsame
    simp [fillBytes] at hsame
  · intro htop m
    exact ⟨_, memset_run htop m byte⟩

/-- A block is copied and filled as it should be, on whichever path, unless it goes up to the
last byte of the address space. -/
theorem block_copied_and_filled_iff (dest src len : Word) (byte : BitVec 32)
    (hdest : DRAM_BASE ≤ dest.toNat) (hin : dest.toNat + len.toNat ≤ 2 ^ 64)
    (hapart : Apart dest len.toNat src len.toNat) :
    (Copies dest src len ↔ dest.toNat + len.toNat < 2 ^ 64) ∧
      (Fills dest byte len ↔ dest.toNat + len.toNat < 2 ^ 64) :=
  ⟨copies_iff hdest hin hapart, fills_iff hin byte⟩

/-- An unaligned copy of 21 bytes and a fill with a negative `int`. -/
theorem block_copied_and_filled_in_dram :
    Copies 0x80001000 0x80002003 21 ∧ Fills 0x80001000 (-2) 21 := by
  have hiff := block_copied_and_filled_iff 0x80001000 0x80002003 21 (-2) (by decide) (by decide)
    (apart_of_offset (by decide) (by decide))
  exact ⟨hiff.1.mpr (by decide), hiff.2.mpr (by decide)⟩

/-- The last word and the last byte of the address space. -/
theorem top_not_copied_or_filled :
    ((0xFFFFFFFFFFFFFFF8 : Word).toNat + 8 ≤ 2 ^ 64 ∧
      Apart 0xFFFFFFFFFFFFFFF8 8 0x80001000 8 ∧ ¬ Copies 0xFFFFFFFFFFFFFFF8 0x80001000 8) ∧
    (0xFFFFFFFFFFFFFFFF : Word).toNat + 1 ≤ 2 ^ 64 ∧ ¬ Fills 0xFFFFFFFFFFFFFFFF 1 1 := by
  have hapart : Apart 0xFFFFFFFFFFFFFFF8 8 0x80001000 8 :=
    apart_of_offset (by decide) (by decide)
  refine ⟨⟨by decide, hapart, ?_⟩, by decide, ?_⟩
  · rw [copies_iff (by decide) (by decide) hapart]
    decide
  · rw [fills_iff (by decide)]
    decide

end ProxyKernel.MemCopy
