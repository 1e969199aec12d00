import Mathlib.Data.BitVec
import Mathlib.Tactic

/-!
A memory is a total map from 64-bit addresses to bytes.  A block of bytes is
written at an address and read back from it; a little-endian integer is a block
of fixed length.  Membership in a block is measured by the wrapped distance
`x - a`, so that a block may run over the end of the address space and every
statement holds there as well.
-/

namespace ByteMem

abbrev Byte := BitVec 8
abbrev Word := BitVec 64
abbrev Mem := Word → Byte

/-- Wrapped distance from `a` up to `x`. -/
def offset (a x : Word) : ℕ := (x - a).toNat

/-- The address `x` lies in the `n` bytes from `a` on. -/
def InBlock (a : Word) (n : ℕ) (x : Word) : Prop := offset a x < n

instance (a : Word) (n : ℕ) (x : Word) : Decidable (InBlock a n x) :=
  inferInstanceAs (Decidable (offset a x < n))

def write (m : Mem) (a : Word) (bs : List Byte) : Mem :=
  fun x => bs[offset a x]?.getD (m x)

def read (m : Mem) (a : Word) (n : ℕ) : List Byte :=
  (List.range n).map fun i => m (a + BitVec.ofNat 64 i)

def leNat : List Byte → ℕ
  | [] => 0
  | b :: bs => b.toNat + 256 * leNat bs

/-- The `n` low bytes of `v`, least significant byte first. -/
def toLE : ℕ → ℕ → List Byte
  | 0, _ => []
  | n + 1, v => BitVec.ofNat 8 v :: toLE n (v / 256)

def beBytes (v : BitVec 32) : List Byte :=
  [v.extractLsb' 24 8, v.extractLsb' 16 8, v.extractLsb' 8 8, v.extractLsb' 0 8]

def beNat (bs : List Byte) : ℕ := bs.foldl (fun n b => 256 * n + b.toNat) 0

def load32 (m : Mem) (a : Word) : BitVec 32 := BitVec.ofNat 32 (leNat (read m a 4))

def load64 (m : Mem) (a : Word) : Word := BitVec.ofNat 64 (leNat (read m a 8))

def store64 (m : Mem) (a v : Word) : Mem := write m a (toLE 8 v.toNat)

theorem write_of_lt {m : Mem} {a x : Word} {bs : List Byte} (h : offset a x < bs.length) :
    write m a bs x = bs[offset a x] := by
  simp [write, List.getElem?_eq_getElem h]

theorem write_of_not_mem {m : Mem} {a x : Word} {bs : List Byte}
    (h : ¬ InBlock a bs.length x) : write m a bs x = m x := by
  have hl : bs.length ≤ offset a x := by simpa [InBlock] using h
  simp [write, List.getElem?_eq_none hl]

@[simp] theorem write_nil (m : Mem) (a : Word) : write m a [] = m := by
  funext x
  simp [write]

@[simp] theorem read_length (m : Mem) (a : Word) (n : ℕ) : (read m a n).length = n := by
  simp [read]

theorem offset_ofNat (a : Word) {i : ℕ} (h : i < 2 ^ 64) :
    offset a (a + BitVec.ofNat 64 i) = i := by
  rw [offset, add_sub_cancel_left, BitVec.toNat_ofNat, Nat.mod_eq_of_lt h]

theorem add_ofNat_add (a : Word) (i k : ℕ) :
    a + BitVec.ofNat 64 i + BitVec.ofNat 64 k = a + BitVec.ofNat 64 (i + k) := by
  rw [add_assoc, ← BitVec.ofNat_add]

theorem toNat_add_ofNat {a : Word} {i : ℕ} (h : a.toNat + i < 2 ^ 64) :
    (a + BitVec.ofNat 64 i).toNat = a.toNat + i := by
  rw [BitVec.toNat_add, BitVec.toNat_ofNat, Nat.mod_eq_of_lt (by omega : i < 2 ^ 64),
    Nat.mod_eq_of_lt h]

theorem add_one_ofNat (a : Word) (i : ℕ) :
    a + 1 + BitVec.ofNat 64 i = a + BitVec.ofNat 64 (i + 1) := by
  rw [add_assoc, BitVec.ofNat_add, add_comm 1]
  rfl

theorem write_at {m : Mem} {a : Word} {bs : List Byte} {i : ℕ} (hi : i < bs.length)
    (h64 : i < 2 ^ 64) : write m a bs (a + BitVec.ofNat 64 i) = bs[i] := by
  have ho := offset_ofNat a h64
  rw [write_of_lt (by rwa [ho])]
  simp only [ho]

theorem write_first (m : Mem) (a : Word) {bs : List Byte} (h : 0 < bs.length) :
    write m a bs a = bs[0] := by
  have hat := write_at (m := m) (a := a) h (by norm_num)
  rwa [BitVec.add_zero] at hat

theorem read_write_same (m : Mem) (a : Word) (bs : List Byte) (h : bs.length ≤ 2 ^ 64) :
    read (write m a bs) a bs.length = bs := by
  apply List.ext_getElem (by simp)
  intro i hi hi'
  simp only [read, List.getElem_map, List.getElem_range]
  exact write_at hi' (by omega)

def Apart (a : Word) (n : ℕ) (b : Word) (k : ℕ) : Prop :=
  ∀ x, InBlock a n x → ¬ InBlock b k x

theorem Apart.symm {a b : Word} {n k : ℕ} (h : Apart a n b k) : Apart b k a n :=
  fun x hb ha => h x ha hb

/-- Blocks are apart when each starts beyond the end of the other, going round. -/
theorem apart_of_offset {a b : Word} {n k : ℕ} (hn : n ≤ offset a b)
    (hk : k ≤ offset b a) : Apart a n b k := by
  intro x ha hb
  simp only [InBlock, offset] at *
  bv_omega

theorem InBlock.of_sub {a x : Word} {n i k : ℕ} (h : InBlock (a + BitVec.ofNat 64 i) k x)
    (hik : i + k ≤ n) (hn : n ≤ 2 ^ 64) : InBlock a n x := by
  simp only [InBlock, offset] at *
  bv_omega

theorem apart_fields (a : Word) {i p j q : ℕ} (h : i + p ≤ j) (hj : j + q ≤ 2 ^ 64) :
    Apart (a + BitVec.ofNat 64 i) p (a + BitVec.ofNat 64 j) q := by
  intro x hx hy
  simp only [InBlock, offset] at hx hy
  bv_omega

theorem apart_behind (a : Word) {n i k : ℕ} (h : n ≤ i) (hi : i + k ≤ 2 ^ 64) :
    Apart a n (a + BitVec.ofNat 64 i) k := by
  have hapart := apart_fields a (i := 0) (p := n) (by omega) hi
  rwa [BitVec.add_zero] at hapart

theorem read_congr {m m' : Mem} {a : Word} {n : ℕ} (hn : n ≤ 2 ^ 64)
    (h : ∀ x, InBlock a n x → m x = m' x) : read m a n = read m' a n := by
  apply List.map_congr_left
  intro i hi
  have hi : i < n := by simpa using hi
  apply h
  rw [InBlock, offset_ofNat a (by omega)]
  exact hi

theorem read_drop_take (m : Mem) (a : Word) {n i k : ℕ} (h : i + k ≤ n) :
    ((read m a n).drop i).take k = read m (a + BitVec.ofNat 64 i) k := by
  apply List.ext_getElem
  · simp
    omega
  · intro j hj hj'
    simp only [read, List.getElem_take, List.getElem_drop, List.getElem_map, List.getElem_range,
      BitVec.ofNat_add, add_assoc]

theorem read_eq_of_getElem {m : Mem} {a : Word} {n : ℕ} {bs : List Byte} (hlen : bs.length = n)
    (h : ∀ i < n, bs[i]? = some (m (a + BitVec.ofNat 64 i))) : read m a n = bs := by
  apply List.ext_getElem (by simp [hlen])
  intro i hi hi'
  have hbyte := h i (by omega)
  rw [List.getElem?_eq_getElem hi'] at hbyte
  simpa [read] using (Option.some.inj hbyte).symm

def Stored (m : Mem) (a : Word) (bs : List Byte) : Prop := read m a bs.length = bs

theorem read_add (m : Mem) (a : Word) (n k : ℕ) :
    read m a (n + k) = read m a n ++ read m (a + BitVec.ofNat 64 n) k := by
  have h1 := read_drop_take m a (Nat.le_refl (n + k))
  have h2 := read_drop_take m a (show 0 + n ≤ n + k by omega)
  rw [List.take_of_length_le (by simp)] at h1
  rw [List.drop_zero, BitVec.add_zero] at h2
  rw [← h1, ← h2, List.take_append_drop]

theorem stored_append {m : Mem} {a : Word} {bs cs : List Byte} :
    Stored m a (bs ++ cs) ↔ Stored m a bs ∧ Stored m (a + BitVec.ofNat 64 bs.length) cs := by
  rw [Stored, List.length_append, read_add]
  constructor
  · intro h
    exact List.append_inj h (by simp)
  · rintro ⟨h1, h2⟩
    rw [h1, h2]

theorem stored_singleton {m : Mem} {a : Word} {b : Byte} : Stored m a [b] ↔ m a = b := by
  simp [Stored, read]

/-- A byte of a structure at `a` after the block at offset `k` has been written. -/
theorem write_field {m : Mem} {a : Word} {bs : List Byte} {k x : ℕ} (hkx : k ≤ x)
    (hx : x < 2 ^ 64) :
    write m (a + BitVec.ofNat 64 k) bs (a + BitVec.ofNat 64 x) =
      bs[x - k]?.getD (m (a + BitVec.ofNat 64 x)) := by
  have hoff : offset (a + BitVec.ofNat 64 k) (a + BitVec.ofNat 64 x) = x - k := by
    rw [offset]
    bv_omega
  rw [write, hoff]

theorem write_field_below {m : Mem} {a : Word} {bs : List Byte} {k x : ℕ} (hxk : x < k)
    (hk : k + bs.length ≤ 2 ^ 64) :
    write m (a + BitVec.ofNat 64 k) bs (a + BitVec.ofNat 64 x) =
      m (a + BitVec.ofNat 64 x) := by
  apply write_of_not_mem
  rw [InBlock, offset]
  bv_omega

theorem write_append (m : Mem) (a : Word) (bs cs : List Byte)
    (hlen : bs.length + cs.length ≤ 2 ^ 64) :
    write (write m a bs) (a + BitVec.ofNat 64 bs.length) cs = write m a (bs ++ cs) := by
  funext x
  by_cases hx : offset a x < bs.length
  · have hout : ¬ InBlock (a + BitVec.ofNat 64 bs.length) cs.length x :=
      apart_behind a le_rfl hlen x hx
    rw [write_of_not_mem hout, write, write, List.getElem?_append_left hx]
  · have hoff : offset (a + BitVec.ofNat 64 bs.length) x = offset a x - bs.length := by
      unfold offset at hx ⊢
      bv_omega
    rw [write, hoff, write_of_not_mem hx, write, List.getElem?_append_right (not_lt.mp hx)]

theorem write_take_chunk (m : Mem) (a : Word) {bs : List Byte} {p k : ℕ} (hp : p + k ≤ bs.length)
    (hlen : bs.length ≤ 2 ^ 64) :
    write (write m a (bs.take p)) (a + BitVec.ofNat 64 p) ((bs.drop p).take k) =
      write m a (bs.take (p + k)) := by
  have hlength : (bs.take p).length = p := by
    rw [List.length_take]
    omega
  have happend := write_append m a (bs.take p) ((bs.drop p).take k) (by
    rw [List.length_take, List.length_take, List.length_drop]
    omega)
  rw [hlength] at happend
  rw [happend, List.take_add]

@[simp] theorem toLE_length (n v : ℕ) : (toLE n v).length = n := by
  induction n generalizing v with
  | zero => rfl
  | succ n ih => simp [toLE, ih]

theorem leNat_toLE (n v : ℕ) : leNat (toLE n v) = v % 256 ^ n := by
  induction n generalizing v with
  | zero => simp [toLE, leNat, Nat.mod_one]
  | succ n ih =>
    simp only [toLE, leNat, ih, BitVec.toNat_ofNat]
    rw [Nat.pow_succ 256 n, Nat.mul_comm (256 ^ n), Nat.mod_mul]

theorem toLE_leNat (bs : List Byte) : toLE bs.length (leNat bs) = bs := by
  induction bs with
  | nil => rfl
  | cons b bs ih =>
    have hb := b.isLt
    have hhead : BitVec.ofNat 8 (b.toNat + 256 * leNat bs) = b := by
      apply BitVec.eq_of_toNat_eq
      rw [BitVec.toNat_ofNat]
      omega
    have htail : (b.toNat + 256 * leNat bs) / 256 = leNat bs := by omega
    rw [List.length_cons, leNat, toLE, hhead, htail, ih]

theorem leNat_lt (bs : List Byte) : leNat bs < 256 ^ bs.length := by
  induction bs with
  | nil => simp [leNat]
  | cons b bs ih =>
    have hb := b.isLt
    rw [leNat, List.length_cons, pow_succ]
    omega

theorem store64_load64 (m : Mem) (a b : Word) : store64 m a (load64 m b) = write m a (read m b 8) := by
  have hlt := leNat_lt (read m b 8)
  have hbytes := toLE_leNat (read m b 8)
  rw [read_length] at hlt hbytes
  rw [store64, load64, BitVec.toNat_ofNat, Nat.mod_eq_of_lt (by omega), hbytes]

theorem load64_of_stored {m : Mem} {a v : Word} (h : Stored m a (toLE 8 v.toNat)) :
    load64 m a = v := by
  rw [Stored, toLE_length] at h
  have hv : v.toNat % 256 ^ 8 = v.toNat := Nat.mod_eq_of_lt (by have := v.isLt; omega)
  rw [load64, h, leNat_toLE, hv, BitVec.ofNat_toNat, BitVec.setWidth_eq]

@[simp] theorem load64_store64 (m : Mem) (a v : Word) : load64 (store64 m a v) a = v :=
  load64_of_stored (read_write_same m a (toLE 8 v.toNat) (by simp))

theorem load64_congr {m m' : Mem} {a : Word} (h : ∀ x, InBlock a 8 x → m x = m' x) :
    load64 m a = load64 m' a := by
  rw [load64, load64, read_congr (by omega) h]

theorem store64_of_not_mem {m : Mem} {a v x : Word} (h : ¬ InBlock a 8 x) :
    store64 m a v x = m x :=
  write_of_not_mem (by simpa using h)

theorem load64_write_toLE (m : Mem) (a : Word) {n : ℕ} (h : n < 2 ^ 64) :
    (load64 (write m a (toLE 8 n)) a).toNat = n := by
  have hn : (BitVec.ofNat 64 n).toNat = n := by
    rw [BitVec.toNat_ofNat, Nat.mod_eq_of_lt h]
  have hload := load64_store64 m a (BitVec.ofNat 64 n)
  rw [store64, hn] at hload
  rw [hload, hn]

theorem testBit_leNat_cons (b : Byte) (bs : List Byte) (j : ℕ) :
    (leNat (b :: bs)).testBit j = if j < 8 then b.getLsbD j else (leNat bs).testBit (j - 8) := by
  have h := Nat.testBit_two_pow_mul_add (leNat bs) b.isLt j
  rw [leNat, Nat.add_comm, show 256 = 2 ^ 8 from rfl, h]
  rfl

theorem getElem_leNat (bs : List Byte) {i : ℕ} (hi : i < 32) :
    (BitVec.ofNat 32 (leNat bs))[i] = (leNat bs).testBit i := by
  rw [BitVec.getElem_eq_testBit_toNat, BitVec.toNat_ofNat, Nat.testBit_mod_two_pow]
  simp [hi]

theorem beBytes_beNat {bs : List Byte} (h : bs.length = 4) :
    beBytes (BitVec.ofNat 32 (beNat bs)) = bs := by
  obtain ⟨a, b, c, d, rfl⟩ := List.length_eq_four.mp h
  have ha := a.isLt
  have hb := b.isLt
  have hc := c.isLt
  have hd := d.isLt
  simp only [beBytes, beNat, List.foldl_cons, List.foldl_nil, List.cons.injEq, and_true]
  refine ⟨?_, ?_, ?_, ?_⟩
  all_goals
    apply BitVec.eq_of_toNat_eq
    rw [BitVec.extractLsb'_toNat, BitVec.toNat_ofNat, Nat.shiftRight_eq_div_pow]
    omega

theorem beNat_append (bs cs : List Byte) :
    beNat (bs ++ cs) = beNat bs * 256 ^ cs.length + beNat cs := by
  induction cs using List.reverseRecOn with
  | nil => simp [beNat]
  | append_singleton cs c ih =>
    have hsnoc (xs : List Byte) : beNat (xs ++ [c]) = 256 * beNat xs + c.toNat := by
      simp [beNat]
    rw [← List.append_assoc, hsnoc, hsnoc, ih, List.length_append, List.length_singleton, pow_succ]
    ring

theorem beNat_lt (bs : List Byte) : beNat bs < 256 ^ bs.length := by
  induction bs using List.reverseRecOn with
  | nil => simp [beNat]
  | append_singleton bs b ih =>
    have hb := b.isLt
    rw [beNat_append, List.length_append, List.length_singleton, pow_succ]
    simp only [beNat, List.foldl_cons, List.foldl_nil] at ih ⊢
    omega

theorem load64_store64_apart {m : Mem} {a b v : Word} (h : Apart a 8 b 8) :
    load64 (store64 m a v) b = load64 m b :=
  load64_congr fun _ hx => store64_of_not_mem fun ha => h _ ha hx

/-- Stores to two words of one base, at offsets that differ by at least a word. -/
theorem load64_store64_field (m : Mem) (a v : Word) {i j : ℕ} (hi : i + 8 ≤ 2 ^ 64)
    (hj : j + 8 ≤ 2 ^ 64) (h : i + 8 ≤ j ∨ j + 8 ≤ i) :
    load64 (store64 m (a + BitVec.ofNat 64 i) v) (a + BitVec.ofNat 64 j) =
      load64 m (a + BitVec.ofNat 64 j) := by
  rcases h with h | h
  · exact load64_store64_apart (apart_fields a h hj)
  · exact load64_store64_apart (apart_fields a h hi).symm

def writeAll (m : Mem) (blocks : List (Word × List Byte)) : Mem :=
  blocks.foldl (fun m b => write m b.1 b.2) m

@[simp] theorem writeAll_nil (m : Mem) : writeAll m [] = m := rfl

@[simp] theorem writeAll_cons (m : Mem) (b : Word × List Byte) (bs : List (Word × List Byte)) :
    writeAll m (b :: bs) = writeAll (write m b.1 b.2) bs := rfl

theorem writeAll_congr {m m' : Mem} {x : Word} (h : m' x = m x) (blocks : List (Word × List Byte)) :
    writeAll m' blocks x = writeAll m blocks x := by
  induction blocks generalizing m m' with
  | nil => exact h
  | cons b bs ih =>
    apply ih
    simp only [write, h]

theorem writeAll_of_not_mem {blocks : List (Word × List Byte)} {m : Mem} {x : Word}
    (h : ∀ b ∈ blocks, ¬ InBlock b.1 b.2.length x) : writeAll m blocks x = m x := by
  induction blocks generalizing m with
  | nil => rfl
  | cons b bs ih =>
    rw [writeAll_cons, ih fun c hc => h c (List.mem_cons_of_mem b hc)]
    exact write_of_not_mem (h b List.mem_cons_self)

/-- An address that only one of the blocks covers holds that block's byte. -/
theorem writeAll_of_mem {blocks : List (Word × List Byte)} {m : Mem} {x : Word}
    {b : Word × List Byte} (hb : b ∈ blocks) (hx : InBlock b.1 b.2.length x)
    (huniq : blocks.Pairwise fun c d => ¬ (InBlock c.1 c.2.length x ∧ InBlock d.1 d.2.length x)) :
    b.2[offset b.1 x]? = some (writeAll m blocks x) := by
  induction blocks generalizing m with
  | nil => cases hb
  | cons c cs ih =>
    obtain ⟨hc, hcs⟩ := List.pairwise_cons.mp huniq
    rw [writeAll_cons]
    rcases List.mem_cons.mp hb with rfl | hmem
    · rw [writeAll_of_not_mem fun d hd hxd => hc d hd ⟨hx, hxd⟩, write_of_lt hx]
      exact List.getElem?_eq_getElem hx
    · exact ih hmem hcs

end ByteMem
