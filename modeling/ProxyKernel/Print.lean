import ProxyKernel.Symbols
import ProxyKernel.SpikeFile
import ProxyKernel.Base.Buffer

/-!
`vsnprintf` of `util/snprintf.c`, and `vprintk` and `sprint` of
`spike_interface/spike_utils.c`, which send its output to the host.
-/

namespace ProxyKernel.Print
open ByteMem Buffer

def chr (c : Char) : Byte := BitVec.ofNat 8 c.toNat

/-- What `va_arg` finds: a register or stack word, and the string that it points
to if it is taken for a `char*`. -/
structure VaArg where
  word : Word
  str : List Byte
  nul_free : 0 ∉ str

theorem VaArg.empty_nul_free : (0 : Byte) ∉ ([] : List Byte) := by simp

abbrev VaList := ℕ → VaArg

/-- The word `w` as an argument, with the string that it points to in memory. -/
def VaArg.ofMem (m : Mem) (w : Word) : VaArg := ⟨w, strAt m w, zero_not_mem_strLoop m _ w⟩

/-- The flags of the loop and the number of arguments taken so far. -/
structure Spec where
  format : Bool
  longarg : Bool
  arg : ℕ

/-- The local variables of the loop.  `pos` is a `size_t`, far from its limit. -/
structure Fmt extends Spec where
  buf : ℕ → Byte
  pos : ℕ

/-- `if (++pos < n) out[pos - 1] = c` -/
def Fmt.putc (n : ℕ) (f : Fmt) (c : Byte) : Fmt :=
  { f with buf := put n f.buf f.pos c, pos := f.pos + 1 }

/-- `longarg ? va_arg(vl, long) : va_arg(vl, int)` -/
def Spec.num (va : VaList) (f : Spec) : Word :=
  let w := (va f.arg).word
  if f.longarg then w else (w.setWidth 32).signExtend 64

def Spec.done (f : Spec) : Spec := ⟨false, false, f.arg + 1⟩

/-- The flags after a `%c` that has not taken its argument. -/
def Spec.skip (f : Spec) : Spec := ⟨false, false, f.arg⟩

def hexDigit (num : Word) (i : ℕ) : Byte :=
  let d := (num.sshiftRight (4 * i) &&& 0xF).toNat
  BitVec.ofNat 8 (if d < 10 then '0'.toNat + d else 'a'.toNat + d - 10)

def hexIndices (longarg : Bool) : List ℕ := (List.range (2 * if longarg then 8 else 4)).reverse

def Fmt.hex (n : ℕ) (va : VaList) (f : Fmt) : Fmt :=
  let g := (hexIndices f.longarg).foldl (fun g i => g.putc n (hexDigit (f.num va) i)) f
  { g with toSpec := f.done }

/-- `for (long nn = num; nn /= 10; digits++);` with at most `fuel` rounds. -/
def digitsLoop : ℕ → Word → ℕ
  | 0, _ => 1
  | fuel + 1, nn => if nn.sdiv 10 = 0 then 1 else digitsLoop fuel (nn.sdiv 10) + 1

def digits (num : Word) : ℕ := digitsLoop 19 num

theorem natAbs_sdiv_ten (nn : Word) : (nn.sdiv 10).toInt.natAbs = nn.toInt.natAbs / 10 := by
  have hten : (10 : Word) ≠ -1 := by decide
  rw [BitVec.toInt_sdiv_of_ne_or_ne nn 10 (.inr hten), Int.natAbs_tdiv]
  rfl

theorem digitsLoop_succ {fuel : ℕ} {nn : Word} (h : nn.toInt.natAbs < 10 ^ (fuel + 1)) :
    digitsLoop (fuel + 1) nn = digitsLoop fuel nn := by
  induction fuel generalizing nn with
  | zero =>
    have hz : nn.sdiv 10 = 0 := by
      have := natAbs_sdiv_ten nn
      apply BitVec.toInt_inj.mp
      change _ = (0 : ℤ)
      omega
    exact if_pos hz
  | succ fuel ih =>
    have hsmall : (nn.sdiv 10).toInt.natAbs < 10 ^ (fuel + 1) := by
      rw [natAbs_sdiv_ten]
      rw [pow_succ] at h
      omega
    rw [digitsLoop, ih hsmall, digitsLoop]

/-- The bound on the rounds is never what ends the loop. -/
theorem digitsLoop_eq {fuel : ℕ} (h : 19 ≤ fuel) (num : Word) : digitsLoop fuel num = digits num := by
  induction fuel, h using Nat.le_induction with
  | base => rfl
  | succ fuel hle ih =>
    rw [digitsLoop_succ, ih]
    have hbound : num.toInt.natAbs ≤ 2 ^ 63 := by
      have := num.toInt_lt
      have := num.le_toInt
      omega
    calc num.toInt.natAbs ≤ 2 ^ 63 := hbound
      _ < 10 ^ 20 := by norm_num
      _ ≤ 10 ^ (fuel + 1) := Nat.pow_le_pow_right (by norm_num) (by omega)

/-- `'0' + (num % 10)`, as a `char`. -/
def decDigit (num : Word) : Byte := BitVec.ofInt 8 ('0'.toNat + (num.srem 10).toInt)

/-- The loop that writes the decimal digits, from the last one back. -/
def putDigits (n : ℕ) (pos : ℕ) : ℕ → (ℕ → Byte) → Word → (ℕ → Byte)
  | 0, buf, _ => buf
  | i + 1, buf, num =>
    putDigits n pos i (put n buf (pos + i) (decDigit num)) (num.sdiv 10)

def Fmt.dec (n : ℕ) (va : VaList) (f : Fmt) : Fmt :=
  let num := f.num va
  let g := if num.slt 0 then f.putc n (chr '-') else f
  let num := if num.slt 0 then -num else num
  { toSpec := f.done
    buf := putDigits n g.pos (digits num) g.buf num
    pos := g.pos + digits num }

def Fmt.string (n : ℕ) (va : VaList) (f : Fmt) : Fmt :=
  let g := (va f.arg).str.foldl (fun g c => g.putc n c) f
  { g with toSpec := f.done }

/-- `if (++pos < n) out[pos - 1] = (char)va_arg(vl, int)`: the argument is taken
only when there is room for it. -/
def Fmt.char (n : ℕ) (va : VaList) (f : Fmt) : Fmt :=
  if f.pos + 1 < n then
    { f.putc n ((va f.arg).word.setWidth 8) with toSpec := f.done }
  else { f with toSpec := f.skip, pos := f.pos + 1 }

/-- One character of the format.  An unknown specifier leaves `format` set. -/
def Fmt.step (n : ℕ) (va : VaList) (f : Fmt) (c : Byte) : Fmt :=
  if f.format then
    if c = chr 'l' then { f with longarg := true }
    -- `p` falls through to `x`
    else if c = chr 'p' then
      Fmt.hex n va ((Fmt.putc n { f with longarg := true } (chr '0')).putc n (chr 'x'))
    else if c = chr 'x' then f.hex n va
    else if c = chr 'd' then f.dec n va
    else if c = chr 's' then f.string n va
    else if c = chr 'c' then f.char n va
    else f
  else if c = chr '%' then { f with format := true }
  else f.putc n c

/-- The buffer after a call, the returned position and the number of arguments
that were taken. -/
structure Formatted where
  out : ℕ → Byte
  pos : ℕ
  taken : ℕ

/-- `vsnprintf(out, n, s, vl)` for the format string `s`, without its NUL. -/
def vsnprintf (out : ℕ → Byte) (n : ℕ) (s : List Byte) (va : VaList) : Formatted :=
  let f := s.foldl (Fmt.step n va) ⟨⟨false, false, 0⟩, out, 0⟩
  { out := if f.pos < n then Function.update f.buf f.pos 0
      else if n ≠ 0 then Function.update f.buf (n - 1) 0 else f.buf
    pos := f.pos
    taken := f.arg }

/-- The returned `int`. -/
def Formatted.ret (r : Formatted) : BitVec 32 := BitVec.ofNat 32 r.pos

/-- `res < sizeof(out) ? res : sizeof(out)` for a buffer of 256 bytes: `res` is
converted to an unsigned 64-bit number. -/
def Formatted.size (r : Formatted) : ℕ :=
  if r.ret.signExtend 64 < 256 then (r.ret.signExtend 64).toNat else 256

/-- A `HTIFSYS_write` on the file of a slot. -/
structure HostWrite where
  file : SpikeFile.Slot
  bytes : List Byte

def stderrFile : SpikeFile.Slot := 2

def spikeFileWrite (f : SpikeFile.Slot) (buf : ℕ → Byte) (size : ℕ) : HostWrite :=
  ⟨f, (List.range size).map buf⟩

/-- What a printing function finds in the kernel beyond its arguments: the words
that `va_arg` takes for missing arguments, its uninitialised `out`, and the
`va_list` that `do_panic` passes on as if it were an argument. -/
structure KernelContext where
  va : VaList
  out : ℕ → Byte
  vl : VaArg

def vprintk (k : KernelContext) (s : List Byte) (vl : VaList) : HostWrite :=
  let r := vsnprintf k.out 256 s vl
  spikeFileWrite stderrFile r.out r.size

def vaStart (k : KernelContext) (args : List VaArg) : VaList := fun i => args[i]?.getD (k.va i)

def printk (k : KernelContext) (s : List Byte) (args : List VaArg) : HostWrite :=
  vprintk k s (vaStart k args)

def sprint (k : KernelContext) (s : List Byte) (args : List VaArg) : HostWrite :=
  vprintk k s (vaStart k args)

-- The loop is a transducer: what a character adds to the text depends on the flags
-- and the arguments only, and not on the buffer or its size.  The size comes in at
-- one place: a `%c` without room leaves its argument to the next specifier.

def hexText (num : Word) (longarg : Bool) : List Byte := (hexIndices longarg).map (hexDigit num)

def decText : ℕ → Word → List Byte
  | 0, _ => []
  | i + 1, num => decText i (num.sdiv 10) ++ [decDigit num]

def Spec.decimal (va : VaList) (f : Spec) : List Byte :=
  let num := f.num va
  if num.slt 0 then chr '-' :: decText (digits (-num)) (-num) else decText (digits num) num

def Spec.emit (va : VaList) (f : Spec) (c : Byte) : List Byte :=
  if f.format then
    if c = chr 'l' then []
    else if c = chr 'p' then chr '0' :: chr 'x' :: hexText (Spec.num va { f with longarg := true }) true
    else if c = chr 'x' then hexText (f.num va) f.longarg
    else if c = chr 'd' then f.decimal va
    else if c = chr 's' then (va f.arg).str
    else if c = chr 'c' then [(va f.arg).word.setWidth 8]
    else []
  else if c = chr '%' then [] else [c]

/-- The flags after one character of the format, when there is room for it. -/
def Spec.next (f : Spec) (c : Byte) : Spec :=
  if f.format then
    if c = chr 'l' then { f with longarg := true }
    else if c = chr 'p' ∨ c = chr 'x' ∨ c = chr 'd' ∨ c = chr 's' ∨ c = chr 'c' then f.done
    else f
  else if c = chr '%' then { f with format := true } else f

def Spec.render (va : VaList) : Spec → List Byte → List Byte
  | _, [] => []
  | f, c :: s => f.emit va c ++ (f.next c).render va s

/-- The flags after one character at position `pos` of a buffer of size `n`. -/
def Spec.nextIn (n pos : ℕ) (f : Spec) (c : Byte) : Spec :=
  if f.format ∧ c = chr 'c' ∧ n ≤ pos + 1 then f.skip else f.next c

/-- The text that a call with size `n` counts, from position `pos` on; the buffer
holds its first part. -/
def Spec.renderIn (n : ℕ) (va : VaList) : ℕ → Spec → List Byte → List Byte
  | _, _, [] => []
  | pos, f, c :: s =>
    f.emit va c ++ renderIn n va (pos + (f.emit va c).length) (f.nextIn n pos c) s

def Spec.endIn (n : ℕ) (va : VaList) : ℕ → Spec → List Byte → Spec
  | _, f, [] => f
  | pos, f, c :: s => endIn n va (pos + (f.emit va c).length) (f.nextIn n pos c) s

def Spec.start : Spec := ⟨false, false, 0⟩

def Fmt.after (n : ℕ) (f : Fmt) (g : Spec) (t : List Byte) : Fmt :=
  ⟨g, place n f.buf f.pos t, f.pos + t.length⟩

theorem after_after (n : ℕ) (f : Fmt) (g g' : Spec) (t t' : List Byte) :
    (f.after n g t).after n g' t' = f.after n g' (t ++ t') := by
  simp only [Fmt.after, place_append, List.length_append, Nat.add_assoc]

theorem putc_eq (n : ℕ) (f : Fmt) (c : Byte) : f.putc n c = f.after n f.toSpec [c] := by
  simp [Fmt.putc, Fmt.after, put_eq_place]

theorem foldl_putc {ι : Type} (n : ℕ) (g : ι → Byte) (is : List ι) (f : Fmt) :
    is.foldl (fun f i => f.putc n (g i)) f = f.after n f.toSpec (is.map g) := by
  induction is generalizing f with
  | nil => simp [Fmt.after]
  | cons i is ih =>
    rw [List.foldl_cons, ih, putc_eq, after_after]
    rfl

theorem decText_length (i : ℕ) (num : Word) : (decText i num).length = i := by
  induction i generalizing num with
  | zero => rfl
  | succ i ih => simp [decText, ih]

theorem putDigits_eq (n pos i : ℕ) (buf : ℕ → Byte) (num : Word) :
    putDigits n pos i buf num = place n buf pos (decText i num) := by
  induction i generalizing buf num with
  | zero => simp [putDigits, decText]
  | succ i ih =>
    have hlen := decText_length i (num.sdiv 10)
    have hput := place_put n buf pos (decText i (num.sdiv 10)) (decDigit num)
    rw [putDigits, ih, decText, ← hput, hlen]

theorem hex_eq (n : ℕ) (va : VaList) (f : Fmt) :
    f.hex n va = f.after n f.done (hexText (f.num va) f.longarg) := by
  unfold Fmt.hex
  rw [foldl_putc]
  rfl

theorem digits_after (n : ℕ) (g : Fmt) (f : Spec) (num : Word) :
    (⟨f, putDigits n g.pos (digits num) g.buf num, g.pos + digits num⟩ : Fmt) =
      g.after n f (decText (digits num) num) := by
  rw [putDigits_eq, Fmt.after, decText_length]

theorem dec_eq (n : ℕ) (va : VaList) (f : Fmt) :
    f.dec n va = f.after n f.done (f.toSpec.decimal va) := by
  unfold Fmt.dec Spec.decimal
  dsimp only
  rw [digits_after]
  split_ifs with hneg
  · rw [putc_eq, after_after]
    rfl
  · rfl

theorem string_eq (n : ℕ) (va : VaList) (f : Fmt) :
    f.string n va = f.after n f.done (va f.arg).str := by
  unfold Fmt.string
  rw [foldl_putc n (fun c => c), List.map_id']
  rfl

theorem char_eq (n : ℕ) (va : VaList) (f : Fmt) :
    f.char n va = f.after n (if n ≤ f.pos + 1 then f.skip else f.done)
      [(va f.arg).word.setWidth 8] := by
  unfold Fmt.char
  by_cases hroom : f.pos + 1 < n
  · rw [if_pos hroom, if_neg (by omega), putc_eq]
    rfl
  · have hput : place n f.buf f.pos [(va f.arg).word.setWidth 8] = f.buf := by
      rw [← put_eq_place, put, if_neg hroom]
    rw [if_neg hroom, if_pos (by omega), Fmt.after, hput]
    rfl

theorem char_last : chr 'c' ≠ chr 'l' ∧ chr 'c' ≠ chr 'p' ∧ chr 'c' ≠ chr 'x' ∧
    chr 'c' ≠ chr 'd' ∧ chr 'c' ≠ chr 's' := by
  decide

theorem emit_char {f : Spec} (hf : f.format) (va : VaList) :
    f.emit va (chr 'c') = [(va f.arg).word.setWidth 8] := by
  obtain ⟨hl, hp, hx, hd, hs⟩ := char_last
  rw [Spec.emit, if_pos hf, if_neg hl, if_neg hp, if_neg hx, if_neg hd, if_neg hs, if_pos rfl]

theorem next_char {f : Spec} (hf : f.format) : f.next (chr 'c') = f.done := by
  rw [Spec.next, if_pos hf, if_neg char_last.1, if_pos (by decide)]

theorem step_char {f : Fmt} (hf : f.format) (n : ℕ) (va : VaList) :
    f.step n va (chr 'c') = f.char n va := by
  obtain ⟨hl, hp, hx, hd, hs⟩ := char_last
  rw [Fmt.step, if_pos hf, if_neg hl, if_neg hp, if_neg hx, if_neg hd, if_neg hs, if_pos rfl]

theorem step_eq (n : ℕ) (va : VaList) (f : Fmt) (c : Byte) :
    f.step n va c = f.after n (f.nextIn n f.pos c) (f.emit va c) := by
  by_cases hchar : f.format ∧ c = chr 'c'
  · obtain ⟨hf, rfl⟩ := hchar
    rw [step_char hf, char_eq, emit_char hf, Spec.nextIn, next_char hf]
    simp only [hf, true_and]
  · rw [Spec.nextIn, if_neg fun h => hchar ⟨h.1, h.2.1⟩]
    unfold Fmt.step Spec.next Spec.emit
    simp only [hex_eq, dec_eq, string_eq, putc_eq, after_after]
    by_cases hf : f.format
    · have hc : ¬ c = chr 'c' := fun hc => hchar ⟨hf, hc⟩
      simp only [hf, hc, if_true, if_false, or_false]
      split_ifs
      all_goals first
        | rfl
        | simp_all [Fmt.after]
    · simp only [if_neg hf]
      split_ifs
      · simp [Fmt.after]
      · rfl

theorem foldl_step (n : ℕ) (va : VaList) (s : List Byte) (f : Fmt) :
    s.foldl (Fmt.step n va) f =
      f.after n (f.endIn n va f.pos s) (f.renderIn n va f.pos s) := by
  induction s generalizing f with
  | nil => simp [Fmt.after, Spec.renderIn, Spec.endIn]
  | cons c s ih =>
    rw [List.foldl_cons, ih, step_eq, after_after]
    rfl

-- before the last cell of the buffer nothing depends on its size, and a `%c` without
-- room is behind it
theorem nextIn_of_room {n pos : ℕ} {f : Spec} {c : Byte} (va : VaList)
    (h : pos + (f.emit va c).length < n) : f.nextIn n pos c = f.next c := by
  apply if_neg
  rintro ⟨hf, rfl, hfull⟩
  rw [emit_char hf] at h
  exact absurd h (not_lt.mpr hfull)

/-- The counted text is the text as far as the buffer can hold it. -/
theorem renderIn_getElem? {n pos i : ℕ} {f : Spec} {s : List Byte} {va : VaList}
    (h : pos + i + 1 < n) : (f.renderIn n va pos s)[i]? = (f.render va s)[i]? := by
  induction s generalizing f pos i with
  | nil => rfl
  | cons c s ih =>
    rw [Spec.renderIn, Spec.render]
    by_cases hi : i < (f.emit va c).length
    · rw [List.getElem?_append_left hi, List.getElem?_append_left hi]
    · have hle : (f.emit va c).length ≤ i := not_lt.mp hi
      rw [List.getElem?_append_right hle, List.getElem?_append_right hle,
        nextIn_of_room va (by omega)]
      exact ih (by omega)

theorem renderIn_of_room {n pos : ℕ} {f : Spec} {s : List Byte} {va : VaList}
    (h : pos + (f.render va s).length < n) : f.renderIn n va pos s = f.render va s := by
  induction s generalizing f pos with
  | nil => rfl
  | cons c s ih =>
    rw [Spec.render, List.length_append] at h
    rw [Spec.renderIn, Spec.render, nextIn_of_room va (by omega), ih (by omega)]

/-- The whole text of a format: what each specifier makes of its own argument. -/
def formattedText (s : List Byte) (va : VaList) : List Byte := Spec.start.render va s

/-- The text that `vsnprintf` counts for a buffer of size `n`. -/
def countedText (n : ℕ) (s : List Byte) (va : VaList) : List Byte := Spec.start.renderIn n va 0 s

theorem countedText_getElem? {n i : ℕ} {s : List Byte} {va : VaList} (h : i + 1 < n) :
    (countedText n s va)[i]? = (formattedText s va)[i]? :=
  renderIn_getElem? (by omega)

theorem countedText_of_room {n : ℕ} {s : List Byte} {va : VaList}
    (h : (formattedText s va).length < n) : countedText n s va = formattedText s va :=
  renderIn_of_room (by rwa [Nat.zero_add])

theorem min_countedText_length (n : ℕ) (s : List Byte) (va : VaList) :
    min (countedText n s va).length (n - 1) = min (formattedText s va).length (n - 1) := by
  have hsame (i : ℕ) (hi : i + 1 < n) :
      (countedText n s va).length ≤ i ↔ (formattedText s va).length ≤ i := by
    rw [← List.getElem?_eq_none_iff, ← List.getElem?_eq_none_iff, countedText_getElem? hi]
  have h1 := hsame (countedText n s va).length
  have h2 := hsame (formattedText s va).length
  omega

/-- The position is the length of the counted text, whatever the buffer holds of it. -/
theorem vsnprintf_pos (out : ℕ → Byte) (n : ℕ) (s : List Byte) (va : VaList) :
    (vsnprintf out n s va).pos = (countedText n s va).length := by
  unfold vsnprintf
  rw [foldl_step]
  exact Nat.zero_add _

theorem vsnprintf_taken (out : ℕ → Byte) (n : ℕ) (s : List Byte) (va : VaList) :
    (vsnprintf out n s va).taken = (Spec.start.endIn n va 0 s).arg := by
  unfold vsnprintf
  rw [foldl_step]
  rfl

/-- The buffer: the counted text, cut before the last cell, and a NUL. -/
theorem vsnprintf_out (out : ℕ → Byte) {n : ℕ} (hn : 0 < n) (s : List Byte) (va : VaList) :
    (vsnprintf out n s va).out = Function.update (place n out 0 (countedText n s va))
      (min (countedText n s va).length (n - 1)) 0 := by
  unfold vsnprintf
  rw [foldl_step]
  dsimp only [Fmt.after]
  split_ifs with h1 h2
  · have hlen : 0 + (countedText n s va).length < n := h1
    rw [show min (countedText n s va).length (n - 1) = 0 + (countedText n s va).length by omega]
    rfl
  · have hlen : ¬ 0 + (countedText n s va).length < n := h1
    rw [show min (countedText n s va).length (n - 1) = n - 1 by omega]
    rfl
  · omega

theorem vsnprintf_out_of_lt {out : ℕ → Byte} {n : ℕ} {s : List Byte} {va : VaList} {i : ℕ}
    (hi : i < (formattedText s va).length) (hn : i + 1 < n) :
    (vsnprintf out n s va).out i = (formattedText s va)[i] := by
  have hcount : (countedText n s va)[i]? = (formattedText s va)[i]? := countedText_getElem? hn
  rw [List.getElem?_eq_getElem hi] at hcount
  obtain ⟨hi', hget⟩ := List.getElem?_eq_some_iff.mp hcount
  have hne : i ≠ min (countedText n s va).length (n - 1) := by omega
  rw [vsnprintf_out out (by omega), Function.update_of_ne hne, place_of_lt hi' hn, hget]

/-- The NUL comes right after the text, or in the last cell. -/
theorem vsnprintf_nul (out : ℕ → Byte) {n : ℕ} (hn : 0 < n) (s : List Byte) (va : VaList) :
    (vsnprintf out n s va).out (min (formattedText s va).length (n - 1)) = 0 := by
  rw [vsnprintf_out out hn, min_countedText_length]
  exact Function.update_self _ _ _

/-- A negative `res` is a large number in the comparison. -/
theorem signExtend_lt_256 (x : BitVec 32) : x.signExtend 64 < 256 ↔ x.toNat < 256 := by
  rw [BitVec.lt_def, BitVec.toNat_signExtend, BitVec.toNat_setWidth,
    Nat.mod_eq_of_lt (lt_trans x.isLt (by decide)), show (256 : BitVec 64).toNat = 256 from rfl]
  by_cases hmsb : x.msb
  · have hlarge := BitVec.le_toNat_of_msb_true hmsb
    rw [if_pos hmsb]
    omega
  · rw [if_neg hmsb, Nat.add_zero]

theorem size_eq (r : Formatted) :
    r.size = if r.pos % 2 ^ 32 < 256 then r.pos % 2 ^ 32 else 256 := by
  have hret : r.ret.toNat = r.pos % 2 ^ 32 := BitVec.toNat_ofNat _ _
  unfold Formatted.size
  simp only [signExtend_lt_256, hret]
  split_ifs with hlt
  · have hsmall : r.ret.msb = false := by
      rw [BitVec.msb_eq_decide, hret]
      exact decide_eq_false (by omega)
    rw [BitVec.signExtend_eq_setWidth_of_msb_false hsmall, BitVec.toNat_setWidth, hret]
    omega
  · rfl

/-- The bytes of the buffer: the text that it holds, and the NUL behind it. -/
theorem vsnprintf_bytes (out : ℕ → Byte) {n size : ℕ} {s : List Byte} {va : VaList} (hn : 0 < n)
    (hsize : size ≤ min (formattedText s va).length (n - 1) + 1) :
    (List.range size).map (vsnprintf out n s va).out =
      ((formattedText s va).take (n - 1) ++ [0]).take size := by
  have hlen : ((formattedText s va).take (n - 1)).length = min (formattedText s va).length (n - 1) := by
    rw [List.length_take, min_comm]
  apply List.ext_getElem
  · simp only [List.length_map, List.length_range, List.length_take, List.length_append,
      List.length_singleton]
    omega
  · intro i h1 h2
    simp only [List.length_map, List.length_range] at h1
    rw [List.getElem_map, List.getElem_range, List.getElem_take]
    by_cases hi : i < min (formattedText s va).length (n - 1)
    · rw [List.getElem_append_left (by omega), List.getElem_take]
      exact vsnprintf_out_of_lt (by omega) (by omega)
    · have hi : i = min (formattedText s va).length (n - 1) := by omega
      rw [List.getElem_append_right (by omega), List.getElem_singleton, hi]
      exact vsnprintf_nul out hn s va

theorem vprintk_bytes (k : KernelContext) (s : List Byte) (vl : VaList) :
    (vprintk k s vl).bytes =
      ((formattedText s vl).take 255 ++ [0]).take (vsnprintf k.out 256 s vl).size := by
  apply vsnprintf_bytes k.out (by decide)
  have hpos := vsnprintf_pos k.out 256 s vl
  have hmin := min_countedText_length 256 s vl
  rw [size_eq]
  split_ifs <;> omega

end ProxyKernel.Print
