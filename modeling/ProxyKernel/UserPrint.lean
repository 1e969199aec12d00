import ProxyKernel.Syscall
import Mathlib.Data.List.TakeWhile

namespace ProxyKernel.Syscall
open ByteMem Print

theorem cString_of_bytes {m : Mem} {a : Word} {bs : List Byte} (hnul : 0 ∉ bs)
    (hbs : ∀ i (h : i < bs.length), m (a + BitVec.ofNat 64 i) = bs[i])
    (hend : m (a + BitVec.ofNat 64 bs.length) = 0) : CString m a bs := by
  induction bs generalizing a with
  | nil => simpa [CString] using hend
  | cons b bs ih =>
    have hshift (i : ℕ) : a + 1 + BitVec.ofNat 64 i = a + BitVec.ofNat 64 (i + 1) := by
      rw [Nat.add_comm i 1, BitVec.ofNat_add, ← BitVec.add_assoc]
      rfl
    have hfirst : m a = b := by
      have h0 := hbs 0 (Nat.succ_pos _)
      rwa [BitVec.add_zero] at h0
    refine ⟨fun h => hnul (h ▸ List.mem_cons_self), hfirst, ih ?_ ?_ ?_⟩
    · exact fun h => hnul (List.mem_cons_of_mem b h)
    · intro i hi
      rw [hshift]
      exact hbs (i + 1) (Nat.succ_lt_succ hi)
    · rw [hshift]
      exact hend

def cPart (t : List Byte) : List Byte := t.takeWhile (· ≠ 0)

theorem cPart_getElem {t : List Byte} {i : ℕ} (hi : i < (cPart t).length) :
    ∃ h : i < t.length, (cPart t)[i] = t[i] := by
  have hpre : cPart t <+: t := List.takeWhile_prefix _
  exact ⟨lt_of_lt_of_le hi hpre.length_le, hpre.getElem hi⟩

theorem zero_not_mem_cPart (t : List Byte) : 0 ∉ cPart t := by
  intro h
  simpa using List.mem_takeWhile_imp h

theorem getElem_cPart_length {t : List Byte} (h : (cPart t).length < t.length) :
    t[(cPart t).length] = 0 := by
  induction t with
  | nil => simp at h
  | cons b t ih =>
    by_cases hb : b = 0
    · simp [cPart, hb]
    · have hc : cPart (b :: t) = b :: cPart t := List.takeWhile_cons_of_pos (by simpa using hb)
      simp only [hc, List.length_cons, List.getElem_cons_succ] at h ⊢
      exact ih (by omega)

/-- `out` holds the first 255 characters of the text and a NUL, and so the kernel
reads the text as far as its first NUL. -/
theorem strAt_out (m : Mem) (buf : Word) (s : List Byte) (va : VaList) (out : ℕ → Byte) :
    strAt (write m buf (outBytes (vsnprintf out 256 s va).out)) buf =
      cPart ((formattedText s va).take 255) := by
  have hlen : (outBytes (vsnprintf out 256 s va).out).length = 256 := by simp [outBytes]
  have hout (i : ℕ) (hi : i < 256) : write m buf (outBytes (vsnprintf out 256 s va).out)
      (buf + BitVec.ofNat 64 i) = (vsnprintf out 256 s va).out i := by
    rw [write_at (by omega) (by omega)]
    simp [outBytes]
  have htext (i : ℕ) (hi : i < ((formattedText s va).take 255).length) :
      (vsnprintf out 256 s va).out i = ((formattedText s va).take 255)[i] := by
    rw [List.getElem_take]
    exact vsnprintf_out_of_lt (by simp at hi; omega) (by simp at hi; omega)
  have hle : (cPart ((formattedText s va).take 255)).length ≤ ((formattedText s va).take 255).length :=
    (List.takeWhile_prefix _).length_le
  have h255 : ((formattedText s va).take 255).length ≤ 255 := List.length_take_le _ _
  apply strAt_of_cString
  · apply cString_of_bytes (zero_not_mem_cPart _)
    · intro i hi
      obtain ⟨hi', heq⟩ := cPart_getElem hi
      rw [hout i (by omega), htext i hi', heq]
    · rw [hout _ (by omega)]
      by_cases hlt : (cPart ((formattedText s va).take 255)).length <
          ((formattedText s va).take 255).length
      · rw [htext _ hlt, getElem_cPart_length hlt]
      -- no NUL in the text: it is the one that `vsnprintf` puts behind it
      · have hnul := vsnprintf_nul out (by omega : 0 < 256) s va
        rw [show (cPart ((formattedText s va).take 255)).length = min (formattedText s va).length (256 - 1) by
          rw [List.length_take] at hle hlt
          omega]
        exact hnul
  · omega

theorem formattedText_append {p : List Byte} (hp : chr '%' ∉ p) (s : List Byte) (va : VaList) :
    formattedText (p ++ s) va = p ++ formattedText s va := by
  unfold formattedText
  induction p with
  | nil => rfl
  | cons c p ih =>
    have hc : c ≠ chr '%' := fun h => hp (h ▸ List.mem_cons_self)
    have hemit : Spec.start.emit va c = [c] := by simp [Spec.emit, Spec.start, hc]
    have hnext : Spec.start.next c = Spec.start := by simp [Spec.next, Spec.start, hc]
    rw [List.cons_append, Spec.render, hemit, hnext, ih fun h => hp (List.mem_cons_of_mem c h)]
    rfl

theorem formattedText_percent (s : List Byte) (va : VaList) :
    formattedText (chr '%' :: s) va = Spec.render va { Spec.start with format := true } s := by
  rfl

/-- The bytes that `sprint(s)` sends for a short text. -/
theorem sprint_bytes_of_short {k : KernelContext} {s : List Byte} {args : List VaArg}
    (h : (formattedText s (vaStart k args)).length < 256) :
    (sprint k s args).bytes = formattedText s (vaStart k args) := by
  have hpos := vsnprintf_pos k.out 256 s (vaStart k args)
  rw [countedText_of_room h] at hpos
  have hsize : (vsnprintf k.out 256 s (vaStart k args)).size =
      (formattedText s (vaStart k args)).length := by
    rw [size_eq, if_pos (by omega)]
    omega
  have hshort : (formattedText s (vaStart k args)).take 255 = formattedText s (vaStart k args) :=
    List.take_of_length_le (by omega)
  unfold sprint
  rw [vprintk_bytes, hsize, hshort, List.take_left]

/-- Wherever the buffer holds a byte of the text below the last cell, so does the
write. -/
theorem sprint_bytes_getElem {k : KernelContext} {s : List Byte} {args : List VaArg} {i : ℕ}
    {b : Byte} (hi : i < 255) (h : (sprint k s args).bytes[i]? = some b) :
    (formattedText s (vaStart k args))[i]? = some b := by
  by_cases hshort : (formattedText s (vaStart k args)).length < 256
  · rwa [sprint_bytes_of_short hshort] at h
  · have hlen : ((formattedText s (vaStart k args)).take 255).length = 255 := by
      rw [List.length_take]
      omega
    unfold sprint at h
    rw [vprintk_bytes, List.getElem?_take] at h
    split_ifs at h
    rw [List.getElem?_append_left (by omega), List.getElem?_take, if_pos hi] at h
    exact h

/-- Argument registers that all hold `'a'`, read as a pointer to `"a"`. -/
def letterArgs : VaList := fun _ => ⟨0x61, [chr 'a'], by decide⟩

theorem emit_head (f : Spec) (c : Byte) : (f.emit letterArgs c).head? ≠ some (chr '%') := by
  have hnum : f.num letterArgs = 0x61 := by
    unfold Spec.num letterArgs
    split_ifs <;> decide
  have hlong : Spec.num letterArgs { f with longarg := true } = 0x61 := rfl
  unfold Spec.emit
  split_ifs with hf hl hp hx hd hs hc hpct
  · simp
  · rw [hlong]
    decide
  · rw [hnum]
    cases f.longarg <;> decide
  · rw [Spec.decimal, hnum]
    decide
  · simp only [letterArgs]
    decide
  · simp only [letterArgs]
    decide
  · simp
  · simp
  · simpa using hpct

/-- From registers that all hold a letter, no text is rendered that starts with `%`. -/
theorem render_head (f : Spec) (s : List Byte) : (f.render letterArgs s).head? ≠ some (chr '%') := by
  induction s generalizing f with
  | nil => simp [Spec.render]
  | cons c s ih =>
    rw [Spec.render, List.head?_append]
    cases hemit : (f.emit letterArgs c).head? with
    | none => simpa using ih (f.next c)
    | some b => simpa [hemit] using emit_head f c

/-- Whatever the memory and the registers hold, `printu` makes the kernel write
the first 255 bytes of the text. -/
def Delivers (s : List Byte) (va : VaList) : Prop :=
  ∀ m k current buf, ∃ r, printu m k current buf s va = some r ∧
    r.writes.flatMap (·.bytes) = (formattedText s va).take 255

theorem printu_eq (m : Mem) (k : KernelContext) (current buf : Word) (s : List Byte) (va : VaList) :
    printu m k current buf s va =
      some ⟨[sprint k (cPart ((formattedText s va).take 255)) []], .returns 0⟩ := by
  unfold printu doUserCall
  dsimp only
  rw [doSyscall_print rfl]
  exact congrArg (fun t => some (⟨[sprint k t []], .returns 0⟩ : Run)) (strAt_out m buf s va _)

theorem delivers_iff_sprint (s : List Byte) (va : VaList) :
    Delivers s va ↔ ∀ k, (sprint k (cPart ((formattedText s va).take 255)) []).bytes =
      (formattedText s va).take 255 := by
  unfold Delivers
  simp only [printu_eq, Option.some.injEq, exists_eq_left', List.flatMap_cons, List.flatMap_nil,
    List.append_nil]
  constructor
  · intro h k
    exact h (fun _ => 0) k 0 0
  · intro h _ k _ _
    exact h k

/-- A text with a `%` meets registers that change it. -/
theorem not_delivers_of_percent {s : List Byte} {va : VaList}
    (hpct : chr '%' ∈ cPart ((formattedText s va).take 255)) : ¬ Delivers s va := by
  rw [delivers_iff_sprint]
  intro h
  obtain ⟨p, q, hsplit, hp⟩ := List.eq_append_cons_of_mem hpct
  have hpre : cPart ((formattedText s va).take 255) <+: (formattedText s va).take 255 :=
    List.takeWhile_prefix _
  have hlt : p.length < (cPart ((formattedText s va).take 255)).length := by
    rw [hsplit]
    simp
  have hat : ((formattedText s va).take 255)[p.length]? = some (chr '%') := by
    obtain ⟨r, hr⟩ := hpre
    rw [← hr, hsplit]
    simp
  have h255 : p.length < 255 :=
    lt_of_lt_of_le hlt (hpre.length_le.trans (List.length_take_le _ _))
  -- with these registers the output has something else where the text has its first `%`
  have hva : vaStart ⟨letterArgs, fun _ => 0, letterArgs 0⟩ [] = letterArgs := rfl
  rw [← h ⟨letterArgs, fun _ => 0, letterArgs 0⟩] at hat
  have hrender := sprint_bytes_getElem h255 hat
  rw [hva, hsplit, formattedText_append hp, List.getElem?_append_right le_rfl, Nat.sub_self,
    ← List.head?_eq_getElem?, formattedText_percent] at hrender
  exact render_head _ _ hrender

/-- Without a `%` the kernel copies what it reads. -/
theorem sprint_bytes_plain {t : List Byte} (ht : chr '%' ∉ t) (hlen : t.length ≤ 255)
    (k : KernelContext) : (sprint k t []).bytes = t := by
  have hrender : formattedText t (vaStart k []) = t := by
    have happend := formattedText_append ht [] (vaStart k [])
    rw [List.append_nil] at happend
    exact happend.trans (List.append_nil t)
  rw [sprint_bytes_of_short, hrender]
  rw [hrender]
  omega

/-- `printu` delivers its text exactly when the first 255 bytes of it have neither
a `%` nor a NUL. -/
theorem printu_delivers_iff (s : List Byte) (va : VaList) :
    Delivers s va ↔
      chr '%' ∉ (formattedText s va).take 255 ∧ 0 ∉ (formattedText s va).take 255 := by
  have hself (h0 : 0 ∉ (formattedText s va).take 255) :
      cPart ((formattedText s va).take 255) = (formattedText s va).take 255 := by
    apply List.takeWhile_eq_self_iff.mpr
    intro b hb
    simpa using fun h : b = 0 => h0 (h ▸ hb)
  have hle : ((formattedText s va).take 255).length ≤ 255 := List.length_take_le _ _
  constructor
  · intro h
    have hno : chr '%' ∉ cPart ((formattedText s va).take 255) := fun hpct =>
      not_delivers_of_percent hpct h
    have hbytes := (delivers_iff_sprint s va).mp h ⟨letterArgs, fun _ => 0, letterArgs 0⟩
    rw [sprint_bytes_plain hno ((List.takeWhile_prefix _).length_le.trans hle)] at hbytes
    have h0 : 0 ∉ (formattedText s va).take 255 := hbytes ▸ zero_not_mem_cPart _
    exact ⟨hself h0 ▸ hno, h0⟩
  · rintro ⟨hpct, h0⟩
    rw [delivers_iff_sprint, hself h0]
    exact sprint_bytes_plain hpct hle

/-- `printu("%s", "5%d")`. -/
theorem printu_percent_lost :
    ¬ Delivers (ascii ['%', 's']) fun _ => ⟨0x81000000, ascii ['5', '%', 'd'], by decide⟩ := by
  apply not_delivers_of_percent
  decide

end ProxyKernel.Syscall
