import ProxyKernel.PrintFormat
import ProxyKernel.UserPrint

namespace ProxyKernel.Syscall
open ByteMem Print

/-- A text without `%` behind a specifier is copied. -/
theorem render_plain {t : List Byte} (ht : chr '%' ∉ t) (va : VaList) (i : ℕ) :
    (Spec.rest i).render va t = t := by
  induction t with
  | nil => rfl
  | cons c t ih =>
    have hc : c ≠ chr '%' := fun h => ht (h ▸ List.mem_cons_self)
    have hemit : (Spec.rest i).emit va c = [c] := by simp [Spec.emit, Spec.rest, hc]
    have hnext : (Spec.rest i).next c = Spec.rest i := by simp [Spec.next, Spec.rest, hc]
    rw [Spec.render, hemit, hnext, ih fun h => ht (List.mem_cons_of_mem c h)]
    rfl

theorem sprint_piece {k : KernelContext} {p : Piece} {arg : VaArg} {before behind : List Byte}
    (hp : p.Given arg) (hbefore : chr '%' ∉ before) (hbehind : chr '%' ∉ behind)
    (hlen : (before ++ p.rendered ++ behind).length < 256) :
    (sprint k (before ++ (p.format ++ behind)) [arg]).bytes = before ++ p.rendered ++ behind := by
  have htext : formattedText (before ++ (p.format ++ behind)) (vaStart k [arg]) =
      before ++ p.rendered ++ behind := by
    rw [formattedText_append hbefore, List.append_assoc]
    refine congrArg (before ++ ·) ?_
    exact (render_piece (k := 0) hp behind).trans (congrArg (p.rendered ++ ·) (render_plain hbehind _ _))
  rw [sprint_bytes_of_short, htext]
  rwa [htext]

theorem numeral_length (x : Word) : (numeral x.toInt).length ≤ 21 := by
  have hlen := decimalText_length x
  by_cases hmin : x = BitVec.intMin 64
  · rw [hmin]
    decide +kernel
  · rwa [decimalText_eq hmin] at hlen

theorem sprint_int {k : KernelContext} {code : BitVec 32} {arg : VaArg} {before behind : List Byte}
    (harg : arg.word.setWidth 32 = code) (hbefore : chr '%' ∉ before) (hbehind : chr '%' ∉ behind)
    (hlen : before.length + behind.length < 235) :
    (sprint k (before ++ (ascii ['%', 'd'] ++ behind)) [arg]).bytes =
      before ++ numeral code.toInt ++ behind := by
  have hgiven : (Piece.int code).Given arg := harg
  refine sprint_piece (p := .int code) hgiven hbefore hbehind ?_
  have hnum := numeral_length (code.signExtend 64)
  rw [BitVec.toInt_signExtend_of_le (by decide)] at hnum
  rw [List.length_append, List.length_append]
  change before.length + (numeral code.toInt).length + behind.length < 256
  omega

end ProxyKernel.Syscall
