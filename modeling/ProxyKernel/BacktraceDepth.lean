import ProxyKernel.BacktraceChain

namespace ProxyKernel.Backtrace
open ByteMem Elf

def Counted (w : Walk) : Prop := w.count.toNat = w.prints.length

theorem report_tally (w : Walk) (m : Mem) (sym : Option Word) (ret : Word) :
    ∃ l, l.length ≤ 1 ∧ (w.report m sym ret).prints = w.prints ++ l ∧
      (w.report m sym ret).count = w.count + BitVec.ofNat 64 l.length := by
  have hskip : w.count = w.count + BitVec.ofNat 64 ([] : List SprintCall).length :=
    (BitVec.add_zero _).symm
  unfold Walk.report
  cases sym with
  | none => exact ⟨[⟨addrFmt, ret⟩], le_rfl, rfl, rfl⟩
  | some name =>
    dsimp only
    split_ifs
    · exact ⟨[⟨nameFmt, name⟩], le_rfl, rfl, rfl⟩
    · exact ⟨[], Nat.zero_le 1, (List.append_nil _).symm, hskip⟩

theorem body_tally (e : Env) (w : Walk) :
    ∃ l, l.length ≤ 1 ∧ (after (body e w)).prints = w.prints ++ l ∧
      (after (body e w)).count = w.count + BitVec.ofNat 64 l.length := by
  have hskip : ∃ l : List SprintCall, l.length ≤ 1 ∧ w.prints = w.prints ++ l ∧
      w.count = w.count + BitVec.ofNat 64 l.length :=
    ⟨[], Nat.zero_le 1, (List.append_nil _).symm, (BitVec.add_zero _).symm⟩
  have hreport := report_tally (w.load (frameView w.fp 1)) e.mem
    (findSymbolName e.mem e.current (load64 e.mem (frameView w.fp 1)))
    (load64 e.mem (frameView w.fp 1))
  unfold body
  dsimp only
  split_ifs <;> simp only [after, Sum.elim_inl, Sum.elim_inr, id_eq, Walk.load] at hreport ⊢
  · exact hskip
  · exact hskip
  · exact hskip
  · exact hskip
  · exact hreport
  · exact hreport
  · exact hreport

/-- The body is entered below the depth only, and so the count does not overflow
and stays within it. -/
theorem step_counted {e : Env} {w : Walk} (hw : Counted w) (hle : w.count ≤ e.maxDepth) :
    Counted (after (step e w)) ∧ (after (step e w)).count ≤ e.maxDepth ∧
      w.prints <+: (after (step e w)).prints := by
  unfold step
  split_ifs with h
  · obtain ⟨l, hl, hprints, hcount⟩ := body_tally e w
    have hlt : w.count.toNat < e.maxDepth.toNat := h.2
    have hmax := e.maxDepth.isLt
    have hsum : (after (body e w)).count.toNat = w.count.toNat + l.length := by
      rw [hcount, BitVec.toNat_add, BitVec.toNat_ofNat]
      omega
    refine ⟨?_, ?_, ?_⟩
    · rw [Counted, hsum, hprints, List.length_append, hw]
    · rw [BitVec.le_def, hsum]
      omega
    · rw [hprints]
      exact List.prefix_append _ _
  · exact ⟨hw, hle, List.prefix_rfl⟩

theorem walk_counted {e : Env} {w w' : Walk} {n : ℕ} (hw : Counted w) (hle : w.count ≤ e.maxDepth)
    (h : Loop.run (step e) n w = some w') :
    Counted w' ∧ w'.count ≤ e.maxDepth ∧ w.prints <+: w'.prints := by
  have hstep (v : Walk) (hv : Counted v ∧ v.count ≤ e.maxDepth ∧ w.prints <+: v.prints) :
      Counted (after (step e v)) ∧ (after (step e v)).count ≤ e.maxDepth ∧
        w.prints <+: (after (step e v)).prints := by
    obtain ⟨hcount, hdepth, hprints⟩ := step_counted hv.1 hv.2.1
    exact ⟨hcount, hdepth, hv.2.2.trans hprints⟩
  refine Loop.run_invariant
    (I := fun v => Counted v ∧ v.count ≤ e.maxDepth ∧ w.prints <+: v.prints)
    (Q := fun v => Counted v ∧ v.count ≤ e.maxDepth ∧ w.prints <+: v.prints) ?_ ?_
    ⟨hw, hle, List.prefix_rfl⟩ h
  · intro v v' hv hgo
    simpa [hgo, after] using hstep v hv
  · intro v v' hv hgo
    simpa [hgo, after] using hstep v hv

/-- Below the smaller depth the two loops take the same step. -/
theorem step_eq_of_lt {m : Mem} {current d₁ d₂ : Word} {w : Walk} (h : d₁ ≤ d₂)
    (hlt : w.count < d₁) :
    step (envOf m current d₁) w = step (envOf m current d₂) w := by
  have hlt' : w.count < d₂ := lt_of_lt_of_le (a := w.count.toNat) hlt h
  have hcond : (w.fp ≠ 0 ∧ w.count < (envOf m current d₁).maxDepth) ↔
      (w.fp ≠ 0 ∧ w.count < (envOf m current d₂).maxDepth) :=
    and_congr_right fun _ => ⟨fun _ => hlt', fun _ => hlt⟩
  unfold step
  simp only [hcond]
  rfl

/-- From a common state the walk of the smaller depth prints the first part. -/
theorem walk_take {m : Mem} {current d₁ d₂ : Word} {n : ℕ} {w w₁ w₂ : Walk} (h : d₁ ≤ d₂)
    (hw : Counted w) (hle : w.count ≤ d₁)
    (h₁ : Loop.run (step (envOf m current d₁)) n w = some w₁)
    (h₂ : Loop.run (step (envOf m current d₂)) n w = some w₂) :
    w₁.prints = w₂.prints.take d₁.toNat := by
  induction n generalizing w with
  | zero => cases h₁
  | succ n ih =>
    by_cases hlt : w.count < d₁
    · have hsame : step (envOf m current d₁) w = step (envOf m current d₂) w := step_eq_of_lt h hlt
      obtain ⟨hcount, hdepth, -⟩ := step_counted (e := envOf m current d₁) hw hle
      cases hstep : step (envOf m current d₁) w with
      | inl v =>
        rw [hstep] at hcount hdepth
        rw [Loop.run_of_inl n hstep] at h₁
        rw [Loop.run_of_inl n (hsame ▸ hstep)] at h₂
        exact ih hcount hdepth h₁ h₂
      | inr v =>
        rw [hstep] at hcount hdepth
        have hv : v.prints.length ≤ d₁.toNat := hcount ▸ hdepth
        rw [Loop.eq_of_inr h₁ hstep, Loop.eq_of_inr h₂ (hsame ▸ hstep), List.take_of_length_le hv]
    · -- the smaller depth is reached: what the other walk prints from here on is cut off
      have hstop : step (envOf m current d₁) w = .inr w := if_neg fun hgo => hlt hgo.2
      have hfull : w.prints.length = d₁.toNat := by
        rw [← hw]
        exact le_antisymm hle (not_lt.mp hlt)
      have hle' : w.count ≤ (envOf m current d₂).maxDepth := BitVec.le_trans hle h
      obtain ⟨-, -, hprefix⟩ := walk_counted hw hle' h₂
      rw [Loop.eq_of_inr h₁ hstop, ← hfull]
      exact List.prefix_iff_eq_take.mp hprefix

theorem sysUserBacktrace_counted {m : Mem} {current d : Word} {w : Walk}
    (h : sysUserBacktrace m current d = some w) : Counted w := by
  unfold sysUserBacktrace at h
  dsimp only at h
  split_ifs at h
  · obtain rfl := Option.some.inj h
    rfl
  · obtain rfl := Option.some.inj h
    rfl
  · obtain rfl := Option.some.inj h
    rfl
  · obtain rfl := Option.some.inj h
    rfl
  · exact (walk_counted (w := .enter _ _) rfl (Nat.zero_le _) h).1

theorem sysUserBacktrace_take {m : Mem} {current d₁ d₂ : Word} {w₁ w₂ : Walk} (h : d₁ ≤ d₂)
    (h₁ : sysUserBacktrace m current d₁ = some w₁)
    (h₂ : sysUserBacktrace m current d₂ = some w₂) :
    w₁.prints = w₂.prints.take d₁.toNat := by
  by_cases hzero : d₁ = 0
  · rw [sysUserBacktrace, if_pos hzero] at h₁
    obtain rfl := Option.some.inj h₁
    rw [hzero]
    rfl
  · have hzero' : d₂ ≠ 0 := by
      rintro rfl
      exact hzero (BitVec.le_zero_iff.mp h)
    unfold sysUserBacktrace at h₁ h₂
    dsimp only at h₁ h₂
    rw [if_neg hzero] at h₁
    rw [if_neg hzero'] at h₂
    split_ifs at h₁ h₂
    · obtain rfl := Option.some.inj h₁
      obtain rfl := Option.some.inj h₂
      exact List.take_nil.symm
    · obtain rfl := Option.some.inj h₁
      obtain rfl := Option.some.inj h₂
      exact List.take_nil.symm
    · obtain rfl := Option.some.inj h₁
      obtain rfl := Option.some.inj h₂
      exact List.take_nil.symm
    · exact walk_take h (w := .enter _ _) rfl (Nat.zero_le _) h₁ h₂

/-- The lines of the smaller depth are the first lines of the larger one, and both
calls return the number of their lines. -/
theorem backtrace_depth_truncates (m : Mem) (current d₁ d₂ : Word) (h : d₁ ≤ d₂) :
    ∃ w₁ w₂, sysUserBacktrace m current d₁ = some w₁ ∧ sysUserBacktrace m current d₂ = some w₂ ∧
      w₁.prints = w₂.prints.take (min d₁.toNat w₂.prints.length) ∧
      w₁.count.toNat = w₁.prints.length ∧ w₂.count.toNat = w₂.prints.length := by
  obtain ⟨w₁, h₁⟩ := sysUserBacktrace_total m current d₁
  obtain ⟨w₂, h₂⟩ := sysUserBacktrace_total m current d₂
  refine ⟨w₁, w₂, h₁, h₂, ?_, sysUserBacktrace_counted h₁, sysUserBacktrace_counted h₂⟩
  rw [sysUserBacktrace_take h h₁ h₂, List.take_eq_take_min]

theorem backtrace_depth_truncates_g :
    ∃ w₁ w₂, sysUserBacktrace oneCallMem 0x80010000 1 = some w₁ ∧
      sysUserBacktrace oneCallMem 0x80010000 8 = some w₂ ∧
      w₁.prints = w₂.prints.take (min (1 : Word).toNat w₂.prints.length) ∧
      w₁.count.toNat = w₁.prints.length ∧ w₂.count.toNat = w₂.prints.length :=
  backtrace_depth_truncates oneCallMem 0x80010000 1 8 (by decide)

/-- No sequence of iterations goes on for ever, from whatever state and over
whatever memory, and the call returns. -/
theorem backtrace_walk_ends (m : Mem) (current maxDepth : Word) :
    WellFounded (fun w' w => step (envOf m current maxDepth) w = .inl w') ∧
      ∃ w, sysUserBacktrace m current maxDepth = some w := by
  refine ⟨?_, sysUserBacktrace_total m current maxDepth⟩
  apply Subrelation.wf (r := InvImage (· < ·) fun w : Walk => USER_STACK.toNat - w.fp.toNat)
  · intro w' w hstep
    have := step_fp_lt hstep
    change USER_STACK.toNat - w'.fp.toNat < USER_STACK.toNat - w.fp.toNat
    omega
  · exact InvImage.wf _ Nat.lt_wfRel.wf

end ProxyKernel.Backtrace
