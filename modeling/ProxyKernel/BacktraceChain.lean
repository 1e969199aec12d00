import ProxyKernel.Backtrace

namespace ProxyKernel.Backtrace
open ByteMem Elf

/-- The two words of a frame lie above the stack pointer, and the frame starts
below the top of the stack. -/
def InRange (sp fp : Word) : Prop :=
  sp.toNat + 16 < fp.toNat ∧ fp.toNat < USER_STACK.toNat

instance (sp fp : Word) : Decidable (InRange sp fp) := inferInstanceAs (Decidable (_ ∧ _))

def Returns (m : Mem) (current fp : Word) (name : List Byte) : Prop :=
  ∃ sym, findSymbolName m current (load64 m (frameView fp 1)) = some sym ∧ CString m sym name

/-- The frames from `fp` outwards return into the functions `gs` and then into
`main`.  The frame of `main` itself is never looked at. -/
inductive Chain (m : Mem) (current sp : Word) : Word → List (List Byte) → Prop
  | main {fp : Word} (hrange : InRange sp fp) (hret : Returns m current fp mainName) :
      Chain m current sp fp []
  | call {fp : Word} {g : List Byte} {gs : List (List Byte)} (hrange : InRange sp fp)
      (hret : Returns m current fp g)
      (hname : g ≠ mainName ∧ g ≠ printBacktraceName ∧ g ≠ doUserCallName)
      (hup : fp < load64 m (frameView fp 2))
      (hrest : Chain m current sp (load64 m (frameView fp 2)) gs) :
      Chain m current sp fp (g :: gs)

/-- A user stack on which `do_user_call` has trapped. -/
structure UserStack (m : Mem) (current : Word) (gs : List (List Byte)) : Prop where
  leaf_words : (savedSp m current).toNat + 8 < (savedS0 m current).toNat
  leaf_top : savedS0 m current < USER_STACK
  leaf_up : savedS0 m current < load64 m (frameView (savedS0 m current) 1)
  chain : Chain m current (savedSp m current) (load64 m (frameView (savedS0 m current) 1)) gs

def Prints (m : Mem) (c : SprintCall) (g : List Byte) : Prop := c.fmt = nameFmt ∧ CString m c.arg g

theorem Chain.inRange {m : Mem} {current sp fp : Word} {gs : List (List Byte)}
    (h : Chain m current sp fp gs) : InRange sp fp := by
  cases h with
  | main hrange => exact hrange
  | call hrange => exact hrange

variable {e : Env} {w : Walk}

theorem inRange_checks {sp fp : Word} (h : InRange sp fp) :
    fp ≠ 0 ∧ ¬ (fp ≤ sp ∨ USER_STACK ≤ fp) ∧ ¬ frameView fp 1 ≤ sp ∧ ¬ frameView fp 2 ≤ sp := by
  obtain ⟨hlow, hhigh⟩ := h
  simp only [frameView, USER_STACK] at *
  refine ⟨?_, ?_, ?_, ?_⟩ <;> bv_omega

theorem isMain_iff {m : Mem} {sym : Word} {name : List Byte} (h : CString m sym name) :
    isMain m (some sym) ↔ name = mainName := by
  rw [← strcmp_eq_zero_iff h (by decide)]
  constructor
  · rintro ⟨_, heq, hz⟩
    injection heq with heq
    exact heq ▸ hz
  · intro hz
    exact ⟨sym, rfl, hz⟩

theorem step_done (h : ¬ w.count < e.maxDepth) : step e w = .inr w := by
  rw [step, if_neg fun hc => h hc.2]

theorem step_main (hdepth : w.count < e.maxDepth) (hrange : InRange e.sp w.fp)
    (hret : Returns e.mem e.current w.fp mainName) :
    step e w = .inr (w.load (frameView w.fp 1)) := by
  obtain ⟨sym, hsym, hname⟩ := hret
  obtain ⟨hne, h1, h2, -⟩ := inRange_checks hrange
  unfold step body
  dsimp only
  rw [if_pos ⟨hne, hdepth⟩, if_neg h1, if_neg h2, if_neg (findSymbolName_ne_zero hsym), hsym,
    if_pos ((isMain_iff hname).mpr rfl)]

/-- At any other frame it prints the name once and goes on to the caller's frame. -/
theorem step_call {g : List Byte} (hdepth : w.count < e.maxDepth) (hrange : InRange e.sp w.fp)
    (hret : Returns e.mem e.current w.fp g)
    (hname : g ≠ mainName ∧ g ≠ printBacktraceName ∧ g ≠ doUserCallName)
    (hup : w.fp < load64 e.mem (frameView w.fp 2))
    (htop : load64 e.mem (frameView w.fp 2) < USER_STACK) :
    ∃ w' c, step e w = .inl w' ∧ Prints e.mem c g ∧ w'.fp = load64 e.mem (frameView w.fp 2) ∧
      w'.count = w.count + 1 ∧ w'.prints = w.prints ++ [c] := by
  obtain ⟨sym, hsym, hstr⟩ := hret
  obtain ⟨hne, h1, h2, h3⟩ := inRange_checks hrange
  have hreport : strcmp e.mem sym printBacktraceName ≠ 0 ∧ strcmp e.mem sym doUserCallName ≠ 0 :=
    ⟨fun h => hname.2.1 ((strcmp_eq_zero_iff hstr (by decide)).mp h),
      fun h => hname.2.2 ((strcmp_eq_zero_iff hstr (by decide)).mp h)⟩
  have hold : ¬ (load64 e.mem (frameView w.fp 2) = 0 ∨ load64 e.mem (frameView w.fp 2) ≤ w.fp ∨
      USER_STACK ≤ load64 e.mem (frameView w.fp 2)) := by
    refine not_or.mpr ⟨?_, not_or.mpr ⟨BitVec.not_le.mpr hup, BitVec.not_le.mpr htop⟩⟩
    bv_omega
  unfold step body
  dsimp only
  rw [if_pos ⟨hne, hdepth⟩, if_neg h1, if_neg h2, if_neg (findSymbolName_ne_zero hsym), hsym,
    if_neg fun h => hname.1 ((isMain_iff hstr).mp h), if_neg h3, if_neg hold]
  refine ⟨_, ⟨nameFmt, sym⟩, rfl, ⟨rfl, hstr⟩, rfl, ?_, ?_⟩
  · simp only [Walk.report, if_pos hreport, Walk.load]
  · simp only [Walk.report, if_pos hreport, Walk.load]

/-- From any frame of a chain the walk prints the names that are left, up to the
depth.  Induction over the chain, with the count and the prints so far arbitrary. -/
theorem walk_chain {fp : Word} {gs : List (List Byte)}
    (hchain : Chain e.mem e.current e.sp fp gs) :
    ∀ w : Walk, w.fp = fp → w.count.toNat ≤ e.maxDepth.toNat →
      ∃ n w' Q, Loop.run (step e) n w = some w' ∧ w'.prints = w.prints ++ Q ∧
        w'.count.toNat = min e.maxDepth.toNat (w.count.toNat + gs.length) ∧
        List.Forall₂ (Prints e.mem) Q (gs.take (e.maxDepth.toNat - w.count.toNat)) := by
  induction hchain with
  | main hrange hret =>
    rintro w rfl hle
    by_cases hdepth : w.count < e.maxDepth
    · refine ⟨1, _, [], Loop.run_of_inr 0 (step_main hdepth hrange hret), ?_, ?_, ?_⟩
      · simp [Walk.load]
      · simpa [Walk.load] using hle
      · simp
    · refine ⟨1, w, [], Loop.run_of_inr 0 (step_done hdepth), by simp, ?_, by simp⟩
      simpa using hle
  | @call fp g gs hrange hret hname hup hrest ih =>
    rintro w rfl hle
    by_cases hdepth : w.count < e.maxDepth
    · have htop : load64 e.mem (frameView w.fp 2) < USER_STACK := hrest.inRange.2
      obtain ⟨w1, c, hstep, hc, hfp, hcount, hprints⟩ :=
        step_call hdepth hrange hret hname hup htop
      have hone : w1.count.toNat = w.count.toNat + 1 := by
        rw [hcount]
        bv_omega
      have hlt : w.count.toNat < e.maxDepth.toNat := hdepth
      obtain ⟨n, w', Q, hrun, hQ, hcount', hall⟩ := ih w1 hfp (by omega)
      refine ⟨n + 1, w', c :: Q, ?_, ?_, ?_, ?_⟩
      · rw [Loop.run_of_inl n hstep]
        exact hrun
      · rw [hQ, hprints, List.append_assoc]
        rfl
      · rw [hcount', hone, List.length_cons]
        congr 1
        omega
      · rw [show e.maxDepth.toNat - w.count.toNat = (e.maxDepth.toNat - w1.count.toNat) + 1 by omega,
          List.take_succ_cons]
        exact .cons hc hall
    · have heq : e.maxDepth.toNat = w.count.toNat := by
        have : ¬ w.count.toNat < e.maxDepth.toNat := hdepth
        omega
      refine ⟨1, w, [], Loop.run_of_inr 0 (step_done hdepth), by simp, ?_, ?_⟩
      · rw [heq]
        simp
      · rw [heq]
        simp

theorem UserStack.walk {m : Mem} {current : Word} {gs : List (List Byte)}
    (hstack : UserStack m current gs) (d : Word) :
    ∃ w, sysUserBacktrace m current d = some w ∧
      w.count.toNat = min d.toNat gs.length ∧
      List.Forall₂ (Prints m) w.prints (gs.take d.toNat) := by
  by_cases hd : d = 0
  · refine ⟨.start (savedS0 m current), ?_, ?_, ?_⟩
    · rw [sysUserBacktrace, if_pos hd]
    · simp [hd, Walk.start]
    · simp [hd, Walk.start]
  have hlow := hstack.leaf_words
  have hup := hstack.leaf_up
  have htop := hstack.leaf_top
  have hnext : load64 m (frameView (savedS0 m current) 1) < USER_STACK := hstack.chain.inRange.2
  obtain ⟨n, w, Q, hrun, hQ, hcount, hall⟩ := walk_chain (e := envOf m current d) hstack.chain
    (.enter (savedS0 m current) (load64 m (frameView (savedS0 m current) 1))) rfl (Nat.zero_le _)
  obtain ⟨w', hw'⟩ := walk_total (envOf m current d)
    (.enter (savedS0 m current) (load64 m (frameView (savedS0 m current) 1)))
  -- the chain gives some number of rounds, the code its own bound; the result is one
  have hsame : w' = w := by
    have h1 := Loop.run_mono hrun (le_max_left n frameBound)
    have h2 := Loop.run_mono hw' (le_max_right n frameBound)
    exact Option.some.inj (h2.symm.trans h1)
  subst hsame
  refine ⟨w', ?_, ?_, ?_⟩
  · unfold sysUserBacktrace
    dsimp only
    rw [if_neg hd, if_neg, if_neg, if_neg]
    · exact hw'
    · refine not_or.mpr ⟨?_, not_or.mpr ⟨BitVec.not_le.mpr hup, BitVec.not_le.mpr hnext⟩⟩
      bv_omega
    · simp only [frameView]
      bv_omega
    · refine not_or.mpr ⟨?_, not_or.mpr ⟨?_, BitVec.not_le.mpr htop⟩⟩
      · bv_omega
      · bv_omega
  · simpa [Walk.enter, envOf] using hcount
  · rw [hQ]
    simpa [Walk.enter, envOf] using hall

/-- `sys_user_backtrace(d)` prints the first `d` callers, innermost first, with
one `sprint("%s\n", ..)` each, and returns their number. -/
theorem backtrace_reports_chain (m : Mem) (current d : Word) (gs : List (List Byte))
    (hstack : UserStack m current gs) :
    ∃ w, sysUserBacktrace m current d = some w ∧
      w.count.toNat = min d.toNat gs.length ∧
      List.Forall₂ (Prints m) w.prints (gs.take d.toNat) :=
  hstack.walk d

def funcSymbol (name value size : ℕ) : List Byte :=
  toLE 4 name ++ toLE 1 STT_FUNC.toNat ++ toLE 3 0 ++ toLE 8 value ++ toLE 8 size

def oneCallMem : Mem :=
  writeAll (trappedMem 0x810fff00 0x810fff20)
    [(0x80010010, funcSymbol 1 0x81000040 0x20 ++ funcSymbol 3 0x81000000 0x40),
      (0x80013010, toLE 8 2),
      (0x80013018, [0] ++ ascii ['g'] ++ [0] ++ mainName ++ [0]),
      (0x80015018, toLE 8 8),
      (0x810fff18, toLE 8 0x810fff40),
      (0x810fff30, toLE 8 0x810fff60 ++ toLE 8 0x81000050),
      (0x810fff50, toLE 8 0x81100000 ++ toLE 8 0x81000010)]

theorem backtrace_reports_g :
    ∃ w, sysUserBacktrace oneCallMem 0x80010000 8 = some w ∧
      w.count.toNat = min (8 : Word).toNat [ascii ['g']].length ∧
      List.Forall₂ (Prints oneCallMem) w.prints ([ascii ['g']].take (8 : Word).toNat) := by
  have hg : Returns oneCallMem 0x80010000 0x810fff40 (ascii ['g']) :=
    ⟨0x80013019, by decide +kernel, by decide +kernel⟩
  have hmain : Returns oneCallMem 0x80010000 0x810fff60 mainName :=
    ⟨0x8001301b, by decide +kernel, by decide +kernel⟩
  have hnext : load64 oneCallMem (frameView 0x810fff40 2) = 0x810fff60 := by decide +kernel
  have hleaf : load64 oneCallMem (frameView (savedS0 oneCallMem 0x80010000) 1) = 0x810fff40 := by
    decide +kernel
  have hsp : savedSp oneCallMem 0x80010000 = 0x810fff00 := by decide +kernel
  apply backtrace_reports_chain
  refine ⟨by decide +kernel, by decide +kernel, by decide +kernel, ?_⟩
  rw [hleaf, hsp]
  apply Chain.call (by decide) hg (by decide) (by decide +kernel)
  rw [hnext]
  exact Chain.main (by decide) hmain

end ProxyKernel.Backtrace
