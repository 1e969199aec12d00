import ProxyKernel.Symbols
import ProxyKernel.Base.Loop

/-!
`sys_user_backtrace` of `kernel/syscall.c`.  It walks the frame pointers of the
user stack and prints the name of the function that each return address lies in.
The model records every load made through a frame pointer and every `sprint` call.
-/

namespace ProxyKernel.Backtrace
open ByteMem Elf

def USER_STACK : Word := 0x81100000

structure SprintCall where
  fmt : List Byte
  arg : Word
  deriving DecidableEq

def nameFmt : List Byte := ascii ['%', 's', '\n']
def addrFmt : List Byte := ascii ['0', 'x', '%', 'l', 'x', '\n']

def mainName : List Byte := ascii ['m', 'a', 'i', 'n']
def printBacktraceName : List Byte :=
  ascii ['p', 'r', 'i', 'n', 't', '_', 'b', 'a', 'c', 'k', 't', 'r', 'a', 'c', 'e']
def doUserCallName : List Byte :=
  ascii ['d', 'o', '_', 'u', 's', 'e', 'r', '_', 'c', 'a', 'l', 'l']

/-- Local variables of the loop, with the loads and prints made so far. -/
structure Walk where
  fp : Word
  count : Word
  loads : List Word
  prints : List SprintCall

def Walk.load (w : Walk) (a : Word) : Walk := { w with loads := w.loads ++ [a] }

structure Env where
  mem : Mem
  current : Word
  sp : Word
  maxDepth : Word

/-- The print of one frame; a frame of the two library functions is skipped and
does not count. -/
def Walk.report (w : Walk) (m : Mem) (sym : Option Word) (ret : Word) : Walk :=
  match sym with
  | some name =>
    if strcmp m name printBacktraceName ≠ 0 ∧ strcmp m name doUserCallName ≠ 0 then
      { w with count := w.count + 1, prints := w.prints ++ [⟨nameFmt, name⟩] }
    else w
  | none => { w with count := w.count + 1, prints := w.prints ++ [⟨addrFmt, ret⟩] }

/-- The test that ends the walk at `main`. -/
def isMain (m : Mem) (sym : Option Word) : Prop :=
  ∃ name, sym = some name ∧ strcmp m name mainName = 0

instance (m : Mem) (sym : Option Word) : Decidable (isMain m sym) :=
  match sym with
  | none => .isFalse (by rintro ⟨_, h, _⟩; cases h)
  | some name => decidable_of_iff (strcmp m name mainName = 0)
      ⟨fun h => ⟨name, rfl, h⟩, by rintro ⟨_, h, h'⟩; cases h; exact h'⟩

/-- `&frame_view[-k]`. -/
def frameView (fp : Word) (k : ℕ) : Word := fp - BitVec.ofNat 64 (8 * k)

/-- The body of the loop: the next state, or the state at a `break`. -/
def body (e : Env) (w : Walk) : Walk ⊕ Walk :=
  if w.fp ≤ e.sp ∨ USER_STACK ≤ w.fp then .inr w
  else if frameView w.fp 1 ≤ e.sp then .inr w
  else
    -- the return address
    let ret := load64 e.mem (frameView w.fp 1)
    let w1 := w.load (frameView w.fp 1)
    if ret = 0 then .inr w1
    else
      let sym := findSymbolName e.mem e.current ret
      if isMain e.mem sym then .inr w1
      else
        let w2 := w1.report e.mem sym ret
        if frameView w.fp 2 ≤ e.sp then .inr w2
        else
          -- the caller's frame pointer
          let old := load64 e.mem (frameView w.fp 2)
          let w3 := w2.load (frameView w.fp 2)
          if old = 0 ∨ old ≤ w.fp ∨ USER_STACK ≤ old then .inr w3
          else .inl { w3 with fp := old }

/-- One iteration, with the condition of the `while`. -/
def step (e : Env) (w : Walk) : Walk ⊕ Walk :=
  if w.fp ≠ 0 ∧ w.count < e.maxDepth then body e w else .inr w

def savedSp (m : Mem) (p : Word) : Word := load64 m (load64 m (p + BitVec.ofNat 64 trapframeOff) + 8)
def savedS0 (m : Mem) (p : Word) : Word :=
  load64 m (load64 m (p + BitVec.ofNat 64 trapframeOff) + 56)

def envOf (m : Mem) (current maxDepth : Word) : Env := ⟨m, current, savedSp m current, maxDepth⟩

def Walk.start (fp : Word) : Walk := ⟨fp, 0, [], []⟩

/-- The state at the entry of the loop: the leaf's saved frame pointer has been read. -/
def Walk.enter (fp next : Word) : Walk := ⟨next, 0, [frameView fp 1], []⟩

/-- Frame pointers go up and stay below `USER_STACK`, which bounds the iterations. -/
def frameBound : ℕ := USER_STACK.toNat + 1

/-- `sys_user_backtrace`: the returned value is the final `count`. -/
def sysUserBacktrace (m : Mem) (current maxDepth : Word) : Option Walk :=
  let sp := savedSp m current
  let fp := savedS0 m current
  if maxDepth = 0 then some (.start fp)
  else if fp = 0 ∨ fp ≤ sp ∨ USER_STACK ≤ fp then some (.start fp)
  else if frameView fp 1 ≤ sp then some (.start fp)
  else
    -- `do_user_call` is a leaf and keeps its caller's frame pointer in the first word
    let next := load64 m (frameView fp 1)
    if next = 0 ∨ next ≤ fp ∨ USER_STACK ≤ next then
      some ((Walk.start fp).load (frameView fp 1))
    else Loop.run (step (envOf m current maxDepth)) frameBound (.enter fp next)

theorem step_inl {e : Env} {w w' : Walk} (h : step e w = .inl w') :
    w.count < e.maxDepth ∧ e.sp < w.fp ∧ w.fp < USER_STACK ∧ e.sp < frameView w.fp 1 ∧
      e.sp < frameView w.fp 2 ∧ load64 e.mem (frameView w.fp 1) ≠ 0 ∧
      ¬ isMain e.mem (findSymbolName e.mem e.current (load64 e.mem (frameView w.fp 1))) ∧
      w.fp < load64 e.mem (frameView w.fp 2) ∧ load64 e.mem (frameView w.fp 2) < USER_STACK ∧
      w' = { ((w.load (frameView w.fp 1)).report e.mem
        (findSymbolName e.mem e.current (load64 e.mem (frameView w.fp 1)))
        (load64 e.mem (frameView w.fp 1))).load (frameView w.fp 2) with fp := load64 e.mem (frameView w.fp 2) } := by
  unfold step body at h
  dsimp only at h
  split_ifs at h with h1 h2 h3 h4 h5 h6 h7
  injection h with h
  simp only [not_or, BitVec.not_le] at *
  exact ⟨h1.2, h2.1, h2.2, h3, h6, h4, h5, h7.2.1, h7.2.2, h.symm⟩

theorem step_fp_lt {e : Env} {w w' : Walk} (h : step e w = .inl w') :
    w.fp.toNat < w'.fp.toNat ∧ w'.fp.toNat < USER_STACK.toNat := by
  obtain ⟨-, -, -, -, -, -, -, hlt, hlt', rfl⟩ := step_inl h
  exact ⟨hlt, hlt'⟩

theorem walk_total (e : Env) (w : Walk) :
    ∃ w', Loop.run (step e) frameBound w = some w' := by
  apply Loop.run_total fun w => USER_STACK.toNat - w.fp.toNat
  · intro w w' h
    have := step_fp_lt h
    omega
  · unfold frameBound
    omega

theorem sysUserBacktrace_total (m : Mem) (current maxDepth : Word) :
    ∃ w, sysUserBacktrace m current maxDepth = some w := by
  unfold sysUserBacktrace
  dsimp only
  split_ifs
  · exact ⟨_, rfl⟩
  · exact ⟨_, rfl⟩
  · exact ⟨_, rfl⟩
  · exact ⟨_, rfl⟩
  · exact walk_total _ _

/-- All eight bytes from `a` on lie strictly between the stack pointer and the top. -/
def InStack (sp a : Word) : Prop :=
  ∀ i < 8, sp.toNat < (a + BitVec.ofNat 64 i).toNat ∧
    (a + BitVec.ofNat 64 i).toNat < USER_STACK.toNat

theorem inStack_of_le {sp fp : Word} {k : ℕ} (hk : 1 ≤ k) (hfp : 8 * k ≤ fp.toNat)
    (htop : fp < USER_STACK) (hsp : sp < frameView fp k) : InStack sp (frameView fp k) := by
  intro i hi
  simp only [USER_STACK, frameView] at *
  constructor <;> bv_omega

/-- A frame pointer below its displacement wraps to the top of the address space. -/
theorem not_inStack_of_lt {sp fp : Word} {k : ℕ} (hk : k ≤ 2) (hfp : fp.toNat < 8 * k) :
    ¬ InStack sp (frameView fp k) := by
  intro h
  have h0 := (h 0 (by omega)).2
  simp only [USER_STACK, frameView] at h0
  bv_omega

@[simp] theorem report_loads (w : Walk) (m : Mem) (sym : Option Word) (ret : Word) :
    (w.report m sym ret).loads = w.loads := by
  unfold Walk.report
  cases sym with
  | none => rfl
  | some name =>
    dsimp only
    split_ifs <;> rfl

def after (r : Walk ⊕ Walk) : Walk := Sum.elim id id r

/-- An iteration loads at most the two words below its frame pointer, each of
them after its own comparison with `sp`. -/
theorem step_loads (e : Env) (w : Walk) :
    ∃ l, (after (step e w)).loads = w.loads ++ l ∧ ∀ a ∈ l, w.fp < USER_STACK ∧ e.sp < a ∧
      (a = frameView w.fp 1 ∨ a = frameView w.fp 2) := by
  have hbelow (h2 : ¬ (w.fp ≤ e.sp ∨ USER_STACK ≤ w.fp)) (h3 : ¬ frameView w.fp 1 ≤ e.sp) :
      w.fp < USER_STACK ∧ e.sp < frameView w.fp 1 :=
    ⟨BitVec.not_le.mp (not_or.mp h2).2, BitVec.not_le.mp h3⟩
  unfold step body
  dsimp only
  split_ifs with h1 h2 h3 h4 h5 h6 h7
  · exact ⟨[], by simp [after]⟩
  · exact ⟨[], by simp [after]⟩
  · exact ⟨[frameView w.fp 1], by simp [after, Walk.load], by simpa using hbelow h2 h3⟩
  · exact ⟨[frameView w.fp 1], by simp [after, Walk.load], by simpa using hbelow h2 h3⟩
  · exact ⟨[frameView w.fp 1], by simp [after, Walk.load], by simpa using hbelow h2 h3⟩
  · refine ⟨[frameView w.fp 1, frameView w.fp 2], by simp [after, Walk.load], ?_⟩
    simpa using ⟨hbelow h2 h3, (hbelow h2 h3).1, BitVec.not_le.mp h6⟩
  · refine ⟨[frameView w.fp 1, frameView w.fp 2], by simp [after, Walk.load], ?_⟩
    simpa using ⟨hbelow h2 h3, (hbelow h2 h3).1, BitVec.not_le.mp h6⟩
  · exact ⟨[], by simp [after]⟩

/-- From a frame pointer that does not wrap, an iteration stays in the stack. -/
theorem step_loads_inStack {e : Env} {w : Walk} (hfp : 16 ≤ w.fp.toNat)
    (hw : ∀ a ∈ w.loads, InStack e.sp a) : ∀ a ∈ (after (step e w)).loads, InStack e.sp a := by
  obtain ⟨l, hl, hnew⟩ := step_loads e w
  rw [hl]
  intro a ha
  rcases List.mem_append.mp ha with ha | ha
  · exact hw a ha
  · obtain ⟨htop, hsp, rfl | rfl⟩ := hnew a ha
    · exact inStack_of_le (by omega) (by omega) htop hsp
    · exact inStack_of_le (by omega) (by omega) htop hsp

theorem walk_loads_inStack {e : Env} {w w' : Walk} {n : ℕ} (hfp : 16 ≤ w.fp.toNat)
    (hw : ∀ a ∈ w.loads, InStack e.sp a) (h : Loop.run (step e) n w = some w') :
    ∀ a ∈ w'.loads, InStack e.sp a := by
  -- frame pointers only go up, so none of the later ones wraps either
  refine Loop.run_invariant (I := fun w => 16 ≤ w.fp.toNat ∧ ∀ a ∈ w.loads, InStack e.sp a)
    (Q := fun w => ∀ a ∈ w.loads, InStack e.sp a) ?_ ?_ ⟨hfp, hw⟩ h
  · rintro v v' ⟨hv, hloads⟩ hstep
    refine ⟨by have := step_fp_lt hstep; omega, ?_⟩
    simpa [hstep, after] using step_loads_inStack hv hloads
  · rintro v v' ⟨hv, hloads⟩ hstep
    simpa [hstep, after] using step_loads_inStack hv hloads

theorem mem_walk_loads {e : Env} {w w' : Walk} {n : ℕ} {a : Word} (ha : a ∈ w.loads)
    (h : Loop.run (step e) n w = some w') : a ∈ w'.loads := by
  have hkeep (v : Walk) (hv : a ∈ v.loads) : a ∈ (after (step e v)).loads := by
    obtain ⟨l, hl, -⟩ := step_loads e v
    rw [hl]
    exact List.mem_append_left l hv
  refine Loop.run_invariant (I := fun w => a ∈ w.loads) (Q := fun w => a ∈ w.loads) ?_ ?_ ha h
  · intro v v' hv hstep
    simpa [hstep, after] using hkeep v hv
  · intro v v' hv hstep
    simpa [hstep, after] using hkeep v hv

/-- A saved state whose walk leaves the stack.  Either the first frame pointer is
too small to have a word below it, or the next one is too small to have two, and
its frame is neither the end of the chain nor that of `main`. -/
def Escapes (m : Mem) (current maxDepth : Word) : Prop :=
  let sp := savedSp m current
  let fp := savedS0 m current
  let next := load64 m (frameView fp 1)
  maxDepth ≠ 0 ∧ sp < fp ∧ fp < USER_STACK ∧
    (fp.toNat < 8 ∨ sp < frameView fp 1 ∧ fp < next ∧ next.toNat < 16 ∧ load64 m (frameView next 1) ≠ 0 ∧
      ¬ isMain m (findSymbolName m current (load64 m (frameView next 1))))

theorem step_saved_fp_mem {e : Env} {w : Walk} (hdepth : w.count < e.maxDepth)
    (hsp : e.sp < w.fp) (htop : w.fp < USER_STACK) (h8 : e.sp < frameView w.fp 1)
    (hret : load64 e.mem (frameView w.fp 1) ≠ 0)
    (hmain : ¬ isMain e.mem (findSymbolName e.mem e.current (load64 e.mem (frameView w.fp 1))))
    (h16 : e.sp < frameView w.fp 2) : frameView w.fp 2 ∈ (after (step e w)).loads := by
  have hfp : w.fp ≠ 0 := by bv_omega
  have hrange : ¬ (w.fp ≤ e.sp ∨ USER_STACK ≤ w.fp) :=
    not_or.mpr ⟨BitVec.not_le.mpr hsp, BitVec.not_le.mpr htop⟩
  unfold step body
  dsimp only
  rw [if_pos ⟨hfp, hdepth⟩, if_neg hrange, if_neg (BitVec.not_le.mpr h8), if_neg hret,
    if_neg hmain, if_neg (BitVec.not_le.mpr h16)]
  split_ifs <;> simp [after, Walk.load]

theorem mem_run_of_step {e : Env} {w w' : Walk} {n : ℕ} {a : Word}
    (ha : a ∈ (after (step e w)).loads) (h : Loop.run (step e) n w = some w') :
    a ∈ w'.loads := by
  cases hstep : step e w with
  | inl v =>
    obtain ⟨k, hk⟩ := Loop.exists_of_inl h hstep
    rw [hstep] at ha
    exact mem_walk_loads ha hk
  | inr v =>
    rw [hstep] at ha
    rw [Loop.eq_of_inr h hstep]
    exact ha

/-- The end of the chain and the frame of `main` are left after the first load. -/
theorem step_stop_loads {e : Env} {w : Walk}
    (h : load64 e.mem (frameView w.fp 1) = 0 ∨
      isMain e.mem (findSymbolName e.mem e.current (load64 e.mem (frameView w.fp 1)))) :
    ∃ w', step e w = .inr w' ∧ ∀ a ∈ w'.loads,
      a ∈ w.loads ∨ a = frameView w.fp 1 ∧ e.sp < frameView w.fp 1 ∧ w.fp < USER_STACK := by
  unfold step body
  dsimp only
  split_ifs with h1 h2 h3 h4 h5
  · exact ⟨w, rfl, fun a ha => .inl ha⟩
  · exact ⟨w, rfl, fun a ha => .inl ha⟩
  · refine ⟨_, rfl, fun a ha => ?_⟩
    have hfacts := And.intro (BitVec.not_le.mp h3) (BitVec.not_le.mp (not_or.mp h2).2)
    simp only [Walk.load, List.mem_append, List.mem_singleton] at ha
    exact ha.imp_right fun h => ⟨h, hfacts⟩
  · refine ⟨_, rfl, fun a ha => ?_⟩
    have hfacts := And.intro (BitVec.not_le.mp h3) (BitVec.not_le.mp (not_or.mp h2).2)
    simp only [Walk.load, List.mem_append, List.mem_singleton] at ha
    exact ha.imp_right fun h => ⟨h, hfacts⟩
  · exact absurd h (not_or.mpr ⟨h4, h5⟩)
  · exact absurd h (not_or.mpr ⟨h4, h5⟩)
  · exact absurd h (not_or.mpr ⟨h4, h5⟩)
  · exact ⟨w, rfl, fun a ha => .inl ha⟩

theorem backtrace_escapes {m : Mem} {current maxDepth : Word} {w : Walk}
    (hesc : Escapes m current maxDepth) (hw : sysUserBacktrace m current maxDepth = some w) :
    ∃ a ∈ w.loads, ¬ InStack (savedSp m current) a := by
  obtain ⟨hdepth, hsp, htop, hcase⟩ := hesc
  have hfp : ¬ (savedS0 m current = 0 ∨ savedS0 m current ≤ savedSp m current ∨
      USER_STACK ≤ savedS0 m current) :=
    not_or.mpr ⟨by bv_omega, not_or.mpr ⟨BitVec.not_le.mpr hsp, BitVec.not_le.mpr htop⟩⟩
  have h8 : ¬ frameView (savedS0 m current) 1 ≤ savedSp m current := by
    rcases hcase with hlt | ⟨h8, -⟩
    · simp only [frameView]
      bv_omega
    · exact BitVec.not_le.mpr h8
  unfold sysUserBacktrace at hw
  dsimp only at hw
  rw [if_neg hdepth, if_neg hfp, if_neg h8] at hw
  by_cases hsmall : (savedS0 m current).toNat < 8
  · refine ⟨frameView (savedS0 m current) 1, ?_, not_inStack_of_lt (by omega) hsmall⟩
    split_ifs at hw
    · injection hw with hw
      simp [← hw, Walk.load]
    · exact mem_walk_loads (by simp [Walk.enter]) hw
  · obtain ⟨h8', hnext, hlt, hret, hmain⟩ := hcase.resolve_left hsmall
    refine ⟨frameView (load64 m (frameView (savedS0 m current) 1)) 2, ?_, not_inStack_of_lt le_rfl hlt⟩
    have hgo : ¬ (load64 m (frameView (savedS0 m current) 1) = 0 ∨
        load64 m (frameView (savedS0 m current) 1) ≤ savedS0 m current ∨
        USER_STACK ≤ load64 m (frameView (savedS0 m current) 1)) := by
      simp only [USER_STACK]
      bv_omega
    rw [if_neg hgo] at hw
    refine mem_run_of_step (step_saved_fp_mem (e := envOf m current maxDepth)
      (w := .enter (savedS0 m current) (load64 m (frameView (savedS0 m current) 1)))
      ?_ ?_ ?_ ?_ hret hmain ?_) hw
    all_goals simp only [Walk.enter, envOf, USER_STACK, frameView] at *
    all_goals bv_omega

/-- The walk makes its loads in the live stack exactly when it does not escape. -/
theorem backtrace_loads_in_stack_iff (m : Mem) (current maxDepth : Word) :
    (∃ w, sysUserBacktrace m current maxDepth = some w ∧
        ∀ a ∈ w.loads, InStack (savedSp m current) a) ↔ ¬ Escapes m current maxDepth := by
  constructor
  · rintro ⟨w, hw, hin⟩ hesc
    obtain ⟨a, ha, hout⟩ := backtrace_escapes hesc hw
    exact hout (hin a ha)
  · intro hno
    obtain ⟨w, hw⟩ := sysUserBacktrace_total m current maxDepth
    refine ⟨w, hw, ?_⟩
    unfold sysUserBacktrace at hw
    dsimp only at hw
    split_ifs at hw with h1 h2 h3 h4
    · injection hw with hw
      simp [← hw, Walk.start]
    · injection hw with hw
      simp [← hw, Walk.start]
    · injection hw with hw
      simp [← hw, Walk.start]
    all_goals
      have hsp := BitVec.not_le.mp (not_or.mp (not_or.mp h2).2).1
      have htop := BitVec.not_le.mp (not_or.mp (not_or.mp h2).2).2
      have h8 := BitVec.not_le.mp h3
      have hbig : 8 ≤ (savedS0 m current).toNat := by
        by_contra hlt
        exact hno ⟨h1, hsp, htop, .inl (by omega)⟩
      have hfirst : InStack (savedSp m current) (frameView (savedS0 m current) 1) :=
        inStack_of_le le_rfl hbig htop h8
    · injection hw with hw
      simpa [← hw, Walk.start, Walk.load] using hfirst
    · have hloads : ∀ a ∈ (Walk.enter (savedS0 m current)
          (load64 m (frameView (savedS0 m current) 1))).loads, InStack (savedSp m current) a := by
        simpa [Walk.enter] using hfirst
      by_cases hnext : 16 ≤ (load64 m (frameView (savedS0 m current) 1)).toNat
      · exact walk_loads_inStack (e := envOf m current maxDepth)
          (w := .enter (savedS0 m current) (load64 m (frameView (savedS0 m current) 1)))
          hnext hloads hw
      · -- the next frame pointer is small, so its frame must end the walk
        have hgt := BitVec.not_le.mp (not_or.mp (not_or.mp h4).2).1
        have hstop : load64 m (frameView (load64 m (frameView (savedS0 m current) 1)) 1) = 0 ∨
            isMain m (findSymbolName m current
              (load64 m (frameView (load64 m (frameView (savedS0 m current) 1)) 1))) := by
          by_contra hgo
          obtain ⟨hret, hmain⟩ := not_or.mp hgo
          exact hno ⟨h1, hsp, htop, .inr ⟨h8, hgt, by omega, hret, hmain⟩⟩
        obtain ⟨w', hstep, hnew⟩ := step_stop_loads (e := envOf m current maxDepth)
          (w := .enter (savedS0 m current) (load64 m (frameView (savedS0 m current) 1))) hstop
        rw [Loop.eq_of_inr hw hstep]
        intro a ha
        rcases hnew a ha with hold | ⟨rfl, hlow, hhigh⟩
        · exact hloads a hold
        · have hlarge : 8 * 1 ≤ (load64 m (frameView (savedS0 m current) 1)).toNat := by
            bv_omega
          exact inStack_of_le le_rfl hlarge hhigh hlow

/-- Memory in which the process at `0x80010000` has its trapframe at
`0x81300000`, with the user's `sp` and `s0` as given. -/
def trappedMem (sp s0 : Word) : Mem :=
  store64 (store64 (store64 (fun _ => 0) 0x80010008 0x81300000) 0x81300008 sp) 0x81300038 s0

/-- With `sp = 0` and `s0 = 4` the first load is at `2 ^ 64 - 4`. -/
theorem backtrace_load_wraps :
    ¬ ∃ w, sysUserBacktrace (trappedMem 0 4) 0x80010000 1 = some w ∧
      ∀ a ∈ w.loads, InStack (savedSp (trappedMem 0 4) 0x80010000) a := by
  rintro ⟨w, hw, hin⟩
  have hesc : Escapes (trappedMem 0 4) 0x80010000 1 :=
    ⟨by decide, by decide, by decide, .inl (by decide)⟩
  obtain ⟨a, ha, hout⟩ := backtrace_escapes hesc hw
  exact hout (hin a ha)

end ProxyKernel.Backtrace
