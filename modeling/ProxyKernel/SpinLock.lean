import ProxyKernel.Base.Transition

/-!
`spike_interface/atomic.h` on one hart.  Interrupts are not turned off by
`disable_irqsave`, so a swap is a read and a later write, and between any two
accesses another activation may begin on top of the one that runs.  The code
under the lock is a parameter.
-/

namespace ProxyKernel.SpinLock
open Transition

/-- Code that runs with the lock held, one access to shared data at a time, and what
the rest of the world does to the data. -/
structure Guarded (κ γ σ ρ ε : Type) where
  first : κ → γ
  next : κ → γ → σ → Option (σ × (γ ⊕ ρ))
  world : ε → σ → Option σ

inductive Pc (γ ρ : Type)
  /-- `while (atomic_read(&lock->lock))` of `spinlock_lock` -/
  | poll
  /-- `res = atomic_read(ptr)` of `atomic_swap` in `spinlock_trylock` -/
  | swapRead
  /-- `atomic_set(ptr, -1)`, and the test of `spinlock_lock` -/
  | swapWrite (res : BitVec 32)
  | inside (c : γ)
  /-- `atomic_set(&lock->lock, 0)` of `spinlock_unlock` -/
  | unlock (r : ρ)

structure Frame (κ γ ρ : Type) where
  arg : κ
  pc : Pc γ ρ

structure State (κ γ σ ρ : Type) where
  lock : BitVec 32
  shared : σ
  /-- the activation that runs, and those it has interrupted -/
  stack : List (Frame κ γ ρ)
  returned : List (κ × ρ)

inductive Action (κ ε : Type)
  | call (k : κ)
  | run
  | world (e : ε)

variable {κ γ σ ρ ε : Type}

def runStep (G : Guarded κ γ σ ρ ε) (s : State κ γ σ ρ) : Option (State κ γ σ ρ) :=
  match s.stack with
  | [] => none
  | f :: below =>
    match f.pc with
    | .poll =>
      some { s with stack := { f with pc := if s.lock ≠ 0 then .poll else .swapRead } :: below }
    | .swapRead => some { s with stack := { f with pc := .swapWrite s.lock } :: below }
    | .swapWrite res =>
      some { s with
        lock := -1
        stack := { f with pc := if res ≠ 0 then .poll else .inside (G.first f.arg) } :: below }
    | .inside c =>
      (G.next f.arg c s.shared).map fun r =>
        { s with shared := r.1, stack := { f with pc := r.2.elim .inside .unlock } :: below }
    | .unlock r => some { s with lock := 0, stack := below, returned := s.returned ++ [(f.arg, r)] }

def step (G : Guarded κ γ σ ρ ε) : Action κ ε → State κ γ σ ρ → Option (State κ γ σ ρ)
  | .call k, s => some { s with stack := ⟨k, .poll⟩ :: s.stack }
  | .run, s => runStep G s
  | .world e, s => (G.world e s.shared).map fun x => { s with shared := x }

def start (x : σ) : State κ γ σ ρ := ⟨0, x, [], []⟩

def Pc.holding : Pc γ ρ → Option (γ ⊕ ρ)
  | inside c => some (.inl c)
  | unlock r => some (.inr r)
  | _ => none

def Free (fs : List (Frame κ γ ρ)) : Prop := ∀ f ∈ fs, f.pc.holding = none

/-- Over an activation that holds the lock, all others wait for it. -/
def Stacked : List (Frame κ γ ρ) → Prop
  | [] => True
  | f :: below =>
    Stacked below ∧ (f.pc = .poll ∨ Free below ∧ ∀ res, f.pc = .swapWrite res → res = 0)

structure Inv (s : State κ γ σ ρ) : Prop where
  stacked : Stacked s.stack
  lock : s.lock = 0 ↔ Free s.stack

variable {G : Guarded κ γ σ ρ ε} {s s' : State κ γ σ ρ} {f : Frame κ γ ρ} {below : List (Frame κ γ ρ)}

theorem free_cons : Free (f :: below) ↔ f.pc.holding = none ∧ Free below := List.forall_mem_cons

theorem inv_start (x : σ) : Inv (start x : State κ γ σ ρ) :=
  ⟨trivial, by simp [start, Free]⟩

/-- Everything that the activation `f` on top of `below` can do. -/
inductive Ran (G : Guarded κ γ σ ρ ε) (s : State κ γ σ ρ) (f : Frame κ γ ρ)
    (below : List (Frame κ γ ρ)) : State κ γ σ ρ → Prop
  | wait (hpc : f.pc = .poll) (hlock : s.lock ≠ 0) : Ran G s f below s
  | polled (hfree : Free s.stack) : Ran G s f below { s with stack := { f with pc := .swapRead } :: below }
  | read (hfree : Free s.stack) :
      Ran G s f below { s with stack := { f with pc := .swapWrite s.lock } :: below }
  | acquire (hfree : Free s.stack) :
      Ran G s f below
        { s with lock := -1, stack := { f with pc := .inside (G.first f.arg) } :: below }
  | work (c : γ) (x : σ) (o : γ ⊕ ρ) (hpc : f.pc = .inside c) (hfree : Free below)
      (hnext : G.next f.arg c s.shared = some (x, o)) :
      Ran G s f below
        { s with shared := x, stack := { f with pc := o.elim .inside .unlock } :: below }
  | release (r : ρ) (hpc : f.pc = .unlock r) (hfree : Free below) :
      Ran G s f below { s with lock := 0, stack := below, returned := s.returned ++ [(f.arg, r)] }

theorem runStep_ran (h : Inv s) (hstep : runStep G s = some s') :
    ∃ f below, s.stack = f :: below ∧ Ran G s f below s' := by
  obtain ⟨hstacked, hlock⟩ := h
  unfold runStep at hstep
  cases hstack : s.stack with
  | nil =>
    rw [hstack] at hstep
    cases hstep
  | cons f below =>
    refine ⟨f, below, rfl, ?_⟩
    rw [hstack] at hstep hstacked hlock
    have hall (hp : f.pc.holding = none) (hb : Free below) : Free s.stack :=
      hstack ▸ free_cons.mpr ⟨hp, hb⟩
    cases hpc : f.pc with
    | poll =>
      simp only [hpc, Option.some.injEq] at hstep
      by_cases hl : s.lock = 0
      · rw [if_neg (not_not.mpr hl)] at hstep
        exact hstep ▸ .polled (hstack ▸ hlock.mp hl)
      · rw [if_pos hl, ← hpc, ← hstack] at hstep
        exact hstep ▸ .wait hpc hl
    | swapRead =>
      have hfree : Free below := (hstacked.2.resolve_left (by simp [hpc])).1
      simp only [hpc, Option.some.injEq] at hstep
      exact hstep ▸ .read (hall (by rw [hpc]; rfl) hfree)
    | swapWrite res =>
      obtain ⟨hfree, hres⟩ := hstacked.2.resolve_left (by simp [hpc])
      obtain rfl := hres res hpc
      simp only [hpc, Option.some.injEq] at hstep
      exact hstep ▸ .acquire (hall (by rw [hpc]; rfl) hfree)
    | inside c =>
      have hfree : Free below := (hstacked.2.resolve_left (by simp [hpc])).1
      simp only [hpc, Option.map_eq_some_iff] at hstep
      obtain ⟨⟨x, o⟩, hnext, rfl⟩ := hstep
      exact .work c x o hpc hfree hnext
    | unlock r =>
      have hfree : Free below := (hstacked.2.resolve_left (by simp [hpc])).1
      simp only [hpc, Option.some.injEq] at hstep
      exact hstep ▸ .release r hpc hfree

theorem Stacked.cons_free (h : Stacked below) (hfree : Free below)
    (hres : ∀ res, f.pc = .swapWrite res → res = 0) : Stacked (f :: below) :=
  ⟨h, .inr ⟨hfree, hres⟩⟩

theorem Ran.inv (h : Inv s) (hstack : s.stack = f :: below) (hran : Ran G s f below s') : Inv s' := by
  obtain ⟨hstacked, hlock⟩ := h
  have hbelow : Stacked below := by
    rw [hstack] at hstacked
    exact hstacked.1
  cases hran with
  | wait => exact ⟨hstacked, hlock⟩
  | polled hfree =>
    have hb : Free below := (free_cons.mp (hstack ▸ hfree)).2
    exact ⟨hbelow.cons_free hb (by simp), iff_of_true (hlock.mpr hfree) (free_cons.mpr ⟨rfl, hb⟩)⟩
  | read hfree =>
    have hb : Free below := (free_cons.mp (hstack ▸ hfree)).2
    exact ⟨hbelow.cons_free hb (by simp [hlock.mpr hfree]), iff_of_true (hlock.mpr hfree) (free_cons.mpr ⟨rfl, hb⟩)⟩
  | acquire hfree =>
    have hb : Free below := (free_cons.mp (hstack ▸ hfree)).2
    refine ⟨hbelow.cons_free hb (by simp), iff_of_false (by simp) fun hf => ?_⟩
    cases (free_cons.mp hf).1
  | work c x o hpc hb hnext =>
    have hheld : ¬ Free s.stack := fun hf => by
      rw [hstack, free_cons, hpc] at hf
      cases hf.1
    refine ⟨hbelow.cons_free hb (by cases o <;> simp), ?_⟩
    refine iff_of_false (fun hl => hheld (hlock.mp hl)) fun hf => ?_
    cases o with
    | inl => cases (free_cons.mp hf).1
    | inr => cases (free_cons.mp hf).1
  | release r hpc hb => exact ⟨hbelow, iff_of_true rfl hb⟩

theorem step_inv (a : Action κ ε) (s s' : State κ γ σ ρ) (h : Inv s) (hstep : step G a s = some s') :
    Inv s' := by
  cases a with
  | call k =>
    obtain rfl := Option.some.inj hstep
    refine ⟨⟨h.stacked, .inl rfl⟩, h.lock.trans ?_⟩
    rw [free_cons]
    exact (and_iff_right rfl).symm
  | run =>
    obtain ⟨f, below, hstack, hran⟩ := runStep_ran h hstep
    exact hran.inv h hstack
  | world e =>
    obtain ⟨x, -, rfl⟩ := Option.map_eq_some_iff.mp hstep
    exact ⟨h.stacked, h.lock⟩

theorem run_inv {as : List (Action κ ε)} (h : Inv s) (hrun : run (step G) as s = some s') : Inv s' :=
  run_invariant (C := fun _ _ => True) (fun a s s' hi _ hs => step_inv a s s' hi hs) h
    (along_true as s) hrun

theorem Ran.of_held (hstack : s.stack = f :: below) (hheld : ¬ Free below)
    (hran : Ran G s f below s') : s' = s := by
  have hall : ¬ Free s.stack := fun hf => hheld (free_cons.mp (hstack ▸ hf)).2
  cases hran with
  | wait => rfl
  | polled hfree => exact absurd hfree hall
  | read hfree => exact absurd hfree hall
  | acquire hfree => exact absurd hfree hall
  | work _ _ _ _ hfree => exact absurd hfree hheld
  | release _ _ hfree => exact absurd hfree hheld

def Over (below : List (Frame κ γ ρ)) (s : State κ γ σ ρ) : Prop :=
  ∃ f above, s.stack = f :: above ++ below

theorem free_of_append {above : List (Frame κ γ ρ)} (h : Free (above ++ below)) : Free below :=
  fun f hf => h f (List.mem_append_right above hf)

/-- If the lock is held below, nothing above ever returns. -/
theorem run_over {as : List (Action κ ε)} (h : Inv s) (hover : Over below s) (hheld : ¬ Free below)
    (hrun : run (step G) as s = some s') : Over below s' ∧ s'.returned = s.returned := by
  have hinv : Inv s' ∧ Over below s' ∧ s'.returned = s.returned := by
    refine run_invariant (C := fun _ _ => True)
      (I := fun t => Inv t ∧ Over below t ∧ t.returned = s.returned) ?_ ⟨h, hover, rfl⟩
      (along_true as s) hrun
    rintro a t t' ⟨hi, ⟨f, above, hstack⟩, hret⟩ - hstep
    refine ⟨step_inv a t t' hi hstep, ?_⟩
    cases a with
    | call k =>
      obtain rfl := Option.some.inj hstep
      exact ⟨⟨⟨k, .poll⟩, f :: above, congrArg _ hstack⟩, hret⟩
    | run =>
      obtain ⟨f', below', hstack', hran⟩ := runStep_ran hi hstep
      obtain ⟨rfl, rfl⟩ : f' = f ∧ below' = above ++ below := by
        rw [hstack'] at hstack
        exact List.cons.inj hstack
      rw [hran.of_held hstack' fun hf => hheld (free_of_append hf)]
      exact ⟨⟨f', above, hstack'⟩, hret⟩
    | world e =>
      obtain ⟨x, -, rfl⟩ := Option.map_eq_some_iff.mp hstep
      exact ⟨⟨f, above, hstack⟩, hret⟩
  exact hinv.2

theorem run_acquire (h : Inv s) (hfree : Free s.stack) (k : κ) :
    run (step G) [.call k, .run, .run, .run] s =
      some { s with lock := -1, stack := ⟨k, .inside (G.first k)⟩ :: s.stack } := by
  have hzero : s.lock = 0 := h.lock.mpr hfree
  simp [run, step, runStep, hzero]

/-- The same code without interrupts: one call at a time. -/
structure Serial (κ γ σ ρ : Type) where
  shared : σ
  current : Option (κ × (γ ⊕ ρ))
  returned : List (κ × ρ)

inductive SerialAction (κ ε : Type)
  | acquire (k : κ)
  | work
  | release
  | world (e : ε)

def serialStep (G : Guarded κ γ σ ρ ε) (b : SerialAction κ ε) (v : Serial κ γ σ ρ) :
    Option (Serial κ γ σ ρ) :=
  match b, v.current with
  | .acquire k, none => some { v with current := some (k, .inl (G.first k)) }
  | .work, some (k, .inl c) =>
    (G.next k c v.shared).map fun r => { v with shared := r.1, current := some (k, r.2) }
  | .release, some (k, .inr r) => some { v with current := none, returned := v.returned ++ [(k, r)] }
  | .world e, _ => (G.world e v.shared).map fun x => { v with shared := x }
  | _, _ => none

def holder (fs : List (Frame κ γ ρ)) : Option (κ × (γ ⊕ ρ)) :=
  fs.findSome? fun f => f.pc.holding.map (f.arg, ·)

def serial (s : State κ γ σ ρ) : Serial κ γ σ ρ := ⟨s.shared, holder s.stack, s.returned⟩

theorem holder_of_free {fs : List (Frame κ γ ρ)} (h : Free fs) : holder fs = none := by
  rw [holder, List.findSome?_eq_none_iff]
  intro f hf
  rw [h f hf]
  rfl

theorem holder_cons_none (h : f.pc.holding = none) : holder (f :: below) = holder below := by
  simp [holder, h]

theorem holder_cons_some {o : γ ⊕ ρ} (h : f.pc.holding = some o) :
    holder (f :: below) = some (f.arg, o) := by
  simp [holder, h]

theorem exists_of_holder {fs : List (Frame κ γ ρ)} {k : κ} {o : γ ⊕ ρ} (h : holder fs = some (k, o)) :
    ∃ f ∈ fs, f.arg = k ∧ f.pc.holding = some o := by
  obtain ⟨f, hf, hfo⟩ := List.exists_of_findSome?_eq_some h
  obtain ⟨o', ho', heq⟩ := Option.map_eq_some_iff.mp hfo
  obtain ⟨rfl, rfl⟩ := Prod.mk.inj heq
  exact ⟨f, hf, rfl, ho'⟩

/-- A step under the lock is a step of the serial machine, and other steps are none. -/
theorem Ran.serial (hstack : s.stack = f :: below) (hran : Ran G s f below s') :
    serial s' = serial s ∨ ∃ b, serialStep G b (serial s) = some (serial s') := by
  have hnone (pc : Pc γ ρ) (hpc : pc.holding = none) (hfree : Free s.stack) :
      holder ({ f with pc := pc } :: below) = holder s.stack := by
    rw [holder_of_free hfree, holder_cons_none hpc]
    exact holder_of_free (free_cons.mp (hstack ▸ hfree)).2
  cases hran with
  | wait => exact .inl rfl
  | polled hfree => exact .inl (congrArg (Serial.mk s.shared · s.returned) (hnone _ rfl hfree))
  | read hfree => exact .inl (congrArg (Serial.mk s.shared · s.returned) (hnone _ rfl hfree))
  | acquire hfree =>
    refine .inr ⟨.acquire f.arg, ?_⟩
    simp only [serialStep, SpinLock.serial, holder_of_free hfree]
    rfl
  | work c x o hpc hb hnext =>
    refine .inr ⟨.work, ?_⟩
    have hheld : f.pc.holding = some (.inl c) := by rw [hpc]; rfl
    have hafter : (o.elim Pc.inside Pc.unlock).holding = some o := by cases o <;> rfl
    simp only [serialStep, SpinLock.serial, hstack, holder_cons_some hheld, hnext, Option.map_some]
    rw [holder_cons_some hafter]
  | release r hpc hb =>
    refine .inr ⟨.release, ?_⟩
    have hheld : f.pc.holding = some (.inr r) := by rw [hpc]; rfl
    simp only [serialStep, SpinLock.serial, hstack, holder_cons_some hheld, holder_of_free hb]

/-- Calls that interrupt each other run as if they came one after the other: what
the serial machine preserves holds in every run. -/
theorem serial_invariant {J : Serial κ γ σ ρ → Prop} {x : σ} {as : List (Action κ ε)}
    {t : State κ γ σ ρ} (hstart : J ⟨x, none, []⟩)
    (hstep : ∀ b v v', J v → serialStep G b v = some v' → J v')
    (hrun : run (step G) as (start x) = some t) : J (serial t) := by
  have hinv : Inv t ∧ J (serial t) := by
    refine run_invariant (C := fun _ _ => True)
      (I := fun t => Inv t ∧ J (serial t)) ?_ ⟨inv_start x, hstart⟩ (along_true as _) hrun
    rintro a s s' ⟨hi, hJ⟩ - hs
    refine ⟨step_inv a s s' hi hs, ?_⟩
    cases a with
    | call k =>
      obtain rfl := Option.some.inj hs
      exact hJ
    | run =>
      obtain ⟨f, below, hstack, hran⟩ := runStep_ran hi hs
      rcases hran.serial hstack with heq | ⟨b, hb⟩
      · rwa [heq]
      · exact hstep b _ _ hJ hb
    | world e =>
      obtain ⟨y, hy, rfl⟩ := Option.map_eq_some_iff.mp hs
      refine hstep (.world e) _ _ hJ ?_
      simp only [serialStep, serial, hy, Option.map_some]
  exact hinv.2

end ProxyKernel.SpinLock
