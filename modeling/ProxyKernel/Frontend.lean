import ProxyKernel.Base.Memory
import ProxyKernel.SpinLock

/-!
`frontend_syscall` of `spike_interface/spike_utils.c`: the eight words of a request
go through the static array `magic_mem`, under a spin lock.  Every access to the
array and to the lock is a step, and a call may begin at any of them, for a trap
handler or a failed assertion.
-/

namespace ProxyKernel.Frontend
open ByteMem Transition SpinLock

/-- The number of a host call and its arguments `a0`, .., `a6`. -/
abbrev Args := Fin 8 → Word

local instance args_neZero : NeZero 8 := ⟨by decide⟩

inductive Point
  /-- `magic_mem[i] = ..` -/
  | store (i : Fin 8)
  /-- `htif_syscall((uintptr_t)magic_mem)`: the request is posted, and answered -/
  | call
  | await
  /-- `long ret = magic_mem[0]` -/
  | readRet

inductive Mailbox
  | idle
  | posted
  | replied
  deriving DecidableEq

structure Shared where
  magicMem : Args
  mailbox : Mailbox
  /-- the requests that the host has read, with its replies -/
  seen : List (Args × Word)

def next (k : Args) : Point → Shared → Option (Shared × (Point ⊕ Word))
  | .store i, x =>
    some ({ x with magicMem := Function.update x.magicMem i (k i) },
      .inl (if h : i.val + 1 < 8 then .store ⟨i.val + 1, h⟩ else .call))
  | .call, x => some ({ x with mailbox := .posted }, .inl .await)
  | .await, x =>
    if x.mailbox = .replied then some ({ x with mailbox := .idle }, .inl .readRet)
    else some (x, .inl .await)
  | .readRet, x => some (x, .inr (x.magicMem 0))

/-- The host reads a posted request and leaves its reply in the first word. -/
def host (reply : Word) (x : Shared) : Option Shared :=
  match x.mailbox with
  | .posted =>
    some ⟨Function.update x.magicMem 0 reply, .replied, x.seen ++ [(x.magicMem, reply)]⟩
  | _ => none

def frontendSyscall : Guarded Args Point Shared Word Word where
  first := fun _ => .store 0
  next := next
  world := host

def boot (magicMem : Args) : State Args Point Shared Word := start ⟨magicMem, .idle, []⟩

def Progress (x : Shared) (returned : List (Args × Word)) : Option (Args × (Point ⊕ Word)) → Prop
  | none => x.mailbox = .idle ∧ x.seen = returned
  | some (k, .inl (.store i)) => x.mailbox = .idle ∧ x.seen = returned ∧ ∀ j < i, x.magicMem j = k j
  | some (k, .inl .call) => x.mailbox = .idle ∧ x.seen = returned ∧ x.magicMem = k
  | some (k, .inl .await) =>
    (x.mailbox = .posted ∧ x.seen = returned ∧ x.magicMem = k) ∨
      (x.mailbox = .replied ∧ x.seen = returned ++ [(k, x.magicMem 0)])
  | some (k, .inl .readRet) => x.mailbox = .idle ∧ x.seen = returned ++ [(k, x.magicMem 0)]
  | some (k, .inr r) => x.mailbox = .idle ∧ x.seen = returned ++ [(k, r)]

variable {x x' : Shared} {rs : List (Args × Word)}

theorem Progress.store {k : Args} {i : Fin 8} (h : Progress x rs (some (k, .inl (.store i)))) :
    Progress { x with magicMem := Function.update x.magicMem i (k i) } rs
      (some (k, .inl (if h : i.val + 1 < 8 then .store ⟨i.val + 1, h⟩ else .call))) := by
  obtain ⟨hidle, hseen, hdone⟩ := h
  have hword (j : Fin 8) (hj : j ≤ i) : Function.update x.magicMem i (k i) j = k j := by
    rcases eq_or_lt_of_le hj with rfl | hlt
    · exact Function.update_self j (k j) x.magicMem
    · rw [Function.update_of_ne hlt.ne, hdone j hlt]
  split_ifs with hi
  · refine ⟨hidle, hseen, fun j hj => hword j ?_⟩
    exact Nat.lt_succ_iff.mp hj
  · refine ⟨hidle, hseen, funext fun j => hword j ?_⟩
    exact Fin.le_def.mpr (by omega)

theorem Progress.next {k : Args} {c : Point} {o : Point ⊕ Word}
    (h : Progress x rs (some (k, .inl c))) (hnext : Frontend.next k c x = some (x', o)) :
    Progress x' rs (some (k, o)) := by
  cases c with
  | store i =>
    obtain ⟨rfl, rfl⟩ := Prod.mk.inj (Option.some.inj hnext)
    exact h.store
  | call =>
    obtain ⟨rfl, rfl⟩ := Prod.mk.inj (Option.some.inj hnext)
    exact .inl ⟨rfl, h.2⟩
  | await =>
    rw [Frontend.next] at hnext
    split_ifs at hnext with hreplied
    · obtain ⟨rfl, rfl⟩ := Prod.mk.inj (Option.some.inj hnext)
      rcases h with ⟨hposted, -⟩ | ⟨-, hseen⟩
      · cases hposted.symm.trans hreplied
      · exact ⟨rfl, hseen⟩
    · obtain ⟨rfl, rfl⟩ := Prod.mk.inj (Option.some.inj hnext)
      exact h
  | readRet =>
    obtain ⟨rfl, rfl⟩ := Prod.mk.inj (Option.some.inj hnext)
    exact h

theorem Progress.host {o : Option (Args × (Point ⊕ Word))} {reply : Word} (h : Progress x rs o)
    (hhost : Frontend.host reply x = some x') : Progress x' rs o := by
  have hposted : x.mailbox = .posted := by
    unfold Frontend.host at hhost
    split at hhost
    · assumption
    · cases hhost
  have hidle (hi : x.mailbox = .idle) : False := by cases hi.symm.trans hposted
  rw [Frontend.host, hposted] at hhost
  obtain rfl := Option.some.inj hhost
  match o, h with
  | none, h => exact (hidle h.1).elim
  | some (k, .inl (.store i)), h => exact (hidle h.1).elim
  | some (k, .inl .call), h => exact (hidle h.1).elim
  | some (k, .inl .readRet), h => exact (hidle h.1).elim
  | some (k, .inr r), h => exact (hidle h.1).elim
  | some (k, .inl .await), h =>
    rcases h with ⟨-, hseen, hmem⟩ | ⟨hrep, -⟩
    · right
      rw [hseen, hmem]
      exact ⟨rfl, by simp⟩
    · cases hrep.symm.trans hposted

theorem serialStep_progress (b : SerialAction Args Word) (v v' : Serial Args Point Shared Word)
    (h : Progress v.shared v.returned v.current) (hstep : serialStep frontendSyscall b v = some v') :
    Progress v'.shared v'.returned v'.current := by
  unfold serialStep at hstep
  split at hstep
  · rename_i k hcur
    rw [hcur] at h
    obtain rfl := Option.some.inj hstep
    exact ⟨h.1, h.2, fun j hj => absurd hj (Fin.not_lt_zero j)⟩
  · rename_i k c hcur
    rw [hcur] at h
    obtain ⟨⟨y, o⟩, hnext, rfl⟩ := Option.map_eq_some_iff.mp hstep
    exact h.next hnext
  · rename_i k r hcur
    rw [hcur] at h
    obtain rfl := Option.some.inj hstep
    exact h
  · obtain ⟨y, hy, rfl⟩ := Option.map_eq_some_iff.mp hstep
    exact h.host hy
  · cases hstep

abbrev Action := SpinLock.Action Args Word

variable {magicMem : Args} {as : List Action} {s t : State Args Point Shared Word}

theorem run_progress (h : run (step frontendSyscall) as (boot magicMem) = some t) :
    Progress t.shared t.returned (holder t.stack) :=
  serial_invariant (J := fun v => Progress v.shared v.returned v.current) ⟨rfl, rfl⟩
    serialStep_progress h

theorem Progress.seen {o : Option (Args × (Point ⊕ Word))} (h : Progress x rs o) :
    ∃ rest, x.seen = rs ++ rest ∧ (rest = [] ∨ ∃ k p reply, o = some (k, p) ∧ rest = [(k, reply)]) := by
  match o, h with
  | none, h => exact ⟨[], by simp [h.2], .inl rfl⟩
  | some (k, .inl (.store i)), h => exact ⟨[], by simp [h.2.1], .inl rfl⟩
  | some (k, .inl .call), h => exact ⟨[], by simp [h.2.1], .inl rfl⟩
  | some (k, .inl .await), .inl h => exact ⟨[], by simp [h.2.1], .inl rfl⟩
  | some (k, .inl .await), .inr h => exact ⟨_, h.2, .inr ⟨k, _, _, rfl, rfl⟩⟩
  | some (k, .inl .readRet), h => exact ⟨_, h.2, .inr ⟨k, _, _, rfl, rfl⟩⟩
  | some (k, .inr r), h => exact ⟨_, h.2, .inr ⟨k, _, _, rfl, rfl⟩⟩

/-- However calls interrupt each other, the host reads the eight words of one call at a
time, in the order in which the calls return, and each call returns the reply to its
own request.  At most one request is read and not returned, that of a call still open. -/
theorem host_calls_serialized (magicMem : Args) (as : List Action) {t : State Args Point Shared Word}
    (h : run (step frontendSyscall) as (boot magicMem) = some t) :
    ∃ rest, t.shared.seen = t.returned ++ rest ∧
      (rest = [] ∨ ∃ f ∈ t.stack, ∃ reply, rest = [(f.arg, reply)]) := by
  obtain ⟨rest, hseen, hrest⟩ := (run_progress h).seen
  refine ⟨rest, hseen, ?_⟩
  rcases hrest with rfl | ⟨k, p, reply, hholder, rfl⟩
  · exact .inl rfl
  · obtain ⟨f, hf, rfl, -⟩ := exists_of_holder hholder
    exact .inr ⟨f, hf, reply, rfl⟩

def requestSteps (reply : Word) : List Action :=
  List.replicate 9 Action.run ++ Action.world reply :: List.replicate 3 Action.run

def nestedRun : List Action :=
  Action.call 1 :: Action.run :: Action.run :: Action.call 2 ::
    (List.replicate 3 Action.run ++ (requestSteps 20 ++ Action.run :: requestSteps 10))

theorem nested_host_calls_serialized :
    ∃ t rest, run (step frontendSyscall) nestedRun (boot 0) = some t ∧ t.returned.length = 2 ∧
      t.shared.seen = t.returned ++ rest ∧
      (rest = [] ∨ ∃ f ∈ t.stack, ∃ reply, rest = [(f.arg, reply)]) := by
  have hend : (run (step frontendSyscall) nestedRun (boot 0)).any fun t => t.returned.length = 2 := by
    decide +kernel
  obtain ⟨t, hrun, hlen⟩ := (Option.any_eq_true _ _).mp hend
  obtain ⟨rest, hseen, hrest⟩ := host_calls_serialized 0 nestedRun hrun
  exact ⟨t, rest, hrun, of_decide_eq_true hlen, hseen, hrest⟩

/-- The call returns to what it interrupted, in some run from `s`. -/
def CanReturn (k : Args) (s : State Args Point Shared Word) : Prop :=
  ∃ as t ret, run (step frontendSyscall) (.call k :: as) s = some t ∧ t.stack = s.stack ∧
    t.returned = s.returned ++ [(k, ret)]

theorem run_request (k : Args) (m : Args) (seen : List (Args × Word)) (lock : BitVec 32)
    (below : List (Frame Args Point Word)) (returned : List (Args × Word)) :
    ∃ x ret, run (step frontendSyscall) (requestSteps 0)
      ⟨lock, ⟨m, .idle, seen⟩, ⟨k, .inside (.store 0)⟩ :: below, returned⟩ =
        some ⟨0, x, below, returned ++ [(k, ret)]⟩ :=
  ⟨_, _, rfl⟩

theorem canReturn_of_free (k : Args) (h : run (step frontendSyscall) as (boot magicMem) = some s)
    (hfree : Free s.stack) : CanReturn k s := by
  have hinv : Inv s := run_inv (inv_start _) h
  have hidle : s.shared.mailbox = .idle := by
    have hp := run_progress h
    rw [holder_of_free hfree] at hp
    exact hp.1
  obtain ⟨x, ret, hrun⟩ := run_request k s.shared.magicMem s.shared.seen (-1) s.stack s.returned
  rw [← hidle] at hrun
  refine ⟨List.replicate 3 Action.run ++ requestSteps 0,
    ⟨0, x, s.stack, s.returned ++ [(k, ret)]⟩, ret, ?_, rfl, rfl⟩
  rw [← List.cons_append, run_append]
  have hacquire := run_acquire (G := frontendSyscall) hinv hfree k
  exact (congrArg (Option.bind · _) hacquire).trans hrun

/-- A call that begins in a reachable state can return exactly when it has not
interrupted another one between its swap and its unlock.  Otherwise nothing returns any
more, however the run goes on: not the call, nor what it has interrupted, nor what
interrupts it. -/
theorem nested_call_returns_iff (magicMem : Args) (as : List Action)
    {s : State Args Point Shared Word} (k : Args)
    (h : run (step frontendSyscall) as (boot magicMem) = some s) :
    (CanReturn k s ↔ ∀ f ∈ s.stack, f.pc.holding = none) ∧
      ((∃ f ∈ s.stack, f.pc.holding ≠ none) → ∀ as' t,
        run (step frontendSyscall) (.call k :: as') s = some t →
          t.returned = s.returned ∧ s.stack.length < t.stack.length) := by
  have hhang (hheld : ¬ Free s.stack) (as' : List Action) (t : State Args Point Shared Word)
      (hrun : run (step frontendSyscall) (.call k :: as') s = some t) :
      t.returned = s.returned ∧ s.stack.length < t.stack.length := by
    rw [run, step, Option.bind_some] at hrun
    have hinv : Inv { s with stack := ⟨k, .poll⟩ :: s.stack } :=
      step_inv (G := frontendSyscall) (.call k) s _ (run_inv (inv_start _) h) rfl
    obtain ⟨⟨f, above, hover⟩, hret⟩ := run_over hinv ⟨⟨k, .poll⟩, [], rfl⟩ hheld hrun
    refine ⟨hret, ?_⟩
    rw [hover, List.length_append, List.length_cons]
    omega
  refine ⟨⟨?_, canReturn_of_free k h⟩, ?_⟩
  · rintro ⟨as', t, ret, hrun, hstack, -⟩
    by_contra hheld
    have hmore := (hhang hheld as' t hrun).2
    rw [hstack] at hmore
    exact lt_irrefl _ hmore
  · rintro ⟨f, hf, hholds⟩
    exact hhang fun hfree => hholds (hfree f hf)

/-- A failed assertion while the host is at work: its message is never printed. -/
theorem nested_call_in_await_hangs :
    ∃ s, run (step frontendSyscall) (Action.call 1 :: List.replicate 12 Action.run) (boot 0) = some s ∧
      ¬ CanReturn 2 s ∧ ∀ as t, run (step frontendSyscall) (.call 2 :: as) s = some t →
        t.returned = s.returned := by
  have hend : (run (step frontendSyscall) (Action.call 1 :: List.replicate 12 Action.run) (boot 0)).any
      fun s => s.stack.any fun f => f.pc.holding.isSome := by decide +kernel
  obtain ⟨s, hrun, hheld⟩ := (Option.any_eq_true _ _).mp hend
  obtain ⟨f, hf, hsome⟩ := List.any_eq_true.mp hheld
  have hholds : f.pc.holding ≠ none := Option.isSome_iff_ne_none.mp hsome
  obtain ⟨hiff, hhang⟩ := nested_call_returns_iff 0 _ 2 hrun
  refine ⟨s, hrun, fun hret => hholds (hiff.mp hret f hf), fun as t ht => ?_⟩
  exact (hhang ⟨f, hf, hholds⟩ as t ht).1

end ProxyKernel.Frontend
