import ProxyKernel.HtifMailbox
import ProxyKernel.UserPrint

namespace ProxyKernel.Htif
open ByteMem Print Syscall Transition

inductive Request
  | syscall (arg : Word)
  | write (ch : Byte)
  | read
  deriving DecidableEq

def requestOf (w : Word) : List Request :=
  if IsSys w then [.syscall (fromhostData w)]
  else if IsWrite w then [.write ((fromhostData w).setWidth 8)]
  else if IsRead w then [.read]
  else []

/-- What a call is certain to ask for.  `htif_console_getchar` asks for a character only
when it takes one out of the buffer. -/
def Op.request : Op → List Request
  | syscall arg => [.syscall arg.val]
  | putchar ch => [.write ch]
  | getchar => []

def Send.request : Send → List Request
  | syscall arg => [.syscall arg.val]
  | putchar ch => [.write ch]
  | getchar _ => [.read]

@[simp] theorem requestOf_zero : requestOf 0#64 = [] := by decide

theorem requestOf_syscall (arg : Arg) : requestOf (tohostCmd 0 0 arg.val) = [.syscall arg.val] := by
  have hdata : fromhostData (tohostCmd 0 0 arg.val) = arg.val := by
    have hword : tohostCmd 0 0 arg.val = arg.val := by simp [tohostCmd]
    have hlt := arg.property.2
    rw [hword, fromhostData]
    bv_omega
  rw [requestOf, if_pos (isSys_syscall arg), hdata]

theorem requestOf_putchar (ch : Byte) : requestOf (tohostCmd 1 1 (ch.setWidth 64)) = [.write ch] := by
  have hdata : (fromhostData (tohostCmd 1 1 (ch.setWidth 64))).setWidth 8 = ch := by
    revert ch
    decide +kernel
  rw [requestOf, if_neg (isWrite_putchar ch).not_isSys, if_pos (isWrite_putchar ch), hdata]

theorem requestOf_send (o : Send) : requestOf o.word = o.request := by
  cases o with
  | syscall arg => exact requestOf_syscall arg
  | putchar ch => exact requestOf_putchar ch
  | getchar ch =>
    show requestOf (tohostCmd 1 0 0) = [.read]
    decide

/-- `htif_console_getchar` is at its look into the buffer. -/
def Pc.looks : Pc → Bool
  | readBuf => true
  | _ => false

def asked : Action → State → List Request
  | .call op, _ => op.request
  | .kernel, s => if s.pc.looks ∧ 0 ≤ s.consoleBuf then [.read] else []
  | _, _ => []

def served : Action → State → List Request
  | .take, s => requestOf s.tohost
  | _, _ => []

def Action.op : Action → Option Op
  | .call op => some op
  | _ => none

def calls (as : List Action) : List Op := as.filterMap Action.op

/-- On the way: in the mailbox, or in a call that has not written it yet. -/
def underway (s : State) : List Request :=
  requestOf s.tohost ++ (s.pc.sending.map Send.request).getD []

variable {s s' : State}

theorem underway_congr (hto : s'.tohost = s.tohost) (hsend : s'.pc.sending = s.pc.sending) :
    underway s' = underway s := by
  rw [underway, underway, hto, hsend]

theorem underway_call (h : s.pc = .idle) (op : Op) :
    underway (callStep op s) = underway s ++ op.request := by
  have hidle : underway s = requestOf s.tohost := by simp [underway, h, Pc.sending]
  rw [hidle]
  cases op <;> simp [underway, callStep, Pc.sending, Send.request, Op.request]

theorem dispatch_tohost (fh : Word) (k : Resume) (s : State) : (dispatch fh k s).tohost = s.tohost := by
  unfold dispatch
  split_ifs <;> rfl

theorem dispatch_pc (fh : Word) (k : Resume) (s : State) :
    (dispatch fh k s).pc = k.pc ∨ (dispatch fh k s).pc = .failed := by
  unfold dispatch
  split_ifs
  · exact .inr rfl
  · exact .inl rfl
  · exact .inl rfl
  · exact .inr rfl

theorem Inv.not_failed (h : Inv s) : s.pc ≠ .failed := by
  intro hpc
  have hknows := h.knows
  rw [hpc] at hknows
  exact hknows

theorem underway_writeTohost {o : Send} (hto : s.tohost = 0) (hpc : s.pc = .writeTohost o) :
    underway (afterSend o { s with tohost := o.word }) = underway s := by
  have hbefore : underway s = o.request := by simp [underway, hto, hpc, Pc.sending]
  rw [hbefore, ← requestOf_send o]
  cases o <;> simp [underway, afterSend, Pc.sending]

theorem asked_kernel (h : s.pc.looks = false) : asked .kernel s = [] := by
  simp [asked, h]

theorem underway_kernel (h : Inv s) (hstep : kernelStep s = some s') :
    underway s' = underway s ++ asked .kernel s := by
  have hend : s'.pc ≠ .failed := (inv_kernel h hstep).not_failed
  unfold kernelStep at hstep
  split at hstep
  · cases hstep
  · cases hstep
  · next k hpc =>
    obtain rfl := Option.some.inj hstep
    obtain ⟨hk, hk'⟩ := resume_sending k s.fromhost
    rw [asked_kernel (by rw [hpc]; rfl), List.append_nil]
    refine underway_congr rfl ?_
    dsimp only
    rw [hpc]
    split_ifs
    · exact hk
    · exact hk'
  · next fh k hpc =>
    obtain rfl := Option.some.inj hstep
    obtain ⟨hk, hk'⟩ := resume_sending k fh
    rw [asked_kernel (by rw [hpc]; rfl), List.append_nil]
    refine underway_congr (dispatch_tohost _ _ _) ?_
    rw [(dispatch_pc _ _ _).resolve_right hend, hpc, hk, hk']
  · next o hpc =>
    obtain rfl := Option.some.inj hstep
    rw [asked_kernel (by rw [hpc]; rfl), List.append_nil]
    refine underway_congr rfl ?_
    dsimp only
    rw [hpc]
    split_ifs <;> rfl
  · next o hpc =>
    obtain rfl := Option.some.inj hstep
    have hknows := h.knows
    rw [hpc] at hknows
    rw [asked_kernel (by rw [hpc]; rfl), List.append_nil]
    exact underway_writeTohost hknows hpc
  · next id hpc =>
    obtain rfl := Option.some.inj hstep
    rw [asked_kernel (by rw [hpc]; rfl), List.append_nil]
    refine underway_congr rfl ?_
    dsimp only
    rw [hpc]
    split_ifs <;> rfl
  · next id hpc =>
    obtain rfl := Option.some.inj hstep
    rw [asked_kernel (by rw [hpc]; rfl), List.append_nil]
    exact underway_congr rfl (by rw [hpc]; rfl)
  · next hpc =>
    -- with a character in the buffer `htif_console_getchar` asks for the next one
    obtain rfl := Option.some.inj hstep
    have hbefore : underway s = requestOf s.tohost := by simp [underway, hpc, Pc.sending]
    rw [hbefore, asked, hpc]
    by_cases hbuf : 0 ≤ s.consoleBuf
    · simp [underway, hbuf, Pc.looks, Pc.sending, Send.request]
    · simp [underway, hbuf, Pc.sending]

/-- Every step keeps the account of the requests. -/
theorem step_underway (a : Action) (s s' : State) (h : Inv s) (hstep : step a s = some s') :
    Inv s' ∧ underway s ++ asked a s = served a s ++ underway s' := by
  refine ⟨inv_step a s s' h hstep, ?_⟩
  cases a with
  | call op =>
    rw [step] at hstep
    split at hstep
    · next hpc =>
      obtain rfl := Option.some.inj hstep
      exact (underway_call hpc op).symm
    · cases hstep
  | kernel => simp [served, underway_kernel h hstep]
  | take =>
    rw [step, takeStep] at hstep
    split_ifs at hstep
    obtain rfl := Option.some.inj hstep
    simp [asked, served, underway]
  | answer i reply =>
    rw [step, answerStep] at hstep
    split at hstep
    · cases hstep
    · split at hstep
      · obtain rfl := Option.some.inj hstep
        simp [asked, served, underway]
      · cases hstep

theorem Inv.of_run {as : List Action} (h : run step as start = some s) : Inv s :=
  run_invariant (C := fun _ _ => True) (fun a t t' ht _ hstep => inv_step a t t' ht hstep) inv_start
    (along_true as start) h

theorem asked_eq_served {as : List Action} (h : run step as start = some s) :
    trace asked step as start = trace served step as start ++ underway s :=
  run_conserves step_underway inv_start h

theorem requestOf_length (w : Word) : (requestOf w).length ≤ 1 := by
  rw [requestOf]
  split_ifs <;> simp

theorem underway_length (s : State) : (underway s).length ≤ 2 := by
  have htohost := requestOf_length s.tohost
  have hcall : ((s.pc.sending.map Send.request).getD []).length ≤ 1 := by
    cases s.pc.sending with
    | none => exact Nat.zero_le 1
    | some o => cases o <;> simp [Send.request]
  rw [underway, List.length_append]
  omega

/-- Between two calls no system call is on its way. -/
theorem Inv.underway_idle (h : Inv s) (hpc : s.pc = .idle) :
    underway s = [] ∨ underway s = [.read] ∨ ∃ ch, underway s = [.write ch] := by
  have hsys : ¬ IsSys s.tohost := (h.no_sys (by rw [hpc]; rfl)).1
  have hidle : underway s = requestOf s.tohost := by simp [underway, hpc, Pc.sending]
  rw [hidle, requestOf, if_neg hsys]
  split_ifs
  · exact .inr (.inr ⟨_, rfl⟩)
  · exact .inr (.inl rfl)
  · exact .inl rfl

/-- In every run, whatever the order of the steps of kernel and host is, the host
takes the requests in the order of the calls, none twice and none left out.  At most
two are on their way; between two calls at most one, and that is a character or a
console read. -/
theorem host_serves_in_order (as : List Action) (s : State) (h : run step as start = some s) :
    ∃ rest, trace asked step as start = trace served step as start ++ rest ∧ rest.length ≤ 2 ∧
      (s.pc = .idle → rest = [] ∨ rest = [.read] ∨ ∃ ch, rest = [.write ch]) :=
  ⟨underway s, asked_eq_served h, underway_length s, (Inv.of_run h).underway_idle⟩

theorem sampleArg_mem : (0x81000000 : Word) ≠ 0 ∧ (0x81000000 : Word).toNat < 2 ^ 48 := by decide

def sampleArg : Arg := ⟨0x81000000, sampleArg_mem⟩

def orderRun : List Action :=
  [.call (.putchar 0x61), .kernel, .kernel, .call .getchar, .kernel, .kernel, .take, .kernel, .kernel,
    .call (.syscall sampleArg), .kernel, .kernel, .take, .kernel, .kernel, .take, .answer 2 1,
    .kernel, .kernel, .call (.putchar 0x62), .kernel, .kernel]

theorem host_serves_in_order_sample : ∃ s rest, run step orderRun start = some s ∧
    trace asked step orderRun start = [.write 0x61, .read, .syscall 0x81000000, .write 0x62] ∧
    trace served step orderRun start = [.write 0x61, .read, .syscall 0x81000000] ∧
    trace asked step orderRun start = trace served step orderRun start ++ rest := by
  have hsome : (run step orderRun start).isSome := by decide +kernel
  obtain ⟨s, hs⟩ := Option.isSome_iff_exists.mp hsome
  obtain ⟨rest, hrest, -⟩ := host_serves_in_order orderRun s hs
  exact ⟨s, rest, hs, by decide +kernel, by decide +kernel, hrest⟩

/-- The call in progress can return and the mailbox be emptied, with no new call. -/
def Drains (s : State) : Prop :=
  ∃ as t, calls as = [] ∧ run step as s = some t ∧ t.pc = .idle ∧ t.tohost = 0

theorem Drains.of_step {a : Action} (ha : a.op = none) (hstep : step a s = some s') (h : Drains s') :
    Drains s := by
  obtain ⟨as, t, hops, hrun, hidle, hempty⟩ := h
  refine ⟨a :: as, t, ?_, ?_, hidle, hempty⟩
  · rw [calls, List.filterMap_cons_none ha]
    exact hops
  · rw [run, hstep]
    exact hrun

theorem Drains.of_kernel (hstep : kernelStep s = some s') (h : Drains s') : Drains s :=
  .of_step (a := .kernel) rfl hstep h

theorem Drains.of_take (h : Drains { s with
    tohost := 0, pending := s.pending ++ [(s.issued - 1, s.tohost)] }) (hto : s.tohost ≠ 0) : Drains s :=
  .of_step (a := .take) rfl (by rw [step, takeStep, if_neg hto]) h

theorem drains_idle (hpc : s.pc = .idle) : Drains s := by
  by_cases hto : s.tohost = 0
  · exact ⟨[], s, rfl, rfl, hpc, hto⟩
  · exact .of_take ⟨[], _, rfl, rfl, hpc, rfl⟩ hto

theorem drains_accept {id : ℕ} (hpc : s.pc = .accept id) : Drains s :=
  .of_kernel (by rw [kernelStep, hpc]) (drains_idle rfl)

theorem drains_await_sys {id : ℕ} (hpc : s.pc = .await id) (hsys : IsSys s.fromhost) : Drains s := by
  refine .of_kernel (by rw [kernelStep, hpc]) (drains_accept (show _ = Pc.accept id from ?_))
  dsimp only
  rw [if_neg hsys.1, if_pos hsys.2]

theorem drains_await_pending {id : ℕ} (hpc : s.pc = .await id) (hfrom : s.fromhost = 0)
    {q : ℕ × Word} (hq : q ∈ s.pending) (hsys : IsSys q.2) : Drains s := by
  obtain ⟨i, hi⟩ := List.mem_iff_getElem?.mp hq
  have hanswers : Answers q.2 1 :=
    ⟨by decide, by rw [hsys.2.1]; decide, by rw [hsys.2.2]; decide, fun h => absurd h hsys.not_isRead⟩
  apply Drains.of_step (a := .answer i 1) rfl
  · rw [step, answerStep, hi]
    exact if_pos ⟨hfrom, hanswers⟩
  · exact drains_await_sys hpc (show IsSys 1 by decide)

/-- While a call waits, its request is in the mailbox, with the host, or answered. -/
theorem Inv.await_cases (h : Inv s) {id : ℕ} (hpc : s.pc = .await id) :
    IsSys s.tohost ∨ (∃ q ∈ s.pending, IsSys q.2) ∨ IsSys s.fromhost := by
  have htokens := h.sys_tokens
  rw [hpc] at htokens
  by_contra hno
  obtain ⟨hto, hpend, hfrom⟩ : ¬ IsSys s.tohost ∧ (¬ ∃ q ∈ s.pending, IsSys q.2) ∧ ¬ IsSys s.fromhost := by
    simpa only [not_or] using hno
  have hcount : countKind IsSys s.pending = 0 :=
    countKind_eq_zero.mpr fun q hq hsys => hpend ⟨q, hq, hsys⟩
  rw [sysTokens, tick_neg hto, tick_neg hfrom, hcount] at htokens
  simp [Pc.waits, Pc.waiting] at htokens

theorem Inv.drains_await_zero (h : Inv s) {id : ℕ} (hpc : s.pc = .await id) (hfrom : s.fromhost = 0) :
    Drains s := by
  rcases h.await_cases hpc with hto | ⟨q, hq, hsys⟩ | hsys
  · refine .of_take (drains_await_pending hpc hfrom (q := (s.issued - 1, s.tohost)) ?_ hto) hto.1
    exact List.mem_append_right _ (List.mem_singleton_self _)
  · exact drains_await_pending hpc hfrom hq hsys
  · exact absurd hfrom hsys.1

theorem Inv.drains_clear (h : Inv s) {fh : Word} {k : Resume} (hpc : s.pc = .clear fh k)
    (hk : ∀ t : State, Inv t → t.pc = k.pc → t.fromhost = 0 → Drains t) : Drains s := by
  have hstep : kernelStep s = some (dispatch fh k { s with fromhost := 0 }) := by rw [kernelStep, hpc]
  have hinv := inv_kernel h hstep
  refine .of_kernel hstep (hk _ hinv ((dispatch_pc _ _ _).resolve_right hinv.not_failed) ?_)
  unfold dispatch
  split_ifs <;> rfl

/-- Console input that is in the way is read first. -/
theorem Inv.drains_check (h : Inv s) {k : Resume} (hpc : s.pc = .check k)
    (hk : ∀ t : State, Inv t → t.pc = k.pc → t.fromhost = 0 → Drains t) : Drains s := by
  have hstep : kernelStep s =
      some { s with pc := if s.fromhost = 0 then k.pc else .clear s.fromhost k } := by
    rw [kernelStep, hpc]
  have hinv := inv_kernel h hstep
  apply Drains.of_kernel hstep
  by_cases hfrom : s.fromhost = 0
  · exact hk _ hinv (if_pos hfrom) hfrom
  · exact hinv.drains_clear (if_neg hfrom) hk

theorem Inv.drains_await (h : Inv s) {id : ℕ} (hpc : s.pc = .await id) : Drains s := by
  by_cases hfrom : s.fromhost = 0
  · exact h.drains_await_zero hpc hfrom
  · by_cases hsys : fromhostDev s.fromhost = 0 ∧ fromhostCmd s.fromhost = 0
    · exact drains_await_sys hpc ⟨hfrom, hsys⟩
    · have hstep : kernelStep s = some { s with pc := .check (.await id) } := by
        rw [kernelStep, hpc]
        dsimp only
        rw [if_neg hfrom, if_neg hsys]
      exact .of_kernel hstep ((inv_kernel h hstep).drains_check rfl fun t ht => ht.drains_await_zero)

theorem Inv.drains_writeTohost (h : Inv s) {o : Send} (hpc : s.pc = .writeTohost o) : Drains s := by
  have hstep : kernelStep s = some (afterSend o { s with tohost := o.word }) := by rw [kernelStep, hpc]
  apply Drains.of_kernel hstep
  cases o with
  | syscall arg => exact (inv_kernel h hstep).drains_await rfl
  | putchar ch => exact drains_idle rfl
  | getchar ch => exact drains_idle rfl

theorem Inv.drains_setTohost (h : Inv s) {o : Send} (hpc : s.pc = .setTohost o) : Drains s := by
  have hfree (t : State) (ht : Inv t) (hpc : t.pc = .setTohost o) (hto : t.tohost = 0) : Drains t := by
    have hstep : kernelStep t = some { t with pc := .writeTohost o } := by
      rw [kernelStep, hpc]
      dsimp only
      rw [if_neg (not_not.mpr hto)]
    exact .of_kernel hstep ((inv_kernel ht hstep).drains_writeTohost rfl)
  by_cases hto : s.tohost = 0
  · exact hfree s h hpc hto
  · have htake : step .take s = some { s with
        tohost := 0, pending := s.pending ++ [(s.issued - 1, s.tohost)] } := by
      rw [step, takeStep, if_neg hto]
    exact .of_step rfl htake (hfree _ (inv_step _ _ _ h htake) hpc rfl)

theorem Inv.drains_readBuf (h : Inv s) (hpc : s.pc = .readBuf) : Drains s := by
  by_cases hbuf : 0 ≤ s.consoleBuf
  · have hstep : kernelStep s =
        some { s with consoleBuf := -1, pc := .setTohost (.getchar s.consoleBuf) } := by
      rw [kernelStep, hpc]
      dsimp only
      rw [if_pos hbuf]
    exact .of_kernel hstep ((inv_kernel h hstep).drains_setTohost rfl)
  · exact .of_kernel (by rw [kernelStep, hpc]) (drains_idle (by rw [if_neg hbuf]))

theorem Resume.drains (k : Resume) {t : State} (ht : Inv t) (hpc : t.pc = k.pc) : Drains t := by
  cases k with
  | setTohost o => exact ht.drains_setTohost hpc
  | await id => exact ht.drains_await hpc
  | readBuf => exact ht.drains_readBuf hpc

theorem Inv.drains (h : Inv s) : Drains s := by
  cases hpc : s.pc with
  | idle => exact drains_idle hpc
  | failed => exact absurd hpc h.not_failed
  | check k => exact h.drains_check hpc fun t ht hk _ => k.drains ht hk
  | clear fh k => exact h.drains_clear hpc fun t ht hk _ => k.drains ht hk
  | setTohost o => exact h.drains_setTohost hpc
  | writeTohost o => exact h.drains_writeTohost hpc
  | await id => exact h.drains_await hpc
  | accept id => exact drains_accept hpc
  | readBuf => exact h.drains_readBuf hpc

/-- From every state that a run can reach, the call in progress can return and the
mailbox be emptied without a new call; and then the host has served what was asked,
console reads included. -/
theorem mailbox_never_stuck (as : List Action) (s : State) (h : run step as start = some s) :
    ∃ bs t, calls bs = [] ∧ run step (as ++ bs) start = some t ∧ t.pc = .idle ∧ t.tohost = 0 ∧
      trace served step (as ++ bs) start = trace asked step (as ++ bs) start := by
  obtain ⟨bs, t, hops, hrun, hidle, hempty⟩ := (Inv.of_run h).drains
  have hwhole : run step (as ++ bs) start = some t := by
    rw [run_append, h]
    exact hrun
  refine ⟨bs, t, hops, hwhole, hidle, hempty, ?_⟩
  have hunderway : underway t = [] := by simp [underway, hidle, hempty, Pc.sending]
  have haccount := asked_eq_served hwhole
  rw [hunderway, List.append_nil] at haccount
  exact haccount.symm

/-- `htif_console_getchar` has taken a character out of the buffer, with another request
still in its way. -/
def pollRun : List Action := [.call (.putchar 0x61), .kernel, .kernel, .call .getchar, .kernel, .kernel]

theorem mailbox_never_stuck_sample : ∃ bs t, calls bs = [] ∧ run step (pollRun ++ bs) start = some t ∧
    t.pc = .idle ∧ t.tohost = 0 ∧
    trace served step (pollRun ++ bs) start = trace asked step (pollRun ++ bs) start := by
  have hsome : (run step pollRun start).isSome := by decide +kernel
  obtain ⟨s, hs⟩ := Option.isSome_iff_exists.mp hsome
  exact mailbox_never_stuck pollRun s hs

def mcallConsolePutchar (htif : Word) (ch : Byte) : List Op :=
  if htif ≠ 0 then [.putchar ch] else []

/-- `while (*s) mcall_console_putchar(*s++)` -/
def putstring (htif : Word) (m : Mem) (s : Word) : List Op :=
  (strAt m s).flatMap (mcallConsolePutchar htif)

/-- `buf` is a local array at that address, and `out` what it held before. -/
def vprintm (htif : Word) (m : Mem) (buf : Word) (out : ℕ → Byte) (s : List Byte) (vl : VaList) :
    List Op :=
  putstring htif (ByteMem.write m buf (outBytes (vsnprintf out 256 s vl).out)) buf

theorem vprintm_eq {htif : Word} (hhtif : htif ≠ 0) (m : Mem) (buf : Word) (out : ℕ → Byte)
    (s : List Byte) (vl : VaList) :
    vprintm htif m buf out s vl = (cPart ((formattedText s vl).take 255)).map Op.putchar := by
  rw [vprintm, putstring, strAt_out]
  generalize cPart ((formattedText s vl).take 255) = text
  induction text with
  | nil => rfl
  | cons ch text ih =>
    rw [List.flatMap_cons, ih, mcallConsolePutchar, if_pos hhtif]
    rfl

/-- In a call of `htif_console_getchar`, not behind its look into the buffer. -/
def Pc.polls : Pc → Bool
  | readBuf => true
  | check .readBuf => true
  | clear _ .readBuf => true
  | _ => false

theorem kernelStep_polls (hpolls : s.pc.polls = false) (hstep : kernelStep s = some s') :
    s'.pc.polls = false := by
  have hk (k : Resume) (hk : (Pc.check k).polls = false) (fh : Word) :
      k.pc.polls = false ∧ (Pc.clear fh k).polls = false := by
    cases k with
    | readBuf => cases hk
    | _ => exact ⟨rfl, rfl⟩
  unfold kernelStep at hstep
  split at hstep
  · cases hstep
  · cases hstep
  · next k hpc =>
    obtain rfl := Option.some.inj hstep
    rw [hpc] at hpolls
    dsimp only
    split_ifs
    · exact (hk k hpolls 0).1
    · exact (hk k hpolls _).2
  · next fh k hpc =>
    obtain rfl := Option.some.inj hstep
    rw [hpc] at hpolls
    rcases dispatch_pc fh k { s with fromhost := 0 } with h | h
    · rw [h]
      cases k with
      | readBuf => cases hpolls
      | _ => rfl
    · rw [h]
      rfl
  · obtain rfl := Option.some.inj hstep
    dsimp only
    split_ifs <;> rfl
  · next o _ =>
    obtain rfl := Option.some.inj hstep
    cases o <;> rfl
  · obtain rfl := Option.some.inj hstep
    dsimp only
    split_ifs <;> rfl
  · obtain rfl := Option.some.inj hstep
    rfl
  · next hpc =>
    rw [hpc] at hpolls
    cases hpolls

/-- Without console reads the requests are those of the calls. -/
theorem trace_asked {as : List Action} {s t : State} (h : run step as s = some t)
    (hpolls : s.pc.polls = false) (hcalls : .getchar ∉ calls as) :
    trace asked step as s = (calls as).flatMap Op.request := by
  induction as generalizing s with
  | nil => rfl
  | cons a as ih =>
    obtain ⟨u, hu, hrest⟩ := Option.bind_eq_some_iff.mp h
    rw [trace, hu, Option.map_some, Option.getD_some]
    cases a with
    | call op =>
      have hop : op ≠ .getchar := fun heq => hcalls (heq ▸ List.mem_cons_self)
      rw [ih hrest ?_ fun hin => hcalls (List.mem_cons_of_mem op hin)]
      · rfl
      · rw [step] at hu
        split at hu
        · obtain rfl := Option.some.inj hu
          cases op with
          | getchar => exact absurd rfl hop
          | _ => rfl
        · cases hu
    | kernel =>
      have hlooks : s.pc.looks = false := by
        cases hpc : s.pc with
        | readBuf =>
          rw [hpc] at hpolls
          cases hpolls
        | _ => rfl
      rw [ih hrest (kernelStep_polls hpolls hu) hcalls, asked_kernel hlooks]
      rfl
    | take =>
      rw [step, takeStep] at hu
      split_ifs at hu
      obtain rfl := Option.some.inj hu
      exact ih hrest hpolls hcalls
    | answer i reply =>
      rw [step, answerStep] at hu
      split at hu
      · cases hu
      · split at hu
        · obtain rfl := Option.some.inj hu
          exact ih hrest hpolls hcalls
        · cases hu

theorem requests_putchar (text : List Byte) :
    (text.map Op.putchar).flatMap Op.request = text.map Request.write := by
  induction text with
  | nil => rfl
  | cons ch text ih => exact congrArg (Request.write ch :: ·) ih

/-- While `vprintm` runs, the host has a beginning of the text on its console, in
every order of steps; and when the last call has returned and the mailbox is empty,
it has the whole text, up to its first NUL and to 255 characters. -/
theorem vprintm_text_on_console (htif : Word) (hhtif : htif ≠ 0) (m : Mem) (buf : Word)
    (out : ℕ → Byte) (s : List Byte) (vl : VaList) (as : List Action) (t : State)
    (hrun : run step as start = some t) (hcalls : calls as <+: vprintm htif m buf out s vl) :
    trace served step as start <+: (cPart ((formattedText s vl).take 255)).map Request.write ∧
      (calls as = vprintm htif m buf out s vl → t.pc = .idle → t.tohost = 0 →
        trace served step as start = (cPart ((formattedText s vl).take 255)).map Request.write) := by
  rw [vprintm_eq hhtif] at hcalls ⊢
  have hchars : .getchar ∉ calls as := fun hin => by
    obtain ⟨ch, -, hch⟩ := List.mem_map.mp (hcalls.subset hin)
    cases hch
  have haccount := asked_eq_served hrun
  rw [trace_asked hrun rfl hchars] at haccount
  refine ⟨?_, fun hall hidle hempty => ?_⟩
  · obtain ⟨rest, hrest⟩ := hcalls
    have hasked : (calls as).flatMap Op.request <+:
        (cPart ((formattedText s vl).take 255)).map Request.write := by
      rw [← requests_putchar, ← hrest, List.flatMap_append]
      exact List.prefix_append _ _
    rw [haccount] at hasked
    exact (List.prefix_append _ _).trans hasked
  · have hunderway : underway t = [] := by simp [underway, hidle, hempty, Pc.sending]
    rw [hall, requests_putchar, hunderway, List.append_nil] at haccount
    exact haccount.symm

def consoleRun : List Action :=
  [.call (.putchar (chr 'a')), .kernel, .kernel, .take, .call (.putchar (chr '5')), .kernel, .kernel,
    .take]

theorem vprintm_text_on_console_sample : trace served step consoleRun start =
    [.write (chr 'a'), .write (chr '5')] := by
  -- a call can begin at the end, and the mailbox is empty
  have hrun : (run step consoleRun start).any fun t =>
      (step (.call .getchar) t).isSome && t.tohost = 0 := by decide +kernel
  obtain ⟨t, ht, hend⟩ := (Option.any_eq_true _ _).mp hrun
  obtain ⟨hidle, hempty⟩ := Bool.and_eq_true_iff.mp hend
  have htext : cPart ((formattedText (ascii ['a', '%', 'd'])
      fun _ => ⟨5, [], VaArg.empty_nul_free⟩).take 255) = [chr 'a', chr '5'] := by decide +kernel
  have hcalls : calls consoleRun = vprintm 1 (fun _ => 0) 0x80020000 (fun _ => 0) (ascii ['a', '%', 'd'])
      fun _ => ⟨5, [], VaArg.empty_nul_free⟩ := by
    rw [vprintm_eq (by decide), htext]
    rfl
  have hall := (vprintm_text_on_console 1 (by decide) _ _ _ _ _ consoleRun t ht
    (hcalls ▸ List.prefix_rfl)).2 hcalls
  rw [htext] at hall
  cases hpc : t.pc with
  | idle => exact hall hpc (of_decide_eq_true hempty)
  | _ =>
    rw [step, hpc] at hidle
    cases hidle

end ProxyKernel.Htif
