import ProxyKernel.Htif

/-!
Two tokens are conserved.  The system call token exists while the kernel waits
for a reply, and it is in one place: in `tohost`, with the host, or in
`fromhost`.  The console token always exists: it is in the buffer, with a call
that is about to ask for the next character, in `tohost`, with the host, or in
`fromhost`.  So the reply that ends a wait is the one to its own request, and a
character finds the buffer empty.
-/

namespace ProxyKernel.Htif
open ByteMem Transition

theorem isSys_syscall (arg : Arg) : IsSys (tohostCmd 0 0 arg.val) := by
  obtain ⟨a, hne, hlt⟩ := arg
  have hword : tohostCmd 0 0 a = a := by simp [tohostCmd]
  simp only [hword]
  refine ⟨hne, ?_, ?_⟩
  · rw [fromhostDev]
    bv_omega
  · rw [fromhostCmd]
    bv_omega

theorem isRead_getchar : IsRead (tohostCmd 1 0 0) := by decide

theorem isWrite_putchar (ch : Byte) : IsWrite (tohostCmd 1 1 (ch.setWidth 64)) := by
  revert ch
  decide +kernel

theorem IsSys.not_isRead {w : Word} (h : IsSys w) : ¬ IsRead w := by
  rintro ⟨hdev, -⟩
  rw [h.2.1] at hdev
  cases hdev

theorem IsWrite.not_isRead {w : Word} (h : IsWrite w) : ¬ IsRead w := by
  rintro ⟨-, hcmd⟩
  rw [h.2] at hcmd
  cases hcmd

theorem IsWrite.not_isSys {w : Word} (h : IsWrite w) : ¬ IsSys w := by
  rintro ⟨-, hdev, -⟩
  rw [h.1] at hdev
  cases hdev

theorem not_isSys_zero : ¬ IsSys 0 := fun h => h.1 rfl

theorem not_isRead_zero : ¬ IsRead 0 := by decide

def Known (w : Word) : Prop := IsSys w ∨ IsRead w ∨ IsWrite w

theorem known_send (o : Send) : Known o.word := by
  cases o with
  | syscall arg => exact .inl (isSys_syscall arg)
  | putchar ch => exact .inr (.inr (isWrite_putchar ch))
  | getchar ch => exact .inr (.inl isRead_getchar)

theorem Known.ne_zero {w : Word} (h : Known w) : w ≠ 0 := by
  rintro rfl
  rcases h with h | h | h
  · exact h.1 rfl
  · exact not_isRead_zero h
  · exact absurd h (by decide)

theorem Answers.kind {request reply : Word} (h : Answers request reply) (hk : Known request) :
    (IsSys reply ↔ IsSys request) ∧ (IsRead reply ↔ IsRead request) ∧ Known reply := by
  obtain ⟨hne, hdev, hcmd, -⟩ := h
  have hsys : IsSys reply ↔ IsSys request := by
    simp only [IsSys, hdev, hcmd, ne_eq, hne, hk.ne_zero, not_false_eq_true, true_and]
  have hread : IsRead reply ↔ IsRead request := by simp [IsRead, hdev, hcmd]
  have hwrite : IsWrite reply ↔ IsWrite request := by simp [IsWrite, hdev, hcmd]
  exact ⟨hsys, hread, by rwa [Known, hsys, hread, hwrite]⟩

def Pc.waiting : Pc → Option ℕ
  | await id => some id
  | accept id => some id
  | check (.await id) => some id
  | clear _ (.await id) => some id
  | _ => none

def Pc.waits (pc : Pc) : ℕ := if pc.waiting = none then 0 else 1

def Pc.sending : Pc → Option Send
  | setTohost o => some o
  | writeTohost o => some o
  | check (.setTohost o) => some o
  | clear _ (.setTohost o) => some o
  | _ => none

/-- One token if `P`, none otherwise. -/
def tick (P : Prop) [Decidable P] : ℕ := if P then 1 else 0

theorem tick_pos {P : Prop} [Decidable P] (h : P) : tick P = 1 := if_pos h

theorem tick_neg {P : Prop} [Decidable P] (h : ¬ P) : tick P = 0 := if_neg h

theorem tick_congr {P Q : Prop} [Decidable P] [Decidable Q] (h : P ↔ Q) : tick P = tick Q := by
  simp only [tick, h]

def countKind (K : Word → Prop) [DecidablePred K] (pending : List (ℕ × Word)) : ℕ :=
  pending.countP fun q => decide (K q.2)

def sysTokens (s : State) : ℕ :=
  tick (IsSys s.tohost) + countKind IsSys s.pending + tick (IsSys s.fromhost)

/-- A call of `htif_console_getchar` is about to ask for the next character. -/
def Send.asks : Send → ℕ
  | getchar _ => 1
  | _ => 0

def Pc.asks (pc : Pc) : ℕ := (pc.sending.map Send.asks).getD 0

def readTokens (s : State) : ℕ :=
  tick (0 ≤ s.consoleBuf) + s.pc.asks + tick (IsRead s.tohost) + countKind IsRead s.pending +
    tick (IsRead s.fromhost)

/-- The character that a value of `htif_console_buf` stands for. -/
def bufChar (buf : ℤ) : List ℤ := if 1 ≤ buf then [buf - 1] else []

def wordChar (w : Word) : List ℤ :=
  if IsRead w then [(((fromhostData w).setWidth 8).toNat : ℤ)] else []

def Send.char : Send → List ℤ
  | getchar ch => bufChar ch
  | _ => []

def Pc.char (pc : Pc) : List ℤ := (pc.sending.map Send.char).getD []

/-- Characters on their way: in `fromhost`, in the buffer, or with the call that
is about to return them. -/
def held (s : State) : List ℤ := wordChar s.fromhost ++ bufChar s.consoleBuf ++ s.pc.char

def returned (s : State) : List ℤ := s.results.filter fun r => decide (0 ≤ r)

/-- What the kernel knows of the shared words between two accesses to them. -/
def Pc.knows (tohost fromhost : Word) : Pc → Prop
  | clear fh _ => fromhost = fh ∧ fh ≠ 0 ∧ ¬ IsSys fh
  | check (.await _) => fromhost ≠ 0 ∧ ¬ IsSys fromhost
  | writeTohost _ => tohost = 0
  | accept _ => IsSys fromhost
  | failed => False
  | _ => True

structure Inv (s : State) : Prop where
  tohost_known : s.tohost = 0 ∨ Known s.tohost
  pending_known : ∀ q ∈ s.pending, Known q.2
  fromhost_known : s.fromhost = 0 ∨ Known s.fromhost
  sys_tokens : sysTokens s = s.pc.waits
  sys_tohost : IsSys s.tohost → s.pc.waiting = some (s.issued - 1)
  sys_pending : ∀ q ∈ s.pending, IsSys q.2 → s.pc.waiting = some q.1
  sys_fromhost : IsSys s.fromhost → ∃ id ∈ s.answered, s.pc.waiting = some id
  read_tokens : readTokens s = 1
  knows : s.pc.knows s.tohost s.fromhost
  completed : ∀ id ∈ s.completed, id ∈ s.answered
  chars : s.typed.map (fun c => (c.toNat : ℤ)) = returned s ++ held s

theorem inv_start : Inv start where
  tohost_known := .inl rfl
  pending_known := by simp [start]
  fromhost_known := .inl rfl
  sys_tokens := rfl
  sys_tohost h := absurd h not_isSys_zero
  sys_pending := by simp [start]
  sys_fromhost h := absurd h not_isSys_zero
  read_tokens := rfl
  knows := trivial
  completed := by simp [start]
  chars := rfl

variable {s s' : State}

theorem countKind_eq_zero {K : Word → Prop} [DecidablePred K] {pending : List (ℕ × Word)} :
    countKind K pending = 0 ↔ ∀ q ∈ pending, ¬ K q.2 := by
  simp [countKind, List.countP_eq_zero]

theorem Inv.move (h : Inv s) {pc : Pc} (hwait : pc.waiting = s.pc.waiting)
    (hasks : pc.asks = s.pc.asks) (hchar : pc.char = s.pc.char)
    (hknows : pc.knows s.tohost s.fromhost) : Inv { s with pc := pc } where
  tohost_known := h.tohost_known
  pending_known := h.pending_known
  fromhost_known := h.fromhost_known
  sys_tokens := by
    rw [Pc.waits, hwait]
    exact h.sys_tokens
  sys_tohost := by
    rw [hwait]
    exact h.sys_tohost
  sys_pending := by
    rw [hwait]
    exact h.sys_pending
  sys_fromhost := by
    rw [hwait]
    exact h.sys_fromhost
  read_tokens := by
    rw [readTokens, hasks]
    exact h.read_tokens
  knows := hknows
  completed := h.completed
  chars := by
    rw [held, hchar]
    exact h.chars

/-- Outside a wait no word of device 0 is about. -/
theorem Inv.no_sys (h : Inv s) (hwait : s.pc.waiting = none) :
    ¬ IsSys s.tohost ∧ (∀ q ∈ s.pending, ¬ IsSys q.2) ∧ ¬ IsSys s.fromhost := by
  refine ⟨?_, ?_, ?_⟩
  · intro hsys
    have := h.sys_tohost hsys
    rw [hwait] at this
    cases this
  · intro q hq hsys
    have := h.sys_pending q hq hsys
    rw [hwait] at this
    cases this
  · intro hsys
    obtain ⟨id, -, hid⟩ := h.sys_fromhost hsys
    rw [hwait] at hid
    cases hid

theorem inv_call (h : Inv s) (hpc : s.pc = .idle) (op : Op) : Inv (callStep op s) := by
  cases op with
  | syscall arg => exact h.move (by rw [hpc]; rfl) (by rw [hpc]; rfl) (by rw [hpc]; rfl) trivial
  | putchar ch => exact h.move (by rw [hpc]; rfl) (by rw [hpc]; rfl) (by rw [hpc]; rfl) trivial
  | getchar => exact h.move (by rw [hpc]; rfl) (by rw [hpc]; rfl) (by rw [hpc]; rfl) trivial

theorem resume_waiting (k : Resume) (fh : Word) :
    k.pc.waiting = (Pc.check k).waiting ∧ (Pc.clear fh k).waiting = (Pc.check k).waiting := by
  cases k <;> exact ⟨rfl, rfl⟩

theorem resume_sending (k : Resume) (fh : Word) :
    k.pc.sending = (Pc.check k).sending ∧ (Pc.clear fh k).sending = (Pc.check k).sending := by
  cases k <;> exact ⟨rfl, rfl⟩

theorem resume_knows (k : Resume) (tohost fromhost : Word) : k.pc.knows tohost fromhost := by
  cases k <;> trivial

theorem inv_check (h : Inv s) {k : Resume} (hpc : s.pc = .check k) :
    Inv { s with pc := if s.fromhost = 0 then k.pc else .clear s.fromhost k } := by
  obtain ⟨hw, hw'⟩ := resume_waiting k s.fromhost
  obtain ⟨hs, hs'⟩ := resume_sending k s.fromhost
  split_ifs with hzero
  · exact h.move (by rw [hpc, hw]) (by rw [hpc, Pc.asks, hs, Pc.asks])
      (by rw [hpc, Pc.char, hs, Pc.char]) (resume_knows k _ _)
  · refine h.move (by rw [hpc, hw']) (by rw [hpc, Pc.asks, hs', Pc.asks])
      (by rw [hpc, Pc.char, hs', Pc.char]) ⟨rfl, hzero, ?_⟩
    have hknows := h.knows
    rw [hpc] at hknows
    cases k with
    | setTohost o => exact (h.no_sys (by rw [hpc]; rfl)).2.2
    | await id => exact hknows.2
    | readBuf => exact (h.no_sys (by rw [hpc]; rfl)).2.2

theorem inv_setTohost (h : Inv s) {o : Send} (hpc : s.pc = .setTohost o) :
    Inv { s with pc := if s.tohost ≠ 0 then .check (.setTohost o) else .writeTohost o } := by
  split_ifs with hbusy
  · exact h.move (by rw [hpc]; rfl) (by rw [hpc]; rfl) (by rw [hpc]; rfl) trivial
  · exact h.move (by rw [hpc]; rfl) (by rw [hpc]; rfl) (by rw [hpc]; rfl) (not_not.mp hbusy)

theorem inv_await (h : Inv s) {id : ℕ} (hpc : s.pc = .await id) :
    Inv { s with
      pc := if s.fromhost = 0 then .await id
        else if fromhostDev s.fromhost = 0 ∧ fromhostCmd s.fromhost = 0 then .accept id
        else .check (.await id) } := by
  split_ifs with hzero hmine
  · exact h.move (by rw [hpc]) (by rw [hpc]) (by rw [hpc]) trivial
  · exact h.move (by rw [hpc]; rfl) (by rw [hpc]; rfl) (by rw [hpc]; rfl) ⟨hzero, hmine⟩
  · exact h.move (by rw [hpc]; rfl) (by rw [hpc]; rfl) (by rw [hpc]; rfl)
      ⟨hzero, fun hsys => hmine hsys.2⟩

/-- The console token in `fromhost` is nowhere else. -/
theorem Inv.read_fromhost (h : Inv s) (hread : IsRead s.fromhost) :
    ¬ 0 ≤ s.consoleBuf ∧ s.pc.asks = 0 ∧ tick (IsRead s.tohost) = 0 ∧
      countKind IsRead s.pending = 0 := by
  have hcount := h.read_tokens
  rw [readTokens, tick_pos hread] at hcount
  refine ⟨fun hbuf => ?_, by omega, by omega, by omega⟩
  rw [tick_pos hbuf] at hcount
  omega

/-- A console token that the host has is not with the kernel. -/
theorem Inv.read_pending (h : Inv s) {q : ℕ × Word} (hmem : q ∈ s.pending) (hread : IsRead q.2) :
    ¬ 0 ≤ s.consoleBuf ∧ s.pc.asks = 0 := by
  have hpos : countKind IsRead s.pending ≠ 0 := fun hzero => countKind_eq_zero.mp hzero q hmem hread
  have hcount := h.read_tokens
  rw [readTokens] at hcount
  refine ⟨fun hbuf => ?_, by omega⟩
  rw [tick_pos hbuf] at hcount
  omega

theorem bufChar_neg {buf : ℤ} (h : ¬ 0 ≤ buf) : bufChar buf = [] := if_neg (by omega)

theorem bufChar_char (n : ℕ) : bufChar (1 + n) = [(n : ℤ)] := by
  rw [bufChar, if_pos (by omega), add_sub_cancel_left]

theorem wordChar_neg {w : Word} (h : ¬ IsRead w) : wordChar w = [] := if_neg h

theorem char_of_asks {pc : Pc} (h : pc.asks = 0) : pc.char = [] := by
  rw [Pc.asks] at h
  rw [Pc.char]
  cases hs : pc.sending with
  | none => rfl
  | some o =>
    rw [hs] at h
    cases o with
    | syscall arg => rfl
    | putchar ch => rfl
    | getchar ch => cases h

theorem sysTokens_clear (h : ¬ IsSys s.fromhost) :
    sysTokens { s with fromhost := 0 } = sysTokens s := by
  rw [sysTokens, sysTokens, tick_neg h, tick_neg not_isSys_zero]

/-- `__check_fromhost` empties `fromhost` and goes on with its caller; what is left
to show is where the console token and the character have gone. -/
theorem Inv.cleared (h : Inv s) {fh : Word} {k : Resume} {buf : ℤ} (hpc : s.pc = .clear fh k)
    (hsys : ¬ IsSys s.fromhost)
    (hread : readTokens { s with fromhost := 0, pc := k.pc, consoleBuf := buf } = 1)
    (hchars : held { s with fromhost := 0, pc := k.pc, consoleBuf := buf } = held s) :
    Inv { s with fromhost := 0, pc := k.pc, consoleBuf := buf } := by
  have hwait : k.pc.waiting = s.pc.waiting := by
    rw [hpc, (resume_waiting k fh).1, (resume_waiting k fh).2]
  exact
    { tohost_known := h.tohost_known
      pending_known := h.pending_known
      fromhost_known := .inl rfl
      sys_tokens := by
        rw [Pc.waits, hwait]
        exact (sysTokens_clear hsys).trans h.sys_tokens
      sys_tohost := by
        rw [hwait]
        exact h.sys_tohost
      sys_pending := by
        rw [hwait]
        exact h.sys_pending
      sys_fromhost := fun h0 => absurd h0 not_isSys_zero
      read_tokens := hread
      knows := resume_knows k _ _
      completed := h.completed
      chars := by
        rw [hchars]
        exact h.chars }

theorem inv_clear_read (h : Inv s) {fh : Word} {k : Resume} (hpc : s.pc = .clear fh k)
    (hfh : s.fromhost = fh) (hread : IsRead fh) (hsys : ¬ IsSys fh) :
    Inv { s with fromhost := 0, pc := k.pc
                 consoleBuf := 1 + ((fromhostData fh).setWidth 8).toNat } := by
  have hasks : k.pc.asks = s.pc.asks := by
    rw [hpc, Pc.asks, Pc.asks, (resume_sending k fh).1, (resume_sending k fh).2]
  rw [← hfh] at hread hsys
  obtain ⟨hbuf, hnone, htohost, hpending⟩ := h.read_fromhost hread
  have hpos : (0 : ℤ) ≤ 1 + ((fromhostData fh).setWidth 8).toNat := by omega
  apply h.cleared hpc hsys
  · simp only [readTokens, tick_pos hpos, hasks, hnone, htohost, hpending,
      tick_neg not_isRead_zero]
  · -- the character goes from `fromhost` to the buffer, which was empty
    rw [held, held, wordChar_neg not_isRead_zero, wordChar, if_pos hread, bufChar_neg hbuf,
      char_of_asks hnone, char_of_asks (hasks.trans hnone), bufChar_char, hfh]
    rfl

theorem inv_clear_write (h : Inv s) {fh : Word} {k : Resume} (hpc : s.pc = .clear fh k)
    (hfh : s.fromhost = fh) (hread : ¬ IsRead fh) (hsys : ¬ IsSys fh) :
    Inv { s with fromhost := 0, pc := k.pc } := by
  have hsend : k.pc.sending = s.pc.sending := by
    rw [hpc, (resume_sending k fh).1, (resume_sending k fh).2]
  rw [← hfh] at hread hsys
  apply h.cleared hpc hsys
  · have hcount := h.read_tokens
    rw [readTokens, tick_neg hread] at hcount
    rw [readTokens, tick_neg not_isRead_zero, Pc.asks, hsend]
    exact hcount
  · rw [held, held, wordChar_neg hread, wordChar_neg not_isRead_zero, Pc.char, Pc.char, hsend]

theorem inv_clear (h : Inv s) {fh : Word} {k : Resume} (hpc : s.pc = .clear fh k) :
    Inv (dispatch fh k { s with fromhost := 0 }) := by
  have hknows := h.knows
  rw [hpc] at hknows
  obtain ⟨hfh, hne, hsys⟩ := hknows
  have hknown : Known fh := by
    rcases h.fromhost_known with h0 | hk
    · exact absurd (hfh.symm.trans h0) hne
    · exact hfh ▸ hk
  rw [dispatch]
  rcases hknown with hsys' | hread | hwrite
  · exact absurd hsys' hsys
  · rw [if_neg (not_not.mpr hread.1), if_pos hread.2]
    exact inv_clear_read h hpc hfh hread hsys
  · have hcmd : fromhostCmd fh ≠ 0 := by
      rw [hwrite.2]
      decide
    rw [if_neg (not_not.mpr hwrite.1), if_neg hcmd, if_pos hwrite.2]
    exact inv_clear_write h hpc hfh hwrite.not_isRead hsys

theorem inv_accept (h : Inv s) {id : ℕ} (hpc : s.pc = .accept id) :
    Inv { s with fromhost := 0, completed := s.completed ++ [id], pc := .idle } := by
  have hsys : IsSys s.fromhost := by
    have hknows := h.knows
    rwa [hpc] at hknows
  have hcount := h.sys_tokens
  rw [sysTokens, tick_pos hsys, hpc] at hcount
  have hcount : tick (IsSys s.tohost) + countKind IsSys s.pending + 1 = 1 := hcount
  have htohost : ¬ IsSys s.tohost := by
    intro hto
    rw [tick_pos hto] at hcount
    omega
  have hpending : countKind IsSys s.pending = 0 := by omega
  obtain ⟨id', hid', hwait⟩ := h.sys_fromhost hsys
  rw [hpc] at hwait
  obtain rfl : id = id' := Option.some.inj hwait
  exact
    { tohost_known := h.tohost_known
      pending_known := h.pending_known
      fromhost_known := .inl rfl
      sys_tokens := by
        simp only [sysTokens, tick_neg htohost, hpending, tick_neg not_isSys_zero]
        rfl
      sys_tohost := fun hto => absurd hto htohost
      sys_pending := fun q hq hq' => absurd hq' (countKind_eq_zero.mp hpending q hq)
      sys_fromhost := fun h0 => absurd h0 not_isSys_zero
      read_tokens := by
        have hread := h.read_tokens
        rw [readTokens, tick_neg hsys.not_isRead, hpc] at hread
        rw [readTokens, tick_neg not_isRead_zero]
        exact hread
      knows := trivial
      completed := by
        intro i hi
        rcases List.mem_append.mp hi with hi | hi
        · exact h.completed i hi
        · rw [List.mem_singleton.mp hi]
          exact hid'
      chars := by
        have hchars := h.chars
        rw [held, wordChar_neg hsys.not_isRead, hpc] at hchars
        rw [hchars, held, wordChar_neg not_isRead_zero]
        rfl }

/-- What a call returns is filtered out unless it is a character. -/
theorem returned_append (s : State) (r : ℤ) :
    (s.results ++ [r]).filter (fun r => decide (0 ≤ r)) = returned s ++ bufChar (r + 1) := by
  rw [List.filter_append, returned, bufChar]
  by_cases hr : 0 ≤ r
  · rw [if_pos (by omega)]
    simp [hr]
  · rw [if_neg (by omega)]
    simp [hr]

/-- A step of a call that waits for no reply, neither before the step nor after it. -/
theorem Inv.unawaited (h : Inv s) {w : Word} {buf : ℤ} {pc : Pc} {issued : ℕ} {results : List ℤ}
    (hwait : s.pc.waiting = none) (hwait' : pc.waiting = none) (hw : w = 0 ∨ Known w)
    (hsys : ¬ IsSys w) (hknows : pc.knows w s.fromhost)
    (hread : readTokens { s with tohost := w, consoleBuf := buf, pc := pc } = 1)
    (hchars : s.typed.map (fun c => (c.toNat : ℤ)) =
      results.filter (fun r => decide (0 ≤ r)) ++
        (wordChar s.fromhost ++ bufChar buf ++ pc.char)) :
    Inv { s with tohost := w, consoleBuf := buf, pc := pc
                 issued := issued, results := results } := by
  obtain ⟨-, hpending, hfromhost⟩ := h.no_sys hwait
  exact
    { tohost_known := hw
      pending_known := h.pending_known
      fromhost_known := h.fromhost_known
      sys_tokens := by
        simp only [sysTokens, Pc.waits, hwait', tick_neg hsys, countKind_eq_zero.mpr hpending,
          tick_neg hfromhost, if_true]
      sys_tohost := fun hto => absurd hto hsys
      sys_pending := fun q hq hq' => absurd hq' (hpending q hq)
      sys_fromhost := fun hfrom => absurd hfrom hfromhost
      read_tokens := hread
      knows := hknows
      completed := h.completed
      chars := hchars }

theorem inv_readBuf (h : Inv s) (hpc : s.pc = .readBuf) :
    Inv (if 0 ≤ s.consoleBuf then
      { s with consoleBuf := -1, pc := .setTohost (.getchar s.consoleBuf) }
    else { s with results := s.results ++ [s.consoleBuf - 1], pc := .idle }) := by
  have hwait : s.pc.waiting = none := by rw [hpc]; rfl
  have htohost : ¬ IsSys s.tohost := (h.no_sys hwait).1
  have hread := h.read_tokens
  have hchars := h.chars
  rw [held, hpc] at hchars
  split_ifs with hbuf
  · refine h.unawaited hwait rfl h.tohost_known htohost trivial ?_ ?_
    · -- the token goes from the buffer to the call
      rw [readTokens, tick_pos hbuf, hpc] at hread
      have hneg : ¬ (0 : ℤ) ≤ -1 := by decide
      rw [readTokens, tick_neg hneg]
      exact hread
    · show s.typed.map _ = returned s ++
        (wordChar s.fromhost ++ bufChar (-1) ++ bufChar s.consoleBuf)
      rw [hchars, bufChar_neg (by decide : ¬ (0 : ℤ) ≤ -1), List.append_nil]
      exact congrArg _ (List.append_nil _)
  · refine h.unawaited hwait rfl h.tohost_known htohost trivial ?_ ?_
    · rw [readTokens, hpc] at hread
      exact hread
    · rw [hchars, returned_append, sub_add_cancel, bufChar_neg hbuf, List.append_nil (returned s)]
      rfl

theorem inv_writeTohost (h : Inv s) {o : Send} (hpc : s.pc = .writeTohost o) :
    Inv (afterSend o { s with tohost := o.word }) := by
  have hwait : s.pc.waiting = none := by rw [hpc]; rfl
  have hzero : s.tohost = 0 := by
    have hknows := h.knows
    rwa [hpc] at hknows
  have hread := h.read_tokens
  rw [readTokens, hzero, tick_neg not_isRead_zero, hpc] at hread
  have hread : tick (0 ≤ s.consoleBuf) + o.asks + 0 + countKind IsRead s.pending +
    tick (IsRead s.fromhost) = 1 := hread
  have hchars := h.chars
  rw [held, hpc] at hchars
  cases o with
  | syscall arg =>
    have hword : IsSys (Send.syscall arg).word := isSys_syscall arg
    obtain ⟨-, hpending, hfromhost⟩ := h.no_sys hwait
    exact
      { tohost_known := .inr (known_send (.syscall arg))
        pending_known := h.pending_known
        fromhost_known := h.fromhost_known
        sys_tokens := by
          show tick (IsSys (Send.syscall arg).word) + countKind IsSys s.pending +
            tick (IsSys s.fromhost) = 1
          rw [tick_pos hword, countKind_eq_zero.mpr hpending, tick_neg hfromhost]
        sys_tohost := fun _ => rfl
        sys_pending := fun q hq hq' => absurd hq' (hpending q hq)
        sys_fromhost := fun hfrom => absurd hfrom hfromhost
        read_tokens := by
          show _ + _ + tick (IsRead (Send.syscall arg).word) + _ + _ = 1
          rw [tick_neg hword.not_isRead]
          exact hread
        knows := trivial
        completed := h.completed
        chars := hchars }
  | putchar ch =>
    have hword : IsWrite (Send.putchar ch).word := isWrite_putchar ch
    refine h.unawaited hwait rfl (.inr (known_send (.putchar ch))) hword.not_isSys trivial ?_ ?_
    · show _ + _ + tick (IsRead (Send.putchar ch).word) + _ + _ = 1
      rw [tick_neg hword.not_isRead]
      exact hread
    · exact hchars
  | getchar ch =>
    have hword : IsRead (Send.getchar ch).word := isRead_getchar
    -- the call has the token, so no other character is about
    have hread : tick (0 ≤ s.consoleBuf) + 1 + 0 + countKind IsRead s.pending +
      tick (IsRead s.fromhost) = 1 := hread
    have hbuf : ¬ 0 ≤ s.consoleBuf := by
      intro hbuf
      rw [tick_pos hbuf] at hread
      omega
    have hfrom : ¬ IsRead s.fromhost := by
      intro hfrom
      rw [tick_pos hfrom] at hread
      omega
    refine h.unawaited hwait rfl (.inr (known_send (.getchar ch)))
      (fun hsys => hsys.not_isRead hword) trivial ?_ ?_
    · show tick (0 ≤ s.consoleBuf) + 0 + tick (IsRead (Send.getchar ch).word) +
        countKind IsRead s.pending + tick (IsRead s.fromhost) = 1
      rw [tick_pos hword]
      omega
    · rw [hchars, returned_append, sub_add_cancel, bufChar_neg hbuf, wordChar_neg hfrom]
      exact (List.append_nil (returned s ++ bufChar ch)).symm

theorem inv_kernel (h : Inv s) (hstep : kernelStep s = some s') : Inv s' := by
  rw [kernelStep] at hstep
  split at hstep
  · cases hstep
  · cases hstep
  · next k hpc =>
    obtain rfl := Option.some.inj hstep
    exact inv_check h hpc
  · next fh k hpc =>
    obtain rfl := Option.some.inj hstep
    exact inv_clear h hpc
  · next o hpc =>
    obtain rfl := Option.some.inj hstep
    exact inv_setTohost h hpc
  · next o hpc =>
    obtain rfl := Option.some.inj hstep
    exact inv_writeTohost h hpc
  · next id hpc =>
    obtain rfl := Option.some.inj hstep
    exact inv_await h hpc
  · next id hpc =>
    obtain rfl := Option.some.inj hstep
    exact inv_accept h hpc
  · next hpc =>
    obtain rfl := Option.some.inj hstep
    exact inv_readBuf h hpc

theorem countKind_append {K : Word → Prop} [DecidablePred K] (pending : List (ℕ × Word))
    (q : ℕ × Word) : countKind K (pending ++ [q]) = countKind K pending + tick (K q.2) := by
  rw [countKind, List.countP_append, countKind, tick]
  simp

theorem countKind_eraseIdx {K : Word → Prop} [DecidablePred K] {pending : List (ℕ × Word)}
    {i : ℕ} {q : ℕ × Word} (h : pending[i]? = some q) :
    countKind K (pending.eraseIdx i) + tick (K q.2) = countKind K pending := by
  obtain ⟨hi, rfl⟩ := List.getElem?_eq_some_iff.mp h
  have hperm := (List.getElem_cons_eraseIdx_perm hi).countP_eq fun q => decide (K q.2)
  rw [List.countP_cons] at hperm
  rw [countKind, countKind, ← hperm, tick]
  simp

theorem knows_take {pc : Pc} {tohost fromhost : Word} (h : pc.knows tohost fromhost)
    (hne : tohost ≠ 0) : pc.knows 0 fromhost := by
  cases pc with
  | writeTohost o => exact absurd h hne
  | check k => cases k <;> exact h
  | _ => exact h

/-- The host writes `fromhost` only where the kernel knows nothing of it. -/
theorem knows_answer {pc : Pc} {tohost : Word} (h : pc.knows tohost 0) (reply : Word) :
    pc.knows tohost reply := by
  cases pc with
  | clear fh k => exact absurd h.1.symm h.2.1
  | check k =>
    cases k with
    | await id => exact absurd rfl h.1
    | setTohost o => exact h
    | readBuf => exact h
  | accept id => exact absurd h not_isSys_zero
  | _ => exact h

theorem inv_take (h : Inv s) (hstep : takeStep s = some s') : Inv s' := by
  rw [takeStep] at hstep
  split_ifs at hstep with hzero
  obtain rfl := Option.some.inj hstep
  have hknown : Known s.tohost := h.tohost_known.resolve_left hzero
  exact
    { tohost_known := .inl rfl
      pending_known := by
        intro q hq
        rcases List.mem_append.mp hq with hq | hq
        · exact h.pending_known q hq
        · rw [List.mem_singleton.mp hq]
          exact hknown
      fromhost_known := h.fromhost_known
      sys_tokens := by
        have hsys := h.sys_tokens
        rw [sysTokens] at hsys
        rw [sysTokens, tick_neg not_isSys_zero, countKind_append]
        dsimp only
        omega
      sys_tohost := fun h0 => absurd h0 not_isSys_zero
      sys_pending := by
        intro q hq hsys
        rcases List.mem_append.mp hq with hq | hq
        · exact h.sys_pending q hq hsys
        · rw [List.mem_singleton.mp hq] at hsys ⊢
          exact h.sys_tohost hsys
      sys_fromhost := h.sys_fromhost
      read_tokens := by
        have hread := h.read_tokens
        rw [readTokens] at hread
        rw [readTokens, tick_neg not_isRead_zero, countKind_append]
        dsimp only
        omega
      knows := knows_take h.knows hzero
      completed := h.completed
      chars := h.chars }

theorem inv_answer (h : Inv s) {i : ℕ} {reply : Word} (hstep : answerStep i reply s = some s') :
    Inv s' := by
  rw [answerStep] at hstep
  split at hstep
  · cases hstep
  next id request hget =>
  by_cases hcan : s.fromhost = 0 ∧ Answers request reply
  swap
  · rw [if_neg hcan] at hstep
    cases hstep
  rw [if_pos hcan] at hstep
  obtain rfl := Option.some.inj hstep
  obtain ⟨hzero, hanswers⟩ := hcan
  have hmem : (id, request) ∈ s.pending := List.mem_of_getElem? hget
  obtain ⟨hsys, hread, hknown⟩ := hanswers.kind (h.pending_known _ hmem)
  have hsyscount := countKind_eraseIdx (K := IsSys) hget
  have hreadcount := countKind_eraseIdx (K := IsRead) hget
  dsimp only at hsyscount hreadcount
  have hsys0 := h.sys_tokens
  rw [sysTokens, hzero, tick_neg not_isSys_zero] at hsys0
  have hread0 := h.read_tokens
  rw [readTokens, hzero, tick_neg not_isRead_zero] at hread0
  exact
    { tohost_known := h.tohost_known
      pending_known := fun q hq => h.pending_known q (List.mem_of_mem_eraseIdx hq)
      fromhost_known := .inr hknown
      sys_tokens := by
        rw [sysTokens, tick_congr hsys]
        dsimp only
        omega
      sys_tohost := h.sys_tohost
      sys_pending := fun q hq => h.sys_pending q (List.mem_of_mem_eraseIdx hq)
      sys_fromhost := by
        intro hreply
        exact ⟨id, by simp, h.sys_pending _ hmem (hsys.mp hreply)⟩
      read_tokens := by
        rw [readTokens, tick_congr hread]
        dsimp only
        omega
      knows := by
        have hknows := h.knows
        rw [hzero] at hknows
        exact knows_answer hknows reply
      completed := fun id' hid' => List.mem_append_left _ (h.completed id' hid')
      chars := by
        have hchars := h.chars
        rw [held, hzero, wordChar_neg not_isRead_zero] at hchars
        dsimp only
        split_ifs with hask
        · -- the token was with the host, so no other character is about
          obtain ⟨hbuf, hasks⟩ := h.read_pending hmem hask
          rw [bufChar_neg hbuf, char_of_asks hasks] at hchars
          rw [List.map_append, hchars, held]
          dsimp only
          rw [wordChar, if_pos (hread.mpr hask), bufChar_neg hbuf, char_of_asks hasks]
          simp [returned]
        · rw [hchars, held]
          dsimp only
          rw [wordChar_neg fun hr => hask (hread.mp hr)]
          rfl }

theorem inv_step (a : Action) (s s' : State) (h : Inv s) (hstep : step a s = some s') :
    Inv s' := by
  cases a with
  | call op =>
    rw [step] at hstep
    split at hstep
    · next hpc =>
      obtain rfl := Option.some.inj hstep
      exact inv_call h hpc op
    · cases hstep
  | kernel => exact inv_kernel h hstep
  | take => exact inv_take h hstep
  | answer i reply => exact inv_answer h hstep

/-- No assertion has failed, every call of `htif_syscall` that has returned had
its own request answered, and the characters that the host has sent are those
returned so far, once each and in their order, and at most one that is held. -/
structure Matched (s : State) : Prop where
  no_failure : s.pc ≠ .failed
  answered : ∀ id ∈ s.completed, id ∈ s.answered
  chars : s.typed.map (fun c => (c.toNat : ℤ)) = returned s ++ held s
  held_le : (held s).length ≤ 1

theorem bufChar_length (buf : ℤ) : (bufChar buf).length ≤ tick (0 ≤ buf) := by
  rw [bufChar, tick]
  split_ifs <;> simp
  omega

theorem wordChar_length (w : Word) : (wordChar w).length = tick (IsRead w) := by
  rw [wordChar, tick]
  split_ifs <;> rfl

theorem char_length (pc : Pc) : pc.char.length ≤ pc.asks := by
  rw [Pc.char, Pc.asks]
  cases pc.sending with
  | none => exact le_rfl
  | some o =>
    cases o with
    | syscall arg => exact le_rfl
    | putchar ch => exact le_rfl
    | getchar ch =>
      refine (bufChar_length ch).trans ?_
      rw [tick]
      show _ ≤ 1
      split_ifs <;> omega

/-- Along every run, whatever the order of the steps of kernel and host is. -/
theorem htif_mailbox_matched (as : List Action) (s : State) (h : run step as start = some s) :
    Matched s := by
  have hinv : Inv s := run_invariant (C := fun _ _ => True)
    (fun a t t' ht _ hstep => inv_step a t t' ht hstep) inv_start (along_true as start) h
  refine ⟨?_, hinv.completed, hinv.chars, ?_⟩
  · intro hpc
    have hknows := hinv.knows
    rw [hpc] at hknows
    exact hknows
  · have hread := hinv.read_tokens
    rw [readTokens] at hread
    have h1 := wordChar_length s.fromhost
    have h2 := bufChar_length s.consoleBuf
    have h3 := char_length s.pc
    rw [held, List.length_append, List.length_append]
    omega

def smallRun : List Action :=
  [.call .getchar, .kernel, .kernel, .kernel, .kernel, .take,
    .call (.syscall ⟨0x81000000, by decide⟩), .kernel, .kernel, .answer 0 0x0100000000000041,
    .kernel, .kernel, .kernel, .take, .answer 0 1, .kernel, .kernel,
    .call .getchar, .kernel, .kernel, .kernel, .kernel]

theorem htif_mailbox_matched_small :
    ∃ s, run step smallRun start = some s ∧ s.results = [-1, 65] ∧ s.completed = [1] ∧
      Matched s := by
  have hrun : (run step smallRun start).map (fun s => (s.results, s.completed)) =
      some ([-1, 65], [1]) := by decide +kernel
  obtain ⟨s, hs, hlogs⟩ := Option.map_eq_some_iff.mp hrun
  obtain ⟨hresults, hcompleted⟩ := Prod.mk.inj hlogs
  exact ⟨s, hs, hresults, hcompleted, htif_mailbox_matched smallRun s hs⟩

end ProxyKernel.Htif
