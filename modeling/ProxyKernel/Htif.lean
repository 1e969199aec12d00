import ProxyKernel.Base.Memory
import ProxyKernel.Base.Transition

/-!
`spike_interface/spike_htif.c` on RV64: the kernel and the host share the words
`tohost` and `fromhost`.  A step of the kernel is one access to a shared word
with the local work behind it, so that a step of the host can come between any
two of them.  The calls come one at a time, and `htif_lock` is free whenever one
starts.  Requests are numbered in the order in which they are written to
`tohost`; the numbers and the logs belong to the statement, not to the code.
-/

namespace ProxyKernel.Htif
open ByteMem

def tohostCmd (dev cmd payload : Word) : Word := dev <<< 56 ||| cmd <<< 48 ||| payload
def fromhostDev (w : Word) : Word := w >>> 56
def fromhostCmd (w : Word) : Word := w <<< 8 >>> 56
def fromhostData (w : Word) : Word := w <<< 16 >>> 16

/-- The argument of `htif_syscall`. -/
abbrev Arg := {a : Word // a ≠ 0 ∧ a.toNat < 2 ^ 48}

inductive Op
  | syscall (arg : Arg)
  | putchar (ch : Byte)
  | getchar

/-- A call of `__set_tohost`; that of `htif_console_getchar` has the old content
of `htif_console_buf` still to return. -/
inductive Send
  | syscall (arg : Arg)
  | putchar (ch : Byte)
  | getchar (ch : ℤ)

def Send.word : Send → Word
  | syscall arg => tohostCmd 0 0 arg.val
  | putchar ch => tohostCmd 1 1 (ch.setWidth 64)
  | getchar _ => tohostCmd 1 0 0

inductive Resume
  | setTohost (o : Send)
  | await (id : ℕ)
  | readBuf

/-- The next access of the kernel. -/
inductive Pc
  | idle
  | failed
  /-- `uint64_t fh = fromhost` of `__check_fromhost` -/
  | check (k : Resume)
  /-- `fromhost = 0` of `__check_fromhost`, and the switch -/
  | clear (fh : Word) (k : Resume)
  /-- `while (tohost)` of `__set_tohost` -/
  | setTohost (o : Send)
  /-- `tohost = TOHOST_CMD(dev, cmd, data)` -/
  | writeTohost (o : Send)
  /-- `uint64_t fh = fromhost` of `do_tohost_fromhost` -/
  | await (id : ℕ)
  /-- `fromhost = 0; break` of `do_tohost_fromhost` -/
  | accept (id : ℕ)
  /-- `int ch = htif_console_buf` of `htif_console_getchar` -/
  | readBuf

def Resume.pc : Resume → Pc
  | setTohost o => .setTohost o
  | await id => .await id
  | readBuf => .readBuf

structure State where
  tohost : Word
  fromhost : Word
  consoleBuf : ℤ
  pc : Pc
  /-- requests written to `tohost` so far -/
  issued : ℕ
  /-- requests that the host has taken and not answered, with their numbers -/
  pending : List (ℕ × Word)
  answered : List ℕ
  /-- requests of the calls of `htif_syscall` that have returned -/
  completed : List ℕ
  /-- characters that the host has put into `fromhost` -/
  typed : List Byte
  /-- what the calls of `htif_console_getchar` have returned -/
  results : List ℤ

def start : State := ⟨0, 0, 0, .idle, 0, [], [], [], [], []⟩

inductive Action
  | call (op : Op)
  | kernel
  | take
  | answer (i : ℕ) (reply : Word)

def callStep (op : Op) (s : State) : State :=
  match op with
  | .syscall arg => { s with pc := .setTohost (.syscall arg) }
  | .putchar ch => { s with pc := .setTohost (.putchar ch) }
  | .getchar => { s with pc := .check .readBuf }

/-- The assertion and the switch of `__check_fromhost`. -/
def dispatch (fh : Word) (k : Resume) (s : State) : State :=
  if fromhostDev fh ≠ 1 then { s with pc := .failed }
  else if fromhostCmd fh = 0 then
    { s with consoleBuf := 1 + ((fromhostData fh).setWidth 8).toNat, pc := k.pc }
  else if fromhostCmd fh = 1 then { s with pc := k.pc }
  else { s with pc := .failed }

def afterSend (o : Send) (s : State) : State :=
  match o with
  | .syscall _ => { s with pc := .await s.issued, issued := s.issued + 1 }
  | .putchar _ => { s with pc := .idle, issued := s.issued + 1 }
  | .getchar ch =>
    { s with pc := .idle, issued := s.issued + 1, results := s.results ++ [ch - 1] }

def kernelStep (s : State) : Option State :=
  match s.pc with
  | .idle => none
  | .failed => none
  | .check k => some { s with pc := if s.fromhost = 0 then k.pc else .clear s.fromhost k }
  | .clear fh k => some (dispatch fh k { s with fromhost := 0 })
  | .setTohost o =>
    some { s with pc := if s.tohost ≠ 0 then .check (.setTohost o) else .writeTohost o }
  | .writeTohost o => some (afterSend o { s with tohost := o.word })
  | .await id =>
    some { s with
      pc := if s.fromhost = 0 then .await id
        else if fromhostDev s.fromhost = 0 ∧ fromhostCmd s.fromhost = 0 then .accept id
        else .check (.await id) }
  | .accept id =>
    some { s with fromhost := 0, completed := s.completed ++ [id], pc := .idle }
  | .readBuf =>
    some (if 0 ≤ s.consoleBuf then
      { s with consoleBuf := -1, pc := .setTohost (.getchar s.consoleBuf) }
    else { s with results := s.results ++ [s.consoleBuf - 1], pc := .idle })

def IsSys (w : Word) : Prop := w ≠ 0 ∧ fromhostDev w = 0 ∧ fromhostCmd w = 0

def IsRead (w : Word) : Prop := fromhostDev w = 1 ∧ fromhostCmd w = 0

def IsWrite (w : Word) : Prop := fromhostDev w = 1 ∧ fromhostCmd w = 1

instance : DecidablePred IsSys := fun w => inferInstanceAs (Decidable (w ≠ 0 ∧ _ ∧ _))
instance : DecidablePred IsRead := fun _ => inferInstanceAs (Decidable (_ ∧ _))
instance : DecidablePred IsWrite := fun _ => inferInstanceAs (Decidable (_ ∧ _))

/-- A reply is a word other than zero with the device and the command of the
request, and a console read is answered with one character. -/
def Answers (request reply : Word) : Prop :=
  reply ≠ 0 ∧ fromhostDev reply = fromhostDev request ∧
    fromhostCmd reply = fromhostCmd request ∧
    (IsRead request → (fromhostData reply).toNat < 256)

instance (request reply : Word) : Decidable (Answers request reply) :=
  inferInstanceAs (Decidable (_ ∧ _ ∧ _ ∧ _))

def takeStep (s : State) : Option State :=
  if s.tohost = 0 then none
  else some { s with tohost := 0, pending := s.pending ++ [(s.issued - 1, s.tohost)] }

def answerStep (i : ℕ) (reply : Word) (s : State) : Option State :=
  match s.pending[i]? with
  | none => none
  | some (id, request) =>
    if s.fromhost = 0 ∧ Answers request reply then
      some { s with
        fromhost := reply
        pending := s.pending.eraseIdx i
        answered := s.answered ++ [id]
        typed := if IsRead request then s.typed ++ [(fromhostData reply).setWidth 8] else s.typed }
    else none

/-- Calls start when the kernel is idle, and the steps of kernel and host come in
any order. -/
def step (a : Action) (s : State) : Option State :=
  match a with
  | .call op => match s.pc with
    | .idle => some (callStep op s)
    | _ => none
  | .kernel => kernelStep s
  | .take => takeStep s
  | .answer i reply => answerStep i reply s

end ProxyKernel.Htif
