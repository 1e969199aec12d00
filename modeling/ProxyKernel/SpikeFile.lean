import ProxyKernel.Base.Effect

/-!
`spike_interface/spike_file.c`: 128 slots with a reference count, and the table
`spike_fds` of descriptors.  The host is present through the result of its
`openat` and through the list of descriptors that it was asked to close.
-/

namespace ProxyKernel.SpikeFile
open Effect

abbrev MAX_FILES : ℕ := 128
abbrev MAX_FDS : ℕ := 128
def INIT_FILE_REF : BitVec 32 := 3
def ENOMEM : BitVec 64 := 12

structure File where
  kfd : BitVec 32
  refcnt : BitVec 32
  deriving DecidableEq

/-- A pointer into `spike_files`. -/
abbrev Slot := Fin MAX_FILES

instance : NeZero MAX_FILES := ⟨by decide⟩

structure FileTable where
  files : Slot → File
  fds : Fin MAX_FDS → Option Slot
  /-- Arguments of the `HTIFSYS_close` calls, in order. -/
  closes : List (BitVec 32)

def staticTable : FileTable := ⟨fun _ => ⟨-1, 0⟩, fun _ => none, []⟩

/-- A failed `kassert`, or an access that C leaves undefined. -/
inductive Fault where
  | kassert
  | outOfBounds
  | nullPointer
  deriving DecidableEq

abbrev FileM := EStateM Fault FileTable

def FileTable.setRefcnt (t : FileTable) (f : Slot) (n : BitVec 32) : FileTable :=
  { t with files := Function.update t.files f { t.files f with refcnt := n } }

def FileTable.setKfd (t : FileTable) (f : Slot) (kfd : BitVec 32) : FileTable :=
  { t with files := Function.update t.files f { t.files f with kfd := kfd } }

def FileTable.setFd (t : FileTable) (i : Fin MAX_FDS) (f : Option Slot) : FileTable :=
  { t with fds := Function.update t.fds i f }

def FileTable.hostClose (t : FileTable) (kfd : BitVec 32) : FileTable :=
  { t with closes := t.closes ++ [kfd] }

/-- `atomic_add(&f->refcnt, inc)`: the value before the addition. -/
def addRefcnt (f : Slot) (inc : BitVec 32) : FileM (BitVec 32) := do
  let t ← get
  set (t.setRefcnt f ((t.files f).refcnt + inc))
  return (t.files f).refcnt

/-- `atomic_cas(&spike_fds[i], cmp, swp)`: the value before the exchange. -/
def casFd (i : Fin MAX_FDS) (cmp swp : Option Slot) : FileM (Option Slot) := do
  let t ← get
  if t.fds i = cmp then set (t.setFd i swp)
  return t.fds i

/-- The index of `spike_fds[kfd]`, when it lies in the array. -/
def fdIndex (kfd : BitVec 32) : Option (Fin MAX_FDS) :=
  if h : kfd.toNat < MAX_FDS then some ⟨kfd.toNat, h⟩ else none

def spikeFileDecref (f : Slot) : FileM Unit := do
  let prev ← addRefcnt f (-1)
  if prev = 2 then
    modify fun t => (t.setRefcnt f 0).hostClose (t.files f).kfd

def spikeFileIncref (f : Slot) : FileM Unit := do
  let prev ← addRefcnt f 1
  if prev = 0 then throw .kassert

def spikeFileClose : Option Slot → FileM ℤ
  | none => return -1
  | some f => do
    let t ← get
    match fdIndex (t.files f).kfd with
    | none => throw .outOfBounds
    | some i =>
      let old ← casFd i (some f) none
      -- this reference is dropped even when the entry was not the file's
      spikeFileDecref f
      if old ≠ some f then return -1
      spikeFileDecref f
      return 0

/-- The loop of `spike_file_get_free` over the slots that are left. -/
def getFreeLoop : List Slot → FileM (Option Slot)
  | [] => return none
  | f :: fs => do
    let t ← get
    if (t.files f).refcnt = 0 then
      set (t.setRefcnt f INIT_FILE_REF)
      return some f
    else getFreeLoop fs

def spikeFileGetFree : FileM (Option Slot) := getFreeLoop (List.finRange MAX_FILES)

/-- The loop of `spike_file_dup` over the descriptors that are left. -/
def dupLoop (f : Slot) : List (Fin MAX_FDS) → FileM ℤ
  | [] => return -1
  | i :: is => do
    let old ← casFd i none (some f)
    if old = none then
      -- the table's own reference
      spikeFileIncref f
      return i.val
    else dupLoop f is

def spikeFileDup (f : Slot) : FileM ℤ := dupLoop f (List.finRange MAX_FDS)

/-- The body of the loop of `spike_file_init`, for descriptor `i`. -/
def initStd (i : ℕ) : FileM Unit := do
  match ← spikeFileGetFree with
  | none => throw .nullPointer
  | some f =>
    modify (·.setKfd f (BitVec.ofNat 32 i))
    let _ ← spikeFileDup f

def spikeFileInit : FileM Unit := (List.range 3).forM initStd

/-- `spike_file_openat`, and `spike_file_open` with it: `ret` is the host's
answer, and an error is returned as the argument of `ERR_PTR`. -/
def spikeFileOpenat (ret : BitVec 64) : FileM (Except (BitVec 64) Slot) := do
  match ← spikeFileGetFree with
  | none => return .error (-ENOMEM)
  | some f =>
    if 0 ≤ ret.toInt then
      modify (·.setKfd f (ret.setWidth 32))
      return .ok f
    else
      spikeFileDecref f
      return .error ret

inductive Call where
  | spikeOpen (ret : BitVec 64)
  | dup (f : Slot)
  | close (f : Option Slot)

def Call.exec : Call → FileM Unit
  | .spikeOpen ret => do let _ ← spikeFileOpenat ret
  | .dup f => do let _ ← spikeFileDup f
  | .close f => do let _ ← spikeFileClose f

def history (calls : List Call) : FileM Unit := do
  spikeFileInit
  calls.forM Call.exec

def Reachable (t : FileTable) : Prop := ∃ calls, history calls staticTable = .ok () t

@[simp] theorem setRefcnt_self (t : FileTable) (f : Slot) (n : BitVec 32) :
    (t.setRefcnt f n).files f = ⟨(t.files f).kfd, n⟩ := by
  simp [FileTable.setRefcnt]

@[simp] theorem setRefcnt_of_ne (t : FileTable) {f g : Slot} (n : BitVec 32) (h : g ≠ f) :
    (t.setRefcnt f n).files g = t.files g := by
  simp [FileTable.setRefcnt, h]

@[simp] theorem setRefcnt_fds (t : FileTable) (f : Slot) (n : BitVec 32) :
    (t.setRefcnt f n).fds = t.fds := rfl

@[simp] theorem setRefcnt_closes (t : FileTable) (f : Slot) (n : BitVec 32) :
    (t.setRefcnt f n).closes = t.closes := rfl

@[simp] theorem setRefcnt_setRefcnt (t : FileTable) (f : Slot) (n n' : BitVec 32) :
    (t.setRefcnt f n).setRefcnt f n' = t.setRefcnt f n' := by
  simp [FileTable.setRefcnt]

@[simp] theorem setKfd_self (t : FileTable) (f : Slot) (kfd : BitVec 32) :
    (t.setKfd f kfd).files f = ⟨kfd, (t.files f).refcnt⟩ := by
  simp [FileTable.setKfd]

@[simp] theorem setFd_files (t : FileTable) (i : Fin MAX_FDS) (f : Option Slot) :
    (t.setFd i f).files = t.files := rfl

/-- The count that is 2 is the last one: it becomes 0 and the host file is closed. -/
theorem decref_run (f : Slot) (t : FileTable) :
    spikeFileDecref f t = .ok () (if (t.files f).refcnt = 2 then
      (t.setRefcnt f 0).hostClose (t.files f).kfd
      else t.setRefcnt f ((t.files f).refcnt - 1)) := by
  have hadd : addRefcnt f (-1) t =
      .ok (t.files f).refcnt (t.setRefcnt f ((t.files f).refcnt - 1)) := by
    have hneg : (t.files f).refcnt - 1 = (t.files f).refcnt + -1 := BitVec.sub_eq_add_neg _ _
    rw [hneg]
    rfl
  rw [spikeFileDecref, bind_of_ok hadd]
  split_ifs
  · have hclose (t : FileTable) : (modify fun t : FileTable =>
        (t.setRefcnt f 0).hostClose (t.files f).kfd : FileM PUnit) t =
          .ok () ((t.setRefcnt f 0).hostClose (t.files f).kfd) := rfl
    rw [hclose, setRefcnt_setRefcnt, setRefcnt_self]
  · rfl

theorem casFd_run (i : Fin MAX_FDS) (cmp swp : Option Slot) (t : FileTable) :
    casFd i cmp swp t = .ok (t.fds i) (if t.fds i = cmp then t.setFd i swp else t) := by
  unfold casFd
  rw [get_bind]
  dsimp only
  split_ifs <;> rfl

/-- The first free slot is taken, and only its count changes. -/
theorem getFreeLoop_run (fs : List Slot) (t : FileTable) :
    ((∀ f ∈ fs, (t.files f).refcnt ≠ 0) ∧ getFreeLoop fs t = .ok none t) ∨
      ∃ f, (t.files f).refcnt = 0 ∧
        getFreeLoop fs t = .ok (some f) (t.setRefcnt f INIT_FILE_REF) := by
  induction fs with
  | nil => exact .inl ⟨by simp, rfl⟩
  | cons f fs ih =>
    unfold getFreeLoop
    rw [get_bind]
    split_ifs with hfree
    · exact .inr ⟨f, hfree, rfl⟩
    · exact ih.imp_left fun h => ⟨List.forall_mem_cons.mpr ⟨hfree, h.1⟩, h.2⟩

def Full (t : FileTable) : Prop := ∀ f, (t.files f).refcnt ≠ 0

/-- What an open does.  After an error of the host the count of the slot is 2, one
below the initial one. -/
theorem openat_run (ret : BitVec 64) (t : FileTable) :
    (Full t ∧ spikeFileOpenat ret t = .ok (.error (-ENOMEM)) t) ∨
      ∃ f, (t.files f).refcnt = 0 ∧ spikeFileOpenat ret t =
        if 0 ≤ ret.toInt then
          .ok (.ok f) ((t.setRefcnt f INIT_FILE_REF).setKfd f (ret.setWidth 32))
        else .ok (.error ret) (t.setRefcnt f 2) := by
  unfold spikeFileOpenat spikeFileGetFree
  rcases getFreeLoop_run (List.finRange MAX_FILES) t with ⟨hfull, hnone⟩ | ⟨f, hfree, hf⟩
  · refine .inl ⟨fun f => hfull f (List.mem_finRange f), ?_⟩
    rw [bind_of_ok hnone]
    rfl
  · refine .inr ⟨f, hfree, ?_⟩
    rw [bind_of_ok hf]
    dsimp only
    split_ifs
    · rfl
    · have hdecref : spikeFileDecref f (t.setRefcnt f INIT_FILE_REF) = .ok () (t.setRefcnt f 2) := by
        rw [decref_run]
        simp [INIT_FILE_REF]
      rw [bind_of_ok hdecref]
      rfl

theorem openat_ok {ret : BitVec 64} {t t' : FileTable} {f : Slot}
    (h : spikeFileOpenat ret t = .ok (.ok f) t') :
    t' = (t.setRefcnt f INIT_FILE_REF).setKfd f (ret.setWidth 32) := by
  rcases openat_run ret t with ⟨-, hnone⟩ | ⟨g, -, hg⟩
  · rw [hnone] at h
    injection h with h
    cases h
  · rw [hg] at h
    split_ifs at h
    · injection h with h ht
      injection h with h
      rw [← ht, ← h]
    · injection h with h
      cases h

/-- `spike_file_close` of a file whose descriptor lies in the array.  The first
decrement is made in any case, the second one only when the entry was the file's. -/
theorem close_run {t : FileTable} {f : Slot} {i : Fin MAX_FDS}
    (hi : fdIndex (t.files f).kfd = some i) :
    spikeFileClose (some f) t =
      if t.fds i = some f then
        (do spikeFileDecref f; spikeFileDecref f; return (0 : ℤ)) (t.setFd i none)
      else (do spikeFileDecref f; return (-1 : ℤ)) t := by
  unfold spikeFileClose
  dsimp only
  rw [get_bind, hi]
  dsimp only
  rw [bind_of_ok (casFd_run i (some f) none t)]
  by_cases h : t.fds i = some f
  · simp [h]
  · simp [h]

/-- Closing `f`, which is open for the host's descriptor `k`, leaves nothing behind. -/
def ClosesCleanly (t : FileTable) (f : Slot) (k : Fin MAX_FDS) : Prop :=
  ∃ t', spikeFileClose (some f) t = .ok 0 t' ∧
    t'.closes = t.closes ++ [BitVec.ofNat 32 k] ∧ (t'.files f).refcnt = 0 ∧
    (∀ g, g ≠ f → t'.files g = t.files g) ∧ ∀ i, i ≠ k → t'.fds i = t.fds i

/-- A file with the initial count is closed only when its entry of `spike_fds` is
set, which `spike_file_open` does not do. -/
theorem closesCleanly_iff {t : FileTable} {f : Slot} {k : Fin MAX_FDS}
    (hf : t.files f = ⟨BitVec.ofNat 32 k, INIT_FILE_REF⟩) :
    ClosesCleanly t f k ↔ t.fds k = some f := by
  have hi : fdIndex (t.files f).kfd = some k := by
    have hk : (BitVec.ofNat 32 k.val).toNat = k.val :=
      Nat.mod_eq_of_lt (lt_trans k.isLt (by decide))
    rw [hf]
    simp [fdIndex, hk]
  unfold ClosesCleanly
  rw [close_run hi]
  constructor
  · rintro ⟨t', hrun, -⟩
    by_contra hne
    rw [if_neg hne, bind_of_ok (decref_run f t)] at hrun
    injection hrun with hret
    omega
  · intro hfd
    -- the count goes 3, 2, 0
    have hone : spikeFileDecref f (t.setFd k none) = .ok () ((t.setFd k none).setRefcnt f 2) := by
      rw [decref_run]
      simp [hf, INIT_FILE_REF]
    have htwo : spikeFileDecref f ((t.setFd k none).setRefcnt f 2) =
        .ok () (((t.setFd k none).setRefcnt f 0).hostClose (BitVec.ofNat 32 k)) := by
      rw [decref_run]
      simp [hf]
    rw [if_pos hfd, bind_of_ok hone, bind_of_ok htwo]
    refine ⟨_, rfl, rfl, ?_, ?_, ?_⟩
    · simp [FileTable.hostClose]
    · intro g hg
      simp [FileTable.hostClose, hg]
    · intro i hik
      simp [FileTable.hostClose, FileTable.setFd, hik]

/-- After any history, a file opened for the host's descriptor `k` and closed
without a `dup` is cleaned up exactly when a stale `spike_fds[k]` points to its slot. -/
theorem open_close_clean_iff {s t : FileTable} {f : Slot} (k : Fin MAX_FDS) (_hs : Reachable s)
    (hopen : spikeFileOpenat (BitVec.ofNat 64 k) s = .ok (.ok f) t) :
    ClosesCleanly t f k ↔ s.fds k = some f := by
  have ht := openat_ok hopen
  have hkfd : (BitVec.ofNat 64 k.val).setWidth 32 = BitVec.ofNat 32 k.val := by
    apply BitVec.eq_of_toNat_eq
    simp
  rw [closesCleanly_iff]
  · rw [ht]
    rfl
  · rw [ht, hkfd]
    simp

/-- A table in which `spike_fds[3]` still points to slot 3: the file was given to
descriptor 3 by `dup` and then closed until its slot was free. -/
def staleCalls : List Call :=
  [.spikeOpen 7, .dup 3, .close (some 3), .close (some 3), .close (some 3)]

theorem open_close_clean_of_stale : ∃ s t f, Reachable s ∧
    spikeFileOpenat (BitVec.ofNat 64 (3 : Fin MAX_FDS).val) s = .ok (.ok f) t ∧
      ClosesCleanly t f 3 := by
  have hs := eq_ok_of_returned (r := history staleCalls staticTable) (a := ()) (by decide +kernel)
  have ht := eq_ok_of_returned (a := .ok 3)
    (r := spikeFileOpenat (BitVec.ofNat 64 (3 : Fin MAX_FDS).val)
      (finalState (history staleCalls staticTable))) (by decide +kernel)
  refine ⟨_, _, 3, ⟨staleCalls, hs⟩, ht, ?_⟩
  rw [open_close_clean_iff 3 ⟨staleCalls, hs⟩ ht]
  decide +kernel

/-- Right after `spike_file_init`, a file opened for descriptor 3 is not closed. -/
theorem open_close_leaks : ∃ s t f, Reachable s ∧
    spikeFileOpenat (BitVec.ofNat 64 (3 : Fin MAX_FDS).val) s = .ok (.ok f) t ∧
      ¬ ClosesCleanly t f 3 := by
  have hs := eq_ok_of_returned (r := history [] staticTable) (a := ()) (by decide +kernel)
  have ht := eq_ok_of_returned (a := .ok 3)
    (r := spikeFileOpenat (BitVec.ofNat 64 (3 : Fin MAX_FDS).val)
      (finalState (history [] staticTable))) (by decide +kernel)
  refine ⟨_, _, 3, ⟨[], hs⟩, ht, ?_⟩
  rw [closesCleanly_iff (by decide +kernel)]
  decide +kernel

end ProxyKernel.SpikeFile
