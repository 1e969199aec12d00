import ProxyKernel.Symbols
import ProxyKernel.Base.Effect

/-!
`parse_args` of `kernel/elf.c`.  The host fills the buffer with a count, pointers
and strings, and the kernel moves the pointers down by two words, over the count
and the pointer to its own name.  The host is a parameter.
-/

namespace ProxyKernel.CommandLine
open ByteMem Effect

def MAX_CMDLINE_ARGS : ℕ := 64

def sizeofArgBuf : Word := 512

/-- The host's `HTIFSYS_getmainvars`: what it returns for a buffer and its size, and
memory after it. -/
abbrev Getmainvars := Mem → Word → Word → Word × Mem

/-- Memory, and the addresses of the words that `parse_args` has loaded or stored. -/
structure ArgState where
  mem : Mem
  accesses : List Word

inductive Fault
  | assertion | outOfFuel
  deriving DecidableEq

abbrev ParseM := EStateM Fault ArgState

def loadWord (a : Word) : ParseM Word := fun s =>
  .ok (load64 s.mem a) { s with accesses := s.accesses ++ [a] }

def storeWord (a v : Word) : ParseM Unit := fun s =>
  .ok () ⟨store64 s.mem a v, s.accesses ++ [a]⟩

/-- The `i`-th word from `p` on; `buf` and `argv` of the union are the same words. -/
def index (p i : Word) : Word := p + 8 * i

/-- The loop of `parse_args` from `i` on. -/
def shiftLoop (msg pkArgc : Word) : ℕ → Word → ParseM Unit
  | 0, _ => throw .outOfFuel
  | fuel + 1, i => do
    if 1 + i < pkArgc then
      let p ← loadWord (index (index msg 1) (1 + i))
      storeWord (index msg i) p
      shiftLoop msg pkArgc fuel (i + 1)

/-- `parse_args(arg_bug_msg)`.  The loop goes around less often than the count says. -/
def parseArgs (host : Getmainvars) (msg : Word) : ParseM Word := do
  let s ← get
  let (r, mem) := host s.mem msg sizeofArgBuf
  set { s with mem := mem }
  if r = 0 then
    let pkArgc ← loadWord (index msg 0)
    shiftLoop msg pkArgc (pkArgc.toNat + 1) 0
    return pkArgc - 1
  else throw .assertion

def wordAt (msg : Word) (i : ℕ) : Word := msg + BitVec.ofNat 64 (8 * i)

/-- The words in front of the strings, and the strings with their NULs. -/
def layoutSize (args : List (List Byte)) : ℕ :=
  8 * (args.length + 3) + (args.map fun s => s.length + 1).sum

/-- The count, the addresses of the strings, two zero words, and the strings behind
them within the limit. -/
structure LaidOut (m : Mem) (msg : Word) (limit : ℕ) (args : List (List Byte)) : Prop where
  argc : load64 m (wordAt msg 0) = BitVec.ofNat 64 args.length
  strings : ∀ i (hi : i < args.length), ∃ off, 8 * (args.length + 3) ≤ off ∧
    off + (args[i].length + 1) ≤ limit ∧ load64 m (wordAt msg (i + 1)) = msg + BitVec.ofNat 64 off ∧
      Stored m (msg + BitVec.ofNat 64 off) (args[i] ++ [0])
  null : load64 m (wordAt msg (args.length + 1)) = 0 ∧ load64 m (wordAt msg (args.length + 2)) = 0

/-- The host answers with these strings if they fit, and with an error if not. -/
structure AnswersWith (host : Getmainvars) (args : List (List Byte)) : Prop where
  fits : ∀ m msg limit, layoutSize args ≤ limit.toNat →
    (host m msg limit).1 = 0 ∧ LaidOut (host m msg limit).2 msg limit.toNat args
  fails : ∀ m msg limit, limit.toNat < layoutSize args → (host m msg limit).1 ≠ 0

theorem index_ofNat (msg : Word) (i : ℕ) : index msg (BitVec.ofNat 64 i) = wordAt msg i := by
  rw [index, wordAt, BitVec.ofNat_mul]
  rfl

theorem index_one (msg : Word) (i : ℕ) :
    index (index msg 1) (1 + BitVec.ofNat 64 i) = wordAt msg (i + 2) := by
  rw [index, index, wordAt, Nat.mul_add, BitVec.ofNat_add, BitVec.ofNat_mul]
  change msg + 8 * 1 + 8 * (1 + BitVec.ofNat 64 i) = msg + (8 * BitVec.ofNat 64 i + 16)
  ring

variable {m₁ m : Mem} {msg : Word} {n : ℕ}

/-- The first `n` words hold what was two words further on, and all else is as it was. -/
structure Shifted (m₁ m : Mem) (msg : Word) (n : ℕ) : Prop where
  moved : ∀ i < n, load64 m (wordAt msg i) = load64 m₁ (wordAt msg (i + 2))
  rest : ∀ x, ¬ InBlock msg (8 * n) x → m x = m₁ x

theorem Shifted.start (m₁ : Mem) (msg : Word) : Shifted m₁ m₁ msg 0 where
  moved _ hi := absurd hi (Nat.not_lt_zero _)
  rest _ _ := rfl

theorem Shifted.field_same (h : Shifted m₁ m msg n) {off k : ℕ} (hoff : 8 * n ≤ off)
    (hspace : off + k ≤ 2 ^ 64) :
    ∀ x, InBlock (msg + BitVec.ofNat 64 off) k x → m x = m₁ x := by
  intro x hx
  exact h.rest x ((apart_behind msg hoff hspace).symm x hx)

theorem Shifted.step (h : Shifted m₁ m msg n) (hn : n < 2 ^ 32) :
    Shifted m₁ (store64 m (wordAt msg n) (load64 m (wordAt msg (n + 2)))) msg (n + 1) := by
  have hload : load64 m (wordAt msg (n + 2)) = load64 m₁ (wordAt msg (n + 2)) :=
    load64_congr (h.field_same (by omega) (by omega))
  refine ⟨?_, ?_⟩
  · intro i hi
    rcases Nat.lt_succ_iff_lt_or_eq.mp hi with hlt | rfl
    · have hkeep (v : Word) : load64 (store64 m (wordAt msg n) v) (wordAt msg i) =
          load64 m (wordAt msg i) :=
        load64_store64_field m msg v (by omega) (by omega) (by omega)
      rw [hkeep]
      exact h.moved i hlt
    · rw [load64_store64, hload]
  · intro x hx
    have hfield : ¬ InBlock (wordAt msg n) 8 x := fun hin => hx (hin.of_sub (by omega) (by omega))
    have hbefore : ¬ InBlock msg (8 * n) x := by
      intro hin
      unfold InBlock at hin hx
      omega
    rw [store64_of_not_mem hfield, h.rest x hbefore]

theorem shiftLoop_run {argc i : ℕ} (fuel : ℕ) {s : ArgState} (hargc : argc < 2 ^ 32) (hi : i < argc)
    (hfuel : argc ≤ fuel + i) (h : Shifted m₁ s.mem msg i) :
    ∃ s', shiftLoop msg (BitVec.ofNat 64 argc) fuel (BitVec.ofNat 64 i) s = .ok () s' ∧
      Shifted m₁ s'.mem msg (argc - 1) ∧
      ∀ a ∈ s'.accesses, a ∈ s.accesses ∨ ∃ j ≤ argc, a = wordAt msg j := by
  induction fuel generalizing i s with
  | zero => omega
  | succ fuel ih =>
    have hcond : 1 + BitVec.ofNat 64 i < BitVec.ofNat 64 argc ↔ i + 1 < argc := by
      rw [BitVec.lt_def, BitVec.toNat_add, BitVec.toNat_ofNat, BitVec.toNat_ofNat]
      change (1 + i % 2 ^ 64) % 2 ^ 64 < argc % 2 ^ 64 ↔ i + 1 < argc
      omega
    rw [shiftLoop]
    by_cases hgo : i + 1 < argc
    · rw [if_pos (hcond.mpr hgo), index_one, index_ofNat]
      have hnext : BitVec.ofNat 64 i + 1 = BitVec.ofNat 64 (i + 1) := (BitVec.ofNat_add i 1).symm
      obtain ⟨s', hrun, hshifted, hacc⟩ := ih
        (s := ⟨store64 s.mem (wordAt msg i) (load64 s.mem (wordAt msg (i + 2))),
          s.accesses ++ [wordAt msg (i + 2)] ++ [wordAt msg i]⟩)
        hgo (by omega) (h.step (by omega))
      rw [← hnext] at hrun
      refine ⟨s', hrun, hshifted, ?_⟩
      intro a ha
      rcases hacc a ha with ha | ha
      · rcases List.mem_append.mp ha with ha | ha
        · rcases List.mem_append.mp ha with ha | ha
          · exact .inl ha
          · exact .inr ⟨i + 2, by omega, List.mem_singleton.mp ha⟩
        · exact .inr ⟨i, by omega, List.mem_singleton.mp ha⟩
      · exact .inr ha
    · rw [if_neg fun h => hgo (hcond.mp h)]
      obtain rfl : i = argc - 1 := by omega
      exact ⟨s, rfl, h, fun a ha => .inl ha⟩

theorem parseArgs_of_error {host : Getmainvars} {m : Mem} (h : (host m msg sizeofArgBuf).1 ≠ 0)
    (accesses : List Word) :
    parseArgs host msg ⟨m, accesses⟩ =
      .error .assertion ⟨(host m msg sizeofArgBuf).2, accesses⟩ := by
  rw [parseArgs, get_bind]
  dsimp only
  rw [if_neg h]
  rfl

theorem parseArgs_of_ok {host : Getmainvars} {m mem : Mem} {argc : Word}
    (h : host m msg sizeofArgBuf = (0, mem)) (hargc : load64 mem (wordAt msg 0) = argc) :
    parseArgs host msg ⟨m, []⟩ = (shiftLoop msg argc (argc.toNat + 1) 0 >>= fun _ =>
      pure (argc - 1)) ⟨mem, [wordAt msg 0]⟩ := by
  have hword : index msg 0 = wordAt msg 0 := index_ofNat msg 0
  have hset : (set (⟨mem, []⟩ : ArgState) : ParseM PUnit) ⟨m, []⟩ = .ok () ⟨mem, []⟩ := rfl
  have hload : loadWord (wordAt msg 0) ⟨mem, []⟩ = .ok argc ⟨mem, [wordAt msg 0]⟩ := by
    rw [← hargc]
    rfl
  rw [parseArgs, get_bind]
  dsimp only
  rw [h, bind_of_ok hset, if_pos rfl, hword, bind_of_ok hload]

theorem parseArgs_of_laidOut {host : Getmainvars} {m mem : Mem} {limit : ℕ}
    {args : List (List Byte)} (hhost : host m msg sizeofArgBuf = (0, mem))
    (hlaid : LaidOut mem msg limit args) (hne : args ≠ []) (hlen : args.length < 2 ^ 32) :
    ∃ s', parseArgs host msg ⟨m, []⟩ = .ok (BitVec.ofNat 64 (args.length - 1)) s' ∧
      Shifted mem s'.mem msg (args.length - 1) ∧
      ∀ a ∈ s'.accesses, ∃ j ≤ args.length, a = wordAt msg j := by
  have hpos : 0 < args.length := List.length_pos_iff.mpr hne
  have hresult : BitVec.ofNat 64 args.length - 1 = BitVec.ofNat 64 (args.length - 1) := by
    apply BitVec.eq_of_toNat_eq
    rw [BitVec.toNat_sub, BitVec.toNat_ofNat, BitVec.toNat_ofNat]
    change (2 ^ 64 - 1 + args.length % 2 ^ 64) % 2 ^ 64 = (args.length - 1) % 2 ^ 64
    omega
  obtain ⟨s', hrun, hshifted, hacc⟩ := shiftLoop_run (s := ⟨mem, [wordAt msg 0]⟩)
    ((BitVec.ofNat 64 args.length).toNat + 1) hlen hpos (by rw [BitVec.toNat_ofNat]; omega)
    (Shifted.start mem msg)
  refine ⟨s', ?_, hshifted, ?_⟩
  · refine (parseArgs_of_ok hhost hlaid.argc).trans ((bind_of_ok hrun).trans ?_)
    rw [hresult]
    rfl
  · intro a ha
    rcases hacc a ha with ha | ha
    · exact ⟨0, Nat.zero_le _, List.mem_singleton.mp ha⟩
    · exact ha

theorem Shifted.string (h : Shifted m₁ m msg n) {off : ℕ} {bs : List Byte} (hoff : 8 * n ≤ off)
    (hspace : off + bs.length ≤ 2 ^ 64) (hbs : Stored m₁ (msg + BitVec.ofNat 64 off) bs) :
    Stored m (msg + BitVec.ofNat 64 off) bs := by
  rw [Stored, read_congr (by omega) (h.field_same hoff hspace)]
  exact hbs

def stringOffsets (off : ℕ) : List (List Byte) → List ℕ
  | [] => []
  | s :: ss => off :: stringOffsets (off + (s.length + 1)) ss

def layoutBytes (msg : Word) (args : List (List Byte)) : List Byte :=
  toLE 8 args.length ++
    ((stringOffsets (8 * (args.length + 3)) args).flatMap fun off =>
      toLE 8 (msg + BitVec.ofNat 64 off).toNat) ++
    (toLE 8 0 ++ toLE 8 0) ++ args.flatMap fun s => s ++ [0]

/-- `HTIFSYS_getmainvars` for the strings `args`, with `-ENOMEM` if they do not fit. -/
def getmainvars (args : List (List Byte)) : Getmainvars := fun m msg limit =>
  if layoutSize args ≤ limit.toNat then (0, write m msg (layoutBytes msg args)) else (-12, m)

theorem stringOffsets_length (off : ℕ) (args : List (List Byte)) :
    (stringOffsets off args).length = args.length := by
  induction args generalizing off with
  | nil => rfl
  | cons s ss ih => rw [stringOffsets, List.length_cons, ih, List.length_cons]

theorem words_length (f : ℕ → Word) (offs : List ℕ) :
    (offs.flatMap fun off => toLE 8 (f off).toNat).length = 8 * offs.length := by
  induction offs with
  | nil => rfl
  | cons o os ih =>
    rw [List.flatMap_cons, List.length_append, ih, toLE_length, List.length_cons]
    omega

theorem load64_words {a : Word} {f : ℕ → Word} {offs : List ℕ}
    (h : Stored m a (offs.flatMap fun off => toLE 8 (f off).toNat)) {i : ℕ} (hi : i < offs.length) :
    load64 m (a + BitVec.ofNat 64 (8 * i)) = f offs[i] := by
  induction offs generalizing a i with
  | nil => exact absurd hi (Nat.not_lt_zero _)
  | cons o os ih =>
    rw [List.flatMap_cons, stored_append, toLE_length] at h
    cases i with
    | zero =>
      rw [Nat.mul_zero, BitVec.add_zero]
      exact load64_of_stored h.1
    | succ i =>
      have hplace : a + BitVec.ofNat 64 (8 * (i + 1)) =
          a + BitVec.ofNat 64 8 + BitVec.ofNat 64 (8 * i) := by
        rw [add_ofNat_add, Nat.mul_succ, Nat.add_comm]
      rw [hplace]
      exact ih h.2 (Nat.lt_of_succ_lt_succ hi)

theorem stored_strings {off : ℕ} {args : List (List Byte)}
    (h : Stored m (msg + BitVec.ofNat 64 off) (args.flatMap fun s => s ++ [0])) {i : ℕ}
    (hi : i < args.length) :
    ∃ o, (stringOffsets off args)[i]? = some o ∧ off ≤ o ∧
      o + (args[i].length + 1) ≤ off + (args.map fun s => s.length + 1).sum ∧
      Stored m (msg + BitVec.ofNat 64 o) (args[i] ++ [0]) := by
  induction args generalizing off i with
  | nil => exact absurd hi (Nat.not_lt_zero _)
  | cons s ss ih =>
    rw [List.flatMap_cons, stored_append, List.length_append, List.length_singleton, add_ofNat_add]
      at h
    rw [List.map_cons, List.sum_cons]
    cases i with
    | zero => exact ⟨off, rfl, le_rfl, by simp, h.1⟩
    | succ i =>
      obtain ⟨o, ho, hle, hend, hstored⟩ := ih h.2 (Nat.lt_of_succ_lt_succ hi)
      refine ⟨o, ho, by omega, ?_, hstored⟩
      rw [List.getElem_cons_succ]
      omega

theorem layoutBytes_length (msg : Word) (args : List (List Byte)) :
    (layoutBytes msg args).length = layoutSize args := by
  rw [layoutBytes, List.length_append, List.length_append, List.length_append, words_length,
    stringOffsets_length]
  simp only [List.length_append, toLE_length, List.length_flatMap, List.length_singleton, layoutSize]
  omega

theorem laidOut_of_stored {args : List (List Byte)} {limit : ℕ}
    (h : Stored m msg (layoutBytes msg args)) (hfits : layoutSize args ≤ limit)
    (hlimit : limit < 2 ^ 64) : LaidOut m msg limit args := by
  have hsize : 8 * (args.length + 3) + (args.map fun s => s.length + 1).sum ≤ limit := hfits
  simp only [layoutBytes, stored_append, List.length_append, words_length, stringOffsets_length,
    toLE_length] at h
  obtain ⟨⟨⟨hargc, hwords⟩, hnull, hnull'⟩, hstrings⟩ := h
  have hplace : msg + BitVec.ofNat 64 (8 + 8 * args.length + (8 + 8)) =
      msg + BitVec.ofNat 64 (8 * (args.length + 3)) := by
    congr 2
    omega
  rw [hplace] at hstrings
  refine ⟨?_, ?_, ?_, ?_⟩
  · rw [wordAt, Nat.mul_zero, BitVec.add_zero]
    apply load64_of_stored
    rwa [BitVec.toNat_ofNat, Nat.mod_eq_of_lt (by omega)]
  · intro i hi
    obtain ⟨off, hget, hle, hend, hstored⟩ := stored_strings hstrings hi
    obtain ⟨hi', hoff⟩ := List.getElem?_eq_some_iff.mp hget
    refine ⟨off, hle, hend.trans hsize, ?_, hstored⟩
    have hload := load64_words hwords hi'
    rw [hoff, add_ofNat_add] at hload
    rw [wordAt, Nat.mul_succ, Nat.add_comm]
    exact hload
  · have hword : wordAt msg (args.length + 1) = msg + BitVec.ofNat 64 (8 + 8 * args.length) := by
      rw [wordAt, Nat.mul_succ, Nat.add_comm]
    rw [hword]
    exact load64_of_stored hnull
  · have hword : wordAt msg (args.length + 2) =
        msg + BitVec.ofNat 64 (8 + 8 * args.length) + BitVec.ofNat 64 8 := by
      rw [wordAt, add_ofNat_add]
      congr 2
      omega
    rw [hword]
    exact load64_of_stored hnull'

theorem getmainvars_answers (args : List (List Byte)) : AnswersWith (getmainvars args) args where
  fits := by
    intro m msg limit hfits
    rw [getmainvars, if_pos hfits]
    have hlimit := limit.isLt
    have hstored : Stored (write m msg (layoutBytes msg args)) msg (layoutBytes msg args) :=
      read_write_same m msg _ (by rw [layoutBytes_length]; omega)
    exact ⟨rfl, laidOut_of_stored hstored hfits hlimit⟩
  fails := by
    intro m msg limit hlimit
    rw [getmainvars, if_neg (by omega)]
    exact (by decide : (-12 : Word) ≠ 0)

/-- Without room in the buffer the assertion stops the kernel. -/
theorem parse_args_stops {host : Getmainvars} {args : List (List Byte)}
    (hhost : AnswersWith host args) (hfits : 512 < layoutSize args) (m : Mem) :
    ∃ s', parseArgs host msg ⟨m, []⟩ = .error .assertion s' ∧ s'.accesses = [] :=
  ⟨_, parseArgs_of_error (hhost.fails m msg sizeofArgBuf hfits) [], rfl⟩

/-- For every command line that the host can lay out in the buffer, `parse_args`
returns the number of strings behind the first, touches words of the buffer only,
and leaves in `argv` the host's pointers to them, with the strings as they were. -/
theorem parse_args_keeps_strings (host : Getmainvars) (args : List (List Byte))
    (hhost : AnswersWith host args) (hne : args ≠ []) (hnul : ∀ s ∈ args, 0 ∉ s)
    (hfits : layoutSize args ≤ 512) (m : Mem) (msg : Word) :
    ∃ s', parseArgs host msg ⟨m, []⟩ = .ok (BitVec.ofNat 64 (args.length - 1)) s' ∧
      (∀ a ∈ s'.accesses, ∃ j < MAX_CMDLINE_ARGS, a = wordAt msg j) ∧
      ∀ i (hi : i + 1 < args.length),
        load64 s'.mem (wordAt msg i) =
            load64 (host m msg sizeofArgBuf).2 (wordAt msg (i + 1 + 1)) ∧
          CString s'.mem (load64 s'.mem (wordAt msg i)) args[i + 1] := by
  obtain ⟨hret, hlaid⟩ := hhost.fits m msg sizeofArgBuf hfits
  have hlen : 8 * (args.length + 3) ≤ 512 := le_trans (Nat.le_add_right _ _) hfits
  obtain ⟨s', hrun, hshifted, hacc⟩ := parseArgs_of_laidOut (Prod.ext hret rfl) hlaid hne (by omega)
  refine ⟨s', hrun, ?_, ?_⟩
  · intro a ha
    obtain ⟨j, hj, rfl⟩ := hacc a ha
    exact ⟨j, by unfold MAX_CMDLINE_ARGS; omega, rfl⟩
  · intro i hi
    have hmoved := hshifted.moved i (by omega)
    refine ⟨hmoved, ?_⟩
    obtain ⟨off, hoff, hend, hload, hstored⟩ := hlaid.strings (i + 1) hi
    have hlimit : sizeofArgBuf.toNat = 512 := rfl
    have hkept := hshifted.string (by omega)
      (by rw [List.length_append, List.length_singleton]; omega) hstored
    rw [hmoved, hload]
    exact cString_of_stored hkept (hnul _ (List.getElem_mem hi))

def bootArgs : List (List Byte) := [ascii "obj/riscv-pke".toList, ascii "obj/app".toList]

theorem parse_args_keeps_strings_app :
    (bootArgs ≠ [] ∧ (∀ s ∈ bootArgs, 0 ∉ s) ∧ layoutSize bootArgs ≤ 512) ∧
      ∃ s', parseArgs (getmainvars bootArgs) 0x80008000 ⟨fun _ => 0, []⟩ = .ok 1 s' ∧
        (∀ a ∈ s'.accesses, ∃ j < MAX_CMDLINE_ARGS, a = wordAt 0x80008000 j) ∧
        ∀ i (hi : i + 1 < bootArgs.length),
          load64 s'.mem (wordAt 0x80008000 i) =
              load64 (getmainvars bootArgs (fun _ => 0) 0x80008000 sizeofArgBuf).2
                (wordAt 0x80008000 (i + 1 + 1)) ∧
            CString s'.mem (load64 s'.mem (wordAt 0x80008000 i)) bootArgs[i + 1] :=
  ⟨by decide, parse_args_keeps_strings (getmainvars bootArgs) bootArgs
    (getmainvars_answers bootArgs) (by decide) (by decide) (by decide) (fun _ => 0) 0x80008000⟩

end ProxyKernel.CommandLine
