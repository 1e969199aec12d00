import ProxyKernel.SpikeFileTable

namespace ProxyKernel.SpikeFile
open Effect Transition

/-- The table, with the slots that failed opens have left behind. -/
structure Tracked where
  table : FileTable
  lost : Finset Slot

variable {t t' : FileTable} {x y : Tracked} {f : Slot}

def firstFree (t : FileTable) : Option Slot :=
  (List.finRange MAX_FILES).find? fun f => (t.files f).refcnt = 0

def lostBy : Call → FileTable → Finset Slot
  | .spikeOpen ret, t => if 0 ≤ ret.toInt then ∅ else (firstFree t).toFinset
  | .dup _, _ => ∅
  | .close _, _ => ∅

def trackStep (c : Call) (x : Tracked) : Option Tracked :=
  (fileStep c x.table).map fun u => ⟨u, x.lost ∪ lostBy c x.table⟩

/-- Calls are made for slots that somebody can hold, and a close for a file in use.
(A `dup` of one that is not in use fails its assertion.) -/
def HoldsFile : Call → Tracked → Prop
  | .close (some f), x => (x.table.files f).refcnt ≠ 0 ∧ f ∉ x.lost
  | .dup f, x => f ∉ x.lost
  | .close none, _ => True
  | .spikeOpen _, _ => True

instance : ∀ c x, Decidable (HoldsFile c x)
  | .close (some f), x => inferInstanceAs (Decidable ((x.table.files f).refcnt ≠ 0 ∧ f ∉ x.lost))
  | .dup f, x => inferInstanceAs (Decidable (f ∉ x.lost))
  | .close none, _ => .isTrue trivial
  | .spikeOpen _, _ => .isTrue trivial

def granted : Call → Tracked → List (BitVec 32)
  | .spikeOpen ret, x =>
    if 0 ≤ ret.toInt ∧ (firstFree x.table).isSome then [ret.setWidth 32] else []
  | .dup _, _ => []
  | .close _, _ => []

def Tracked.held (x : Tracked) (f : Slot) : Multiset (BitVec 32) :=
  if (x.table.files f).refcnt = 0 ∨ f ∈ x.lost then 0 else {(x.table.files f).kfd}

def heldFds (x : Tracked) : Multiset (BitVec 32) := ∑ f, x.held f

def balance (x : Tracked) : Multiset (BitVec 32) := Multiset.ofList x.table.closes + heldFds x

theorem track_run {calls : List Call} (h : run trackStep calls x = some y) :
    run fileStep calls x.table = some y.table := by
  induction calls generalizing x with
  | nil =>
    obtain rfl := Option.some.inj h
    rfl
  | cons c calls ih =>
    obtain ⟨z, hz, hrest⟩ := Option.bind_eq_some_iff.mp h
    obtain ⟨u, hu, rfl⟩ := Option.map_eq_some_iff.mp hz
    rw [run, hu]
    exact ih hrest

theorem heldFds_update (h : ∀ g, g ≠ f → y.held g = x.held g) :
    heldFds y + x.held f = heldFds x + y.held f := by
  have hsplit (z : Tracked) : heldFds z = z.held f + ∑ g ∈ Finset.univ.erase f, z.held g :=
    (Finset.add_sum_erase _ _ (Finset.mem_univ f)).symm
  have hrest : ∑ g ∈ Finset.univ.erase f, y.held g = ∑ g ∈ Finset.univ.erase f, x.held g :=
    Finset.sum_congr rfl fun g hg => h g (Finset.ne_of_mem_erase hg)
  rw [hsplit y, hsplit x, hrest]
  abel

theorem held_eq {lost : Finset Slot} {kfd n : BitVec 32} (hf : f ∉ lost) (hfile : t.files f = ⟨kfd, n⟩) :
    Tracked.held ⟨t, lost⟩ f = if n = 0 then 0 else {kfd} := by
  simp [Tracked.held, hf, hfile]

theorem held_congr {lost lost' : Finset Slot} {g : Slot} (hfile : t'.files g = t.files g)
    (hlost : g ∈ lost' ↔ g ∈ lost) : Tracked.held ⟨t', lost'⟩ g = Tracked.held ⟨t, lost⟩ g := by
  simp only [Tracked.held, hfile, hlost]

/-- The lost slots are in use, so that each slot is free, lost or holds a descriptor. -/
theorem full_iff_card (hlost : ∀ f ∈ x.lost, (x.table.files f).refcnt ≠ 0) :
    Full x.table ↔ (heldFds x).card + x.lost.card = MAX_FILES := by
  have hcard (f : Slot) : (x.held f).card =
      if (x.table.files f).refcnt ≠ 0 ∧ f ∉ x.lost then 1 else 0 := by
    unfold Tracked.held
    split_ifs <;> simp_all
  have hheld : (heldFds x).card =
      (Finset.univ.filter fun f => (x.table.files f).refcnt ≠ 0 ∧ f ∉ x.lost).card := by
    rw [heldFds, Multiset.card_sum, Finset.card_filter]
    exact Finset.sum_congr rfl fun f _ => hcard f
  have hdisj : Disjoint (Finset.univ.filter fun f => (x.table.files f).refcnt ≠ 0 ∧ f ∉ x.lost) x.lost :=
    Finset.disjoint_left.mpr fun f hf => (Finset.mem_filter.mp hf).2.2
  rw [hheld, ← Finset.card_union_of_disjoint hdisj]
  have hall := Finset.card_eq_iff_eq_univ
    ((Finset.univ.filter fun f => (x.table.files f).refcnt ≠ 0 ∧ f ∉ x.lost) ∪ x.lost)
  rw [Fintype.card_fin] at hall
  rw [hall, Finset.eq_univ_iff_forall]
  refine forall_congr' fun f => ?_
  by_cases hf : f ∈ x.lost
  · simpa [hf] using hlost f hf
  · simp [hf]

/-- A reference that is dropped: with the last one the table lets go of the descriptor. -/
theorem balance_decref {lost : Finset Slot} (hf : f ∉ lost) (hcount : 2 ≤ (t.files f).refcnt.toNat) :
    balance ⟨t.decref f, lost⟩ = balance ⟨t, lost⟩ := by
  have hupdate := heldFds_update (x := ⟨t, lost⟩) (y := ⟨t.decref f, lost⟩) (f := f)
    fun g hg => held_congr (decref_of_ne t hg) Iff.rfl
  have hne : ¬ (t.files f).refcnt = 0 := by bv_omega
  rw [held_eq hf rfl, if_neg hne, held_eq hf (decref_self t f)] at hupdate
  by_cases htwo : (t.files f).refcnt = 2
  · have hcloses : (t.decref f).closes = t.closes ++ [(t.files f).kfd] := by
      rw [FileTable.decref, if_pos htwo]
      rfl
    rw [if_pos htwo, if_pos rfl, add_zero] at hupdate
    rw [balance, balance, hcloses, ← hupdate, ← Multiset.coe_add, Multiset.coe_singleton, add_assoc,
      add_comm (heldFds ⟨t.decref f, lost⟩)]
  · have hcloses : (t.decref f).closes = t.closes := by
      rw [FileTable.decref, if_neg htwo]
      rfl
    have hmore : ¬ (t.files f).refcnt - 1 = 0 := by bv_omega
    rw [if_neg htwo, if_neg hmore, add_left_inj] at hupdate
    rw [balance, balance, hcloses, hupdate]

/-- The entries of `spike_fds` that point to the slot. -/
def entries (t : FileTable) (f : Slot) : ℕ := (Finset.univ.filter fun i => t.fds i = some f).card

/-- A slot in use has at least the two references of its owner, and beside them not
more than one that was not given back and one for each entry.  An entry at the host's
descriptor of its file stands for a reference. -/
structure Counted (t : FileTable) : Prop where
  count : ∀ f, (t.files f).refcnt = 0 ∨
    2 ≤ (t.files f).refcnt.toNat ∧ (t.files f).refcnt.toNat ≤ 3 + entries t f
  own : ∀ i f, t.fds i = some f → fdIndex (t.files f).kfd = some i → 3 ≤ (t.files f).refcnt.toNat

theorem entries_le (t : FileTable) (f : Slot) : entries t f ≤ MAX_FDS := by
  have hle := Finset.card_le_univ (Finset.univ.filter fun i => t.fds i = some f)
  rwa [Fintype.card_fin] at hle

theorem Counted.of_slot (h : Counted t) (hsame : ∀ g, g ≠ f → t'.files g = t.files g)
    (hfds : ∀ i g, g ≠ f → (t'.fds i = some g ↔ t.fds i = some g))
    (hcount : (t'.files f).refcnt = 0 ∨
      2 ≤ (t'.files f).refcnt.toNat ∧ (t'.files f).refcnt.toNat ≤ 3 + entries t' f)
    (hown : ∀ i, t'.fds i = some f → fdIndex (t'.files f).kfd = some i →
      3 ≤ (t'.files f).refcnt.toNat) : Counted t' := by
  constructor
  · intro g
    by_cases hg : g = f
    · exact hg ▸ hcount
    · have hentries : entries t' g = entries t g :=
        congrArg Finset.card (Finset.filter_congr fun i _ => hfds i g hg)
      rw [hsame g hg, hentries]
      exact h.count g
  · intro i g hi hkfd
    by_cases hg : g = f
    · subst hg
      exact hown i hi hkfd
    · rw [hsame g hg] at hkfd ⊢
      exact h.own i g ((hfds i g hg).mp hi) hkfd

theorem Counted.inUse (h : Counted t) (hopen : (t.files f).refcnt ≠ 0) :
    2 ≤ (t.files f).refcnt.toNat ∧ (t.files f).refcnt.toNat ≤ 3 + entries t f :=
  (h.count f).resolve_left hopen

theorem getFreeLoop_find (fs : List Slot) (t : FileTable) :
    getFreeLoop fs t = match fs.find? fun f => (t.files f).refcnt = 0 with
      | none => .ok none t
      | some f => .ok (some f) (t.setRefcnt f INIT_FILE_REF) := by
  induction fs with
  | nil => rfl
  | cons f fs ih =>
    unfold getFreeLoop
    rw [get_bind]
    split_ifs with hfree
    · rw [List.find?_cons_of_pos (by simpa using hfree)]
      rfl
    · rw [List.find?_cons_of_neg (by simpa using hfree)]
      exact ih

/-- An open finds no slot, or it changes the first free one. -/
theorem openat_result {ret : BitVec 64} {r : Except (BitVec 64) Slot}
    (hrun : spikeFileOpenat ret t = .ok r t') :
    firstFree t = none ∧ t' = t ∨
      ∃ f, firstFree t = some f ∧ (t.files f).refcnt = 0 ∧
        t'.files f = (if 0 ≤ ret.toInt then ⟨ret.setWidth 32, 3⟩ else ⟨(t.files f).kfd, 2⟩) ∧
        (∀ g, g ≠ f → t'.files g = t.files g) ∧ t'.fds = t.fds ∧ t'.closes = t.closes := by
  rw [spikeFileOpenat, spikeFileGetFree] at hrun
  have hfind := getFreeLoop_find (List.finRange MAX_FILES) t
  rw [firstFree]
  cases hslot : (List.finRange MAX_FILES).find? fun f => (t.files f).refcnt = 0 with
  | none =>
    rw [hslot] at hfind
    rw [bind_of_ok hfind] at hrun
    injection hrun with _ ht
    exact .inl ⟨rfl, ht.symm⟩
  | some f =>
    have hfree : (t.files f).refcnt = 0 := by simpa using List.find?_some hslot
    rw [hslot] at hfind
    rw [bind_of_ok hfind] at hrun
    dsimp only at hrun
    refine .inr ⟨f, rfl, hfree, ?_⟩
    split_ifs at hrun ⊢ with hret
    · injection hrun with _ ht
      subst ht
      refine ⟨by rw [setKfd_self, setRefcnt_self]; rfl, fun g hg => ?_, rfl, rfl⟩
      exact (Function.update_of_ne hg _ _).trans (setRefcnt_of_ne t _ hg)
    · have hdecref : spikeFileDecref f (t.setRefcnt f INIT_FILE_REF) = .ok () (t.setRefcnt f 2) := by
        rw [decref_run]
        simp [INIT_FILE_REF]
      rw [bind_of_ok hdecref] at hrun
      injection hrun with _ ht
      subst ht
      exact ⟨setRefcnt_self t f 2, fun g hg => setRefcnt_of_ne t 2 hg, rfl, rfl⟩

theorem openat_counted (h : Counted t) {ret : BitVec 64} {r : Except (BitVec 64) Slot}
    (hrun : spikeFileOpenat ret t = .ok r t') : Counted t' := by
  rcases openat_result hrun with ⟨-, rfl⟩ | ⟨f, -, hfree, hf, hsame, hfds, -⟩
  · exact h
  · refine h.of_slot hsame (fun i g _ => by rw [hfds]) (.inr ?_) ?_
    · rw [hf]
      split_ifs
      · exact ⟨(by decide : 2 ≤ 3), Nat.le_add_right 3 _⟩
      · exact ⟨le_refl 2, (by decide : 2 ≤ 3).trans (Nat.le_add_right 3 _)⟩
    · intro i hi hkfd
      rw [hf] at hkfd ⊢
      split_ifs at hkfd ⊢
      · exact le_refl 3
      · -- the slot has kept its descriptor, but it was free and so had no entry there
        rw [hfds] at hi
        have hcount := h.own i f hi hkfd
        rw [hfree] at hcount
        exact absurd hcount (by decide)

/-- The table can be counted, and the lost slots are in use. -/
structure Accounted (x : Tracked) : Prop where
  counted : Counted x.table
  lost : ∀ f ∈ x.lost, (x.table.files f).refcnt ≠ 0

theorem openat_accounted {lost : Finset Slot} (h : Accounted ⟨t, lost⟩) {ret : BitVec 64}
    {r : Except (BitVec 64) Slot} (hrun : spikeFileOpenat ret t = .ok r t') :
    Accounted ⟨t', lost ∪ lostBy (.spikeOpen ret) t⟩ ∧
      balance ⟨t', lost ∪ lostBy (.spikeOpen ret) t⟩ =
        balance ⟨t, lost⟩ + Multiset.ofList (granted (.spikeOpen ret) ⟨t, lost⟩) := by
  have hcounted := openat_counted h.counted hrun
  rcases openat_result hrun with ⟨hnone, rfl⟩ | ⟨f, hsome, hfree, hf, hsame, hfds, hcloses⟩
  · simp only [lostBy, granted, hnone]
    simpa using h
  · have hnew : f ∉ lost := fun hmem => h.lost f hmem hfree
    have hold : Tracked.held ⟨t, lost⟩ f = 0 := if_pos (.inl hfree)
    simp only [lostBy, granted, hsome, Option.isSome_some, and_true, Option.toFinset_some]
    by_cases hret : 0 ≤ ret.toInt
    · rw [if_pos hret] at hf
      rw [if_pos hret, if_pos hret, Finset.union_empty]
      refine ⟨⟨hcounted, fun g hg => ?_⟩, ?_⟩
      · have hgf : g ≠ f := fun heq => hnew (heq ▸ hg)
        rw [hsame g hgf]
        exact h.lost g hg
      · have hupdate := heldFds_update (x := ⟨t, lost⟩) (y := ⟨t', lost⟩) (f := f)
          fun g hg => held_congr (hsame g hg) Iff.rfl
        rw [hold, held_eq hnew hf, if_neg (by decide), add_zero] at hupdate
        rw [balance, balance, hcloses, hupdate, Multiset.coe_singleton, add_assoc]
    · rw [if_neg hret] at hf
      rw [if_neg hret, if_neg hret]
      refine ⟨⟨hcounted, fun g hg => ?_⟩, ?_⟩
      · by_cases hgf : g = f
        · rw [hgf, hf]
          exact (by decide : (2 : BitVec 32) ≠ 0)
        · rw [hsame g hgf]
          exact h.lost g ((Finset.mem_union.mp hg).resolve_right fun hin =>
            hgf (Finset.mem_singleton.mp hin))
      · have hupdate := heldFds_update (x := ⟨t, lost⟩) (y := ⟨t', lost ∪ {f}⟩) (f := f)
          fun g hg => held_congr (hsame g hg) (by simp [hg])
        have hgone : Tracked.held ⟨t', lost ∪ {f}⟩ f = 0 := if_pos (.inr (by simp))
        rw [hold, hgone, add_zero, add_zero] at hupdate
        rw [balance, balance, hcloses, hupdate, Multiset.coe_nil, add_zero]

theorem dup_counted {lost : Finset Slot} (h : Counted t) {r : ℤ} (hf : f ∉ lost)
    (hopen : (t.files f).refcnt ≠ 0) (hrun : spikeFileDup f t = .ok r t') :
    Counted t' ∧ balance ⟨t', lost⟩ = balance ⟨t, lost⟩ := by
  rcases dup_run hopen with ⟨k, hk, hdup⟩ | ⟨-, hdup⟩
  · rw [hdup] at hrun
    injection hrun with _ ht
    subst ht
    obtain ⟨htwo, hle⟩ := h.inUse hopen
    have hfile : (t.dupAt f k).files f = ⟨(t.files f).kfd, (t.files f).refcnt + 1⟩ :=
      setRefcnt_self _ f _
    have hsame (g : Slot) (hg : g ≠ f) : (t.dupAt f k).files g = t.files g := setRefcnt_of_ne _ _ hg
    have hentries : entries (t.dupAt f k) f = entries t f + 1 := by
      have hinsert : (Finset.univ.filter fun i => (t.dupAt f k).fds i = some f) =
          insert k (Finset.univ.filter fun i => t.fds i = some f) := by
        ext i
        simp only [Finset.mem_filter, Finset.mem_univ, true_and, Finset.mem_insert, dupAt_fds]
        by_cases hik : i = k
        · simp [hik]
        · simp [hik]
      rw [entries, hinsert, Finset.card_insert_of_notMem (by simp [hk.1])]
      rfl
    have hbound := entries_le t f
    have hsucc : ((t.files f).refcnt + 1).toNat = (t.files f).refcnt.toNat + 1 := by
      simp only [MAX_FDS] at hbound
      bv_omega
    constructor
    · refine h.of_slot hsame ?_ (.inr ?_) ?_
      · intro i g hg
        rw [dupAt_fds]
        split_ifs with hik
        · simp [hik, hk.1, Ne.symm hg]
        · rfl
      · rw [hfile, hentries]
        dsimp only
        omega
      · intro i _ _
        rw [hfile]
        dsimp only
        omega
    · have hupdate := heldFds_update (x := ⟨t, lost⟩) (y := ⟨t.dupAt f k, lost⟩) (f := f)
        fun g hg => held_congr (hsame g hg) Iff.rfl
      have hmore : ¬ (t.files f).refcnt + 1 = 0 := by bv_omega
      rw [held_eq hf rfl, if_neg hopen, held_eq hf hfile, if_neg hmore, add_left_inj] at hupdate
      rw [balance, balance, hupdate]
      rfl
  · rw [hdup] at hrun
    injection hrun with _ ht
    exact ht ▸ ⟨h, rfl⟩

/-- A close that finds its file at the host's descriptor drops two references, the
table's own and one of the owner's. -/
theorem counted_of_own (h : Counted t) {i : Fin MAX_FDS} (hi : fdIndex (t.files f).kfd = some i)
    (hown : t.fds i = some f) : Counted (((t.setFd i none).decref f).decref f) := by
  have hthree := h.own i f hown hi
  obtain ⟨-, hle⟩ := h.inUse fun hzero => by
    rw [hzero] at hthree
    exact absurd hthree (by decide)
  have hone : ((t.setFd i none).decref f).files f = ⟨(t.files f).kfd, (t.files f).refcnt - 1⟩ := by
    rw [decref_self, setFd_files, if_neg (by bv_omega)]
  have hfds (j : Fin MAX_FDS) : (((t.setFd i none).decref f).decref f).fds j =
      if j = i then none else t.fds j := by
    rw [decref_fds, decref_fds]
    exact Function.update_apply t.fds i none j
  have hentries : entries (((t.setFd i none).decref f).decref f) f + 1 = entries t f := by
    have herase : (Finset.univ.filter fun j => (((t.setFd i none).decref f).decref f).fds j = some f) =
        (Finset.univ.filter fun j => t.fds j = some f).erase i := by
      ext j
      by_cases hji : j = i
      · simp [hfds, hji]
      · simp [hfds, hji]
    rw [entries, herase]
    exact Finset.card_erase_add_one (by simp [hown])
  refine h.of_slot (f := f) ?_ ?_ ?_ ?_
  · intro g hg
    rw [decref_of_ne _ hg, decref_of_ne _ hg, setFd_files]
  · intro j g hg
    rw [hfds]
    split_ifs with hji
    · simp [hji, hown, Ne.symm hg]
    · rfl
  · rw [decref_self, hone]
    dsimp only
    split_ifs with hlast
    · exact .inl rfl
    · right
      bv_omega
  · intro j hj hkfd
    -- the entry at the file's own index is gone
    rw [decref_self, hone] at hkfd
    obtain rfl : i = j := Option.some.inj (hi.symm.trans hkfd)
    rw [hfds, if_pos rfl] at hj
    cases hj

theorem close_counted {lost : Finset Slot} (h : Counted t) {r : ℤ} (hf : f ∉ lost)
    (hopen : (t.files f).refcnt ≠ 0) (hrun : spikeFileClose (some f) t = .ok r t') :
    Counted t' ∧ balance ⟨t', lost⟩ = balance ⟨t, lost⟩ := by
  obtain ⟨htwo, hle⟩ := h.inUse hopen
  cases hi : fdIndex (t.files f).kfd with
  | none =>
    rw [close_outOfBounds hi] at hrun
    cases hrun
  | some i =>
    rw [close_result hi] at hrun
    split_ifs at hrun with hown
    · injection hrun with _ ht
      subst ht
      have hthree := h.own i f hown hi
      have hfirst : balance ⟨(t.setFd i none).decref f, lost⟩ = balance ⟨t, lost⟩ :=
        balance_decref (t := t.setFd i none) hf htwo
      refine ⟨counted_of_own h hi hown, ?_⟩
      rw [balance_decref hf, hfirst]
      rw [decref_self, setFd_files]
      dsimp only
      rw [if_neg (by bv_omega)]
      bv_omega
    · injection hrun with _ ht
      subst ht
      refine ⟨h.of_slot (fun g hg => decref_of_ne t hg) (fun j g _ => by rw [decref_fds]) ?_ ?_,
        balance_decref hf htwo⟩
      · have hentries : entries (t.decref f) f = entries t f := by
          rw [entries, decref_fds]
          rfl
        rw [decref_self, hentries]
        dsimp only
        split_ifs with hlast
        · exact .inl rfl
        · right
          bv_omega
      · intro j hj hkfd
        rw [decref_self] at hkfd
        obtain rfl : i = j := Option.some.inj (hi.symm.trans hkfd)
        rw [decref_fds] at hj
        exact absurd hj hown

/-- A `dup` of a file that is not in use fails its assertion, if it gets so far. -/
theorem dupLoop_of_free {r : ℤ} (hfree : (t.files f).refcnt = 0) (is : List (Fin MAX_FDS))
    (hrun : dupLoop f is t = .ok r t') : t' = t := by
  induction is with
  | nil =>
    injection hrun with _ ht
    exact ht.symm
  | cons i is ih =>
    rw [dupLoop, bind_of_ok (casFd_run i none (some f) t)] at hrun
    cases hi : t.fds i with
    | none =>
      have hadd : addRefcnt f 1 (t.setFd i (some f)) = .ok (t.files f).refcnt (t.dupAt f i) := rfl
      rw [hi, if_pos rfl, if_pos rfl, spikeFileIncref, bind_assoc, bind_of_ok hadd, if_pos hfree] at hrun
      cases hrun
    | some g =>
      rw [hi, if_neg (by simp), if_neg (by simp)] at hrun
      exact ih hrun

theorem dup_files_of_ne {r : ℤ} (hrun : spikeFileDup f t = .ok r t') : ∀ g, g ≠ f → t'.files g = t.files g := by
  by_cases hfree : (t.files f).refcnt = 0
  · obtain rfl := dupLoop_of_free hfree _ hrun
    exact fun g _ => rfl
  · rcases dup_run hfree with ⟨k, -, hdup⟩ | ⟨-, hdup⟩
    · rw [hdup] at hrun
      injection hrun with _ ht
      exact ht ▸ fun g hg => setRefcnt_of_ne _ _ hg
    · rw [hdup] at hrun
      injection hrun with _ ht
      exact ht ▸ fun g _ => rfl

theorem close_files_of_ne {r : ℤ} (hrun : spikeFileClose (some f) t = .ok r t') :
    ∀ g, g ≠ f → t'.files g = t.files g := by
  cases hi : fdIndex (t.files f).kfd with
  | none =>
    rw [close_outOfBounds hi] at hrun
    cases hrun
  | some i =>
    rw [close_result hi] at hrun
    split_ifs at hrun
    · injection hrun with _ ht
      subst ht
      intro g hg
      rw [decref_of_ne _ hg, decref_of_ne _ hg, setFd_files]
    · injection hrun with _ ht
      subst ht
      exact fun g hg => decref_of_ne t hg

theorem Accounted.of_slot {lost : Finset Slot} (h : Accounted ⟨t, lost⟩) (hcounted : Counted t')
    (hf : f ∉ lost) (hsame : ∀ g, g ≠ f → t'.files g = t.files g) : Accounted ⟨t', lost⟩ := by
  refine ⟨hcounted, fun g hg => ?_⟩
  have hgf : g ≠ f := fun heq => hf (heq ▸ hg)
  rw [hsame g hgf]
  exact h.lost g hg

theorem trackStep_accounted (c : Call) (x y : Tracked) (h : Accounted x) (hc : HoldsFile c x)
    (hstep : trackStep c x = some y) :
    Accounted y ∧ balance y = balance x + Multiset.ofList (granted c x) := by
  obtain ⟨t, lost⟩ := x
  obtain ⟨t', hfile, rfl⟩ := Option.map_eq_some_iff.mp hstep
  have hrun := fileStep_eq_some hfile
  cases c with
  | spikeOpen ret =>
    obtain ⟨r, u, hu, hend⟩ := bind_eq_ok.mp hrun
    injection hend with _ hend
    exact hend ▸ openat_accounted h hu
  | dup f =>
    obtain ⟨r, u, hu, hend⟩ := bind_eq_ok.mp hrun
    injection hend with _ hend
    subst hend
    rw [granted, Multiset.coe_nil, add_zero, lostBy, Finset.union_empty]
    by_cases hfree : (t.files f).refcnt = 0
    · obtain rfl := dupLoop_of_free hfree _ hu
      exact ⟨h, rfl⟩
    · obtain ⟨hcounted, hbalance⟩ := dup_counted h.counted hc hfree hu
      exact ⟨h.of_slot hcounted hc (dup_files_of_ne hu), hbalance⟩
  | close f =>
    obtain ⟨r, u, hu, hend⟩ := bind_eq_ok.mp hrun
    injection hend with _ hend
    subst hend
    rw [granted, Multiset.coe_nil, add_zero, lostBy, Finset.union_empty]
    cases f with
    | none =>
      injection hu with _ hu
      exact hu ▸ ⟨h, rfl⟩
    | some f =>
      obtain ⟨hcounted, hbalance⟩ := close_counted h.counted hc.2 hc.1 hu
      exact ⟨h.of_slot hcounted hc.2 (close_files_of_ne hu), hbalance⟩

def trackedInit : Tracked := ⟨initTable, ∅⟩

theorem counted_initTable : Counted initTable := by
  constructor
  · intro f
    rw [initTable_files]
    split_ifs with hlt
    · have hentry : 0 < entries initTable f :=
        Finset.card_pos.mpr ⟨f, by simp [initTable_fds, hlt]⟩
      exact .inr ⟨(by decide : 2 ≤ 4), Nat.add_le_add_left hentry 3⟩
    · exact .inl rfl
  · intro i f hi _
    rw [initTable_fds] at hi
    split_ifs at hi with hlt
    obtain rfl := Option.some.inj hi
    rw [initTable_files, if_pos hlt]
    exact (by decide : 3 ≤ 4)

theorem balance_trackedInit : balance trackedInit = Multiset.ofList [0, 1, 2] := by
  decide +kernel

theorem openat_enomem_iff {ret : BitVec 64} :
    spikeFileOpenat ret t = .ok (.error (-ENOMEM)) t ↔ Full t := by
  refine ⟨fun h => ?_, fun h => openat_of_full h ret⟩
  rcases openat_run ret t with ⟨hfull, -⟩ | ⟨f, hfree, hf⟩
  · exact hfull
  · rw [hf] at h
    split_ifs at h
    · injection h with h
      cases h
    · -- the host's own error may be the same, but the slot is taken
      injection h with _ ht
      have hcount := congrArg (fun u => (u.files f).refcnt) ht
      rw [setRefcnt_self, hfree] at hcount
      cases hcount

/-- In every run in which only files in use are closed and the slots that failed opens
have left behind are not touched: what the host was asked to close and what the table
holds are together the three standard descriptors and those of the successful opens,
each as often as it was opened.  An open finds no slot exactly when the successful opens
and the lost slots are 125 more than the closes. -/
theorem host_fds_accounted (calls : List Call) {x : Tracked}
    (huse : Along HoldsFile trackStep calls trackedInit) (hrun : run trackStep calls trackedInit = some x) :
    run fileStep calls initTable = some x.table ∧
      Multiset.ofList x.table.closes + heldFds x =
        Multiset.ofList [0, 1, 2] + Multiset.ofList (trace granted trackStep calls trackedInit) ∧
      ∀ ret, spikeFileOpenat ret x.table = .ok (.error (-ENOMEM)) x.table ↔
        (trace granted trackStep calls trackedInit).length + x.lost.card = x.table.closes.length + 125 := by
  have hstart : Accounted trackedInit := ⟨counted_initTable, fun f hf => absurd hf (Finset.notMem_empty f)⟩
  obtain ⟨hend, hbalance⟩ := run_collects trackStep_accounted hstart huse hrun
  rw [balance, balance_trackedInit] at hbalance
  refine ⟨track_run hrun, hbalance, fun ret => ?_⟩
  have hcard := congrArg Multiset.card hbalance
  simp only [Multiset.card_add, Multiset.coe_card, List.length_cons, List.length_nil] at hcard
  rw [openat_enomem_iff, full_iff_card hend.lost]
  simp only [MAX_FILES]
  omega

def reuseCalls : List Call :=
  [.spikeOpen 7, .dup 3, .close (some 3), .close (some 3), .close (some 3), .spikeOpen (-2)]

theorem host_fds_accounted_reuse : ∃ x, run trackStep reuseCalls trackedInit = some x ∧
    x.table.closes = [7] ∧ x.lost = {3} ∧ trace granted trackStep reuseCalls trackedInit = [7] ∧
      Multiset.ofList [7] + heldFds x = Multiset.ofList [0, 1, 2] + Multiset.ofList [7] := by
  have hend : (run trackStep reuseCalls trackedInit).any fun x => x.table.closes = [7] ∧ x.lost = {3} := by
    decide +kernel
  obtain ⟨x, hrun, hx⟩ := (Option.any_eq_true _ _).mp hend
  obtain ⟨hcloses, hlost⟩ : x.table.closes = [7] ∧ x.lost = {3} := of_decide_eq_true hx
  have htrace : trace granted trackStep reuseCalls trackedInit = [7] := by decide +kernel
  obtain ⟨-, haccount, -⟩ := host_fds_accounted reuseCalls (by decide +kernel) hrun
  rw [hcloses, htrace] at haccount
  exact ⟨x, hrun, hcloses, hlost, htrace, haccount⟩

end ProxyKernel.SpikeFile
