import ProxyKernel.SpikeFile
import ProxyKernel.Base.Transition

namespace ProxyKernel.SpikeFile
open Effect Transition

/-- The open returns the host's error, and no count, no entry and no host file has changed. -/
def FailsCleanly (t : FileTable) (ret : BitVec 64) : Prop :=
  ∃ t', spikeFileOpenat ret t = .ok (.error ret) t' ∧
    (∀ g, (t'.files g).refcnt = (t.files g).refcnt) ∧ t'.fds = t.fds ∧ t'.closes = t.closes

def failedOpens (rets : List (BitVec 64)) : FileM Unit :=
  rets.forM fun ret => do let _ ← spikeFileOpenat ret

/-- If an open fails for want of a slot after some failed opens, it did so before. -/
def NeverExhausts (t : FileTable) : Prop :=
  ∀ rets t', (∀ ret ∈ rets, ret.toInt < 0) → failedOpens rets t = .ok () t' →
    ∀ ret, spikeFileOpenat ret t' = .ok (.error (-ENOMEM)) t' →
      spikeFileOpenat ret t = .ok (.error (-ENOMEM)) t

theorem openat_of_full {t : FileTable} (h : Full t) (ret : BitVec 64) :
    spikeFileOpenat ret t = .ok (.error (-ENOMEM)) t := by
  rcases openat_run ret t with ⟨-, hrun⟩ | ⟨f, hfree, -⟩
  · exact hrun
  · exact absurd hfree (h f)

theorem failsCleanly_iff {t : FileTable} {ret : BitVec 64} (hret : ret.toInt < 0) :
    FailsCleanly t ret ↔ Full t ∧ ret = -ENOMEM := by
  constructor
  · rintro ⟨t', hrun, hsame, -, -⟩
    rcases openat_run ret t with ⟨hfull, hnone⟩ | ⟨f, hfree, hf⟩
    · rw [hnone] at hrun
      injection hrun with hrun
      injection hrun with hrun
      exact ⟨hfull, hrun.symm⟩
    · -- the slot that was free has the count 2 now
      rw [hf, if_neg (by omega)] at hrun
      injection hrun with _ ht'
      have hcount := hsame f
      rw [← ht', setRefcnt_self, hfree] at hcount
      cases hcount
  · rintro ⟨hfull, rfl⟩
    exact ⟨t, openat_of_full hfull _, fun _ => rfl, rfl, rfl⟩

def freeSlots (t : FileTable) : Finset Slot := Finset.univ.filter fun g => (t.files g).refcnt = 0

theorem freeSlots_eq_empty {t : FileTable} : freeSlots t = ∅ ↔ Full t := by
  simp [freeSlots, Full, Finset.filter_eq_empty_iff]

/-- Every failed open costs a slot. -/
theorem failedOpen_freeSlots (t : FileTable) {ret : BitVec 64} (hret : ret.toInt < 0) :
    ∃ r t', spikeFileOpenat ret t = .ok r t' ∧ (freeSlots t').card = (freeSlots t).card - 1 := by
  rcases openat_run ret t with ⟨hfull, hnone⟩ | ⟨f, hfree, hf⟩
  · refine ⟨_, _, hnone, ?_⟩
    rw [freeSlots_eq_empty.mpr hfull]
    rfl
  · rw [if_neg (by omega)] at hf
    have herase : freeSlots (t.setRefcnt f 2) = (freeSlots t).erase f := by
      ext g
      by_cases hg : g = f
      · subst hg
        simp [freeSlots]
      · simp [freeSlots, hg]
    refine ⟨_, _, hf, ?_⟩
    rw [herase, Finset.card_erase_of_mem (by simp [freeSlots, hfree])]

theorem failedOpens_freeSlots (t : FileTable) {rets : List (BitVec 64)}
    (hrets : ∀ ret ∈ rets, ret.toInt < 0) :
    ∃ t', failedOpens rets t = .ok () t' ∧
      (freeSlots t').card = (freeSlots t).card - rets.length := by
  induction rets generalizing t with
  | nil => exact ⟨t, rfl, rfl⟩
  | cons ret rets ih =>
    obtain ⟨hret, hrest⟩ := List.forall_mem_cons.mp hrets
    obtain ⟨r, u, hu, hcard⟩ := failedOpen_freeSlots t hret
    obtain ⟨t', ht', hcard'⟩ := ih u hrest
    refine ⟨t', ?_, ?_⟩
    · have hcons : failedOpens (ret :: rets) t =
          (spikeFileOpenat ret >>= fun _ => failedOpens rets) t := by simp [failedOpens]
      rw [hcons, bind_of_ok hu]
      exact ht'
    · rw [hcard', hcard, List.length_cons]
      omega

theorem neverExhausts_iff {t : FileTable} : NeverExhausts t ↔ Full t := by
  constructor
  · intro h
    by_contra hnot
    -- as many failed opens as there are free slots
    have hneg : ∀ ret ∈ List.replicate (freeSlots t).card (-2 : BitVec 64), ret.toInt < 0 := by
      intro ret hmem
      rw [List.eq_of_mem_replicate hmem]
      decide
    obtain ⟨t', ht', hcard⟩ := failedOpens_freeSlots t hneg
    rw [List.length_replicate, Nat.sub_self, Finset.card_eq_zero, freeSlots_eq_empty] at hcard
    have hlater := h _ t' hneg ht' 0 (openat_of_full hcard 0)
    rcases openat_run 0 t with ⟨hfull, -⟩ | ⟨f, -, hf⟩
    · exact hnot hfull
    · rw [hlater, if_pos (by decide)] at hf
      injection hf with hf
      cases hf
  · intro hfull rets t' _ _ ret _
    exact openat_of_full hfull ret

/-- An open that fails leaves the table as it was only when it finds no slot and
does not get to ask the host; and failed opens use up the slots of every table
that has any. -/
theorem failed_open_clean_iff (t : FileTable) (ret : BitVec 64) (_ht : Reachable t)
    (hret : ret.toInt < 0) :
    (FailsCleanly t ret ↔ Full t ∧ ret = -ENOMEM) ∧ (NeverExhausts t ↔ Full t) :=
  ⟨failsCleanly_iff hret, neverExhausts_iff⟩

def initTable : FileTable := finalState (spikeFileInit staticTable)

theorem initTable_eq : spikeFileInit staticTable = .ok () initTable :=
  eq_ok_of_returned (by decide +kernel)

theorem reachable_initTable : Reachable initTable := ⟨[], by
  rw [history, bind_of_ok initTable_eq]
  rfl⟩

theorem not_full_initTable : ¬ Full initTable := fun h => h 3 (by decide +kernel)

theorem failed_open_clean_init :
    (FailsCleanly initTable (-2) ↔ Full initTable ∧ (-2 : BitVec 64) = -ENOMEM) ∧
      (NeverExhausts initTable ↔ Full initTable) :=
  failed_open_clean_iff initTable (-2) reachable_initTable (by decide)

theorem failed_open_leaks_slot :
    Reachable initTable ∧ ¬ FailsCleanly initTable (-2) ∧ ¬ NeverExhausts initTable := by
  refine ⟨reachable_initTable, ?_, ?_⟩
  · rw [failsCleanly_iff (by decide)]
    exact fun h => not_full_initTable h.1
  · rw [neverExhausts_iff]
    exact not_full_initTable

/-- The entry at which the next `dup` puts its file. -/
def LeastFree (t : FileTable) (k : Fin MAX_FDS) : Prop :=
  t.fds k = none ∧ ∀ j < k, t.fds j ≠ none

instance (t : FileTable) (k : Fin MAX_FDS) : Decidable (LeastFree t k) :=
  inferInstanceAs (Decidable (_ ∧ _))

theorem LeastFree.unique {t : FileTable} {k k' : Fin MAX_FDS} (h : LeastFree t k)
    (h' : LeastFree t k') : k = k' := by
  rcases lt_trichotomy k k' with hlt | heq | hlt
  · exact absurd h.1 (h'.2 k hlt)
  · exact heq
  · exact absurd h'.1 (h.2 k' hlt)

def FileTable.dupAt (t : FileTable) (f : Slot) (i : Fin MAX_FDS) : FileTable :=
  (t.setFd i (some f)).setRefcnt f ((t.files f).refcnt + 1)

theorem dupLoop_run {t : FileTable} {f : Slot} (hopen : (t.files f).refcnt ≠ 0)
    (is : List (Fin MAX_FDS)) :
    dupLoop f is t = match is.find? fun i => (t.fds i).isNone with
      | some i => .ok i.val (t.dupAt f i)
      | none => .ok (-1) t := by
  induction is with
  | nil => rfl
  | cons i is ih =>
    rw [dupLoop, bind_of_ok (casFd_run i none (some f) t)]
    cases hi : t.fds i with
    | none =>
      have hincref : spikeFileIncref f (t.setFd i (some f)) = .ok () (t.dupAt f i) := by
        have hadd : addRefcnt f 1 (t.setFd i (some f)) = .ok (t.files f).refcnt (t.dupAt f i) := rfl
        rw [spikeFileIncref, bind_of_ok hadd, if_neg hopen]
        rfl
      rw [if_pos rfl, if_pos rfl, bind_of_ok hincref, List.find?_cons_of_pos (by rw [hi]; rfl)]
      rfl
    | some g =>
      rw [if_neg (by simp), if_neg (by simp), ih, List.find?_cons_of_neg (by rw [hi]; simp)]

theorem dup_run {t : FileTable} {f : Slot} (hopen : (t.files f).refcnt ≠ 0) :
    (∃ k, LeastFree t k ∧ spikeFileDup f t = .ok k.val (t.dupAt f k)) ∨
      (∀ i, t.fds i ≠ none) ∧ spikeFileDup f t = .ok (-1) t := by
  rw [spikeFileDup, dupLoop_run hopen]
  cases hfind : (List.finRange MAX_FDS).find? fun i => (t.fds i).isNone with
  | none =>
    refine .inr ⟨?_, rfl⟩
    intro i hi
    have hsome := List.find?_eq_none.mp hfind i (List.mem_finRange i)
    rw [hi] at hsome
    exact hsome rfl
  | some k =>
    refine .inl ⟨k, ?_, rfl⟩
    obtain ⟨hk, before, behind, hsplit, hbefore⟩ := List.find?_eq_some_iff_append.mp hfind
    refine ⟨Option.isNone_iff_eq_none.mp hk, ?_⟩
    intro j hj hnone
    -- the indices are visited in their order
    have hsorted := List.pairwise_lt_finRange MAX_FDS
    have hmem : j ∈ before ++ k :: behind := hsplit ▸ List.mem_finRange j
    rw [hsplit] at hsorted
    rcases List.mem_append.mp hmem with hmem | hmem
    · have := hbefore j hmem
      rw [hnone] at this
      cases this
    · rcases List.mem_cons.mp hmem with rfl | hmem
      · exact absurd hj (lt_irrefl j)
      · have hlt := (List.pairwise_cons.mp (List.pairwise_append.mp hsorted).2.1).1 j hmem
        exact absurd hj (not_lt.mpr hlt.le)

def FileTable.decref (t : FileTable) (f : Slot) : FileTable :=
  if (t.files f).refcnt = 2 then (t.setRefcnt f 0).hostClose (t.files f).kfd
  else t.setRefcnt f ((t.files f).refcnt - 1)

@[simp] theorem decref_fds (t : FileTable) (f : Slot) : (t.decref f).fds = t.fds := by
  unfold FileTable.decref
  split_ifs <;> rfl

theorem decref_self (t : FileTable) (f : Slot) : (t.decref f).files f =
    ⟨(t.files f).kfd, if (t.files f).refcnt = 2 then 0 else (t.files f).refcnt - 1⟩ := by
  unfold FileTable.decref
  split_ifs
  · exact setRefcnt_self t f 0
  · exact setRefcnt_self t f _

theorem decref_of_ne (t : FileTable) {f g : Slot} (h : g ≠ f) :
    (t.decref f).files g = t.files g := by
  unfold FileTable.decref
  split_ifs
  · exact setRefcnt_of_ne t 0 h
  · exact setRefcnt_of_ne t _ h

theorem close_result {t : FileTable} {f : Slot} {i : Fin MAX_FDS}
    (hi : fdIndex (t.files f).kfd = some i) :
    spikeFileClose (some f) t =
      if t.fds i = some f then .ok 0 (((t.setFd i none).decref f).decref f)
      else .ok (-1) (t.decref f) := by
  have hrun (u : FileTable) : spikeFileDecref f u = .ok () (u.decref f) := decref_run f u
  rw [close_run hi]
  split_ifs
  · rw [bind_of_ok (hrun _), bind_of_ok (hrun _)]
    rfl
  · rw [bind_of_ok (hrun _)]
    rfl

theorem close_outOfBounds {t : FileTable} {f : Slot} (hi : fdIndex (t.files f).kfd = none) :
    spikeFileClose (some f) t = .error .outOfBounds t := by
  unfold spikeFileClose
  dsimp only
  rw [get_bind, hi]
  rfl

/-- Whenever a `dup` gives the file an entry, a close that comes next stays in the
array, returns 0, and clears this entry and no other. -/
def ClosesOwn (t : FileTable) (f : Slot) : Prop :=
  ∀ i t₁, spikeFileDup f t = .ok i t₁ → 0 ≤ i → ∃ t₂, spikeFileClose (some f) t₁ = .ok 0 t₂ ∧
    ∀ j : Fin MAX_FDS, t₂.fds j = if (j.val : ℤ) = i then none else t₁.fds j

/-- The host's descriptor of the file is the index that `dup` gives next, if it
has any to give. -/
def OwnIndexNext (t : FileTable) (f : Slot) : Prop :=
  (∀ i, t.fds i ≠ none) ∨ ∃ k, fdIndex (t.files f).kfd = some k ∧ LeastFree t k

theorem dupAt_kfd (t : FileTable) (f : Slot) (k : Fin MAX_FDS) :
    ((t.dupAt f k).files f).kfd = (t.files f).kfd := by
  rw [FileTable.dupAt, setRefcnt_self]
  rfl

theorem dupAt_fds (t : FileTable) (f : Slot) (k j : Fin MAX_FDS) :
    (t.dupAt f k).fds j = if j = k then some f else t.fds j :=
  Function.update_apply t.fds k (some f) j

theorem closesOwn_iff {t : FileTable} {f : Slot} (hopen : (t.files f).refcnt ≠ 0) :
    ClosesOwn t f ↔ OwnIndexNext t f := by
  constructor
  · intro h
    rcases dup_run hopen with ⟨k, hk, hdup⟩ | ⟨hfull, -⟩
    · refine .inr ⟨k, ?_, hk⟩
      obtain ⟨t₂, hclose, hfds⟩ := h _ _ hdup (Int.natCast_nonneg _)
      have hown : t₂.fds k = none := by rw [hfds, if_pos rfl]
      cases hi : fdIndex (t.files f).kfd with
      | none =>
        rw [close_outOfBounds (by rw [dupAt_kfd, hi])] at hclose
        cases hclose
      | some i =>
        rw [close_result (by rw [dupAt_kfd, hi])] at hclose
        split_ifs at hclose
        · injection hclose with _ ht₂
          -- the entry that was cleared is the one at the host's descriptor
          by_contra hne
          have hkeep : t₂.fds k = some f := by
            have hki : k ≠ i := fun heq => hne (congrArg some heq.symm)
            have hentry : (t.dupAt f k).fds k = some f := by rw [dupAt_fds, if_pos rfl]
            rw [← ht₂, decref_fds, decref_fds]
            exact (Function.update_of_ne hki _ _).trans hentry
          rw [hkeep] at hown
          cases hown
        · injection hclose with hret
          omega
    · exact .inl hfull
  · rintro (hfull | ⟨k, hi, hk⟩) i t₁ hdup hnonneg
    · rcases dup_run hopen with ⟨k, hk, -⟩ | ⟨-, hrun⟩
      · exact absurd hk.1 (hfull k)
      · rw [hrun] at hdup
        injection hdup with hdup
        omega
    · rcases dup_run hopen with ⟨k', hk', hrun⟩ | ⟨hfull, -⟩
      · obtain rfl := hk.unique hk'
        rw [hrun] at hdup
        injection hdup with hret ht₁
        subst hret ht₁
        rw [close_result (by rw [dupAt_kfd, hi]), if_pos (by rw [dupAt_fds, if_pos rfl])]
        refine ⟨_, rfl, ?_⟩
        intro j
        have hval : (j.val : ℤ) = k.val ↔ j = k := by
          rw [Int.natCast_inj, Fin.val_inj]
        simp only [decref_fds, hval]
        exact Function.update_apply _ k none j
      · exact absurd hk.1 (hfull k)

def fileStep (c : Call) (t : FileTable) : Option FileTable :=
  match c.exec t with
  | .ok _ t' => some t'
  | .error _ _ => none

/-- The call is made for an open file, and a `dup` finds the file's own index next. -/
def Careful : Call → FileTable → Prop
  | .spikeOpen _, _ => True
  | .dup f, t => (t.files f).refcnt ≠ 0 ∧ OwnIndexNext t f
  | .close none, _ => True
  | .close (some f), t => (t.files f).refcnt ≠ 0

/-- No entry of `spike_fds` points to a free slot. -/
def NoDangling (t : FileTable) : Prop := ∀ i f, t.fds i = some f → (t.files f).refcnt ≠ 0

/-- Every entry stands at the host's descriptor of its file, and the count says
whether the file has an entry. -/
structure Orderly (t : FileTable) : Prop where
  own : ∀ i f, t.fds i = some f → fdIndex (t.files f).kfd = some i
  listed : ∀ i f, t.fds i = some f → (t.files f).refcnt = 3 ∨ (t.files f).refcnt = 4
  unlisted : ∀ f, (∀ i, t.fds i ≠ some f) →
    (t.files f).refcnt = 0 ∨ (t.files f).refcnt = 2 ∨ (t.files f).refcnt = 3

theorem Orderly.noDangling {t : FileTable} (h : Orderly t) : NoDangling t := by
  intro i f hi hzero
  rcases h.listed i f hi with hcount | hcount
  · rw [hzero] at hcount
    cases hcount
  · rw [hzero] at hcount
    cases hcount

/-- A file whose own index does not hold it has no entry. -/
theorem Orderly.unlisted_of_own {t : FileTable} {f : Slot} {k : Fin MAX_FDS} (h : Orderly t)
    (hk : fdIndex (t.files f).kfd = some k) (hne : t.fds k ≠ some f) : ∀ i, t.fds i ≠ some f := by
  intro i hi
  have hik := (h.own i f hi).symm.trans hk
  injection hik with hik
  exact hne (hik ▸ hi)

/-- A table is orderly when its new entries are, and its old ones have kept their
files. -/
theorem Orderly.of_entries {t t' : FileTable} (h : Orderly t)
    (hentry : ∀ i g, t'.fds i = some g → t.fds i = some g ∧ t'.files g = t.files g ∨
      fdIndex (t'.files g).kfd = some i ∧
        ((t'.files g).refcnt = 3 ∨ (t'.files g).refcnt = 4))
    (hunlisted : ∀ g, (∀ i, t'.fds i ≠ some g) →
      (t'.files g).refcnt = 0 ∨ (t'.files g).refcnt = 2 ∨ (t'.files g).refcnt = 3) :
    Orderly t' := by
  refine ⟨?_, ?_, hunlisted⟩
  · intro i g hi
    rcases hentry i g hi with ⟨hold, hg⟩ | ⟨hown, -⟩
    · rw [hg]
      exact h.own i g hold
    · exact hown
  · intro i g hi
    rcases hentry i g hi with ⟨hold, hg⟩ | ⟨-, hcount⟩
    · rw [hg]
      exact h.listed i g hold
    · exact hcount

theorem Orderly.of_unlisted {t t' : FileTable} {f : Slot} (h : Orderly t)
    (hf : ∀ i, t.fds i ≠ some f) (hfds : t'.fds = t.fds)
    (hsame : ∀ g, g ≠ f → t'.files g = t.files g)
    (hcount : (t'.files f).refcnt = 0 ∨ (t'.files f).refcnt = 2 ∨ (t'.files f).refcnt = 3) :
    Orderly t' := by
  refine h.of_entries ?_ ?_
  · intro i g hi
    rw [hfds] at hi
    exact .inl ⟨hi, hsame g fun hg => hf i (hg ▸ hi)⟩
  · intro g hg
    by_cases hgf : g = f
    · rw [hgf]
      exact hcount
    · rw [hsame g hgf]
      exact h.unlisted g (by rwa [hfds] at hg)

theorem Orderly.openat {t t' : FileTable} (h : Orderly t) {ret : BitVec 64}
    {r : Except (BitVec 64) Slot} (hrun : spikeFileOpenat ret t = .ok r t') : Orderly t' := by
  rcases openat_run ret t with ⟨-, hnone⟩ | ⟨f, hfree, hf⟩
  · rw [hnone] at hrun
    injection hrun with _ ht
    exact ht ▸ h
  · have hlist : ∀ i, t.fds i ≠ some f := fun i hi => h.noDangling i f hi hfree
    rw [hf] at hrun
    split_ifs at hrun
    · injection hrun with _ ht
      subst ht
      refine h.of_unlisted hlist rfl ?_ (.inr (.inr ?_))
      · intro g hg
        exact (Function.update_of_ne hg _ _).trans (setRefcnt_of_ne t _ hg)
      · rw [setKfd_self, setRefcnt_self]
        rfl
    · injection hrun with _ ht
      subst ht
      refine h.of_unlisted hlist rfl (fun g hg => setRefcnt_of_ne t _ hg) (.inr (.inl ?_))
      rw [setRefcnt_self]

theorem Orderly.dup {t t' : FileTable} (h : Orderly t) {f : Slot} {r : ℤ}
    (hopen : (t.files f).refcnt ≠ 0) (hnext : OwnIndexNext t f)
    (hrun : spikeFileDup f t = .ok r t') : Orderly t' := by
  rcases dup_run hopen with ⟨k, hk, hdup⟩ | ⟨-, hdup⟩
  · rw [hdup] at hrun
    injection hrun with _ ht
    subst ht
    have hkfd : fdIndex (t.files f).kfd = some k := by
      rcases hnext with hfull | ⟨k', hi, hk'⟩
      · exact absurd hk.1 (hfull k)
      · rw [hi, hk.unique hk']
    -- the file had no entry, for it would have been at `k`
    have hlist : ∀ i, t.fds i ≠ some f := by
      refine h.unlisted_of_own hkfd ?_
      rw [hk.1]
      exact nofun
    have hcount : ((t.dupAt f k).files f).refcnt = 3 ∨ ((t.dupAt f k).files f).refcnt = 4 := by
      have hself : ((t.dupAt f k).files f).refcnt = (t.files f).refcnt + 1 := by
        rw [FileTable.dupAt, setRefcnt_self]
      rw [hself]
      rcases h.unlisted f hlist with hc | hc | hc
      · exact absurd hc hopen
      · exact .inl (by rw [hc]; rfl)
      · exact .inr (by rw [hc]; rfl)
    refine h.of_entries ?_ ?_
    · intro i g hi
      rw [dupAt_fds] at hi
      split_ifs at hi with hik
      · injection hi with hi
        subst hi
        exact .inr ⟨by rw [dupAt_kfd, hkfd, hik], hcount⟩
      · exact .inl ⟨hi, setRefcnt_of_ne _ _ fun hg => hlist i (hg ▸ hi)⟩
    · intro g hg
      have hgf : g ≠ f := by
        rintro rfl
        exact hg k (by rw [dupAt_fds, if_pos rfl])
      have hold : (t.dupAt f k).files g = t.files g := setRefcnt_of_ne _ _ hgf
      rw [hold]
      refine h.unlisted g fun i hi => ?_
      have hik : i ≠ k := by
        rintro rfl
        rw [hk.1] at hi
        cases hi
      exact hg i (by rw [dupAt_fds, if_neg hik, hi])
  · rw [hdup] at hrun
    injection hrun with _ ht
    exact ht ▸ h

theorem Orderly.of_cleared {t t' : FileTable} {f : Slot} {i : Fin MAX_FDS} (h : Orderly t)
    (hown : t.fds i = some f) (hfds : t'.fds = Function.update t.fds i none)
    (hsame : ∀ g, g ≠ f → t'.files g = t.files g)
    (hcount : (t'.files f).refcnt = 0 ∨ (t'.files f).refcnt = 2) : Orderly t' := by
  refine h.of_entries ?_ ?_
  · intro j g hj
    have hji : j ≠ i := by
      rintro rfl
      rw [hfds, Function.update_self] at hj
      cases hj
    rw [hfds, Function.update_of_ne hji] at hj
    refine .inl ⟨hj, hsame g ?_⟩
    -- no slot has two entries, since both would be at its own index
    rintro rfl
    have hindex := (h.own j g hj).symm.trans (h.own i g hown)
    injection hindex with hindex
    exact hji hindex
  · intro g hg
    by_cases hgf : g = f
    · rw [hgf]
      exact hcount.imp_right .inl
    · rw [hsame g hgf]
      refine h.unlisted g fun j hj => hg j ?_
      have hji : j ≠ i := by
        rintro rfl
        rw [hown] at hj
        injection hj with hj
        exact hgf hj.symm
      rw [hfds, Function.update_of_ne hji, hj]

theorem Orderly.close {t t' : FileTable} (h : Orderly t) {f : Slot} {r : ℤ}
    (hopen : (t.files f).refcnt ≠ 0) (hrun : spikeFileClose (some f) t = .ok r t') :
    Orderly t' := by
  cases hi : fdIndex (t.files f).kfd with
  | none =>
    rw [close_outOfBounds hi] at hrun
    cases hrun
  | some i =>
    rw [close_result hi] at hrun
    split_ifs at hrun with hown
    · -- the count gets from 3 to 0 or from 4 to 2
      injection hrun with _ ht
      subst ht
      refine h.of_cleared hown ?_ ?_ ?_
      · rw [decref_fds, decref_fds]
        rfl
      · intro g hg
        rw [decref_of_ne _ hg, decref_of_ne _ hg, setFd_files]
      · rw [decref_self, decref_self, setFd_files]
        rcases h.listed i f hown with hc | hc
        · simp [hc]
        · simp [hc]
    · -- a file whose entry is not at its own index has none
      injection hrun with _ ht
      subst ht
      have hlist : ∀ j, t.fds j ≠ some f := h.unlisted_of_own hi hown
      refine h.of_unlisted hlist (decref_fds t f) (fun g hg => decref_of_ne t hg) ?_
      rw [decref_self]
      rcases h.unlisted f hlist with hc | hc | hc
      · exact absurd hc hopen
      · rw [hc]
        exact .inl rfl
      · rw [hc]
        exact .inr (.inl rfl)

theorem fileStep_eq_some {c : Call} {t t' : FileTable} (h : fileStep c t = some t') :
    c.exec t = .ok () t' := by
  unfold fileStep at h
  split at h
  next heq =>
    injection h with h
    rw [heq, h]
  next => cases h

theorem fileStep_orderly (c : Call) (t t' : FileTable) (h : Orderly t) (hc : Careful c t)
    (hstep : fileStep c t = some t') : Orderly t' := by
  have hrun := fileStep_eq_some hstep
  cases c with
  | spikeOpen ret =>
    obtain ⟨r, u, hu, hend⟩ := bind_eq_ok.mp hrun
    injection hend with _ hend
    exact hend ▸ h.openat hu
  | dup f =>
    obtain ⟨r, u, hu, hend⟩ := bind_eq_ok.mp hrun
    injection hend with _ hend
    exact hend ▸ h.dup hc.1 hc.2 hu
  | close f =>
    obtain ⟨r, u, hu, hend⟩ := bind_eq_ok.mp hrun
    injection hend with _ hend
    cases f with
    | none =>
      injection hu with _ hu
      exact hend ▸ hu ▸ h
    | some f => exact hend ▸ h.close hc hu

theorem initTable_fds : ∀ i, initTable.fds i = if i.val < 3 then some i else none := by
  decide +kernel

theorem initTable_files : ∀ f, initTable.files f =
    if f.val < 3 then ⟨BitVec.ofNat 32 f.val, 4⟩ else ⟨-1, 0⟩ := by
  decide +kernel

theorem orderly_initTable : Orderly initTable := by
  -- the three entries are those of the first three slots
  have hentry : ∀ i f, initTable.fds i = some f → f.val < 3 ∧ i = f := by
    intro i f hi
    rw [initTable_fds] at hi
    split_ifs at hi with hlt
    injection hi with hi
    exact ⟨hi ▸ hlt, hi⟩
  refine ⟨?_, ?_, ?_⟩
  · intro i f hi
    obtain ⟨hlt, rfl⟩ := hentry i f hi
    rw [initTable_files, if_pos hlt]
    have hkfd : (BitVec.ofNat 32 i.val).toNat = i.val :=
      Nat.mod_eq_of_lt (lt_trans i.isLt (by decide))
    simp [fdIndex, hkfd]
  · intro i f hi
    rw [initTable_files, if_pos (hentry i f hi).1]
    exact .inr rfl
  · intro f hf
    have hge : ¬ f.val < 3 := fun hlt => hf f (by rw [initTable_fds, if_pos hlt])
    rw [initTable_files, if_neg hge]
    exact .inl rfl

/-- A close after a `dup` clears the entry that the `dup` has made exactly when
the host's descriptor of the file was the next index to give; and where every
`dup` of a history is made at such a moment, no entry is left with a free slot. -/
theorem dup_close_clears_iff (t : FileTable) (f : Slot) (hopen : (t.files f).refcnt ≠ 0) :
    (ClosesOwn t f ↔ OwnIndexNext t f) ∧
      ∀ calls t', Along Careful fileStep calls initTable → run fileStep calls initTable = some t' →
        NoDangling t' :=
  ⟨closesOwn_iff hopen, fun _ _ hcareful hrun =>
    (run_invariant fileStep_orderly orderly_initTable hcareful hrun).noDangling⟩

/-- A file that the host has opened as 3 gets its own index from `dup`, and it can
be closed again. -/
theorem dup_close_clears_three :
    let t := finalState (history [.spikeOpen 3] staticTable)
    OwnIndexNext t 3 ∧ (ClosesOwn t 3 ↔ OwnIndexNext t 3) ∧
      ∀ calls t', Along Careful fileStep calls initTable → run fileStep calls initTable = some t' →
        NoDangling t' :=
  ⟨.inr ⟨3, by decide +kernel, by decide +kernel⟩, dup_close_clears_iff _ 3 (by decide +kernel)⟩

/-- A file that the host has opened as 7 gets index 3, and the close looks at index
7.  When it is closed until its slot is free, the entry is still there. -/
theorem dup_close_leaves_entry :
    (∃ t f, Reachable t ∧ (t.files f).refcnt ≠ 0 ∧ 0 ≤ (t.files f).kfd.toInt ∧ ¬ ClosesOwn t f) ∧
      ∃ t, Reachable t ∧ ¬ NoDangling t := by
  constructor
  · have hrun := eq_ok_of_returned (r := history [.spikeOpen 7] staticTable) (a := ())
      (by decide +kernel)
    have hopen : ((finalState (history [.spikeOpen 7] staticTable)).files 3).refcnt ≠ 0 := by
      decide +kernel
    refine ⟨_, 3, ⟨_, hrun⟩, hopen, by decide +kernel, ?_⟩
    rw [closesOwn_iff hopen]
    unfold OwnIndexNext
    decide +kernel
  · have hrun := eq_ok_of_returned (r := history staleCalls staticTable) (a := ())
      (by decide +kernel)
    refine ⟨_, ⟨_, hrun⟩, ?_⟩
    intro h
    exact h 3 3 (by decide +kernel) (by decide +kernel)

end ProxyKernel.SpikeFile
