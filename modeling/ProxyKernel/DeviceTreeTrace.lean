import Mathlib.Data.FinEnum
import ProxyKernel.DeviceTreeScan
import ProxyKernel.Base.Counter

/-!
Without a close callback, the calls of a scan and its end depend on memory only.
`trace` has them, for well-formed and for malformed memory alike.  Where the scan
goes next depends on even less: on the place in memory, on whether a child has
been seen, and on whether the depth is 0.
-/

namespace ProxyKernel.Fdt
open ByteMem Effect

def afterName (m : Mem) (lex : Word) : Word :=
  lex + 4 * BitVec.ofNat 64 (2 + (strAt m (lex + 4)).length / 4)

/-- The calls of `fdt_scan_helper` with its result, for callbacks that all return. -/
def trace (m : Mem) (strings : Word) : ℕ → Word → List FdtScanNode → FdtScanNode → Bool →
    List Call × Except ScanFault (Word × List FdtScanNode)
  | 0, _, _, _, _ => ([], .error .outOfFuel)
  | fuel + 1, lex, node, child, last =>
    if cell m lex 0 = FDT_NOP then trace m strings fuel (lex + 4) node child last
    else if cell m lex 0 = FDT_PROP then
      if last then ([], .error .propAfterChild)
      else
        let prop := propAt m strings lex node
        let t := trace m strings fuel (afterProp lex prop.len) prop.node child last
        (.nodeProp prop :: t.1, t.2)
    else if cell m lex 0 = FDT_BEGIN_NODE then
      let child := { child with name := lex + 4 }
      let calls := doneCalls last node ++ [.nodeOpen (child :: node)]
      let t := trace m strings fuel (afterName m lex) (child :: node) freshChild false
      match t.2 with
      | .error e => (calls ++ t.1, .error e)
      | .ok r =>
        let t' := trace m strings fuel r.1 node (r.2.headD child) true
        (calls ++ (t.1 ++ t'.1), t'.2)
    else if cell m lex 0 = FDT_END_NODE then (doneCalls last node, .ok (lex + 4, node))
    else (doneCalls last node, .ok (lex, node))

variable {m : Mem} {strings lex : Word} {fuel : ℕ} {node : List FdtScanNode} {child : FdtScanNode}
  {last : Bool}

theorem trace_nop (h : cell m lex 0 = FDT_NOP) :
    trace m strings (fuel + 1) lex node child last =
      trace m strings fuel (lex + 4) node child last := by
  rw [trace, if_pos h]

theorem trace_prop_true (h : cell m lex 0 = FDT_PROP) :
    trace m strings (fuel + 1) lex node child true = ([], .error .propAfterChild) := by
  rw [trace, if_neg (by rw [h]; decide), if_pos h]
  rfl

theorem trace_prop (h : cell m lex 0 = FDT_PROP) :
    trace m strings (fuel + 1) lex node child false =
      let prop := propAt m strings lex node
      let t := trace m strings fuel (afterProp lex prop.len) prop.node child false
      (.nodeProp prop :: t.1, t.2) := by
  rw [trace, if_neg (by rw [h]; decide), if_pos h]
  rfl

theorem trace_begin (h : cell m lex 0 = FDT_BEGIN_NODE) :
    trace m strings (fuel + 1) lex node child last =
      let child := { child with name := lex + 4 }
      let calls := doneCalls last node ++ [.nodeOpen (child :: node)]
      let t := trace m strings fuel (afterName m lex) (child :: node) freshChild false
      match t.2 with
      | .error e => (calls ++ t.1, .error e)
      | .ok r =>
        let t' := trace m strings fuel r.1 node (r.2.headD child) true
        (calls ++ (t.1 ++ t'.1), t'.2) := by
  rw [trace, if_neg (by rw [h]; decide), if_neg (by rw [h]; decide), if_pos h]

theorem trace_endNode (h : cell m lex 0 = FDT_END_NODE) :
    trace m strings (fuel + 1) lex node child last =
      (doneCalls last node, .ok (lex + 4, node)) := by
  rw [trace, if_neg (by rw [h]; decide), if_neg (by rw [h]; decide), if_neg (by rw [h]; decide),
    if_pos h]

theorem trace_other (h : IsOther (cell m lex 0)) :
    trace m strings (fuel + 1) lex node child last = (doneCalls last node, .ok (lex, node)) := by
  rw [trace, if_neg h.1, if_neg h.2.1, if_neg h.2.2.1, if_neg h.2.2.2]

def finish {σ α : Type} : Except ScanFault α → Scan σ α
  | .ok a => pure a
  | .error e => throw e

theorem scan_trace {σ : Type} {cb : FdtCb σ} (hclose : cb.onClose = none) (fuel : ℕ) (lex : Word)
    (node : List FdtScanNode) (child : FdtScanNode) (last : Bool) :
    EqAt m (fdtScanHelper cb strings fuel lex node child last)
      (cb.issueAll (trace m strings fuel lex node child last).1 >>= fun _ =>
        finish (trace m strings fuel lex node child last).2) := by
  induction fuel generalizing lex node child last with
  | zero =>
    intro s _
    rfl
  | succ fuel ih =>
    intro s hs
    rcases token_cases (cell m lex 0) with h | h | h | h | h
    · rw [fdtScanHelper_nop (by rw [hs]; exact h), trace_nop h]
      exact ih _ _ _ _ s hs
    · cases last with
      | true =>
        rw [fdtScanHelper_prop_true (by rw [hs]; exact h), trace_prop_true h]
        rfl
      | false =>
        rw [fdtScanHelper_prop (by rw [hs]; exact h), trace_prop h, hs, ← issueAll_singleton]
        refine (ih _ _ _ _).issueAll_bind.trans ?_ s hs
        rw [← bind_assoc, ← issueAll_append]
        exact fun _ _ => rfl
    · rw [fdtScanHelper_begin (by rw [hs]; exact h), trace_begin h, hs, doneUnless_eq,
        ← issueAll_singleton, ← bind_assoc, ← issueAll_append]
      simp only [FdtCb.closeNode_eq hclose, pure_bind]
      set inner := { child with name := lex + 4 }
      set t := trace m strings fuel (afterName m lex) (inner :: node) freshChild false with ht
      have hinner := ih (afterName m lex) (inner :: node) freshChild false
      rw [← ht] at hinner
      generalize doneCalls last node ++ [Call.nodeOpen (inner :: node)] = calls
      cases hend : t.2 with
      | error e =>
        rw [hend] at hinner
        dsimp only
        rw [issueAll_append, bind_assoc]
        refine EqAt.issueAll_bind ?_ s hs
        refine (hinner.bind_left _).trans ?_
        intro s _
        rw [bind_assoc]
        rfl
      | ok r =>
        rw [hend] at hinner
        dsimp only
        rw [issueAll_append, issueAll_append, bind_assoc, bind_assoc]
        refine EqAt.issueAll_bind ?_ s hs
        refine (hinner.bind_left _).trans ?_
        rw [bind_assoc]
        refine EqAt.issueAll_bind ?_
        exact ih _ _ _ _
    · rw [fdtScanHelper_endNode (by rw [hs]; exact h), trace_endNode h, doneUnless_eq]
      rfl
    · rw [fdtScanHelper_other (by rw [hs]; exact h), trace_other h, doneUnless_eq]
      rfl

def Complete (t : List Call × Except ScanFault (Word × List FdtScanNode)) : Prop :=
  t.2 ≠ .error .outOfFuel

variable (m strings) in
/-- More fuel adds calls at the end, and nothing to a complete trace. -/
theorem trace_succ (fuel : ℕ) (lex : Word) (node : List FdtScanNode) (child : FdtScanNode)
    (last : Bool) :
    (trace m strings fuel lex node child last).1 <+:
        (trace m strings (fuel + 1) lex node child last).1 ∧
      (Complete (trace m strings fuel lex node child last) →
        trace m strings (fuel + 1) lex node child last =
          trace m strings fuel lex node child last) := by
  induction fuel generalizing lex node child last with
  | zero => exact ⟨⟨_, List.nil_append _⟩, fun h => absurd rfl h⟩
  | succ fuel ih =>
    rcases token_cases (cell m lex 0) with h | h | h | h | h
    · rw [trace_nop h, trace_nop h]
      exact ih _ _ _ _
    · cases last with
      | true =>
        rw [trace_prop_true h, trace_prop_true h]
        exact ⟨List.prefix_rfl, fun _ => rfl⟩
      | false =>
        obtain ⟨hcalls, hsame⟩ := ih (afterProp lex (propAt m strings lex node).len)
          (propAt m strings lex node).node child false
        rw [trace_prop h, trace_prop h]
        refine ⟨(List.prefix_cons_inj _).mpr hcalls, ?_⟩
        intro hdone
        dsimp only
        rw [hsame hdone]
    · obtain ⟨hcalls, hsame⟩ := ih (afterName m lex) ({ child with name := lex + 4 } :: node)
        freshChild false
      rw [trace_begin h, trace_begin h]
      dsimp only
      generalize doneCalls last node ++ [Call.nodeOpen ({ child with name := lex + 4 } :: node)] =
        calls
      cases hend : (trace m strings fuel (afterName m lex) ({ child with name := lex + 4 } :: node)
        freshChild false).2 with
      | error e =>
        refine ⟨?_, ?_⟩
        · dsimp only
          split
          · exact (List.prefix_append_right_inj _).mpr hcalls
          · exact (List.prefix_append_right_inj _).mpr (hcalls.trans (List.prefix_append _ _))
        · intro hdone
          rw [hsame (by rw [Complete, hend]; exact hdone), hend]
      | ok r =>
        obtain ⟨hrest, hrestSame⟩ := ih r.1 node (r.2.headD { child with name := lex + 4 }) true
        rw [hsame (by rw [Complete, hend]; exact nofun), hend]
        refine ⟨?_, ?_⟩
        · dsimp only
          rw [List.prefix_append_right_inj, List.prefix_append_right_inj]
          exact hrest
        · intro hdone
          dsimp only
          rw [hrestSame hdone]
    · rw [trace_endNode h, trace_endNode h]
      exact ⟨List.prefix_rfl, fun _ => rfl⟩
    · rw [trace_other h, trace_other h]
      exact ⟨List.prefix_rfl, fun _ => rfl⟩

variable (m strings) in
theorem trace_le {fuel fuel' : ℕ} (hle : fuel ≤ fuel') (lex : Word) (node : List FdtScanNode)
    (child : FdtScanNode) (last : Bool) :
    (trace m strings fuel lex node child last).1 <+:
        (trace m strings fuel' lex node child last).1 ∧
      (Complete (trace m strings fuel lex node child last) →
        trace m strings fuel' lex node child last =
          trace m strings fuel lex node child last) := by
  induction fuel', hle using Nat.le_induction with
  | base => exact ⟨List.prefix_rfl, fun _ => rfl⟩
  | succ n _ ih =>
    obtain ⟨hcalls, hsame⟩ := trace_succ m strings n lex node child last
    refine ⟨ih.1.trans hcalls, ?_⟩
    intro hdone
    rw [hsame (by rw [ih.2 hdone]; exact hdone), ih.2 hdone]

theorem trace_error {fuel : ℕ} {lex : Word} {node : List FdtScanNode} {child : FdtScanNode}
    {last : Bool} {e : ScanFault} (h : (trace m strings fuel lex node child last).2 = .error e) :
    e = .propAfterChild ∨ e = .outOfFuel := by
  induction fuel generalizing lex node child last with
  | zero =>
    injection h with h
    exact .inr h.symm
  | succ fuel ih =>
    rcases token_cases (cell m lex 0) with htok | htok | htok | htok | htok
    · rw [trace_nop htok] at h
      exact ih h
    · cases last with
      | true =>
        rw [trace_prop_true htok] at h
        injection h with h
        exact .inl h.symm
      | false =>
        rw [trace_prop htok] at h
        exact ih h
    · rw [trace_begin htok] at h
      dsimp only at h
      split at h
      next e' hend =>
        injection h with h
        exact ih (h ▸ hend)
      next => exact ih h
    · rw [trace_endNode htok] at h
      cases h
    · rw [trace_other htok] at h
      cases h

/-- Where the scan is and whether it has seen a child here, with the depth. -/
abbrev Place := (Word × Bool) × ℕ

/-- What comes after a return from depth `depth` to `lex`. -/
def resume (lex : Word) : ℕ → Option Place
  | 0 => none
  | depth + 1 => some ((lex, true), depth)

def nextPlace (m : Mem) : Place → Option Place
  | ((lex, last), depth) =>
    if cell m lex 0 = FDT_NOP then some ((lex + 4, last), depth)
    else if cell m lex 0 = FDT_PROP then
      if last then none else some ((afterProp lex (cell m lex 1), false), depth)
    else if cell m lex 0 = FDT_BEGIN_NODE then some ((afterName m lex, false), depth + 1)
    else if cell m lex 0 = FDT_END_NODE then resume (lex + 4) depth
    else resume lex depth

theorem resume_upward {lex : Word} {depth depth' : ℕ} {q : Word × Bool}
    (h : resume lex depth = some (q, depth')) (e : ℕ) :
    resume lex (depth + e) = some (q, depth' + e) := by
  cases depth with
  | zero => cases h
  | succ depth =>
    injection h with h
    injection h with hq hdepth
    rw [← hq, ← hdepth, Nat.add_right_comm]
    rfl

theorem nextPlace_upward (m : Mem) : Counter.Upward (nextPlace m) := by
  rintro ⟨lex, last⟩ depth q depth' h e
  unfold nextPlace at h ⊢
  dsimp only at h ⊢
  split_ifs at h ⊢
  · injection h with h
    injection h with hq hdepth
    rw [← hq, ← hdepth]
  · injection h with h
    injection h with hq hdepth
    rw [← hq, ← hdepth]
  · injection h with h
    injection h with hq hdepth
    rw [← hq, ← hdepth, Nat.add_right_comm]
  · exact resume_upward h e
  · exact resume_upward h e

section NextPlace

variable {depth : ℕ}

theorem nextPlace_nop (h : cell m lex 0 = FDT_NOP) :
    nextPlace m ((lex, last), depth) = some ((lex + 4, last), depth) := by
  rw [nextPlace, if_pos h]

theorem nextPlace_prop_true (h : cell m lex 0 = FDT_PROP) :
    nextPlace m ((lex, true), depth) = none := by
  rw [nextPlace, if_neg (by rw [h]; decide), if_pos h]
  rfl

theorem nextPlace_prop (h : cell m lex 0 = FDT_PROP) :
    nextPlace m ((lex, false), depth) = some ((afterProp lex (cell m lex 1), false), depth) := by
  rw [nextPlace, if_neg (by rw [h]; decide), if_pos h]
  rfl

theorem nextPlace_begin (h : cell m lex 0 = FDT_BEGIN_NODE) :
    nextPlace m ((lex, last), depth) = some ((afterName m lex, false), depth + 1) := by
  rw [nextPlace, if_neg (by rw [h]; decide), if_neg (by rw [h]; decide), if_pos h]

theorem nextPlace_endNode (h : cell m lex 0 = FDT_END_NODE) :
    nextPlace m ((lex, last), depth) = resume (lex + 4) depth := by
  rw [nextPlace, if_neg (by rw [h]; decide), if_neg (by rw [h]; decide),
    if_neg (by rw [h]; decide), if_pos h]

theorem nextPlace_other (h : IsOther (cell m lex 0)) :
    nextPlace m ((lex, last), depth) = resume lex depth := by
  rw [nextPlace, if_neg h.1, if_neg h.2.1, if_neg h.2.2.1, if_neg h.2.2.2]

end NextPlace

theorem propAt_node_length (m : Mem) (strings lex : Word) (node : List FdtScanNode) :
    (propAt m strings lex node).node.length = node.length := by
  cases node with
  | nil => rfl
  | cons n up => rfl

theorem after_succ_of_some {s s' : Place} (h : nextPlace m s = some s') (n : ℕ) :
    Counter.after (nextPlace m) (n + 1) s = Counter.after (nextPlace m) n s' := by
  rw [Counter.after, h, Option.bind_some]

theorem after_one (s : Place) : Counter.after (nextPlace m) 1 s = nextPlace m s := by
  rw [Counter.after]
  cases nextPlace m s <;> rfl

theorem places_succ {s s' : Place} {x : Option Place} (h : nextPlace m s = some s')
    (hx : ∃ n, Counter.after (nextPlace m) n s' = x) :
    ∃ n, Counter.after (nextPlace m) n s = x := by
  obtain ⟨n, hn⟩ := hx
  exact ⟨n + 1, (after_succ_of_some h n).trans hn⟩

theorem places_child {lex' : Word} {depth : ℕ} {x : Option Place}
    (htok : cell m lex 0 = FDT_BEGIN_NODE)
    (hchild : ∃ n, Counter.after (nextPlace m) n ((afterName m lex, false), depth + 1) =
      resume lex' (depth + 1))
    (hnext : ∃ n, Counter.after (nextPlace m) n ((lex', true), depth) = x) :
    ∃ n, Counter.after (nextPlace m) n ((lex, last), depth) = x := by
  obtain ⟨n, hn⟩ := hchild
  obtain ⟨n', hn'⟩ := hnext
  refine places_succ (nextPlace_begin htok) ⟨n + n', ?_⟩
  rw [Counter.after_add, hn]
  exact hn'

theorem places_of_ok {r : Word × List FdtScanNode}
    (h : (trace m strings fuel lex node child last).2 = .ok r) :
    ∃ n, Counter.after (nextPlace m) n ((lex, last), node.length) = resume r.1 node.length := by
  induction fuel generalizing lex node child last r with
  | zero => cases h
  | succ fuel ih =>
    rcases token_cases (cell m lex 0) with htok | htok | htok | htok | htok
    · rw [trace_nop htok] at h
      exact places_succ (nextPlace_nop htok) (ih h)
    · cases last with
      | true =>
        rw [trace_prop_true htok] at h
        cases h
      | false =>
        rw [trace_prop htok] at h
        have hrest := ih h
        rw [propAt_node_length] at hrest
        exact places_succ (nextPlace_prop htok) hrest
    · rw [trace_begin htok] at h
      dsimp only at h
      split at h
      next => cases h
      next r' hend => exact places_child htok (ih hend) (ih h)
    · rw [trace_endNode htok] at h
      injection h with h
      refine ⟨1, ?_⟩
      rw [after_one, nextPlace_endNode htok, ← h]
    · rw [trace_other htok] at h
      injection h with h
      refine ⟨1, ?_⟩
      rw [after_one, nextPlace_other htok, ← h]

theorem places_of_error (h : (trace m strings fuel lex node child last).2 = .error .propAfterChild) :
    ∃ n, Counter.after (nextPlace m) n ((lex, last), node.length) = none := by
  induction fuel generalizing lex node child last with
  | zero => cases h
  | succ fuel ih =>
    rcases token_cases (cell m lex 0) with htok | htok | htok | htok | htok
    · rw [trace_nop htok] at h
      exact places_succ (nextPlace_nop htok) (ih h)
    · cases last with
      | true => exact ⟨1, (after_one _).trans (nextPlace_prop_true htok)⟩
      | false =>
        rw [trace_prop htok] at h
        have hrest := ih h
        rw [propAt_node_length] at hrest
        exact places_succ (nextPlace_prop htok) hrest
    · rw [trace_begin htok] at h
      dsimp only at h
      split at h
      next e hend =>
        injection h with h
        exact places_succ (nextPlace_begin htok) (ih (h ▸ hend))
      next r' hend => exact places_child htok (places_of_ok hend) (ih h)
    · rw [trace_endNode htok] at h
      cases h
    · rw [trace_other htok] at h
      cases h

/-- As much fuel as there are places is enough. -/
theorem complete_of_stop {n : ℕ}
    (h : Counter.after (nextPlace m) n ((lex, last), node.length) = none) :
    Complete (trace m strings n lex node child last) := by
  induction n generalizing lex node child last with
  | zero => cases h
  | succ n ih =>
    rcases token_cases (cell m lex 0) with htok | htok | htok | htok | htok
    · rw [after_succ_of_some (nextPlace_nop htok)] at h
      rw [trace_nop htok]
      exact ih h
    · cases last with
      | true =>
        rw [trace_prop_true htok]
        exact nofun
      | false =>
        rw [after_succ_of_some (nextPlace_prop htok)] at h
        rw [trace_prop htok]
        refine ih ?_
        rw [propAt_node_length]
        exact h
    · rw [after_succ_of_some (nextPlace_begin htok)] at h
      have hchild : Complete (trace m strings n (afterName m lex)
          ({ child with name := lex + 4 } :: node) freshChild false) := ih h
      rw [trace_begin htok]
      dsimp only
      split
      next e hend =>
        unfold Complete at hchild ⊢
        rw [hend] at hchild
        intro he
        injection he with he
        exact hchild (by rw [he])
      next r hend =>
        refine ih (?_ : Counter.after (nextPlace m) n ((r.1, true), node.length) = none)
        -- the places after the child are among those that are left
        obtain ⟨n₁, hn₁⟩ := places_of_ok hend
        rw [List.length_cons] at hn₁
        have hlater := Counter.after_none_of_le h (Nat.le_add_left n n₁)
        rw [Counter.after_add, hn₁] at hlater
        exact hlater
    · rw [trace_endNode htok]
      exact nofun
    · rw [trace_other htok]
      exact nofun

def scanTrace (m : Mem) (fdt : Word) (fuel : ℕ) :
    List Call × Except ScanFault (Word × List FdtScanNode) :=
  trace m (stringsAt m fdt) fuel (structAt m fdt) [] freshChild false

/-- The tokens lead from a word of memory back to it, at the same depth or deeper. -/
def TokensRecur (m : Mem) (fdt : Word) : Prop :=
  Counter.Recurs (nextPlace m) ((structAt m fdt, false), 0)

/-- The scan ends exactly when its tokens do not lead back. -/
theorem exists_complete_iff (m : Mem) (fdt : Word) :
    (∃ fuel, Complete (scanTrace m fdt fuel)) ↔ ¬ TokensRecur m fdt := by
  rw [TokensRecur, ← (nextPlace_upward m).exists_stop_iff]
  constructor
  · rintro ⟨fuel, hdone⟩
    cases hend : (scanTrace m fdt fuel).2 with
    | ok r => exact places_of_ok hend
    | error e =>
      rcases trace_error hend with rfl | rfl
      · exact places_of_error hend
      · exact absurd hend hdone
  · rintro ⟨n, hn⟩
    exact ⟨n, complete_of_stop hn⟩

end ProxyKernel.Fdt
