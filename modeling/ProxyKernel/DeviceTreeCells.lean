import ProxyKernel.DeviceTreeScan

namespace ProxyKernel.Fdt
open ByteMem Effect

/-- The counts of a node without the properties, as per the FDT spec. -/
def defaultCells : Cells := ⟨2, 1⟩

/-- What the callbacks should find for the nodes `f` below a node with the counts
`up`: the counts that the parent has itself, or the default ones. -/
def Flat.ownCells (up : Option Cells) : Flat → List (Option Cells)
  | stop _ => []
  | node _ _ _ props children rest =>
    [none] ++ List.replicate props.length up ++ [up] ++
      children.ownCells (some (cellsOver props defaultCells)) ++ rest.ownCells up

def Flat.IsNode : Flat → Prop
  | stop _ => False
  | node .. => True

instance Flat.IsNode.decidable : (f : Flat) → Decidable f.IsNode
  | stop _ => .isFalse id
  | node .. => .isTrue trivial

/-- Every node with children has both counts, or else the nearest earlier sibling
that has the count gives it the default value.  `c` holds what the siblings before
`f` have left behind. -/
def Flat.Settled : Cells → Flat → Prop
  | _, stop _ => True
  | c, node _ _ _ props children rest =>
    (children.IsNode → (cellProp addressKey props = none → c.address = defaultCells.address) ∧
        (cellProp sizeKey props = none → c.size = defaultCells.size)) ∧
      children.Settled defaultCells ∧ rest.Settled (cellsOver props c)

instance Flat.Settled.decidable : (f : Flat) → (c : Cells) → Decidable (f.Settled c)
  | stop _, _ => .isTrue trivial
  | node _ _ _ props children rest, c =>
    have := Settled.decidable children defaultCells
    have := Settled.decidable rest (cellsOver props c)
    inferInstanceAs (Decidable ((children.IsNode → (_ → _) ∧ (_ → _)) ∧ _ ∧ _))

theorem cellsOver_eq_iff {ps : List FlatProp} {c d : Cells} :
    cellsOver ps c = cellsOver ps d ↔ (cellProp addressKey ps = none → c.address = d.address) ∧
      (cellProp sizeKey ps = none → c.size = d.size) := by
  unfold cellsOver
  rw [Cells.mk.injEq]
  cases cellProp addressKey ps <;> cases cellProp sizeKey ps <;> simp

theorem givenCells_length (up up' : Option Cells) (f : Flat) (c : Cells) :
    (f.givenCells up c).length = (f.ownCells up').length := by
  induction f generalizing up up' c with
  | stop nops => rfl
  | node nops name pad props children rest ihc ihr =>
    simp only [Flat.givenCells, Flat.ownCells, List.length_append, List.length_replicate,
      List.length_singleton]
    rw [ihc _ (some (cellsOver props defaultCells)), ihr up up']

theorem givenCells_eq_iff (up up' : Option Cells) (f : Flat) (c : Cells) :
    f.givenCells up c = f.ownCells up' ↔ (f.IsNode → up = up') ∧ f.Settled c := by
  induction f generalizing up up' c with
  | stop nops => simp [Flat.givenCells, Flat.ownCells, Flat.IsNode, Flat.Settled]
  | node nops name pad props children rest ihc ihr =>
    have hhead : [none] ++ List.replicate props.length up ++ [up] =
        [none] ++ List.replicate props.length up' ++ [up'] ↔ up = up' := by
      constructor
      · intro h
        simpa using (List.append_inj_right' h rfl)
      · rintro rfl
        rfl
    rw [Flat.givenCells, Flat.ownCells,
      List.append_eq_append_iff_of_size_eq_right (givenCells_length _ _ rest _),
      List.append_eq_append_iff_of_size_eq_right (givenCells_length _ _ children _), hhead, ihc, ihr,
      Option.some_inj, cellsOver_eq_iff]
    constructor
    · rintro ⟨⟨rfl, hcells, hchildren⟩, -, hrest⟩
      exact ⟨fun _ => rfl, hcells, hchildren, hrest⟩
    · rintro ⟨hup, hcells, hchildren, hrest⟩
      exact ⟨⟨hup trivial, hcells, hchildren⟩, fun _ => hup trivial, hrest⟩

/-- The scan makes the calls of the depth-first walk, and each prop and done
callback finds the counts of its node's own parent exactly when no count that a
node needs for its children is left over from an earlier sibling. -/
theorem fdt_scan_parent_cells_iff (m : Mem) (fdt : Word) (f : Flat) (h : Flattened m fdt f)
    (hsized : f.CellSized) :
    ∃ calls, calls.map (observe m) = f.events [] (structAt m fdt) ∧
      (∀ {σ : Type} (cb : FdtCb σ), cb.onClose = none → ∀ fuel ≥ f.bytes.length + 4,
        ∀ s : ScanState σ, s.mem = m → fdtScan cb fuel fdt s = cb.issueAll calls s) ∧
      (calls.map Call.parentCells = f.ownCells none ↔ f.Settled defaultCells) := by
  obtain ⟨calls, hcalls, hgiven, hrun⟩ := h.calls
  refine ⟨calls, hcalls, fun cb hclose fuel hfuel s hs => (hrun cb hclose fuel hfuel s hs).2, ?_⟩
  rw [hgiven hsized, givenCells_eq_iff]
  exact and_iff_right fun _ => rfl

/-- In the small tree, the callbacks for the child find the default counts. -/
theorem fdt_scan_parent_cells_small :
    smallTree.Settled defaultCells ∧ ∃ calls : List Call,
      calls.map (observe smallTreeMem) = smallTree.events [] (structAt smallTreeMem 0x82000000) ∧
      calls.map Call.parentCells = smallTree.ownCells none := by
  have hsettled : smallTree.Settled defaultCells := by decide +kernel
  have hsized : smallTree.CellSized := by
    refine ⟨?_, ⟨by simp, trivial, trivial⟩, trivial⟩
    intro p hp
    obtain rfl := List.mem_singleton.mp hp
    rintro (hname | hname)
    · exact absurd hname (by decide)
    · exact absurd hname (by decide)
  obtain ⟨calls, hcalls, -, hiff⟩ := fdt_scan_parent_cells_iff smallTreeMem 0x82000000 smallTree
    smallTree_flattened hsized
  exact ⟨hsettled, calls, hcalls, hiff.mpr hsettled⟩

/-- A root with two children: `a` has an address count of 1, and `b` has none, but
it has a child `c`. -/
def siblingTree : Flat :=
  .node 0 [] (toLE 3 0) []
    (.node 0 (ascii "a".toList) (toLE 2 0) [⟨0, 0, addressKey, beBytes 1, []⟩] (.stop 0)
      (.node 0 (ascii "b".toList) (toLE 2 0) []
        (.node 0 (ascii "c".toList) (toLE 2 0) [] (.stop 0) (.stop 0)) (.stop 0)))
    (.stop 0)

def siblingTreeMem : Mem :=
  write (fun _ => 0) 0x82000000
    (beBytes FDT_MAGIC ++ toLE 4 0 ++ beBytes 40 ++ beBytes 108 ++ toLE 8 0 ++ beBytes 16 ++
      toLE 12 0 ++ siblingTree.bytes ++ beBytes FDT_END ++ addressKey)

theorem siblingTree_flattened : Flattened siblingTreeMem 0x82000000 siblingTree := by
  have hstrings : stringsAt siblingTreeMem 0x82000000 = 0x8200006C := by decide +kernel
  refine ⟨by decide +kernel, ?_, ?_, by decide⟩
  · rw [hstrings]
    refine ⟨by decide, by simp, ⟨by decide, ?_, trivial, by decide, by simp,
      ⟨by decide, by simp, trivial, trivial⟩, trivial⟩, trivial⟩
    intro p hp
    obtain rfl := List.mem_singleton.mp hp
    exact ⟨by decide +kernel, by decide, by decide⟩
  · rw [Stored]
    decide +kernel

theorem siblingTree_cellSized : siblingTree.CellSized := by
  refine ⟨by simp, ⟨?_, trivial, by simp, ⟨by simp, trivial, trivial⟩, trivial⟩, trivial⟩
  intro p hp _
  obtain rfl := List.mem_singleton.mp hp
  rfl

/-- The done callback for `c` finds the address count of `a` in its parent. -/
theorem fdt_scan_sibling_cells :
    Flattened siblingTreeMem 0x82000000 siblingTree ∧ siblingTree.CellSized ∧
      ∃ calls : List Call, (∀ {σ : Type} (cb : FdtCb σ), cb.onClose = none →
          ∀ fuel ≥ siblingTree.bytes.length + 4, ∀ s : ScanState σ, s.mem = siblingTreeMem →
            fdtScan cb fuel 0x82000000 s = cb.issueAll calls s) ∧
        (calls.map Call.parentCells).getLast? = some (some ⟨1, 1⟩) ∧
        calls.map Call.parentCells ≠ siblingTree.ownCells none := by
  obtain ⟨calls, -, hgiven, hrun⟩ := siblingTree_flattened.calls
  refine ⟨siblingTree_flattened, siblingTree_cellSized, calls,
    fun cb hclose fuel hfuel s hs => (hrun cb hclose fuel hfuel s hs).2, ?_⟩
  rw [hgiven siblingTree_cellSized]
  decide +kernel

end ProxyKernel.Fdt
