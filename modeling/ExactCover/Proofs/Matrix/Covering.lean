import ExactCover.Proofs.Matrix.Loop
import ExactCover.Proofs.Matrix.Represents

/-!
# Covering and uncovering

Covering a column of a represented matrix succeeds, and the matrix afterwards represents the same
layout with one more column covered. Uncovering the column next restores the matrix itself, link by
link: every node is put back when all that was taken out after it is back in place, so that what its
own links name is its neighbourhood again.

The nodes of a row, the rows of a column and the columns of a row are each worked on one after the
other, and come back the other way round. For each of the three it is shown what holds in between,
whichever way the work on one of them is done:

* **`Layout.Shows.hide`**: one node out of its column, and back at once.
* **`Layout.Shows.row_retraceable`**: the rest of a row, seen from any of its nodes.
* **`Layout.rows_retraceable`**, **`Represents.cover`**: the rows of a column that is left.
* **`Layout.columns_retraceable`**, **`Represents.coverRow`**: the columns of the rest of a row, all
  of which are left.
-/

namespace ExactCover

open Mesh

theorem filter_notMem_cons (x : NodeId) (hid l : List NodeId) :
    l.filter (· ∉ x :: hid) = (l.filter (· ∉ hid)).filter (· ≠ x) := by
  rw [List.filter_filter]
  refine List.filter_congr fun i _ => ?_
  simp [not_or]

theorem length_filter_ne {x : NodeId} {l : List NodeId} (hnodup : l.Nodup) (hx : x ∈ l) :
    (l.filter (· ≠ x)).length + 1 = l.length := by
  obtain ⟨u, v, rfl⟩ := List.append_of_mem hx
  rw [filter_ne_of_split hnodup]
  simp
  omega

namespace Layout.Shows

variable {L : Layout} {covered : List ColumnId} {hid : List NodeId} {m : Matrix}

/-! ## One node -/

/-- Hiding a node does not change what is below the heads of other columns. -/
theorem filter_nodes_of_ne {x : Cell} {d : ColumnId} (hx : x ∈ L.rows.flatten)
    (hd : d ≠ x.column) :
    (L.nodes d).filter (· ∉ x.id :: hid) = (L.nodes d).filter (· ∉ hid) := by
  refine List.filter_congr fun i hi => ?_
  obtain ⟨y, hy, hyd, rfl⟩ := mem_nodes.mp hi
  have hne : y.id ≠ x.id := fun hid => hd (by rw [← hyd, cell_ext hy hx hid])
  simp [hne]

/-- What is known of the column of `x` once `x` is hidden too. -/
def columnWithout (L : Layout) (hid : List NodeId) (x : Cell) : Column :=
  ⟨L.header x.column, L.table.key x.column, ((L.nodes x.column).filter (· ∉ x.id :: hid)).length⟩

/-- The matrix in which `x` is hidden too. -/
def without (L : Layout) (hid : List NodeId) (x : Cell) (m : Matrix) : Matrix :=
  ⟨m.mesh.unlink .down x.id, m.columns.setIfInBounds x.column (columnWithout L hid x)⟩

variable {x : Cell}

theorem cell_mem_down (hx : x ∈ L.rows.flatten) (hhid : x.id ∉ hid) :
    x.id ∈ (L.nodes x.column).filter (· ∉ hid) := by
  simpa [hhid] using cell_mem_nodes hx

theorem cell_column_mem (hx : x ∈ L.rows.flatten) : x.column ∈ L.table.columns := by
  obtain ⟨r, hr, hxr⟩ := List.mem_flatten.mp hx
  exact column_mem hr hxr

/-- The column of a node loses one node with it. -/
theorem size_without (h : L.Shows covered hid m) (hx : x ∈ L.rows.flatten) (hhid : x.id ∉ hid) :
    (columnWithout L hid x).size + 1 = ((L.nodes x.column).filter (· ∉ hid)).length := by
  have hnodup := (List.nodup_cons.mp (h.down x.column (cell_column_mem hx)).nodup).2
  rw [← length_filter_ne hnodup (cell_mem_down hx hhid), ← filter_notMem_cons]
  rfl

theorem shows_without (h : L.Shows covered hid m) (hx : x ∈ L.rows.flatten) (hhid : x.id ∉ hid) :
    L.Shows covered (x.id :: hid) (without L hid x m) := by
  have hc := cell_column_mem hx
  have hdown := h.down x.column hc
  have hmem := cell_mem_down hx hhid
  have hmem' := List.mem_cons_of_mem (L.header x.column) hmem
  obtain ⟨-, -, hnext, hprev⟩ := hdown.linked hmem'
  refine
    { ids := fun i => by simpa [without] using h.ids i
      headLabel := by simpa [without] using h.headLabel
      headerLabel := fun c hc => by simpa [without] using h.headerLabel c hc
      cellLabel := fun y hy => by simpa [without] using h.cellLabel y hy
      columnCount := by simpa [without] using h.columnCount
      column := fun d hd => ?_
      heads := h.heads.unlink_of_ne (by simp) (hdown.inside _ hnext) (hdown.inside _ hprev)
      headDown := h.headDown.unlink_of_notMem hdown hmem' (by simpa using (head_ne_cell hx).symm)
      row := fun y r hyr =>
        (h.row y r hyr).unlink_of_ne (by simp) (hdown.inside _ hnext) (hdown.inside _ hprev)
      down := fun d hd => ?_ }
  · by_cases hdc : d = x.column
    · subst hdc
      have hlt := (Array.getElem?_eq_some_iff.mp (h.column _ hc)).1
      simp [without, columnWithout, hlt]
    · rw [filter_nodes_of_ne hx hdc, ← h.column d hd]
      simp [without, Ne.symm hdc]
  · by_cases hdc : d = x.column
    · subst hdc
      rw [filter_notMem_cons]
      exact hdown.unlink hmem
    · rw [filter_nodes_of_ne hx hdc]
      refine (h.down d hd).unlink_of_notMem hdown hmem' ?_
      rw [List.mem_cons, not_or]
      refine ⟨fun hid => header_ne_cell (header_mem hd) hx hid.symm, fun hid => hdc ?_⟩
      obtain ⟨y, hy, hyd, hid⟩ := mem_nodes.mp (List.mem_of_mem_filter hid)
      rw [← hyd, cell_ext hy hx hid]

/-- **A node that is in its column can be taken out, and put back at once.** -/
theorem hide (h : L.Shows covered hid m) (hx : x ∈ L.rows.flatten) (hhid : x.id ∉ hid) :
    ∃ m', m.hide x.id = .ok m' ∧ L.Shows covered (x.id :: hid) m' ∧ m'.unhide x.id = .ok m := by
  have h' := h.shows_without hx hhid
  have hc := cell_column_mem hx
  have hsize := h.size_without hx hhid
  obtain ⟨hdetach, hattach⟩ := (h.down x.column hc).detach
    (List.mem_cons_of_mem _ (cell_mem_down hx hhid))
  refine ⟨without L hid x m, ?_, h', ?_⟩
  · simp only [Matrix.hide, h.columnOf_cell hx, ok_bind, Matrix.onMesh, hdetach, pure_eq_ok]
    exact Matrix.adjustSize_eq (h.column _ hc) (by simp only [← hsize, columnWithout]; omega)
  · simp only [Matrix.unhide, h'.columnOf_cell hx, ok_bind]
    -- the size goes down by one and up again
    have hrestored : (without L hid x m).columns.setIfInBounds x.column
        { columnWithout L hid x with size := (columnWithout L hid x).size + 1 } = m.columns := by
      refine Array.ext_getElem? fun d => ?_
      by_cases hd : x.column = d
      · subst hd
        have hlt := (Array.getElem?_eq_some_iff.mp (h.column _ hc)).1
        rw [hsize, h.column _ hc]
        simp [without, columnWithout, hlt]
      · simp [without, hd]
    have hadjust : Matrix.adjustSize x.column 1 (without L hid x m) =
        .ok ⟨m.mesh.unlink .down x.id, m.columns⟩ := by
      rw [← hrestored]
      exact Matrix.adjustSize_eq (h'.column _ hc) rfl
    rw [hadjust]
    simp [Matrix.onMesh, hattach]

/-! ## One row -/

/-- The rest of a row can be taken out of its columns, node by node, and put back. -/
theorem row_retraceable {u v : List Cell} {x : Cell} (h : L.Shows covered hid m)
    (hr : u ++ x :: v ∈ L.rows) (hhid : ∀ y ∈ v ++ u, y.id ∉ hid) :
    Retraceable .across x.id Cell.id (v ++ u) id (fun id m => m.hide id) (fun id m => m.unhide id)
      fun done m => L.Shows covered ((done.map Cell.id).reverse ++ hid) m where
  ring done m hm := hm.row_split hr
  step done y rest m hxs hm := by
    have hy : y ∈ v ++ u := by simp [hxs]
    have hnodup := (List.nodup_cons.mp (h.row_split hr).nodup).2
    rw [hxs, List.map_append, List.map_cons, List.nodup_append] at hnodup
    have hfresh : y.id ∉ (done.map Cell.id).reverse ++ hid := by
      rw [List.mem_append, List.mem_reverse, not_or]
      exact ⟨fun hdone => hnodup.2.2 _ hdone _ (List.mem_cons_self ..) rfl, hhid y hy⟩
    obtain ⟨m', hhide, hm', hunhide⟩ := hm.hide (List.mem_flatten_of_mem hr (mem_of_rest hy)) hfresh
    exact ⟨m', hhide, by simpa using hm', hunhide⟩

/-- The rest of a row can be taken out of its columns, and put back at once. -/
theorem hideRow {u v : List Cell} {x : Cell} (h : L.Shows covered hid m)
    (hr : u ++ x :: v ∈ L.rows) (hhid : ∀ y ∈ v ++ u, y.id ∉ hid) :
    ∃ m', m.hideRow x.id = .ok (m', (u ++ x :: v).length) ∧
      L.Shows covered (((v ++ u).map Cell.id).reverse ++ hid) m' ∧ m'.unhideRow x.id = .ok m := by
  obtain ⟨m', hhides, hm', hunhides⟩ := (h.row_retraceable hr hhid).fold h
  refine ⟨m', ?_, hm', ?_⟩
  · simp only [Matrix.hideRow, (h.row_split hr).ring_next, ok_bind, hhides, pure_eq_ok]
    congr 2
    simp
    omega
  · simp only [Matrix.unhideRow, (hm'.row_split hr).ring_prev, ok_bind]
    exact hunhides

end Layout.Shows

/-! ## The rows of a column -/

/-- Takes the rest of a row out of its columns, and goes on with the count of nodes. -/
def Matrix.hideRowOn (row : NodeId) : Matrix × Nat → Except Fault (Matrix × Nat)
  | (m, touched) => do
    let (m, more) ← m.hideRow row
    return (m, touched + more)

namespace Layout

variable {L : Layout} {covered : List ColumnId} {c : ColumnId}
  {hideRow : NodeId → Matrix × Nat → Except Fault (Matrix × Nat)}
  {unhideRow : NodeId → Matrix → Except Fault Matrix}

/-- What it is to take out the rest of a row, counting its nodes, and to put it back. -/
def HidesRows (L : Layout) (covered : List ColumnId)
    (hideRow : NodeId → Matrix × Nat → Except Fault (Matrix × Nat))
    (unhideRow : NodeId → Matrix → Except Fault Matrix) : Prop :=
  ∀ ⦃hid m u v⦄ ⦃x : Cell⦄ (touched : Nat), L.Shows covered hid m → u ++ x :: v ∈ L.rows →
    (∀ y ∈ v ++ u, y.id ∉ hid) →
    ∃ m', hideRow x.id (m, touched) = .ok (m', touched + (u ++ x :: v).length) ∧
      L.Shows covered (((v ++ u).map Cell.id).reverse ++ hid) m' ∧ unhideRow x.id m' = .ok m

theorem hidesRows (L : Layout) (covered : List ColumnId) :
    L.HidesRows covered Matrix.hideRowOn fun row m => m.unhideRow row := by
  intro hid m u v x touched h hr hhid
  obtain ⟨m', hhide, hm', hunhide⟩ := h.hideRow hr hhid
  refine ⟨m', ?_, hm', hunhide⟩
  simp only [Matrix.hideRowOn, hhide, ok_bind, pure_eq_ok]

/-- What a matrix is while a column is being covered: its head is out of place already, and so is
the rest of the rows `done`, all of whose nodes were counted. -/
def RowsHidden (L : Layout) (covered : List ColumnId) (c : ColumnId) (done : List (List Cell))
    (s : Matrix × Nat) : Prop :=
  L.Shows (c :: covered) (done.flatMap (nodesOutside c) ++ L.hidden covered) s.1 ∧
    (∀ r ∈ done, r ∈ L.rows) ∧ s.2 = done.flatten.length

/-- Whichever rows are hidden, the list down their own column is what it was. -/
theorem RowsHidden.down {done : List (List Cell)} {s : Matrix × Nat}
    (h : L.RowsHidden covered c done s) (hc : c ∈ L.table.live covered) :
    IsRing s.1.mesh .down (L.header c) ((L.through covered c).map (nodeIn c)) := by
  obtain ⟨hcolumn, hlive⟩ := Table.mem_live.mp hc
  have hdown := h.1.down c hcolumn
  have hfilter : (L.nodes c).filter (· ∉ done.flatMap (nodesOutside c) ++ L.hidden covered) =
      (L.nodes c).filter (· ∉ L.hidden covered) := by
    refine List.filter_congr fun i hi => ?_
    have hnot : i ∉ done.flatMap (nodesOutside c) := fun hmem => by
      obtain ⟨r, hr, hir⟩ := List.mem_flatMap.mp hmem
      exact notMem_nodesOutside hi (h.2.1 r hr) hir
    simp [hnot]
  rwa [hfilter, filter_hidden hlive, flatMap_nodesIn] at hdown

/-- Of the rows that are left in a column, no node is out of place. -/
theorem split_of_left {r : List Cell} (hr : r ∈ L.through covered c) :
    ∃ u x v, r = u ++ x :: v ∧ x.column = c ∧ r ∈ L.rows ∧ ∀ y ∈ r, y.id ∉ L.hidden covered := by
  obtain ⟨u, x, v, heq, hx⟩ := split_of_mem_through hr
  obtain ⟨hr', -, halive⟩ := mem_through.mp hr
  exact ⟨u, x, v, heq, hx, hr', fun y hy => notMem_hidden hr' hy halive⟩

/-- The rows that are left in a column can be taken out, one after the other, and put back. -/
theorem rows_retraceable (hrow : L.HidesRows (c :: covered) hideRow unhideRow)
    (hc : c ∈ L.table.live covered) :
    Retraceable .down (L.header c) (nodeIn c) (L.through covered c) Prod.fst hideRow unhideRow
      (L.RowsHidden covered c) where
  ring done s hs := hs.down hc
  step done r rest s hxs hs := by
    obtain ⟨m, touched⟩ := s
    obtain ⟨hm, hdone, rfl⟩ := hs
    have hthrough : r ∈ L.through covered c := by simp [hxs]
    obtain ⟨u, x, v, rfl, rfl, hr, hhid⟩ := split_of_left hthrough
    have hnodup : (L.through covered x.column).Nodup := (nodup_rows L).filter _
    rw [hxs, List.nodup_append] at hnodup
    -- the rows before this one have nodes of their own
    have hfresh : ∀ y ∈ v ++ u,
        y.id ∉ done.flatMap (nodesOutside x.column) ++ L.hidden covered := by
      intro y hy hmem
      have hyr : y ∈ u ++ x :: v := mem_of_rest hy
      rcases List.mem_append.mp hmem with hin | hin
      · obtain ⟨r', hr', hyr'⟩ := List.mem_flatMap.mp hin
        have hne : u ++ x :: v ≠ r' := fun heq =>
          hnodup.2.2 r' hr' _ (List.mem_cons_self ..) heq.symm
        exact id_notMem_row hr (hdone r' hr') hne hyr
          (List.map_subset Cell.id (List.filter_subset_self _) hyr')
      · exact hhid y hyr hin
    obtain ⟨m', hhide, hm', hunhide⟩ := hrow done.flatten.length hm hr hfresh
    rw [nodeIn_split hr]
    refine ⟨_, hhide, ⟨hm'.congr fun i => ?_, ?_, ?_⟩, hunhide⟩
    · simp only [List.mem_append, List.mem_reverse, List.flatMap_append, List.flatMap_singleton,
        nodesOutside_split hr, List.map_append]
      rw [or_comm (a := i ∈ v.map Cell.id), ← or_assoc]
      rw [or_comm (b := i ∈ done.flatMap _)]
    · intro r hmem
      rcases List.mem_append.mp hmem with hmem | hmem
      · exact hdone r hmem
      · exact List.mem_singleton.mp hmem ▸ hr
    · rw [List.flatten_append, List.flatten_singleton]
      exact List.length_append.symm

end Layout

namespace Represents

variable {L : Layout} {covered : List ColumnId} {m : Matrix}

open Layout

/-! ## One column -/

theorem cost_table (L : Layout) (covered : List ColumnId) (c : ColumnId) :
    L.table.cost covered c = (L.through covered c).flatten.length := by
  rw [Table.cost, table_through, ← List.map_flatten, List.length_map]

/-- The heads that are left when one more column is covered. -/
theorem filter_heads {c : ColumnId} (hc : c ∈ L.table.columns) :
    ((L.table.live covered).map L.header).filter (· ≠ L.header c) =
      (L.table.live (c :: covered)).map L.header := by
  rw [List.filter_map, Table.live_cons]
  congr 1
  refine List.filter_congr fun d hd => ?_
  have hiff : L.header d = L.header c ↔ d = c :=
    ⟨header_injective (Table.mem_live.mp hd).1 hc, fun h => by rw [h]⟩
  simp [hiff]

/-- The head of a column that is left can be taken out of the list of the head, and put back at
once. -/
theorem detachHead {c : ColumnId} (h : Represents L covered m) (hc : c ∈ L.table.live covered) :
    ∃ m₁, m.onMesh (Mesh.detach .across (L.header c)) = .ok m₁ ∧
      L.Shows (c :: covered) (L.hidden covered) m₁ ∧
      m₁.onMesh (Mesh.attach .across (L.header c)) = .ok m := by
  have hcolumn := (Table.mem_live.mp hc).1
  have hhead : L.header c ∈ (L.table.live covered).map L.header := List.mem_map_of_mem hc
  have hhead' := List.mem_cons_of_mem Matrix.head hhead
  obtain ⟨-, -, hnext, hprev⟩ := h.heads.linked hhead'
  obtain ⟨hdetach, hattach⟩ := h.heads.detach hhead'
  let m₁ : Matrix := ⟨m.mesh.unlink .across (L.header c), m.columns⟩
  refine ⟨m₁, ?_, ?_, ?_⟩
  · simp [Matrix.onMesh, hdetach, m₁]
  · exact
      { ids := fun i => by simpa [m₁] using h.ids i
        headLabel := by simpa [m₁] using h.headLabel
        headerLabel := fun d hd => by simpa [m₁] using h.headerLabel d hd
        cellLabel := fun x hx => by simpa [m₁] using h.cellLabel x hx
        columnCount := h.columnCount
        column := h.column
        heads := by
          have hring := h.heads.unlink hhead
          rwa [filter_heads hcolumn] at hring
        headDown := h.headDown.unlink_of_ne (by simp) (h.heads.inside _ hnext)
          (h.heads.inside _ hprev)
        row := fun x r hr => (h.row x r hr).unlink_of_notMem h.heads hhead'
          (notMem_row (fun _ hy => header_ne_cell (header_mem hcolumn) hy) hr)
        down := fun d hd => (h.down d hd).unlink_of_ne (by simp) (h.heads.inside _ hnext)
          (h.heads.inside _ hprev) }
  · simp [m₁, Matrix.onMesh, hattach]

/-- **Covering a column that is left takes it and its rows away, and uncovering it next restores the
matrix.** -/
theorem cover {c : ColumnId} (h : Represents L covered m) (hc : c ∈ L.table.live covered) :
    ∃ m', m.cover c = .ok (m', L.table.cost covered c) ∧ Represents L (c :: covered) m' ∧
      m'.uncover c = .ok m := by
  obtain ⟨hcolumn, hlive⟩ := Table.mem_live.mp hc
  -- without its head, before any row is touched
  obtain ⟨m₁, hdetach, h₁, hattach⟩ := h.detachHead hc
  obtain ⟨⟨m', _⟩, hhides, ⟨h', -, rfl⟩, hunhides⟩ :=
    (rows_retraceable (hidesRows L _) hc).fold (s := (m₁, 0)) ⟨h₁, by simp, rfl⟩
  have h' : Represents L (c :: covered) m' := h'
  refine ⟨m', ?_, h', ?_⟩
  · have hring := (h.down c hcolumn).ring_next
    rw [filter_hidden hlive, flatMap_nodesIn] at hring
    simp only [Matrix.cover, Shows.column_ok h hcolumn, ok_bind, hring, hdetach]
    rw [cost_table]
    exact hhides
  · -- below the covered head its rows are all there, and they are put back from the last one up
    have hring := (h'.down c hcolumn).ring_prev
    rw [filter_hidden_cons, filter_hidden hlive, flatMap_nodesIn] at hring
    simp only [Matrix.uncover, Shows.column_ok h' hcolumn, ok_bind, hring]
    rw [hunhides]
    exact hattach

end Represents

/-! ## The columns of one row -/

namespace Matrix

/-- Covers the column of a node, and goes on with the count of nodes. -/
def coverOf (cover : ColumnId → Matrix → Except Fault (Matrix × Nat)) (id : NodeId) :
    Matrix × Nat → Except Fault (Matrix × Nat)
  | (m, touched) => do
    let (m, more) ← cover (← m.columnOf id) m
    return (m, touched + more)

def uncoverOf (uncover : ColumnId → Matrix → Except Fault Matrix) (id : NodeId) (m : Matrix) :
    Except Fault Matrix := do
  uncover (← m.columnOf id) m

/-- The walk along a row is a loop, and so is the walk back. -/
theorem coverFrom_eq_loop (start : NodeId) (fuel : Nat) (id : NodeId) (touched : Nat) (m : Matrix) :
    coverFrom start fuel id touched m =
      Mesh.loop (Node.next .across) (·.1.mesh) (coverOf cover) start fuel id (m, touched) := by
  induction fuel generalizing id touched m with
  | zero => rfl
  | succ fuel ih =>
    simp only [coverFrom, Mesh.loop, coverOf, ih, bind_assoc, pure_eq_ok, ok_bind]
    rfl

theorem uncoverFrom_eq_loop (start : NodeId) (fuel : Nat) (id : NodeId) (m : Matrix) :
    uncoverFrom start fuel id m =
      Mesh.loop (Node.prev .across) Matrix.mesh (uncoverOf uncover) start fuel id m := by
  induction fuel generalizing id m with
  | zero => rfl
  | succ fuel ih =>
    simp only [uncoverFrom, Mesh.loop, uncoverOf, ih, bind_assoc]
    rfl

end Matrix

namespace Layout

variable {L : Layout} {covered : List ColumnId} {m : Matrix}
  {cover : ColumnId → Matrix → Except Fault (Matrix × Nat)}
  {uncover : ColumnId → Matrix → Except Fault Matrix}

/-- What it is to cover a column and to uncover it next. -/
def Covers (L : Layout) (cover : ColumnId → Matrix → Except Fault (Matrix × Nat))
    (uncover : ColumnId → Matrix → Except Fault Matrix) : Prop :=
  ∀ ⦃covered m c⦄, Represents L covered m → c ∈ L.table.live covered →
    ∃ m', cover c m = .ok (m', L.table.cost covered c) ∧ Represents L (c :: covered) m' ∧
      uncover c m' = .ok m

/-- The columns of the rest of a row can be covered, one after the other, and uncovered. -/
theorem columns_retraceable {u v : List Cell} {x : Cell} (hcover : L.Covers cover uncover)
    (hr : u ++ x :: v ∈ L.rows) (hlive : ∀ z ∈ v ++ u, z.column ∉ covered) :
    Retraceable .across x.id Cell.id (v ++ u) Prod.fst (Matrix.coverOf cover)
      (Matrix.uncoverOf uncover) fun done s =>
        Represents L ((done.map Cell.column).reverse ++ covered) s.1 ∧
          s.2 = L.table.costAll covered (done.map Cell.column) where
  ring done s hs := Shows.row_split hs.1 hr
  step done z rest s hxs hs := by
    obtain ⟨m, touched⟩ := s
    obtain ⟨hm, rfl⟩ := hs
    have hz : z ∈ v ++ u := by simp [hxs]
    have hzrow : z ∈ u ++ x :: v := mem_of_rest hz
    have hzflat := List.mem_flatten_of_mem hr hzrow
    -- no two cells of a row are in one column
    have hnodup := (List.nodup_cons.mp (nodup_columns_from hr)).2
    rw [hxs, List.map_append, List.map_cons, List.nodup_append] at hnodup
    have hzlive : z.column ∈ L.table.live ((done.map Cell.column).reverse ++ covered) := by
      refine Table.mem_live.mpr ⟨column_mem hr hzrow, ?_⟩
      rw [List.mem_append, List.mem_reverse, not_or]
      exact ⟨fun hdone => hnodup.2.2 _ hdone _ (List.mem_cons_self ..) rfl, hlive z hz⟩
    obtain ⟨m', hcovered, hm', huncovered⟩ := hcover hm hzlive
    refine ⟨(m', _), ?_, ⟨by simpa using hm', rfl⟩, ?_⟩
    · rw [List.map_append, Table.costAll_append]
      simp [Matrix.coverOf, Shows.columnOf_cell hm hzflat, hcovered, Table.costAll]
    · simp [Matrix.uncoverOf, Shows.columnOf_cell hm' hzflat, huncovered]

/-- The loops along the rest of a row cover its columns and uncover them, if they may take as many
steps as there are nodes. -/
theorem Covers.loop {u v : List Cell} {x : Cell} (hcover : L.Covers cover uncover)
    (h : Represents L covered m) {fuel : Nat} (hfuel : L.ids.length ≤ fuel)
    (hr : u ++ x :: v ∈ L.rows) (hlive : ∀ z ∈ v ++ u, z.column ∉ covered) :
    ∃ m', Mesh.loop (Node.next .across) (·.1.mesh) (Matrix.coverOf cover) x.id fuel x.id (m, 0) =
        .ok (m', L.table.costAll covered ((v ++ u).map Cell.column)) ∧
      Represents L (((v ++ u).map Cell.column).reverse ++ covered) m' ∧
      Mesh.loop (Node.prev .across) Matrix.mesh (Matrix.uncoverOf uncover) x.id fuel x.id m' =
        .ok m := by
  have hfuel : m.mesh.size ≤ fuel := h.size ▸ hfuel
  obtain ⟨⟨m', _⟩, hcovers, ⟨hm', rfl⟩, huncovers⟩ :=
    (columns_retraceable hcover hr hlive).loop (s := (m, 0)) ⟨h, rfl⟩ hfuel
  exact ⟨m', hcovers, hm', huncovers⟩

end Layout

/-- **Covering the columns of the rest of a row is undone by uncovering them,** if none of them was
covered before. -/
theorem Represents.coverRow {L : Layout} {covered : List ColumnId} {m : Matrix} {u v : List Cell}
    {x : Cell} (h : Represents L covered m) (hr : u ++ x :: v ∈ L.rows)
    (hlive : ∀ z ∈ v ++ u, z.column ∉ covered) :
    ∃ m', m.coverRow x.id = .ok (m', L.table.costAll covered ((v ++ u).map Cell.column)) ∧
      Represents L (((v ++ u).map Cell.column).reverse ++ covered) m' ∧
      m'.uncoverRow x.id = .ok m := by
  have hcover : L.Covers Matrix.cover Matrix.uncover := fun _ _ _ h hc => h.cover hc
  have hfuel : L.ids.length ≤ m.stepBound := h.size ▸ Nat.le_mul_self m.mesh.size
  obtain ⟨m', hcovers, hm', huncovers⟩ := hcover.loop h hfuel hr hlive
  have hbound : m'.stepBound = m.stepBound := by
    simp only [Matrix.stepBound, h.size, hm'.size]
  refine ⟨m', ?_, hm', ?_⟩
  · exact (Matrix.coverFrom_eq_loop ..).trans hcovers
  · rw [Matrix.uncoverRow, hbound]
    exact (Matrix.uncoverFrom_eq_loop ..).trans huncovers

end ExactCover
