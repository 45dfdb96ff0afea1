import ExactCover.Proofs.Matrix.Represents

/-!
# Building a matrix

A matrix grows by columns and by rows, in any order. Each addition succeeds on a matrix that
represents a layout with nothing covered, and the matrix afterwards represents the layout with one
more column, or with one more node. A node joins a row in two steps, since it is put in two rings.

* **`Represents.addColumn`**: a column goes to the end of the list of the head.
* **`Represents.addCell`, `Represents.joinRow`**: a new node goes to the bottom of its column, as
  a row of its own; then it is put at the end of the row before it.
-/

namespace ExactCover

open Mesh

/-! ## The empty matrix -/

/-- The layout of a matrix to which nothing was added. -/
def Layout.empty : Layout where
  headers := []
  keys := []
  rows := []
  length_headers := rfl
  nodup := by simp
  ascending := by simp
  ne_nil := by simp
  inside := by simp

/-- The start of every induction over additions: of an empty matrix there is only the head, which is
its own neighbour along both axes. -/
theorem Represents.empty : Represents Layout.empty [] Matrix.empty where
  ids i := by
    have hsize : Matrix.empty.mesh.size = 1 := rfl
    simp [hsize, Layout.ids, Layout.empty, Matrix.head]
  headLabel := rfl
  headerLabel c hc := by simp [Layout.table, Table.columns, Layout.empty] at hc
  cellLabel x hx := by simp [Layout.empty] at hx
  columnCount := rfl
  column c hc := by simp [Layout.table, Table.columns, Layout.empty] at hc
  heads := IsRing.of_push rfl
  headDown := IsRing.of_push rfl
  row x r hr := by simp [Layout.empty] at hr
  down c hc := by simp [Layout.table, Table.columns, Layout.empty] at hc

/-! ## One more column -/

namespace Layout

variable {L : Layout}

/-- A column that is not there yet has no nodes, so the head of a new one stands alone. -/
theorem nodes_nil_of_notMem {c : ColumnId} (hc : c ∉ L.table.columns) : L.nodes c = [] := by
  refine List.eq_nil_iff_forall_not_mem.mpr fun i hi => ?_
  obtain ⟨x, hx, rfl, -⟩ := mem_nodes.mp hi
  obtain ⟨r, hr, hxr⟩ := List.mem_flatten.mp hx
  exact hc (column_mem hr hxr)

/-- The layout with one more column, its head in a new place. -/
def addColumn (L : Layout) (key : String) (id : NodeId) (hid : id ∉ L.ids) : Layout where
  headers := L.headers ++ [id]
  keys := L.keys ++ [key]
  rows := L.rows
  length_headers := by simp [L.length_headers]
  nodup := by
    have hperm : (Matrix.head :: L.headers ++ id :: L.rows.flatten.map Cell.id).Perm
        (id :: L.ids) := List.perm_middle
    rw [List.cons_append, List.append_assoc]
    exact hperm.nodup_iff.mpr (List.nodup_cons.mpr ⟨hid, L.nodup⟩)
  ascending := L.ascending
  ne_nil := L.ne_nil
  inside r hr x hx := by
    have h := L.inside r hr x hx
    exact ⟨h.1, Nat.le_trans h.2 (by simp)⟩

variable {key : String} {id : NodeId} {hid : id ∉ L.ids}

/-- What the places are does not matter to the table. -/
theorem table_addColumn : (L.addColumn key id hid).table = L.table.addColumn key := rfl

theorem mem_ids_addColumn {i : NodeId} : i ∈ (L.addColumn key id hid).ids ↔ i = id ∨ i ∈ L.ids := by
  simp [ids, addColumn]
  tauto

/-- The new column is the last one. -/
theorem columns_addColumn :
    (L.addColumn key id hid).table.columns = L.table.columns ++ [L.keys.length + 1] := by
  rw [table_addColumn, Table.columns_addColumn]
  rfl

/-- What is to be shown of each column splits into the old ones, whose share does not change, and
the new one. Three fields of `Represents` are of this form. -/
theorem forall_columns_addColumn {P : ColumnId → Prop} (hold : ∀ c ∈ L.table.columns, P c)
    (hnew : P (L.keys.length + 1)) : ∀ c ∈ (L.addColumn key id hid).table.columns, P c := by
  rw [columns_addColumn]
  intro c hc
  rcases List.mem_append.mp hc with hc | hc
  · exact hold c hc
  · exact List.mem_singleton.mp hc ▸ hnew

/-- The heads of the old columns stay in their places. -/
theorem header_addColumn {c : Nat} (hc : c ∈ L.table.columns) :
    (L.addColumn key id hid).header c = L.header c := by
  have hc := mem_columns.mp hc
  have hlt : c - 1 < L.headers.length := by rw [L.length_headers]; omega
  simp [header, addColumn, List.getElem?_append_left hlt]

theorem header_addColumn_last : (L.addColumn key id hid).header (L.keys.length + 1) = id := by
  simp [header, addColumn, ← L.length_headers]

/-- The old columns keep their keys, also where the new one has a key of theirs. -/
theorem key_addColumn {c : Nat} (hc : c ∈ L.table.columns) :
    (L.addColumn key id hid).table.key c = L.table.key c := by
  rw [table_addColumn, Table.key_addColumn hc]

theorem key_addColumn_last : (L.addColumn key id hid).table.key (L.keys.length + 1) = key := by
  rw [table_addColumn]
  exact Table.key_addColumn_last

/-- The number of the new column was free. -/
theorem last_notMem_columns : L.keys.length + 1 ∉ L.table.columns := fun hmem => by
  have h := mem_columns.mp hmem
  omega

theorem nodes_addColumn {c : ColumnId} : (L.addColumn key id hid).nodes c = L.nodes c := rfl

/-- With nothing covered nothing is hidden. -/
theorem filter_hidden_nil {c : ColumnId} : (L.nodes c).filter (· ∉ L.hidden []) = L.nodes c := by
  simp [hidden]

end Layout

/-- Adding a column, as a push and one insertion with all that they are given. -/
theorem Matrix.addColumn_eq (m : Matrix) (key : String) :
    m.addColumn key = do
      let mesh ← (m.mesh.push m.columns.size true).insertBefore .across m.mesh.size Matrix.head
      return (⟨mesh, m.columns.push ⟨m.mesh.size, key, 0⟩⟩, m.columns.size) := rfl

namespace Represents

variable {L : Layout} {m : Matrix}

open Layout

/-- A node that the mesh does not have yet is in no place of the layout. -/
theorem size_notMem_ids (h : Represents L [] m) : m.mesh.size ∉ L.ids :=
  fun hmem => Nat.lt_irrefl _ ((h.ids _).mpr hmem)

/-- What the matrix keeps of a column: with nothing covered its size is the number of its nodes. -/
theorem column_nil (h : Represents L [] m) {c : ColumnId} (hc : c ∈ L.table.columns) :
    m.columns[c]? = some ⟨L.header c, L.table.key c, (L.nodes c).length⟩ := by
  rw [h.column c hc, filter_hidden_nil]

theorem column_nil_ok (h : Represents L [] m) {c : ColumnId} (hc : c ∈ L.table.columns) :
    m.column c = .ok ⟨L.header c, L.table.key c, (L.nodes c).length⟩ := by
  rw [Shows.column_ok h hc, filter_hidden_nil]

/-- With nothing covered, walking down a column meets all of its nodes. -/
theorem columnNodes_nil (h : Represents L [] m) {c : ColumnId} (hc : c ∈ L.table.columns) :
    m.columnNodes c = .ok (L.nodes c) := by
  rw [Shows.columnNodes h hc, filter_hidden_nil]

/-- With nothing covered, all heads are in the ring of the head. -/
theorem heads_nil (h : Represents L [] m) : IsRing m.mesh .across Matrix.head L.headers := by
  rw [← map_header_columns, ← Table.live_nil]
  exact h.heads

/-- With nothing covered, all nodes of a column are in the ring of its head. -/
theorem down_nil (h : Represents L [] m) {c : ColumnId} (hc : c ∈ L.table.columns) :
    IsRing m.mesh .down (L.header c) (L.nodes c) := by
  rw [← filter_hidden_nil]
  exact h.down c hc

/-- The number of the next node is that of no node in a place. -/
theorem ne_size_of_mem_ids (h : Represents L [] m) {i : NodeId} (hi : i ∈ L.ids) :
    i ≠ m.mesh.size :=
  fun heq => h.size_notMem_ids (heq ▸ hi)

/-- A new node leaves the labels of the others alone, wherever it is put. -/
theorem label_splice_push (h : Represents L [] m) {c : ColumnId} {isHeader : Bool} {a : Axis}
    {i anchor : NodeId} (hi : i ∈ L.ids) :
    ((m.mesh.push c isHeader).splice a m.mesh.size anchor).label i = m.mesh.label i := by
  rw [label_splice, label_push, if_neg (h.ne_size_of_mem_ids hi)]

/-- After a node was made and put somewhere, the mesh has it and the nodes from before. -/
theorem lt_size_splice_push (h : Represents L [] m) {c : ColumnId} {isHeader : Bool} {a : Axis}
    {i anchor : NodeId} :
    i < ((m.mesh.push c isHeader).splice a m.mesh.size anchor).size ↔
      i = m.mesh.size ∨ i ∈ L.ids := by
  rw [← h.ids i, size_splice, size_push]
  exact Nat.lt_succ_iff_lt_or_eq.trans or_comm

/-- A head is in a place of the layout. -/
theorem header_mem_ids {c : ColumnId} (hc : c ∈ L.table.columns) : L.header c ∈ L.ids :=
  List.mem_append_left _ (List.mem_cons_of_mem _ (header_mem hc))

theorem cell_mem_ids {x : Cell} (hx : x ∈ L.rows.flatten) : x.id ∈ L.ids :=
  List.mem_append_right _ (List.mem_map_of_mem hx)

/-- **A column is added after the last one.** Its head goes right before the head of all columns,
which closes their ring. No ring of a row and none of a column has either of the two in it, and the
new column is a ring of its head alone. -/
theorem addColumn (h : Represents L [] m) (key : String) :
    ∃ m', m.addColumn key = .ok (m', L.keys.length + 1) ∧
      Represents (L.addColumn key m.mesh.size h.size_notMem_ids) [] m' := by
  have hnew := h.size_notMem_ids
  let pushed := m.mesh.push m.columns.size true
  have hsize : m.mesh.size < pushed.size := by simp [pushed]
  have hhead : Matrix.head < pushed.size := Nat.lt_trans (lt_size_of_label h.headLabel) hsize
  have hheads : IsRing pushed .across Matrix.head L.headers := h.heads_nil.push _ _
  have hprev : pushed.prev .across Matrix.head < pushed.size :=
    hheads.inside _ hheads.start_linked.2.2.2
  -- it goes right before the head, which is the end of the list of columns
  have hnotHeads : m.mesh.size ∉ Matrix.head :: L.headers :=
    fun hmem => hnew (List.mem_append_left _ hmem)
  refine ⟨⟨pushed.splice .across m.mesh.size Matrix.head,
    m.columns.push ⟨m.mesh.size, key, 0⟩⟩, ?_, ?_⟩
  · rw [Matrix.addColumn_eq, insertBefore_eq hsize hhead hprev, h.columnCount]
    rfl
  refine
    { ids := fun i => ?ids
      headLabel := (h.label_splice_push (by simp [Layout.ids])).trans h.headLabel
      headerLabel := forall_columns_addColumn (fun c hc => ?oldLabel) ?newLabel
      cellLabel := fun x hx => (h.label_splice_push (cell_mem_ids hx)).trans (h.cellLabel x hx)
      columnCount := by simp [h.columnCount, Layout.addColumn]
      column := forall_columns_addColumn (fun c hc => ?oldColumn) ?newColumn
      heads := ?heads
      headDown := (h.headDown.push _ _).splice_of_ne (by simp) hsize hhead hprev
      row := fun x r hr => ?row
      down := forall_columns_addColumn (fun c hc => ?oldDown) ?newDown }
  case ids =>
    rw [mem_ids_addColumn]
    exact h.lt_size_splice_push
  case oldLabel =>
    rw [header_addColumn hc]
    exact (h.label_splice_push (header_mem_ids hc)).trans (h.headerLabel c hc)
  case newLabel =>
    rw [header_addColumn_last, label_splice, label_push, if_pos rfl, h.columnCount]
  case oldColumn =>
    have hold := h.column_nil hc
    have hlt := (Array.getElem?_eq_some_iff.mp hold).1
    rw [filter_hidden_nil, nodes_addColumn, header_addColumn hc, key_addColumn hc, ← hold,
      Array.getElem?_push_lt hlt]
    exact (Array.getElem?_eq_getElem hlt).symm
  case newColumn =>
    -- nothing is below the new head yet
    rw [filter_hidden_nil, nodes_addColumn, header_addColumn_last, key_addColumn_last,
      nodes_nil_of_notMem last_notMem_columns, ← h.columnCount]
    simp
  case heads =>
    rw [Table.live_nil, map_header_columns]
    exact hheads.splice hnotHeads hsize
  case row =>
    refine ((h.row x r hr).push _ _).splice_of_notMem hheads hsize ?_ ?_
    · exact notMem_row (fun _ hy => head_ne_cell hy) hr
    · exact notMem_row (fun _ hy => (h.ne_size_of_mem_ids (cell_mem_ids hy)).symm) hr
  case oldDown =>
    rw [filter_hidden_nil, nodes_addColumn, header_addColumn hc]
    exact ((h.down_nil hc).push _ _).splice_of_ne (by simp) hsize hhead hprev
  case newDown =>
    rw [filter_hidden_nil, nodes_addColumn, header_addColumn_last,
      nodes_nil_of_notMem last_notMem_columns]
    exact (IsRing.of_push rfl).splice_of_ne (by simp) hsize hhead hprev

end Represents

/-! ## One more node -/

namespace Layout

variable {L : Layout}

/-- The layout with one more row, of one cell in a new place. -/
def addCell (L : Layout) (x : Cell) (hid : x.id ∉ L.ids) (hc : x.column ∈ L.table.columns) :
    Layout where
  headers := L.headers
  keys := L.keys
  rows := L.rows ++ [[x]]
  length_headers := L.length_headers
  nodup := by
    have hperm : (Matrix.head :: L.headers ++ (L.rows ++ [[x]]).flatten.map Cell.id).Perm
        (x.id :: L.ids) := by
      have hcomm : (L.ids ++ [x.id]).Perm ([x.id] ++ L.ids) := List.perm_append_comm
      simpa [ids] using hcomm
    exact hperm.nodup_iff.mpr (List.nodup_cons.mpr ⟨hid, L.nodup⟩)
  ascending r hr := by
    rcases List.mem_append.mp hr with hr | hr
    · exact L.ascending r hr
    · simp [List.mem_singleton.mp hr]
  ne_nil r hr := by
    rcases List.mem_append.mp hr with hr | hr
    · exact L.ne_nil r hr
    · simp [List.mem_singleton.mp hr]
  inside r hr y hy := by
    rcases List.mem_append.mp hr with hr | hr
    · exact L.inside r hr y hy
    · rw [List.mem_singleton.mp hr] at hy
      rw [List.mem_singleton.mp hy]
      exact mem_columns.mp hc

/-- The layout in which the last two rows are one. -/
def joinRow (L : Layout) (rows : List (List Cell)) (r s : List Cell)
    (hrows : L.rows = rows ++ [r, s]) (hasc : ((r ++ s).map Cell.column).Pairwise (· < ·)) :
    Layout where
  headers := L.headers
  keys := L.keys
  rows := rows ++ [r ++ s]
  length_headers := L.length_headers
  nodup := by
    have h := L.nodup
    rw [hrows] at h
    simpa using h
  ascending t ht := by
    rcases List.mem_append.mp ht with ht | ht
    · exact L.ascending t (by simp [hrows, ht])
    · rw [List.mem_singleton.mp ht]
      exact hasc
  ne_nil t ht := by
    rcases List.mem_append.mp ht with ht | ht
    · exact L.ne_nil t (by simp [hrows, ht])
    · have hr := L.ne_nil r (by simp [hrows])
      simp [List.mem_singleton.mp ht, hr]
  inside t ht y hy := by
    rcases List.mem_append.mp ht with ht | ht
    · exact L.inside t (by simp [hrows, ht]) y hy
    · rw [List.mem_singleton.mp ht] at hy
      rcases List.mem_append.mp hy with hy | hy
      · exact L.inside r (by simp [hrows]) y hy
      · exact L.inside s (by simp [hrows]) y hy

section

variable {rows : List (List Cell)} {r s : List Cell} {hrows : L.rows = rows ++ [r, s]}
  {hasc : ((r ++ s).map Cell.column).Pairwise (· < ·)}

/-- Two rows become one, but the cells are the same in the same order. -/
theorem flatten_joinRow : (L.joinRow rows r s hrows hasc).rows.flatten = L.rows.flatten := by
  simp [joinRow, hrows]

/-- No place is taken or left. -/
theorem ids_joinRow : (L.joinRow rows r s hrows hasc).ids = L.ids := by
  simp only [ids, flatten_joinRow]
  rfl

/-- The columns do not see that two rows were joined. -/
theorem nodes_joinRow (c : ColumnId) : (L.joinRow rows r s hrows hasc).nodes c = L.nodes c := by
  simp only [nodes, joinRow, hrows, List.flatMap_append, List.flatMap_cons, List.flatMap_nil,
    nodesIn, List.filter_append, List.map_append, List.append_nil]

end

/-- The new cell takes one place. -/
theorem mem_ids_addCell {x : Cell} (hid : x.id ∉ L.ids) (hc : x.column ∈ L.table.columns)
    {i : NodeId} : i ∈ (L.addCell x hid hc).ids ↔ i = x.id ∨ i ∈ L.ids := by
  have happ : (L.addCell x hid hc).ids = L.ids ++ [x.id] := by simp [ids, addCell]
  rw [happ, List.mem_append, List.mem_singleton, or_comm]

theorem mem_flatten_addCell {x y : Cell} (hid : x.id ∉ L.ids) (hc : x.column ∈ L.table.columns) :
    y ∈ (L.addCell x hid hc).rows.flatten ↔ y ∈ L.rows.flatten ∨ y = x := by
  simp [addCell]

/-- In its own column the new node comes last. -/
theorem nodes_addCell_self {x : Cell} (hid : x.id ∉ L.ids) (hc : x.column ∈ L.table.columns) :
    (L.addCell x hid hc).nodes x.column = L.nodes x.column ++ [x.id] := by
  simp [nodes, nodesIn, addCell]

/-- The other columns have the nodes that they had. -/
theorem nodes_addCell_of_ne {x : Cell} {c : ColumnId} (hid : x.id ∉ L.ids)
    (hc : x.column ∈ L.table.columns) (hne : c ≠ x.column) :
    (L.addCell x hid hc).nodes c = L.nodes c := by
  simp [nodes, nodesIn, addCell, Ne.symm hne]

end Layout

/-- Adding a node, as the steps that are taken one after the other: it is put into its column, the
size of the column goes up, and then it is put into the row, if there is one to go on with. -/
theorem Matrix.addNode_eq (m : Matrix) (header : NodeId) (c : ColumnId) (first? : Option NodeId) :
    m.addNode header c first? = do
      let mesh ← (m.mesh.push c false).insertBefore .down m.mesh.size header
      let m' ← Matrix.adjustSize c 1 ⟨mesh, m.columns⟩
      match first? with
      | none => return (m', m.mesh.size)
      | some first =>
        return (← m'.onMesh (Mesh.insertBefore .across m.mesh.size first), first) := rfl

namespace Represents

variable {L : Layout} {m : Matrix}

open Layout

/-- No head is a node of a column, its own or another one. -/
theorem header_notMem_nodes {c d : ColumnId} (hc : c ∈ L.table.columns) :
    L.header c ∉ L.nodes d := fun hmem => by
  obtain ⟨x, hx, -, heq⟩ := mem_nodes.mp hmem
  exact header_ne_cell (header_mem hc) hx heq.symm

/-- **A node is added at the bottom of a column, as a row of its own.** It goes right before the
head of the column, which closes its ring. The rows and the heads are linked along the other axis,
and the rings of the other columns share no node with this one. -/
theorem addCell (h : Represents L [] m) {c : ColumnId} (hc : c ∈ L.table.columns) :
    ∃ m', m.addNode (L.header c) c none = .ok (m', m.mesh.size) ∧
      Represents (L.addCell ⟨m.mesh.size, c⟩ h.size_notMem_ids hc) [] m' := by
  have hnew := h.size_notMem_ids
  let pushed := m.mesh.push c false
  have hsize : m.mesh.size < pushed.size := by simp [pushed]
  have hring : IsRing pushed .down (L.header c) (L.nodes c) := (h.down_nil hc).push _ _
  have hheader : L.header c < pushed.size := hring.inside _ (by simp)
  have hprev : pushed.prev .down (L.header c) < pushed.size :=
    hring.inside _ hring.start_linked.2.2.2
  have hnotDown : ∀ d ∈ L.table.columns, m.mesh.size ∉ L.header d :: L.nodes d := by
    intro d hd hmem
    rcases List.mem_cons.mp hmem with heq | hmem
    · exact h.ne_size_of_mem_ids (header_mem_ids hd) heq.symm
    · obtain ⟨x, hx, -, heq⟩ := mem_nodes.mp hmem
      exact h.ne_size_of_mem_ids (cell_mem_ids hx) heq
  have hcol := h.column_nil hc
  have hlt := (Array.getElem?_eq_some_iff.mp hcol).1
  have hcolumns : (L.addCell ⟨m.mesh.size, c⟩ hnew hc).table.columns = L.table.columns := rfl
  refine ⟨⟨pushed.splice .down m.mesh.size (L.header c),
    m.columns.setIfInBounds c ⟨L.header c, L.table.key c, (L.nodes c).length + 1⟩⟩, ?_, ?_⟩
  · rw [Matrix.addNode_eq, insertBefore_eq hsize hheader hprev, ok_bind,
      Matrix.adjustSize_eq hcol rfl]
    rfl
  refine
    { ids := fun i => ?ids
      headLabel := (h.label_splice_push (by simp [Layout.ids])).trans h.headLabel
      headerLabel := fun d hd =>
        (h.label_splice_push (header_mem_ids hd)).trans (h.headerLabel d hd)
      cellLabel := fun x hx => ?cellLabel
      columnCount := by simp [h.columnCount, Layout.addCell]
      column := fun d hd => ?column
      heads := (h.heads.push _ _).splice_of_ne (by simp) hsize hheader hprev
      headDown := (h.headDown.push _ _).splice_of_notMem hring hsize
        (by simpa using (head_ne_header hc).symm)
        (by simpa using (h.ne_size_of_mem_ids (by simp [Layout.ids])).symm)
      row := fun x r hr => ?row
      down := fun d hd => ?down }
  case ids =>
    rw [mem_ids_addCell]
    exact h.lt_size_splice_push
  case cellLabel =>
    rcases (mem_flatten_addCell hnew hc).mp hx with hx | rfl
    · exact (h.label_splice_push (cell_mem_ids hx)).trans (h.cellLabel x hx)
    · rw [label_splice, label_push, if_pos rfl]
  case column =>
    rw [filter_hidden_nil]
    by_cases hdc : d = c
    · subst hdc
      rw [nodes_addCell_self hnew hc, Array.getElem?_setIfInBounds_self_of_lt hlt,
        List.length_append]
      rfl
    · rw [nodes_addCell_of_ne hnew hc hdc]
      simp only [Array.getElem?_setIfInBounds, Ne.symm hdc, if_false]
      exact h.column_nil hd
  case row =>
    have hr' : x :: r ∈ L.rows ∨ (x = ⟨m.mesh.size, c⟩ ∧ r = []) := by
      simpa [Layout.addCell] using hr
    rcases hr' with hr | ⟨rfl, rfl⟩
    · exact ((h.row x r hr).push _ _).splice_of_ne (by simp) hsize hheader hprev
    · exact (IsRing.of_push rfl).splice_of_ne (by simp) hsize hheader hprev
  case down =>
    rw [filter_hidden_nil]
    by_cases hdc : d = c
    · subst hdc
      rw [nodes_addCell_self hnew hc]
      exact hring.splice (hnotDown d hc) hsize
    · rw [nodes_addCell_of_ne hnew hc hdc]
      refine ((h.down_nil hd).push _ _).splice_of_notMem hring hsize ?_ (hnotDown d hd)
      rw [List.mem_cons, not_or]
      exact ⟨fun heq => hdc (header_injective hc hd heq).symm, header_notMem_nodes hc⟩

/-- **A row of one node is put at the end of the row before it.** The node goes right before the
first one of that row, which closes the ring of the row. Until then it was its own neighbour, so it
is taken out of nothing; and the columns, linked along the other axis, keep their nodes. -/
theorem joinRow (h : Represents L [] m) {rows : List (List Cell)} {x y : Cell} {r : List Cell}
    (hrows : L.rows = rows ++ [x :: r, [y]])
    (hasc : (((x :: r) ++ [y]).map Cell.column).Pairwise (· < ·)) :
    ∃ m', m.onMesh (Mesh.insertBefore .across y.id x.id) = .ok m' ∧
      Represents (L.joinRow rows (x :: r) [y] hrows hasc) [] m' := by
  have hxr : x :: r ∈ L.rows := by simp [hrows]
  have hy : [y] ∈ L.rows := by simp [hrows]
  have hyflat : y ∈ L.rows.flatten := List.mem_flatten_of_mem hy (by simp)
  have hxflat : x ∈ L.rows.flatten := List.mem_flatten_of_mem hxr (by simp)
  have hring := h.row x r hxr
  have hysize : y.id < m.mesh.size := (h.row y [] hy).inside _ (by simp)
  have hxsize : x.id < m.mesh.size := hring.inside _ (by simp)
  have hprev : m.mesh.prev .across x.id < m.mesh.size := hring.inside _ hring.start_linked.2.2.2
  -- the two rows are not the same one, and both are others than those before them
  have hnodup := nodup_rows L
  rw [hrows] at hnodup
  obtain ⟨-, hlast, hbefore⟩ := List.nodup_append.mp hnodup
  have hne : x :: r ≠ [y] := List.ne_of_not_mem_cons (List.nodup_cons.mp hlast).1
  have hyr : y.id ∉ x.id :: r.map Cell.id := id_notMem_row hy hxr hne.symm (by simp)
  refine ⟨⟨m.mesh.splice .across y.id x.id, m.columns⟩, ?_, ?_⟩
  · have hinsert := insertBefore_eq hysize hxsize hprev
    simp only [Matrix.onMesh, hinsert]
    rfl
  refine
    { ids := fun i => ?ids
      headLabel := by simpa using h.headLabel
      headerLabel := fun d hd => by rw [label_splice]; exact h.headerLabel d hd
      cellLabel := fun z hz => by rw [label_splice]; exact h.cellLabel z (flatten_joinRow ▸ hz)
      columnCount := h.columnCount
      column := fun d hd => ?column
      heads := ?heads
      headDown := h.headDown.splice_of_ne (by simp) hysize hxsize hprev
      row := fun z t ht => ?row
      down := fun d hd => ?down }
  case ids => simpa [ids_joinRow] using h.ids i
  case column =>
    rw [filter_hidden_nil, nodes_joinRow]
    exact h.column_nil hd
  case heads =>
    rw [Table.live_nil, map_header_columns]
    refine h.heads_nil.splice_of_notMem hring hysize ?_ ?_
    · rw [List.mem_cons, not_or]
      exact ⟨fun heq => head_ne_cell hxflat heq.symm, fun hmem => header_ne_cell hmem hxflat rfl⟩
    · rw [List.mem_cons, not_or]
      exact ⟨fun heq => head_ne_cell hyflat heq.symm, fun hmem => header_ne_cell hmem hyflat rfl⟩
  case row =>
    rcases List.mem_append.mp ht with ht | ht
    · have htrows : z :: t ∈ L.rows := by simp [hrows, ht]
      have hneFirst : z :: t ≠ x :: r := hbefore _ ht _ (by simp)
      have hneSecond : z :: t ≠ [y] := hbefore _ ht _ (by simp)
      refine (h.row z t htrows).splice_of_notMem hring hysize ?_ ?_
      · exact id_notMem_row hxr htrows hneFirst.symm (by simp)
      · exact id_notMem_row hy htrows hneSecond.symm (by simp)
    · obtain ⟨rfl, rfl⟩ := List.cons.inj (List.mem_singleton.mp ht)
      have hjoined := hring.splice hyr hysize
      simpa using hjoined
  case down =>
    rw [filter_hidden_nil, nodes_joinRow]
    exact (h.down_nil hd).splice_of_ne (by simp) hysize hxsize hprev

end Represents

end ExactCover
