import ExactCover.Proofs.Matrix.Layout

/-!
# Matrices that represent a layout

The representation itself, and what the reading operations of a matrix answer under it. None of them
can fail there: every ring closes, and every node and column is found.

* **`Layout.Shows`**: the rings and the sizes of a matrix are what a layout says, with some columns
  covered and some nodes hidden.
* **`Represents`**: the nodes hidden are those that the covers hide.
* **`Represents.columnNodes`, `Represents.extent`**: what is read below the heads is the table with
  the covered columns, and the rows that meet them, taken out.
-/

namespace ExactCover

open Mesh

/-! ## Readings that succeed -/

/-- Whether a reading of a matrix succeeds and has `i` in it. -/
def Lists (reading : Except Fault (List Nat)) (i : Nat) : Prop := ∃ l, reading = .ok l ∧ i ∈ l

instance (reading : Except Fault (List Nat)) (i : Nat) : Decidable (Lists reading i) :=
  match reading with
  | .ok l => decidable_of_iff (i ∈ l) (by simp [Lists])
  | .error _ => isFalse (by simp [Lists])

@[simp] theorem lists_ok {l : List Nat} {i : Nat} : Lists (.ok l) i ↔ i ∈ l := by simp [Lists]

/-! ## Sizes -/

/-- Changing a size cannot fail where the size does not fall below zero, which a layout guarantees:
a column has a node for each one that is taken out of it. -/
theorem Matrix.adjustSize_eq {mesh : Mesh} {columns : Array Column} {c : ColumnId} {col : Column}
    {delta : Int} {size : Nat} (hcol : columns[c]? = some col)
    (hsize : (col.size : Int) + delta = size) :
    Matrix.adjustSize c delta ⟨mesh, columns⟩ =
      .ok ⟨mesh, columns.setIfInBounds c { col with size }⟩ := by
  simp [Matrix.adjustSize, hcol, Column.adjust, hsize]

/-! ## The representation -/

/-- The matrix `m` is laid out as `L` says, the columns `covered` are out of the list of the head,
and the nodes `hid` are out of their columns. -/
structure Layout.Shows (L : Layout) (covered : List ColumnId) (hid : List NodeId) (m : Matrix) :
    Prop where
  ids : ∀ i, i < m.mesh.size ↔ i ∈ L.ids
  headLabel : m.mesh.label Matrix.head = some (Matrix.headColumn, true)
  headerLabel : ∀ c ∈ L.table.columns, m.mesh.label (L.header c) = some (c, true)
  cellLabel : ∀ x ∈ L.rows.flatten, m.mesh.label x.id = some (x.column, false)
  columnCount : m.columns.size = L.keys.length + 1
  /-- The size of a column is the number of nodes below its head. -/
  column : ∀ c ∈ L.table.columns, m.columns[c]? =
    some ⟨L.header c, L.table.key c, ((L.nodes c).filter (· ∉ hid)).length⟩
  heads : IsRing m.mesh .across Matrix.head ((L.table.live covered).map L.header)
  headDown : IsRing m.mesh .down Matrix.head []
  row : ∀ x r, x :: r ∈ L.rows → IsRing m.mesh .across x.id (r.map Cell.id)
  down : ∀ c ∈ L.table.columns, IsRing m.mesh .down (L.header c) ((L.nodes c).filter (· ∉ hid))

/-- The matrix `m` represents the layout `L` after the columns `covered` were covered, the latest
first. -/
def Represents (L : Layout) (covered : List ColumnId) (m : Matrix) : Prop :=
  L.Shows covered (L.hidden covered) m

namespace Layout.Shows

variable {L : Layout} {covered : List ColumnId} {hid : List NodeId} {m : Matrix}

/-- Only which nodes are hidden matters. -/
theorem congr {hid' : List NodeId} (h : L.Shows covered hid m) (hhid : ∀ i, i ∈ hid ↔ i ∈ hid') :
    L.Shows covered hid' m := by
  have hfilter : ∀ l : List NodeId, l.filter (· ∉ hid) = l.filter (· ∉ hid') := fun l =>
    List.filter_congr fun i _ => by simp [hhid i]
  exact { h with
    column := fun c hc => by rw [h.column c hc, hfilter]
    down := fun c hc => by rw [← hfilter]; exact h.down c hc }

/-- A matrix has a node for each place of its layout, and no others. -/
theorem size (h : L.Shows covered hid m) : m.mesh.size = L.ids.length := by
  have hperm : (List.range m.mesh.size).Perm L.ids :=
    (List.perm_ext_iff_of_nodup List.nodup_range L.nodup).mpr fun i =>
      List.mem_range.trans (h.ids i)
  rw [← hperm.length_eq, List.length_range]

/-- A head knows its column. -/
theorem columnOf_header (h : L.Shows covered hid m) {c : ColumnId} (hc : c ∈ L.table.columns) :
    m.columnOf (L.header c) = .ok c := by
  obtain ⟨n, hn, hcolumn⟩ := node_column_of_label (h.headerLabel c hc)
  simp [Matrix.columnOf, hn, hcolumn]

/-- A node knows its column, whether it is in its list or not. -/
theorem columnOf_cell (h : L.Shows covered hid m) {x : Cell} (hx : x ∈ L.rows.flatten) :
    m.columnOf x.id = .ok x.column := by
  obtain ⟨n, hn, hcolumn⟩ := node_column_of_label (h.cellLabel x hx)
  simp [Matrix.columnOf, hn, hcolumn]

/-- The size that is kept of a column is the number of the nodes in its list. -/
theorem column_ok (h : L.Shows covered hid m) {c : ColumnId} (hc : c ∈ L.table.columns) :
    m.column c =
      .ok ⟨L.header c, L.table.key c, ((L.nodes c).filter (· ∉ hid)).length⟩ := by
  simp [Matrix.column, h.column c hc]

/-- A node that heads no column is a cell. -/
theorem cell_of_node (h : L.Shows covered hid m) {i : NodeId} {n : Node}
    (hn : m.mesh.node i = .ok n) (hheader : n.isHeader = false) :
    ∃ r ∈ L.rows, ∃ x ∈ r, x.id = i := by
  have hlabel := label_of_node hn
  rw [hheader] at hlabel
  have hi := (h.ids i).mp (lt_size_of_label hlabel)
  rcases List.mem_append.mp hi with hi | hi
  · exfalso
    rcases List.mem_cons.mp hi with rfl | hi
    · simp [h.headLabel] at hlabel
    · rw [← map_header_columns] at hi
      obtain ⟨c, hc, rfl⟩ := List.mem_map.mp hi
      simp [h.headerLabel c hc] at hlabel
  · obtain ⟨x, hx, rfl⟩ := List.mem_map.mp hi
    obtain ⟨r, hr, hxr⟩ := List.mem_flatten.mp hx
    exact ⟨r, hr, x, hxr, rfl⟩

/-- The columns in the list of the head are those that are not covered. -/
theorem live (h : L.Shows covered hid m) : m.live = .ok (L.table.live covered) := by
  have hmap : ((L.table.live covered).map L.header).mapM m.columnOf =
      .ok (L.table.live covered) := by
    have hcolumns : ∀ c ∈ L.table.live covered, (m.columnOf ∘ L.header) c = .ok (id c) :=
      fun c hc => h.columnOf_header (Table.mem_live.mp hc).1
    simpa [List.mapM_map] using mapM_eq_ok hcolumns
  simp [Matrix.live, h.heads.ring_next, hmap]

/-- Walking down a column meets the nodes that are not hidden, in their old order. -/
theorem columnNodes (h : L.Shows covered hid m) {c : ColumnId} (hc : c ∈ L.table.columns) :
    m.columnNodes c = .ok ((L.nodes c).filter (· ∉ hid)) := by
  simp [Matrix.columnNodes, h.column_ok hc, (h.down c hc).ring_next]

/-- The live columns are those of the table. -/
theorem lists_live (h : L.Shows covered hid m) {c : ColumnId} :
    Lists m.live c ↔ c ∈ L.table.live covered := by rw [h.live, lists_ok]

theorem lists_columnNodes (h : L.Shows covered hid m) {c : ColumnId} (hc : c ∈ L.table.columns)
    {i : NodeId} : Lists (m.columnNodes c) i ↔ i ∈ (L.nodes c).filter (· ∉ hid) := by
  rw [h.columnNodes hc, lists_ok]

/-- A row is a ring wherever it is started. -/
theorem row_split (h : L.Shows covered hid m) {u v : List Cell} {x : Cell}
    (hr : u ++ x :: v ∈ L.rows) : IsRing m.mesh .across x.id ((v ++ u).map Cell.id) := by
  cases u with
  | nil => simpa using h.row x v hr
  | cons y u =>
    have hring := h.row y (u ++ x :: v) hr
    rw [List.map_append, List.map_cons] at hring
    simpa using hring.rotate

/-- Walking along a row from any of its nodes meets all of them, hidden or not. -/
theorem rowNodes (h : L.Shows covered hid m) {u v : List Cell} {x : Cell}
    (hr : u ++ x :: v ∈ L.rows) : m.rowNodes x.id = .ok ((x :: (v ++ u)).map Cell.id) := by
  simp [Matrix.rowNodes, (h.row_split hr).ring_next]

/-- The keys of a row are read from wherever one starts, round to there again. -/
theorem rowKeys (h : L.Shows covered hid m) {u v : List Cell} {x : Cell}
    (hr : u ++ x :: v ∈ L.rows) :
    m.rowKeys x.id = .ok ((x :: (v ++ u)).map fun y => L.table.key y.column) := by
  simp only [Matrix.rowKeys, h.rowNodes hr, ok_bind, List.mapM_map]
  refine mapM_eq_ok fun y hy => ?_
  have hyr : y ∈ u ++ x :: v := (perm_round u v x).mem_iff.mp hy
  simp [Matrix.owner, h.columnOf_cell (List.mem_flatten_of_mem hr hyr),
    h.column_ok (column_mem hr hyr)]

theorem find? (h : L.Shows covered hid m) (key : String) :
    m.find? key = .ok (L.table.find? covered key) := by
  simp only [Matrix.find?, h.live, ok_bind, Table.find?]
  refine findM?_eq_ok fun c hc => ?_
  simp [h.column_ok (Table.mem_live.mp hc).1]

end Layout.Shows

namespace Represents

variable {L : Layout} {covered : List ColumnId} {m : Matrix}

/-- **Below the head of a column that is left are the rows that meet no covered column.** -/
theorem columnNodes (h : Represents L covered m) {c : ColumnId} (hc : c ∈ L.table.live covered) :
    m.columnNodes c = .ok ((L.through covered c).flatMap (Layout.nodesIn c)) := by
  obtain ⟨hc, hlive⟩ := Table.mem_live.mp hc
  rw [Layout.Shows.columnNodes h hc, Layout.filter_hidden hlive]

/-- **The size of a column that is left counts these rows.** -/
theorem column_ok (h : Represents L covered m) {c : ColumnId} (hc : c ∈ L.table.live covered) :
    m.column c = .ok ⟨L.header c, L.table.key c, (L.table.through covered c).length⟩ := by
  obtain ⟨hc, hlive⟩ := Table.mem_live.mp hc
  rw [Layout.Shows.column_ok h hc, Layout.length_filter_hidden hlive, Layout.table_through,
    List.length_map]

/-- The rows and columns that are left are counted as in the table. -/
theorem extent (h : Represents L covered m) : m.extent = .ok (L.table.extent covered) := by
  let nodes (c : ColumnId) : List NodeId := (L.nodes c).filter (· ∉ L.hidden covered)
  have hnodes : (L.table.live covered).mapM m.columnNodes =
      .ok ((L.table.live covered).map nodes) :=
    mapM_eq_ok fun c hc => Layout.Shows.columnNodes h (Table.mem_live.mp hc).1
  have hlength : ((L.table.live covered).map nodes).flatten.length =
      ((L.table.live covered).flatMap (L.table.through covered)).length := by
    rw [List.length_flatten, List.length_flatMap, List.map_map]
    refine congrArg List.sum (List.map_congr_left fun c hc => ?_)
    rw [Layout.table_through, List.length_map]
    exact Layout.length_filter_hidden (Table.mem_live.mp hc).2
  simp only [Matrix.extent, Layout.Shows.live h, ok_bind, hnodes, hlength]
  rfl

end Represents

end ExactCover
