import ExactCover.Proofs.Matrix.Layout

/-!
# What was added to a matrix

An inventory is kept while a matrix grows. It has the keys of the columns and the rows as they were
added, and with each of them the nodes that were made for it. Nodes are numbered as they are made,
so the inventory knows the number of the next one from what it has already.

* **`Inventory.addColumn`, `Inventory.addRow`**: what is written down for a column, and for a row.
* **`Inventory.newRow`**: the nodes of a row, one after the other, in the columns that it meets.
* **`Inventory.Grows`**: what was written down stays.
* **`Layout.inventory`**: a layout is an inventory in which everything is in its place.
-/

namespace ExactCover

/-- A row as a list of rows: a row without nodes is none. -/
def Layout.asRows (row : List Cell) : List (List Cell) := if row = [] then [] else [row]

/-- A row without nodes adds no cells either way, so cells need no case for it. -/
@[simp] theorem Layout.flatten_asRows (row : List Cell) : (asRows row).flatten = row := by
  unfold asRows
  split_ifs with hnil <;> simp [hnil]

/-- Cells in these columns, their nodes made one after the other. -/
def cellsFrom : NodeId → List ColumnId → List Cell
  | _, [] => []
  | id, c :: columns => ⟨id, c⟩ :: cellsFrom (id + 1) columns

section

variable {id : NodeId} {columns : List ColumnId}

@[simp] theorem map_column_cellsFrom : (cellsFrom id columns).map Cell.column = columns := by
  induction columns generalizing id with
  | nil => rfl
  | cons c columns ih => rw [cellsFrom, List.map_cons, ih]

/-- The numbers of the new nodes follow each other without a gap. -/
@[simp] theorem map_id_cellsFrom :
    (cellsFrom id columns).map Cell.id = List.range' id columns.length := by
  induction columns generalizing id with
  | nil => rfl
  | cons c columns ih => rw [cellsFrom, List.map_cons, ih, List.length_cons, List.range'_succ]

@[simp] theorem length_cellsFrom : (cellsFrom id columns).length = columns.length := by
  rw [← List.length_map (f := Cell.column), map_column_cellsFrom]

end

/-- What was added to a matrix: the heads of its columns, their keys, and the rows that have a
node. -/
structure Inventory where
  headers : List NodeId
  keys : List String
  rows : List (List Cell)
  deriving DecidableEq, Repr

namespace Inventory

/-- Nothing was added yet. -/
def empty : Inventory := ⟨[], [], []⟩

variable (v : Inventory)

/-- The table without the places. -/
def table : Table := ⟨v.keys, v.rows.map (·.map Cell.column)⟩

/-- How many nodes were made: the head, the heads of the columns, and the cells. -/
def size : Nat := 1 + v.headers.length + v.rows.flatten.length

/-- The head of a column, which are numbered from one; the head of all columns where there is
none. -/
def header (c : ColumnId) : NodeId := (v.headers[c - 1]?).getD Matrix.head

/-- The nodes that were made in a column, in order. -/
def nodes (c : ColumnId) : List NodeId := (v.rows.flatten.filter (·.column = c)).map Cell.id

/-! ## Growing -/

/-- A column takes the next node as its head. -/
def addColumn (key : String) : Inventory :=
  { v with headers := v.headers ++ [v.size], keys := v.keys ++ [key] }

/-- The nodes of a new row: for each of its keys one in the first column that carries it. -/
def newRow (keys : List String) : List Cell := cellsFrom v.size (v.table.meets keys)

/-- A row is kept if at least one of its keys has a column. -/
def addRow (keys : List String) : Inventory :=
  { v with rows := v.rows ++ Layout.asRows (v.newRow keys) }

variable {v} {keys : List String}

/-- The numbers of the nodes do not matter to the table, which a row reaches through its columns
alone. -/
theorem table_addRow : (v.addRow keys).table = v.table.addRow keys := by
  have hcolumns : (v.newRow keys).map Cell.column = v.table.meets keys := map_column_cellsFrom
  unfold Table.addRow
  rw [← hcolumns]
  split_ifs with hnil
  · rw [List.map_eq_nil_iff] at hnil
    simp [table, addRow, Layout.asRows, hnil]
  · rw [List.map_eq_nil_iff] at hnil
    simp [table, addRow, Layout.asRows, hnil]

/-- A row makes one node for each column that it meets, and no other. -/
theorem size_addRow : (v.addRow keys).size = v.size + (v.table.meets keys).length := by
  have hcells : (v.newRow keys).length = (v.table.meets keys).length := length_cellsFrom
  have hrows : (v.addRow keys).rows.flatten = v.rows.flatten ++ v.newRow keys := by simp [addRow]
  rw [size, hrows, List.length_append, hcells, ← Nat.add_assoc]
  rfl

/-! ## Later inventories -/

/-- Nothing was taken out of the inventory `v`, and what was added comes last. -/
structure Grows (v v' : Inventory) : Prop where
  headers : v.headers <+: v'.headers
  keys : v.keys <+: v'.keys
  rows : v.rows <+: v'.rows

namespace Grows

variable {v v' v'' : Inventory}

theorem refl (v : Inventory) : v.Grows v := ⟨List.prefix_rfl, List.prefix_rfl, List.prefix_rfl⟩

/-- So it is enough to look at one addition at a time. -/
theorem trans (h : v.Grows v') (h' : v'.Grows v'') : v.Grows v'' :=
  ⟨h.headers.trans h'.headers, h.keys.trans h'.keys, h.rows.trans h'.rows⟩

/-- A column keeps its head. -/
theorem header_eq (h : v.Grows v') {c : Nat} (hc : c - 1 < v.headers.length) :
    v'.header c = v.header c := by
  obtain ⟨headers, hheaders⟩ := h.headers
  rw [header, header, ← hheaders, List.getElem?_append_left hc]

/-- A column keeps its key. -/
theorem key_eq (h : v.Grows v') {c : Nat} (hc : c - 1 < v.keys.length) :
    v'.table.key c = v.table.key c := by
  obtain ⟨keys, hkeys⟩ := h.keys
  rw [Table.key, Table.key, table, table, ← hkeys, List.getElem?_append_left hc]

/-- Numbers of nodes are not used again. -/
theorem size_le (h : v.Grows v') : v.size ≤ v'.size := by
  obtain ⟨rows, hrows⟩ := h.rows
  have hheaders := h.headers.length_le
  rw [size, size, ← hrows, List.flatten_append, List.length_append]
  omega

/-- The nodes of a column come first in it. -/
theorem nodes_eq (h : v.Grows v') (c : ColumnId) :
    ∃ new : List Cell, v'.rows.flatten = v.rows.flatten ++ new ∧
      v'.nodes c = v.nodes c ++ (new.filter (·.column = c)).map Cell.id := by
  obtain ⟨rows, hrows⟩ := h.rows
  refine ⟨rows.flatten, by rw [← hrows, List.flatten_append], ?_⟩
  rw [nodes, nodes, ← hrows, List.flatten_append, List.filter_append, List.map_append]

end Grows

end Inventory

namespace Layout

variable {L : Layout}

/-- What was added to a matrix that has this layout. -/
def inventory (L : Layout) : Inventory := ⟨L.headers, L.keys, L.rows⟩

/-- Read row by row, the nodes of a column in a layout are the ones that the inventory counts. -/
theorem nodes_eq (c : ColumnId) :
    L.nodes c = (L.rows.flatten.filter (·.column = c)).map Cell.id := by
  rw [nodes, List.filter_flatten, List.map_flatten, List.map_map, List.flatMap_def]
  rfl

/-- The places of a layout are as many as nodes were made, so the next node has the next number. -/
theorem length_ids : L.ids.length = L.inventory.size := by
  rw [ids, List.length_append, List.length_cons, List.length_map, Inventory.size, inventory,
    Nat.add_comm 1]

end Layout

end ExactCover
