import ExactCover.Matrix.Cover
import ExactCover.Proofs.Mesh.Ring
import ExactCover.Proofs.Table
import Mathlib.Data.List.Nodup

/-!
# What a matrix stands for

A layout is a table together with the places of its ones: the node of each column head, and the node
of each cell of each row. A matrix represents a layout with some columns covered if its rings are
what the layout says: the heads of the columns that are left, every row as a whole, and below every
head the nodes that no cover has hidden.

* **`Layout.hidden`**: the nodes that are out of their columns once some columns were covered, one
  after the other. Covering a column hides the rest of each row through it, unless an earlier cover
  cut off that row already. So what is below a covered head depends on the order of the covers.
* **`Layout.Shows`**, **`Represents`**: the representation, for any nodes hidden and for those that
  the covers hide.
* **`Layout.filter_hidden`**: below a head that is left are the rows that meet no covered column.
  This does not depend on the order.
-/

namespace ExactCover

open Mesh

/-- One node of a row, and the column that it is in. -/
structure Cell where
  id : NodeId
  column : ColumnId
  deriving DecidableEq, Repr

/-- A table with a place for each column head and each one. -/
structure Layout where
  headers : List NodeId
  keys : List String
  rows : List (List Cell)
  length_headers : headers.length = keys.length
  /-- No two of the head, the column heads and the cells are one node. -/
  nodup : (Matrix.head :: headers ++ rows.flatten.map Cell.id).Nodup
  ascending : ∀ r ∈ rows, (r.map Cell.column).Pairwise (· < ·)
  ne_nil : ∀ r ∈ rows, r ≠ []
  inside : ∀ r ∈ rows, ∀ x ∈ r, 1 ≤ x.column ∧ x.column ≤ keys.length

namespace Layout

variable (L : Layout)

/-! ## Reading a layout -/

/-- The table without the places. -/
def table : Table := ⟨L.keys, L.rows.map (·.map Cell.column)⟩

def ids : List NodeId := Matrix.head :: L.headers ++ L.rows.flatten.map Cell.id

def header (c : ColumnId) : NodeId := (L.headers[c - 1]?).getD Matrix.head

/-- The nodes of one row in a column: one if the row meets the column, and else none. -/
def nodesIn (c : ColumnId) (r : List Cell) : List NodeId :=
  (r.filter (·.column = c)).map Cell.id

/-- The nodes of one row in other columns. -/
def nodesOutside (c : ColumnId) (r : List Cell) : List NodeId :=
  (r.filter (·.column ≠ c)).map Cell.id

def nodes (c : ColumnId) : List NodeId := L.rows.flatMap (nodesIn c)

/-- The rows through a column that meet no covered column. -/
def through (covered : List ColumnId) (c : ColumnId) : List (List Cell) :=
  L.rows.filter fun r => c ∈ r.map Cell.column ∧ ∀ d ∈ r.map Cell.column, d ∉ covered

/-- The nodes that covering hides, the latest cover first: of each row through the column that is
left at that moment, all nodes but the one in the column itself. -/
def hidden : List ColumnId → List NodeId
  | [] => []
  | c :: covered =>
    (L.through covered c).flatMap (nodesOutside c) ++ hidden covered

variable {L}

/-- Columns are numbered from one; the number zero is that of the head, which is none of them. -/
theorem mem_columns {c : Nat} : c ∈ L.table.columns ↔ 1 ≤ c ∧ c ≤ L.keys.length :=
  Table.mem_columns

/-- Every cell is in a column of the table. -/
theorem column_mem {r : List Cell} {x : Cell} (hr : r ∈ L.rows) (hx : x ∈ r) :
    x.column ∈ L.table.columns := mem_columns.mpr (L.inside r hr x hx)

/-- Rows are left in the layout where they are left in the table. -/
theorem table_through (covered : List ColumnId) (c : ColumnId) :
    L.table.through covered c = (L.through covered c).map (·.map Cell.column) := by
  simp only [Table.through, through, table, List.filter_map]
  rfl

theorem mem_through {covered : List ColumnId} {c : ColumnId} {r : List Cell} :
    r ∈ L.through covered c ↔
      r ∈ L.rows ∧ c ∈ r.map Cell.column ∧ ∀ d ∈ r.map Cell.column, d ∉ covered := by
  simp [through]

/-! ## Different nodes are different -/

theorem header_eq {c : Nat} (hc : c ∈ L.table.columns) :
    ∃ h : c - 1 < L.headers.length, L.header c = L.headers[c - 1] := by
  have hc := mem_columns.mp hc
  have h : c - 1 < L.headers.length := by rw [L.length_headers]; omega
  exact ⟨h, by simp [header, List.getElem?_eq_getElem h]⟩

theorem header_mem {c : ColumnId} (hc : c ∈ L.table.columns) : L.header c ∈ L.headers := by
  obtain ⟨h, heq⟩ := header_eq hc
  rw [heq]
  exact List.getElem_mem h

/-- Column by column, the heads are in the order in which they were added. -/
theorem map_header_columns : L.table.columns.map L.header = L.headers := by
  refine List.ext_getElem (by simp [Table.columns, table, L.length_headers]) fun i h h' => ?_
  simp [Table.columns, header, List.getElem?_eq_getElem h']

theorem nodup_headers : L.headers.Nodup := by
  have h := L.nodup
  simp only [List.cons_append, List.nodup_cons, List.nodup_append] at h
  exact h.2.1

theorem nodup_cells : (L.rows.flatten.map Cell.id).Nodup := by
  have h := L.nodup
  simp only [List.cons_append, List.nodup_cons, List.nodup_append] at h
  exact h.2.2.1

theorem head_ne_header {c : ColumnId} (hc : c ∈ L.table.columns) : Matrix.head ≠ L.header c := by
  have h := L.nodup
  simp only [List.cons_append, List.nodup_cons, List.mem_append] at h
  exact fun heq => h.1 (Or.inl (heq ▸ header_mem hc))

theorem head_ne_cell {x : Cell} (hx : x ∈ L.rows.flatten) : Matrix.head ≠ x.id := by
  have h := L.nodup
  simp only [List.cons_append, List.nodup_cons, List.mem_append] at h
  exact fun heq => h.1 (Or.inr (heq ▸ List.mem_map_of_mem hx))

/-- No node is both a head and a cell. This, and what follows from it, is what keeps the rings of a
mesh apart. -/
theorem header_ne_cell {x : Cell} {i : NodeId} (hi : i ∈ L.headers) (hx : x ∈ L.rows.flatten) :
    i ≠ x.id := by
  have h := L.nodup
  simp only [List.cons_append, List.nodup_cons, List.nodup_append] at h
  exact h.2.2.2 i hi x.id (List.mem_map_of_mem hx)

/-- A node that is no cell is in no row. -/
theorem notMem_row {i : NodeId} {x : Cell} {r : List Cell} (hi : ∀ y ∈ L.rows.flatten, i ≠ y.id)
    (hr : x :: r ∈ L.rows) : i ∉ x.id :: r.map Cell.id := by
  rw [← List.map_cons]
  intro hmem
  obtain ⟨y, hy, heq⟩ := List.mem_map.mp hmem
  exact hi y (List.mem_flatten_of_mem hr hy) heq.symm

/-- Different columns have different heads. -/
theorem header_injective {c d : ColumnId} (hc : c ∈ L.table.columns) (hd : d ∈ L.table.columns)
    (h : L.header c = L.header d) : c = d :=
  List.inj_on_of_nodup_map (map_header_columns ▸ L.nodup_headers) hc hd h

/-- A cell is known by its node. -/
theorem cell_ext {x y : Cell} (hx : x ∈ L.rows.flatten) (hy : y ∈ L.rows.flatten)
    (h : x.id = y.id) : x = y :=
  List.inj_on_of_nodup_map L.nodup_cells hx hy h

/-- A cell is in one row only. -/
theorem row_ext {r r' : List Cell} {x : Cell} (hr : r ∈ L.rows) (hr' : r' ∈ L.rows) (hx : x ∈ r)
    (hx' : x ∈ r') : r = r' := by
  have hflat : L.rows.flatten.Nodup := L.nodup_cells.of_map Cell.id
  have hpair := (List.nodup_flatten.mp hflat).2
  have hsymm : Std.Symm (List.Disjoint (α := Cell)) := ⟨fun _ _ h _ hx hy => h hy hx⟩
  by_contra hne
  exact hpair.forall hr hr' hne hx hx'

/-- A node of one row is in no other row. -/
theorem id_notMem_row {r r' : List Cell} {x : Cell} (hr : r ∈ L.rows) (hr' : r' ∈ L.rows)
    (hne : r ≠ r') (hx : x ∈ r) : x.id ∉ r'.map Cell.id := by
  intro hmem
  obtain ⟨y, hy, heq⟩ := List.mem_map.mp hmem
  have hyx : y = x :=
    cell_ext (List.mem_flatten_of_mem hr' hy) (List.mem_flatten_of_mem hr hx) heq
  exact hne (row_ext hr hr' hx (hyx ▸ hy))

/-- So no row is there twice, although two rows may meet the same columns. -/
theorem nodup_rows (L : Layout) : L.rows.Nodup := by
  have hflat : L.rows.flatten.Nodup := L.nodup_cells.of_map Cell.id
  have hpair := (List.nodup_flatten.mp hflat).2
  refine List.Pairwise.imp_of_mem (fun {r r'} hr _ hdisjoint heq => ?_) hpair
  subst heq
  -- a row that comes twice would share its nodes with itself
  obtain ⟨x, hx⟩ := List.exists_mem_of_ne_nil r (L.ne_nil r hr)
  exact hdisjoint hx hx

/-- A row meets a column once at most. So a cell of a row can be named by its column. -/
theorem nodup_row_columns {r : List Cell} (hr : r ∈ L.rows) : (r.map Cell.column).Nodup :=
  (L.ascending r hr).imp fun h => Nat.ne_of_lt h

/-- Read from one of its cells round to it again, a row meets every column once. -/
theorem nodup_columns_from {u v : List Cell} {x : Cell} (hr : u ++ x :: v ∈ L.rows) :
    ((x :: (v ++ u)).map Cell.column).Nodup :=
  ((perm_round u v x).map Cell.column).nodup_iff.mpr (nodup_row_columns hr)

/-- What comes after one cell of a row, round to it again, is in that row. -/
theorem mem_of_rest {u v : List Cell} {x y : Cell} (hy : y ∈ v ++ u) : y ∈ u ++ x :: v :=
  (perm_round u v x).mem_iff.mp (List.mem_cons_of_mem x hy)

/-- The cells of a row beside one of them are in other columns. -/
theorem column_ne_of_split {u v : List Cell} {x y : Cell} (hr : u ++ x :: v ∈ L.rows)
    (hy : y ∈ v ++ u) : y.column ≠ x.column := by
  intro h
  have hnodup := nodup_columns_from hr
  rw [List.map_cons, List.nodup_cons] at hnodup
  exact hnodup.1 (h ▸ List.mem_map_of_mem hy)

/-- The columns of a row, read round from one of its cells, are those of the cells after it and then
of those before it. -/
theorem roundFrom_split {u v : List Cell} {x : Cell} (hr : u ++ x :: v ∈ L.rows) :
    roundFrom (· == x.column) ((u ++ x :: v).map Cell.column) = (v ++ u).map Cell.column := by
  have hu : ∀ y ∈ u, (!((· == x.column) ∘ Cell.column) y) = true := fun y hy => by
    simpa using column_ne_of_split hr (List.mem_append_right v hy)
  rw [roundFrom_map, roundFrom, List.dropWhile_append_of_pos hu, List.takeWhile_append_of_pos hu]
  simp

/-- In the column of one of its cells a row has the node of this cell and no other. -/
theorem nodesIn_split {u v : List Cell} {x : Cell} (hr : u ++ x :: v ∈ L.rows) :
    nodesIn x.column (u ++ x :: v) = [x.id] := by
  have hu : u.filter (·.column = x.column) = [] := List.filter_eq_nil_iff.mpr fun y hy => by
    simpa using column_ne_of_split hr (List.mem_append_right v hy)
  have hv : v.filter (·.column = x.column) = [] := List.filter_eq_nil_iff.mpr fun y hy => by
    simpa using column_ne_of_split hr (List.mem_append_left u hy)
  simp [nodesIn, hu, hv]

/-- Outside that column it has the nodes of its other cells. -/
theorem nodesOutside_split {u v : List Cell} {x : Cell} (hr : u ++ x :: v ∈ L.rows) :
    nodesOutside x.column (u ++ x :: v) = (u ++ v).map Cell.id := by
  have hu : u.filter (·.column ≠ x.column) = u := List.filter_eq_self.mpr fun y hy => by
    simpa using column_ne_of_split hr (List.mem_append_right v hy)
  have hv : v.filter (·.column ≠ x.column) = v := List.filter_eq_self.mpr fun y hy => by
    simpa using column_ne_of_split hr (List.mem_append_left u hy)
  rw [nodesOutside, List.filter_append, List.filter_cons, hu, hv]
  simp

/-- A row through a column can be cut open at its cell there. -/
theorem split_of_mem_through {covered : List ColumnId} {c : ColumnId} {r : List Cell}
    (hr : r ∈ L.through covered c) : ∃ u x v, r = u ++ x :: v ∧ x.column = c := by
  obtain ⟨x, hx, hxc⟩ := List.mem_map.mp (mem_through.mp hr).2.1
  obtain ⟨u, v, rfl⟩ := List.append_of_mem hx
  exact ⟨u, x, v, rfl, hxc⟩

theorem mem_nodesIn {c : ColumnId} {r : List Cell} {i : NodeId} :
    i ∈ nodesIn c r ↔ ∃ x ∈ r, x.column = c ∧ x.id = i := by
  simp [nodesIn, and_assoc]

/-- The node of a row that is left is a cell of it, and the others are in live columns. -/
theorem exists_split {covered : List ColumnId} {c : ColumnId} {i : NodeId}
    (hi : i ∈ (L.through covered c).flatMap (nodesIn c)) :
    ∃ u x v, u ++ x :: v ∈ L.rows ∧ x.id = i ∧ x.column = c ∧ ∀ z ∈ v ++ u, z.column ∉ covered := by
  obtain ⟨r, hr, hir⟩ := List.mem_flatMap.mp hi
  obtain ⟨x, hx, hxc, rfl⟩ := mem_nodesIn.mp hir
  obtain ⟨hrow, -, halive⟩ := mem_through.mp hr
  obtain ⟨u, v, rfl⟩ := List.append_of_mem hx
  exact ⟨u, x, v, hrow, rfl, hxc, fun z hz => halive _ (List.mem_map_of_mem (mem_of_rest hz))⟩

/-- The nodes of a column are those of its cells. -/
theorem mem_nodes {c : ColumnId} {i : NodeId} :
    i ∈ L.nodes c ↔ ∃ x ∈ L.rows.flatten, x.column = c ∧ x.id = i := by
  simp only [nodes, List.mem_flatMap, mem_nodesIn, List.mem_flatten]
  constructor
  · rintro ⟨r, hr, x, hx, hxc⟩
    exact ⟨x, ⟨r, hr, hx⟩, hxc⟩
  · rintro ⟨x, ⟨r, hr, hx⟩, hxc⟩
    exact ⟨r, hr, x, hx, hxc⟩

theorem cell_mem_nodes {x : Cell} (hx : x ∈ L.rows.flatten) : x.id ∈ L.nodes x.column :=
  mem_nodes.mpr ⟨x, hx, rfl, rfl⟩

/-- No node of a column is among the nodes of a row that are in other columns. -/
theorem notMem_nodesOutside {c : ColumnId} {r : List Cell} {i : NodeId} (hi : i ∈ L.nodes c)
    (hr : r ∈ L.rows) : i ∉ nodesOutside c r := by
  intro hmem
  obtain ⟨x, hx, hxc, rfl⟩ := mem_nodes.mp hi
  obtain ⟨y, hy, hid⟩ := List.mem_map.mp hmem
  obtain ⟨hyr, hyc⟩ := List.mem_filter.mp hy
  have hyx : y = x := cell_ext (List.mem_flatten_of_mem hr hyr) hx hid
  simp [hyx, hxc] at hyc

/-- The node of a row in a column that it meets. -/
def nodeIn (c : ColumnId) (r : List Cell) : NodeId := (nodesIn c r).head?.getD Matrix.head

theorem nodeIn_split {u v : List Cell} {x : Cell} (hr : u ++ x :: v ∈ L.rows) :
    nodeIn x.column (u ++ x :: v) = x.id := by
  rw [nodeIn, nodesIn_split hr]
  rfl

/-- Each row through a column has one node in it, so these can be gone through one by one. -/
theorem flatMap_nodesIn {covered : List ColumnId} {c : ColumnId} :
    (L.through covered c).flatMap (nodesIn c) = (L.through covered c).map (nodeIn c) := by
  rw [← List.flatMap_pure_eq_map]
  refine List.flatMap_congr fun r hr => ?_
  obtain ⟨u, x, v, rfl, rfl⟩ := split_of_mem_through hr
  have hr' := (mem_through.mp hr).1
  show nodesIn x.column (u ++ x :: v) = [nodeIn x.column (u ++ x :: v)]
  rw [nodesIn_split hr', nodeIn_split hr']

/-! ## Hidden nodes -/

/-- When one more column is covered, the nodes that are hidden as well are those of the rows through
it, but for the ones in the column itself. -/
theorem mem_hidden_cons {covered : List ColumnId} {c : ColumnId} {r : List Cell} {x : Cell}
    (hr : r ∈ L.rows) (hx : x ∈ r) :
    x.id ∈ L.hidden (c :: covered) ↔
      (r ∈ L.through covered c ∧ x.column ≠ c) ∨ x.id ∈ L.hidden covered := by
  simp only [hidden, nodesOutside, List.mem_append, List.mem_flatMap, List.mem_map,
    List.mem_filter, decide_eq_true_eq]
  constructor
  · rintro (⟨r', hr', y, ⟨hy, hyc⟩, hid⟩ | h)
    · have hr'' := (mem_through.mp hr').1
      obtain rfl : y = x := cell_ext (List.mem_flatten_of_mem hr'' hy)
        (List.mem_flatten_of_mem hr hx) hid
      obtain rfl := row_ext hr'' hr hy hx
      exact Or.inl ⟨hr', hyc⟩
    · exact Or.inr h
  · rintro (⟨hr', hxc⟩ | h)
    · exact Or.inl ⟨r, hr', x, ⟨hx, hxc⟩, rfl⟩
    · exact Or.inr h

/-- A node in a column that is left is hidden if its row meets a covered column. Induction on the
covers: the first one that the row meets hides the node, and no other one touches it. -/
theorem mem_hidden_iff {covered : List ColumnId} {r : List Cell} {x : Cell} (hr : r ∈ L.rows)
    (hx : x ∈ r) (hlive : x.column ∉ covered) :
    x.id ∈ L.hidden covered ↔ ∃ d ∈ r.map Cell.column, d ∈ covered := by
  induction covered with
  | nil => simp [hidden]
  | cons c covered ih =>
    obtain ⟨hxc, hlive'⟩ : x.column ≠ c ∧ x.column ∉ covered := by simpa using hlive
    rw [mem_hidden_cons hr hx, ih hlive', mem_through]
    constructor
    · rintro (⟨⟨-, hc, -⟩, -⟩ | ⟨d, hd, hdc⟩)
      · exact ⟨c, hc, by simp⟩
      · exact ⟨d, hd, List.mem_cons_of_mem c hdc⟩
    · rintro ⟨d, hd, hdc⟩
      by_cases hcut : ∃ e ∈ r.map Cell.column, e ∈ covered
      · exact Or.inr hcut
      · -- no earlier cover cut the row off, so it is cut off by this one
        have hdc' : d = c := by
          rcases List.mem_cons.mp hdc with h | h
          · exact h
          · exact absurd ⟨d, hd, h⟩ hcut
        exact Or.inl ⟨⟨hr, hdc' ▸ hd, fun e he hec => hcut ⟨e, he, hec⟩⟩, hxc⟩

/-- No node of a row that is left is hidden. -/
theorem notMem_hidden {covered : List ColumnId} {r : List Cell} {x : Cell} (hr : r ∈ L.rows)
    (hx : x ∈ r) (hlive : ∀ d ∈ r.map Cell.column, d ∉ covered) : x.id ∉ L.hidden covered := by
  rw [mem_hidden_iff hr hx (hlive x.column (List.mem_map_of_mem hx))]
  rintro ⟨d, hd, hdc⟩
  exact hlive d hd hdc

/-- Covering a column does not change what is below its own head. -/
theorem filter_hidden_cons (covered : List ColumnId) (c : ColumnId) :
    ((L.nodes c).filter (· ∉ L.hidden (c :: covered))) =
      (L.nodes c).filter (· ∉ L.hidden covered) := by
  refine List.filter_congr fun i hi => ?_
  obtain ⟨x, hx, hxc, rfl⟩ := mem_nodes.mp hi
  obtain ⟨r, hr, hxr⟩ := List.mem_flatten.mp hx
  simp [mem_hidden_cons hr hxr, hxc]

theorem flatMap_filter {α β : Type} (p : α → Bool) (f : α → List β) (l : List α) :
    (l.filter p).flatMap f = l.flatMap fun x => if p x then f x else [] := by
  induction l with
  | nil => rfl
  | cons x l ih => cases h : p x <;> simp [h, ih]

/-- **Below a head that is left are the rows that meet no covered column.** -/
theorem filter_hidden {covered : List ColumnId} {c : ColumnId} (hc : c ∉ covered) :
    (L.nodes c).filter (· ∉ L.hidden covered) = (L.through covered c).flatMap (nodesIn c) := by
  rw [nodes, through, List.filter_flatMap, flatMap_filter]
  refine List.flatMap_congr fun r hr => ?_
  by_cases hthrough : c ∈ r.map Cell.column ∧ ∀ d ∈ r.map Cell.column, d ∉ covered
  · -- nothing of a row that is left is hidden
    rw [if_pos (decide_eq_true hthrough)]
    refine List.filter_eq_self.mpr fun i hi => ?_
    obtain ⟨x, hx, -, rfl⟩ := mem_nodesIn.mp hi
    simpa using notMem_hidden hr hx hthrough.2
  · -- a row that still has a node here meets a covered column, and is hidden for that
    rw [if_neg (by simpa using hthrough)]
    refine List.filter_eq_nil_iff.mpr fun i hi => ?_
    obtain ⟨x, hx, hxc, rfl⟩ := mem_nodesIn.mp hi
    subst hxc
    have hmeets : ∃ d ∈ r.map Cell.column, d ∈ covered := by
      by_contra hnone
      exact hthrough ⟨List.mem_map_of_mem hx, fun d hd hdc => hnone ⟨d, hd, hdc⟩⟩
    simpa using (mem_hidden_iff hr hx hc).mpr hmeets

/-- There is one node for each of them. -/
theorem length_filter_hidden {covered : List ColumnId} {c : ColumnId} (hc : c ∉ covered) :
    ((L.nodes c).filter (· ∉ L.hidden covered)).length = (L.through covered c).length := by
  rw [filter_hidden hc, List.length_flatMap]
  have hone : ∀ r ∈ L.through covered c, (nodesIn c r).length = 1 := fun r hr => by
    obtain ⟨u, x, v, rfl, rfl⟩ := split_of_mem_through hr
    rw [nodesIn_split (mem_through.mp hr).1]
    rfl
  rw [List.map_congr_left hone]
  simp

end Layout

end ExactCover
