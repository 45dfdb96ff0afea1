import ExactCover.Proofs.Matrix.Remains

/-!
# A matrix holds what was added to it

Whatever columns and rows are added, in whatever order, with whatever keys, the matrix holds exactly
that: the columns in order, each row as one ring across, each column with the nodes of its rows from
top to bottom, and no other node. All links of all nodes are mutual along both axes. What is added
later comes after all this and changes none of it.

* **`Matrix.Holds`**: what a matrix shows if an inventory is right about it.
* **`Represents.holds`**: a matrix shows the inventory of the layout that it represents.
* **`Matrix.Extends`**, **`Represents.extends_of_grows`**: what was there before later additions is
  still there.
* **`Matrix.RowAdded`**, **`Represents.rowAdded`**: what a new row adds to a matrix.
* **`build_holds`**: the result for every sequence of additions, with what the next one answers.
-/

namespace ExactCover

open Mesh

/-! ## What a matrix shows -/

/-- What a matrix shows if the inventory `v` is right about it. -/
structure Matrix.Holds (m : Matrix) (v : Inventory) : Prop where
  size : m.mesh.size = v.size
  live : m.live = .ok (List.range' 1 v.keys.length)
  /-- The size of a column is the number of its nodes. -/
  column : ∀ c ∈ List.range' 1 v.keys.length,
    m.column c = .ok ⟨v.header c, v.table.key c, (v.nodes c).length⟩ ∧
      m.columnNodes c = .ok (v.nodes c)
  /-- A row may be read from any of its nodes. -/
  row : ∀ before x after, before ++ x :: after ∈ v.rows →
    m.columnOf x.id = .ok x.column ∧
      m.rowNodes x.id = .ok ((x :: (after ++ before)).map Cell.id) ∧
      m.rowKeys x.id = .ok ((x :: (after ++ before)).map fun y => v.table.key y.column)
  linked : ∀ i < m.mesh.size, ∀ a, m.mesh.Mutual a i

/-- The matrix `m'` has all that `m` has: each row as it is, and each column with more nodes at
most, which are new and come last. -/
structure Matrix.Extends (m m' : Matrix) : Prop where
  row : ∀ i n, m.mesh.node i = .ok n → n.isHeader = false →
    m'.columnOf i = m.columnOf i ∧ m'.rowNodes i = m.rowNodes i ∧ m'.rowKeys i = m.rowKeys i
  column : ∀ c, Lists m.live c → ∃ col nodes new, m.column c = .ok col ∧
    m.columnNodes c = .ok nodes ∧ m'.columnNodes c = .ok (nodes ++ new) ∧
    m'.column c = .ok { col with size := (nodes ++ new).length } ∧ ∀ i ∈ new, m.mesh.size ≤ i

/-- The columns that are the first with their key, if the key is one of these, from left to
right. -/
structure Table.FirstNamed (t : Table) (keys : List String) (columns : List ColumnId) : Prop where
  ascending : columns.Pairwise (· < ·)
  mem_iff : ∀ c, c ∈ columns ↔
    c ∈ t.columns ∧ t.key c ∈ keys ∧ ∀ d ∈ t.columns, d < c → t.key d ≠ t.key c

/-- The matrix `m'` has one more row than `m`, with new nodes in these columns, and reads these keys
from its first node `first?`. Without columns nothing was done. -/
structure Matrix.RowAdded (m : Matrix) (columns : List ColumnId) (keys : List String) (m' : Matrix)
    (first? : Option NodeId) : Prop where
  size : m'.mesh.size = m.mesh.size + columns.length
  unchanged : first? = none → columns = [] ∧ m' = m
  reads : ∀ first, first? = some first → ∃ nodes,
    nodes = List.range' m.mesh.size columns.length ∧ m'.rowNodes first = .ok nodes ∧
      nodes.mapM m'.columnOf = .ok columns ∧ m'.rowKeys first = .ok keys

/-! ## Reading it off the layout -/

namespace Represents

variable {L L' : Layout} {m m' : Matrix}

open Layout

/-- Every node is in a ring along either axis. -/
theorem linked (h : Represents L [] m) {i : NodeId} (hi : i < m.mesh.size) (a : Axis) :
    m.mesh.Mutual a i := by
  have hheads := h.heads_nil
  rcases List.mem_append.mp ((h.ids i).mp hi) with hmem | hmem
  · cases a with
    | across => exact hheads.mutual hmem
    | down =>
      rcases List.mem_cons.mp hmem with rfl | hheader
      · exact h.headDown.mutual List.mem_cons_self
      · rw [← map_header_columns] at hheader
        obtain ⟨c, hc, rfl⟩ := List.mem_map.mp hheader
        exact (h.down_nil hc).mutual List.mem_cons_self
  · obtain ⟨x, hx, rfl⟩ := List.mem_map.mp hmem
    cases a with
    | across => exact h.mutual_across hx
    | down =>
      obtain ⟨r, hr, hxr⟩ := List.mem_flatten.mp hx
      exact (h.down_nil (column_mem hr hxr)).mutual (List.mem_cons_of_mem _ (cell_mem_nodes hx))

/-- **A matrix shows the inventory of the layout that it represents.** -/
theorem holds (h : Represents L [] m) : m.Holds L.inventory where
  size := h.size_eq
  live := by
    rw [Shows.live h, Table.live_nil]
    rfl
  column c hc := by
    have hnodes : L.inventory.nodes c = L.nodes c := (nodes_eq c).symm
    rw [hnodes]
    exact ⟨h.column_nil_ok hc, h.columnNodes_nil hc⟩
  row before x after hr :=
    ⟨Shows.columnOf_cell h (List.mem_flatten_of_mem hr (by simp)), Shows.rowNodes h hr,
      Shows.rowKeys h hr⟩
  linked i hi a := h.linked hi a

/-- A node that was made later is none of those that were there. -/
theorem size_le_of_new (h : Represents L [] m) (hgrows : L.inventory.Grows L'.inventory)
    {new : List Cell} (hnew : L'.rows.flatten = L.rows.flatten ++ new) {x : Cell} (hx : x ∈ new) :
    m.mesh.size ≤ x.id := by
  have hx' : x ∈ L'.rows.flatten := hnew ▸ List.mem_append_right _ hx
  refine Nat.le_of_not_lt fun hlt => ?_
  rcases List.mem_append.mp ((h.ids x.id).mp hlt) with hmem | hmem
  · rcases List.mem_cons.mp hmem with heq | hmem
    · exact head_ne_cell hx' heq.symm
    · exact header_ne_cell (hgrows.headers.subset hmem) hx' rfl
  · have hnodup := L'.nodup_cells
    rw [hnew, List.map_append, List.nodup_append] at hnodup
    exact hnodup.2.2 _ hmem _ (List.mem_map_of_mem hx) rfl

/-- **What was there before is still there,** if nothing was taken out and what was added comes
last. -/
theorem extends_of_grows (h : Represents L [] m) (h' : Represents L' [] m')
    (hgrows : L.inventory.Grows L'.inventory) : m.Extends m' where
  row i n hn hheader := by
    obtain ⟨r, hr, x, hx, rfl⟩ := Shows.cell_of_node h hn hheader
    obtain ⟨u, v, rfl⟩ := List.append_of_mem hx
    have hr' : u ++ x :: v ∈ L'.rows := hgrows.rows.subset hr
    rw [Shows.columnOf_cell h (List.mem_flatten_of_mem hr hx),
      Shows.columnOf_cell h' (List.mem_flatten_of_mem hr' hx), Shows.rowNodes h hr,
      Shows.rowNodes h' hr', Shows.rowKeys h hr, Shows.rowKeys h' hr']
    refine ⟨rfl, rfl, congrArg Except.ok (List.map_congr_left fun y hy => ?_)⟩
    obtain ⟨hpos, hle⟩ := L.inside _ hr y ((perm_round u v x).mem_iff.mp hy)
    exact hgrows.key_eq (Nat.lt_of_lt_of_le (Nat.sub_lt hpos Nat.one_pos) hle)
  column c hc := by
    rw [Shows.lists_live h] at hc
    obtain ⟨hcolumn, -⟩ := Table.mem_live.mp hc
    have hbounds := mem_columns.mp hcolumn
    have hcolumn' : c ∈ L'.table.columns :=
      mem_columns.mpr ⟨hbounds.1, Nat.le_trans hbounds.2 hgrows.keys.length_le⟩
    obtain ⟨new, hnew, hnodes⟩ := hgrows.nodes_eq c
    have hold : L.inventory.nodes c = L.nodes c := (nodes_eq c).symm
    have hall : L'.inventory.nodes c = L'.nodes c := (nodes_eq c).symm
    rw [hold, hall] at hnodes
    have hlt : c - 1 < L.keys.length := by omega
    have hheader : L'.header c = L.header c := hgrows.header_eq (L.length_headers ▸ hlt)
    have hkey : L'.table.key c = L.table.key c := hgrows.key_eq hlt
    refine ⟨_, _, (new.filter (·.column = c)).map Cell.id, h.column_nil_ok hcolumn,
      h.columnNodes_nil hcolumn, ?_, ?_, fun i hi => ?_⟩
    · rw [h'.columnNodes_nil hcolumn', hnodes]
    · rw [h'.column_nil_ok hcolumn', hnodes, hheader, hkey]
    · obtain ⟨x, hx, rfl⟩ := List.mem_map.mp hi
      exact h.size_le_of_new hgrows hnew (List.mem_of_mem_filter hx)

/-- A row that meets no column changes nothing. -/
theorem addRow_of_meets_nil (h : Represents L [] m) {keys : List String}
    (hnil : L.table.meets keys = []) : m.addRow keys = .ok (m, none) := by
  simp only [Matrix.addRow, h.labels, ok_bind, Table.pick_eq, hnil]
  rfl

/-- What a row shows that comes last, read from its first node. -/
theorem reads_last (h : Represents L [] m) {x : Cell} {rest : List Cell} (hr : x :: rest ∈ L.rows) :
    m.rowNodes x.id = .ok ((x :: rest).map Cell.id) ∧
      ((x :: rest).map Cell.id).mapM m.columnOf = .ok ((x :: rest).map Cell.column) ∧
      m.rowKeys x.id = .ok (((x :: rest).map Cell.column).map L.table.key) := by
  have hsplit : [] ++ x :: rest ∈ L.rows := hr
  refine ⟨by simpa using Shows.rowNodes h hsplit, ?_,
    by simpa [Function.comp_def] using Shows.rowKeys h hsplit⟩
  rw [List.mapM_map]
  exact mapM_eq_ok fun y hy => Shows.columnOf_cell h (List.mem_flatten_of_mem hr hy)

/-- **The nodes of a row are new ones, one after the other,** in the columns that its keys name. -/
theorem rowAdded (h : Represents L [] m) (keys : List String) :
    ∃ m' first?, m.addRow keys = .ok (m', first?) ∧
      m.RowAdded (L.table.meets keys) (named keys L.keys) m' first? := by
  obtain ⟨L', m', hadd, hm', hrow⟩ := h.addRow keys
  have hcells : (L.inventory.newRow keys).map Cell.column = L.table.meets keys :=
    map_column_cellsFrom
  have hids : (L.inventory.newRow keys).map Cell.id =
      List.range' m.mesh.size (L.table.meets keys).length := by
    rw [h.size_eq]
    exact map_id_cellsFrom
  have hrows : L'.rows = L.rows ++ asRows (L.inventory.newRow keys) := congrArg Inventory.rows hrow
  have hkey : L'.table.key = L.table.key := by
    rw [show L'.table = _ from congrArg Inventory.table hrow]
    rfl
  refine ⟨m', _, hadd, ?_, fun hnone => ?_, fun first hfirst => ?_⟩
  · rw [hm'.size_eq, h.size_eq, hrow]
    exact Inventory.size_addRow
  · have hnil : L.table.meets keys = [] := by
      rw [← hcells, List.map_eq_nil_iff]
      simpa using hnone
    rw [h.addRow_of_meets_nil hnil] at hadd
    exact ⟨hnil, (Prod.mk.inj (Except.ok.inj hadd)).1.symm⟩
  · obtain ⟨x, hx, rfl⟩ := Option.map_eq_some_iff.mp hfirst
    obtain ⟨rest, hrest⟩ := List.head?_eq_some_iff.mp hx
    rw [hrest] at hcells hids hrows
    have hr : x :: rest ∈ L'.rows := by simp [hrows, asRows]
    obtain ⟨hnodes, hcolumns, hkeys⟩ := hm'.reads_last hr
    rw [hids] at hnodes hcolumns
    rw [hcells] at hcolumns hkeys
    rw [hkey, Table.map_key_meets_named] at hkeys
    exact ⟨_, rfl, hnodes, hcolumns, hkeys⟩

end Represents

/-- The columns that a row meets are the first ones that have its keys. -/
theorem Table.firstNamed_meets (t : Table) (keys : List String) :
    t.FirstNamed keys (t.meets keys) := by
  refine ⟨meets_ascending, fun c => ?_⟩
  rw [meets_eq, List.mem_filter, decide_eq_true_iff]
  exact and_congr_right fun hc => meets_iff hc

/-! ## Every matrix -/

/-- **A matrix holds exactly what was added to it,** whatever that was, and whatever is added later
leaves it as it is. The next column can be added, and so can the next row: it gets one node for each
of its keys that names a column, in the first one of that key, and its keys are read in the order of
the columns. If there is no such key, no node is answered and the matrix is the same. -/
theorem build_holds (additions : List Addition) :
    ∃ m, Matrix.build additions = .ok m ∧ m.Holds (Inventory.build additions) ∧
      (∀ later, ∃ m', Matrix.build (additions ++ later) = .ok m' ∧ m.Extends m') ∧
      (∀ key, ∃ m', m.addColumn key = .ok (m', m.columnCount + 1) ∧
        Matrix.build (additions ++ [.column key]) = .ok m') ∧
      ∀ keys, ∃ m' first? columns, m.addRow keys = .ok (m', first?) ∧
        Matrix.build (additions ++ [.row keys]) = .ok m' ∧
        (Table.build additions).FirstNamed keys columns ∧
        m.RowAdded columns (named keys (Table.build additions).keys) m' first? := by
  obtain ⟨L, m, hbuild, hm, hinventory⟩ := Represents.buildInventory additions
  have htable : Table.build additions = L.table := by
    rw [← Inventory.table_build, ← hinventory]
    rfl
  have hbuild' : ∀ {later m'}, later.foldlM Matrix.add m = .ok m' →
      Matrix.build (additions ++ later) = .ok m' := fun {later m'} hlater => by
    rw [Matrix.build, List.foldlM_append, ← Matrix.build, hbuild]
    exact hlater
  refine ⟨m, hbuild, hinventory ▸ hm.holds, fun later => ?_, fun key => ?_, fun keys => ?_⟩
  · obtain ⟨L', m', hlater, hm', hinventory'⟩ := hm.addAll later
    have hgrows : L.inventory.Grows L'.inventory := hinventory' ▸ Inventory.grows_addAll _ later
    exact ⟨m', hbuild' hlater, hm.extends_of_grows hm' hgrows⟩
  · obtain ⟨m', hadd, -⟩ := hm.addColumn key
    refine ⟨m', ?_, hbuild' (by simp [Matrix.add, hadd])⟩
    rw [hadd, Matrix.columnCount, hm.columnCount, Nat.add_sub_cancel]
  · obtain ⟨m', first?, hadd, hadded⟩ := hm.rowAdded keys
    rw [htable]
    exact ⟨m', first?, _, hadd, hbuild' (by simp [Matrix.add, hadd]),
      L.table.firstNamed_meets keys, hadded⟩

/-- Where the key `a` names two columns, a row that repeats its keys, and has one that names none,
has its nodes in the first column of each. A row without keys is no row. -/
theorem build_holds_repeated :
    ∃ m m', Matrix.build [.column "a", .column "b", .column "a"] = .ok m ∧
      m.live = .ok [1, 2, 3] ∧ m.addRow [] = .ok (m, none) ∧
      m.addRow ["b", "x", "a", "a"] = .ok (m', some 4) ∧ m'.rowNodes 4 = .ok [4, 5] ∧
      m'.rowKeys 4 = .ok ["a", "b"] := by
  obtain ⟨m, hbuild, hholds, -, -, hrow⟩ := build_holds [.column "a", .column "b", .column "a"]
  obtain ⟨m', first?, columns, hadd, -, -, hadded⟩ := hrow ["b", "x", "a", "a"]
  obtain ⟨m'', first?', columns', hadd', -, -, hadded'⟩ := hrow []
  obtain ⟨hsize, rfl, hsize', rfl⟩ : m.mesh.size = 4 ∧ first? = some 4 ∧ m'.mesh.size = 6 ∧
      first?' = none := by
    cases hbuild
    cases hadd
    cases hadd'
    decide +kernel
  obtain ⟨-, rfl⟩ := hadded'.unchanged rfl
  obtain ⟨nodes, hnodes, hrowNodes, -, hkeys⟩ := hadded.reads 4 rfl
  have hlength : columns.length = 2 := by
    have hcount := hadded.size
    omega
  rw [hsize, hlength] at hnodes
  subst hnodes
  exact ⟨m'', m', hbuild, hholds.live, hadd', hadd, hrowNodes, hkeys⟩

end ExactCover
