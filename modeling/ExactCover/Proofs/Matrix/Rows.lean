import ExactCover.Proofs.Matrix.Build

/-!
# The rows of a matrix

A matrix keeps no list of its rows. What there is of a row are its nodes, each of them in the ring
of the row and in that of a column. Still, the rows that a matrix was given are found in it: each is
one ring, which reads as the keys of the row, and each column has the nodes of the rows from top to
bottom in the order in which the rows were given.

* **`Matrix.HasRows`**: a matrix has certain columns and rows, and no others.
* **`Matrix.hasRows_ofRows`**: so has a matrix that is given by them.
-/

namespace ExactCover

open Mesh

namespace Matrix

/-- The columns of a matrix have these keys, in order, and the nodes of each row are one list, with
no node in two places. Read from its first node, a row has these keys. The nodes of a column are
those of the rows that are in it, in order. -/
structure HasRows (m : Matrix) (keys : List String) (rows : List (List String))
    (nodes : List (List NodeId)) : Prop where
  live : ∃ columns, m.live = .ok columns ∧
    columns.mapM (fun c => return (← m.column c).key) = .ok keys
  rows : List.Forall₂ (fun keys row => ∃ first, row.head? = some first ∧
    m.rowNodes first = .ok row ∧ m.rowKeys first = .ok keys) rows nodes
  nodup : nodes.flatten.Nodup
  columnNodes : ∀ c, Lists m.live c →
    m.columnNodes c = .ok (nodes.flatten.filter (m.columnOf · = .ok c))

end Matrix

namespace Layout

variable {L : Layout} {m : Matrix}

/-- A matrix has the rows of the layout that it shows. -/
theorem Shows.hasRows (h : L.Shows [] [] m) :
    m.HasRows L.keys (L.rows.map (·.map fun x => L.table.key x.column))
      (L.rows.map (·.map Cell.id)) := by
  refine ⟨⟨_, h.live, ?_⟩, ?_, ?_, fun c hc => ?_⟩
  · rw [Table.live_nil, mapM_eq_ok fun c hc => ?_, Table.map_key_columns]
    · rfl
    · rw [h.column_ok hc]
      rfl
  · rw [List.forall₂_map_left_iff, List.forall₂_map_right_iff, List.forall₂_same]
    intro r hr
    obtain ⟨x, v, rfl⟩ := List.exists_cons_of_ne_nil (L.ne_nil r hr)
    have hsplit : [] ++ x :: v ∈ L.rows := hr
    exact ⟨x.id, rfl, by simpa using h.rowNodes hsplit, by simpa using h.rowKeys hsplit⟩
  · rw [← List.map_flatten]
    exact L.nodup_cells
  · rw [h.lists_live, Table.live_nil] at hc
    have hcolumn : L.rows.flatten.filter ((m.columnOf · = .ok c) ∘ Cell.id) =
        L.rows.flatten.filter (·.column = c) :=
      List.filter_congr fun x hx => by simp [h.columnOf_cell hx]
    have hnodes : m.columnNodes c = .ok (L.nodes c) := by simpa using h.columnNodes hc
    rw [hnodes, nodes_eq, ← List.map_flatten, List.filter_map, hcolumn]

end Layout

/-- **A matrix has the rows that it was given,** if no two of its columns have the same key and each
row names a column. Of a row there are the columns that it names, each once and in their order. -/
theorem Matrix.hasRows_ofRows {keys : List String} {rows : List (List String)} (hkeys : keys.Nodup)
    (hrows : ∀ row ∈ rows, ∃ key ∈ row, key ∈ keys) :
    ∃ m nodes, Matrix.ofRows keys rows = .ok m ∧
      m.HasRows keys (rows.map fun row => keys.filter (· ∈ row)) nodes := by
  obtain ⟨L, m, hbuild, hm, htable⟩ := Represents.ofRows keys rows
  have hkeys' : L.keys = keys := (congrArg Table.keys htable).trans (Table.keys_ofRows keys rows)
  have hnodup : L.table.keys.Nodup := by
    rw [Layout.table, hkeys']
    exact hkeys
  have hmeets : ∀ row, (L.table.meets row).map L.table.key = keys.filter (· ∈ row) := fun row => by
    rw [Table.map_key_meets_eq hnodup]
    exact congrArg _ hkeys'
  -- no row is left out, since each one has a column
  have hne : ∀ row ∈ rows, L.table.meets row ≠ [] := fun row hrow hnil => by
    obtain ⟨key, hkey, hmem⟩ := hrows row hrow
    have hreads := hmeets row
    rw [hnil] at hreads
    exact List.ne_nil_of_mem (List.mem_filter.mpr ⟨hmem, by simpa using hkey⟩) hreads.symm
  have hall : L.table.rows = rows.map L.table.meets := by
    conv_lhs => rw [htable, Table.rows_ofRows, ← htable]
    refine List.filter_eq_self.mpr fun r hr => ?_
    obtain ⟨row, hrow, rfl⟩ := List.mem_map.mp hr
    simpa using hne row hrow
  have hreads : L.rows.map (·.map fun x => L.table.key x.column) =
      rows.map fun row => keys.filter (· ∈ row) := by
    have hcells : L.rows.map (·.map fun x => L.table.key x.column) =
        L.table.rows.map (·.map L.table.key) := by simp [Layout.table, Function.comp_def]
    rw [hcells, hall, List.map_map]
    exact List.map_congr_left fun row _ => hmeets row
  have hhas := Layout.Shows.hasRows hm
  rw [hkeys', hreads] at hhas
  exact ⟨m, _, hbuild, hhas⟩

end ExactCover
