import ExactCover.Proofs.Family.Validity
import ExactCover.Proofs.Matrix.Remains
import ExactCover.Proofs.Sudoku.Encoding

/-!
# Rows read as the moves that they were made for

The matrix of a puzzle has a row for each move, made of the keys of the move. Nothing in the matrix
says which move a row was made for. It is found out from the keys of the columns that the row is in,
read from any node of the row round to that node again, while other rows and columns may be out of
their lists. The move that is found is the one for which the nodes of the row were made, and it has
just these keys.

* **`Matrix.MadeFor`**: for which row a node was made, by when it was made.
* **`Inventory.mem_rows_ofRows`**: each row was made when those before it were there.
* **`Inventory.exists_madeFor`**: every row was made for one of those that were given.
* **`Puzzle.RowsDecode`**: what it is for the rows of a puzzle to read as its moves.
* **`rows_decode`**: the rows of boards and of families do.
-/

namespace ExactCover

/-! ## When a node was made -/

/-- The node `n` was made for the row in place `i`, where a matrix is given by its columns and its
rows: it is not there yet before that row is added, and it is there afterwards. -/
def Matrix.MadeFor (columns : List String) (rows : List (List String)) (i : Nat) (n : NodeId) :
    Prop :=
  i < rows.length ∧ ∃ before after, Matrix.ofRows columns (rows.take i) = .ok before ∧
    Matrix.ofRows columns (rows.take (i + 1)) = .ok after ∧
    before.mesh.size ≤ n ∧ n < after.mesh.size

namespace Inventory

variable {columns : List String} {rows : List (List String)}

theorem ofRows_append (row : List String) :
    ofRows columns (rows ++ [row]) = (ofRows columns rows).addRow row := by
  simp [ofRows, build, List.foldl_append, add]

theorem size_ofRows_le {i j : Nat} (hij : i ≤ j) :
    (ofRows columns (rows.take i)).size ≤ (ofRows columns (rows.take j)).size := by
  have htake : rows.take j = rows.take i ++ (rows.take j).drop i := by
    conv_lhs => rw [← List.take_append_drop i (rows.take j), List.take_take, Nat.min_eq_left hij]
  rw [htake, ofRows, ofRows, List.map_append, ← List.append_assoc]
  exact (grows_build _ _).size_le

/-- The inventory without rows. -/
theorem rows_ofRows_nil : (ofRows columns []).rows = [] := by
  have htable : (ofRows columns []).table.rows = [] := by
    rw [table_ofRows, Table.ofRows, List.foldl_nil, Table.rows_addColumns]
    rfl
  exact List.map_eq_nil_iff.mp htable

/-- Each row was made when the rows before it were there. -/
theorem mem_rows_ofRows {r : List Cell} (hr : r ∈ (ofRows columns rows).rows) :
    ∃ i row, rows[i]? = some row ∧ r = (ofRows columns (rows.take i)).newRow row := by
  induction rows using List.reverseRecOn with
  | nil =>
    rw [rows_ofRows_nil] at hr
    cases hr
  | append_singleton rows row ih =>
    rw [ofRows_append, addRow, List.mem_append] at hr
    rcases hr with hr | hr
    · obtain ⟨i, row', hi, rfl⟩ := ih hr
      have hlt := (List.getElem?_eq_some_iff.mp hi).1
      exact ⟨i, row', by rw [List.getElem?_append_left hlt, hi],
        by rw [List.take_append_of_le_length hlt.le]⟩
    · refine ⟨rows.length, row, by simp, ?_⟩
      unfold Layout.asRows at hr
      split_ifs at hr
      · cases hr
      · rw [List.mem_singleton.mp hr, List.take_left]

end Inventory

namespace Matrix

variable {columns : List String} {rows : List (List String)} {i j : Nat} {n : NodeId}

/-- When a node was made can be told from the inventories. -/
theorem madeFor_iff : MadeFor columns rows i n ↔ i < rows.length ∧
    (Inventory.ofRows columns (rows.take i)).size ≤ n ∧
    n < (Inventory.ofRows columns (rows.take (i + 1))).size := by
  refine and_congr_right fun _ => ?_
  obtain ⟨L, before, hbefore, hL, hinventory⟩ :=
    Represents.ofRowsInventory columns (rows.take i)
  obtain ⟨L', after, hafter, hL', hinventory'⟩ :=
    Represents.ofRowsInventory columns (rows.take (i + 1))
  simp only [hbefore, hafter, Except.ok.injEq, exists_eq_left', hL.size_eq, hL'.size_eq, hinventory,
    hinventory', exists_and_left]

/-- A node was made for one row at most. -/
theorem MadeFor.unique (hi : MadeFor columns rows i n) (hj : MadeFor columns rows j n) : i = j := by
  -- a node of the earlier row would be there before the later one
  have hnot : ∀ {i j : Nat}, MadeFor columns rows i n → MadeFor columns rows j n → ¬ i < j := by
    intro i j hi hj hlt
    obtain ⟨-, -, hi⟩ := madeFor_iff.mp hi
    obtain ⟨-, hj, -⟩ := madeFor_iff.mp hj
    have hle : (Inventory.ofRows columns (rows.take (i + 1))).size ≤
        (Inventory.ofRows columns (rows.take j)).size := Inventory.size_ofRows_le hlt
    exact absurd (Nat.le_trans hle hj) (Nat.not_le.mpr hi)
  exact Nat.le_antisymm (Nat.not_lt.mp (hnot hj hi)) (Nat.not_lt.mp (hnot hi hj))

end Matrix

namespace Inventory

variable {columns : List String} {rows : List (List String)}

/-- Which columns a row meets does not depend on the rows before it. -/
theorem meets_ofRows (rows rows' : List (List String)) (row : List String) :
    (ofRows columns rows).table.meets row = (ofRows columns rows').table.meets row := by
  refine Table.meets_congr ?_ row
  rw [table_ofRows, table_ofRows, Table.keys_ofRows, Table.keys_ofRows]

/-- **Every row was made for one of those that were given,** and its cells are in the columns that
this one meets. -/
theorem exists_madeFor {r : List Cell} (hr : r ∈ (ofRows columns rows).rows) :
    ∃ i row, rows[i]? = some row ∧
      r.map Cell.column = (ofRows columns rows).table.meets row ∧
      ∀ x ∈ r, Matrix.MadeFor columns rows i x.id := by
  obtain ⟨i, row, hi, rfl⟩ := mem_rows_ofRows hr
  let before := ofRows columns (rows.take i)
  have hcolumns : (before.newRow row).map Cell.column = before.table.meets row :=
    map_column_cellsFrom
  have hids : (before.newRow row).map Cell.id =
      List.range' before.size (before.table.meets row).length := map_id_cellsFrom
  have hafter : (ofRows columns (rows.take (i + 1))).size =
      before.size + (before.table.meets row).length := by
    rw [List.take_add_one, hi, Option.toList_some, ofRows_append, size_addRow]
  refine ⟨i, row, hi, ?_, fun x hx => Matrix.madeFor_iff.mpr ?_⟩
  · rw [hcolumns]
    exact meets_ofRows _ _ row
  · have hid : x.id ∈ List.range' before.size (before.table.meets row).length :=
      hids ▸ List.mem_map_of_mem hx
    rw [hafter]
    exact ⟨(List.getElem?_eq_some_iff.mp hi).1, List.mem_range'_1.mp hid⟩

end Inventory

/-! ## Reading the rows of a puzzle -/

section

variable {σ μ : Type} [Move μ] [Puzzle σ μ]

/-- Each row of the matrix of a puzzle reads as the move in the place that the row was made for:
from any of its nodes, and whichever live columns were covered. The move has the keys of the columns
that the row is in. -/
def Puzzle.RowsDecode (p : σ) (moves : List μ) : Prop :=
  ∃ m, Puzzle.matrix p = .ok m ∧ ∀ columns, m.Coverable columns →
    ∃ m', m.coverAll columns = .ok m' ∧
      ∀ n node, m.mesh.node n = .ok node → node.isHeader = false →
        ∃ i move keys, Matrix.MadeFor (Puzzle.constraints p) (Puzzle.rows p) i n ∧
          (∀ j, Matrix.MadeFor (Puzzle.constraints p) (Puzzle.rows p) j n → j = i) ∧
          moves[i]? = some move ∧ Puzzle.ofRow? p m' n = .ok (some move) ∧
          m'.rowKeys n = .ok keys ∧ ∀ key, key ∈ Move.keys move ↔ key ∈ keys

/-- It suffices that the keys of each move name columns, and that the move is read from them in
whatever order. -/
theorem Puzzle.rowsDecode {p : σ} {moves : List μ} (hnodup : (Puzzle.constraints p).Nodup)
    (hrows : Puzzle.rows p = moves.map Move.keys)
    (hmoves : ∀ move ∈ moves, (Move.keys move).Nodup ∧
      (∀ key ∈ Move.keys move, key ∈ Puzzle.constraints p) ∧
      ∀ keys, keys.Perm (Move.keys move) → Puzzle.ofKeys? p keys = some move) :
    Puzzle.RowsDecode p moves := by
  obtain ⟨L, m, hmatrix, hm, hinventory⟩ :=
    Represents.ofRowsInventory (Puzzle.constraints p) (Puzzle.rows p)
  have htable : L.table = (Inventory.ofRows (Puzzle.constraints p) (Puzzle.rows p)).table :=
    congrArg Inventory.table hinventory
  have hkeys : L.table.keys = Puzzle.constraints p := by
    rw [htable, Inventory.table_ofRows, Table.keys_ofRows]
  refine ⟨m, hmatrix, fun columns hcolumns => ?_⟩
  obtain ⟨m', hcover, hm'⟩ := hm.coverAll hcolumns
  refine ⟨m', hcover, fun n node hnode hheader => ?_⟩
  -- covering makes no nodes, so this one is a cell of a row that was added
  obtain ⟨r, hr, x, hx, rfl⟩ := Layout.Shows.cell_of_node hm hnode hheader
  have hr' : r ∈ L.inventory.rows := hr
  obtain ⟨i, row, hi, hmeets, hmade⟩ := Inventory.exists_madeFor (hinventory ▸ hr')
  obtain ⟨move, hmove, rfl⟩ : ∃ move, moves[i]? = some move ∧ Move.keys move = row := by
    simpa [hrows] using hi
  obtain ⟨hmoveNodup, hknown, hread⟩ := hmoves move (List.mem_of_getElem? hmove)
  -- read from here round to here again, the row has the keys of the move
  obtain ⟨before, after, rfl⟩ := List.append_of_mem hx
  have hperm : ((x :: (after ++ before)).map fun y => L.table.key y.column).Perm
      (Move.keys move) := by
    refine ((perm_round before after x).map _).trans ?_
    rw [← htable] at hmeets
    have hcells := Table.map_key_meets (hkeys ▸ hnodup) hmoveNodup (hkeys ▸ hknown)
    rwa [← hmeets, List.map_map] at hcells
  refine ⟨i, move, _, hmade x hx, fun j hj => hj.unique (hmade x hx), hmove, ?_,
    Layout.Shows.rowKeys hm' hr, fun key => hperm.mem_iff.symm⟩
  rw [Puzzle.ofRow?, Layout.Shows.rowKeys hm' hr]
  exact congrArg Except.ok (hread _ hperm)

end

/-- **Rows read as the moves that they were made for.** On the matrix of a board each row was made
for a candidate, on that of a family for a subset that was declared; the move has the items of the
subset in the order of the columns. -/
theorem rows_decode :
    (∀ {g : Sudoku.Grid} {s : Sudoku}, Sudoku.ofGrid g = .ok s →
      Puzzle.RowsDecode s (Sudoku.candidates s.size)) ∧
    ∀ {d : Declaration} {f : Family}, Family.ofDeclaration d = .ok f →
      Puzzle.RowsDecode f (d.subsets.map fun (_, keys) => ⟨d.items.filter (· ∈ keys)⟩) := by
  constructor
  · intro g s _
    have hconstraints : (Puzzle.table s).keys = Puzzle.constraints s := Table.keys_ofRows _ _
    refine Puzzle.rowsDecode (hconstraints ▸ Sudoku.nodup_keys) rfl fun p hp => ?_
    obtain ⟨hsize, hvalid⟩ := Sudoku.mem_candidates.mp hp
    refine ⟨Sudoku.Placement.nodup_keys hvalid, fun key hkey => ?_, fun keys hperm => ?_⟩
    · exact hconstraints ▸ Sudoku.Placement.keys_subset hvalid hsize hkey
    · have hread := Sudoku.Placement.ofKeys?_perm hvalid hperm
      rwa [hsize] at hread
  · intro d f h
    obtain ⟨hdeclared, -, -⟩ := Family.declared_of_ofDeclaration h
    obtain ⟨hitems, hsubsets, -⟩ := Family.eq_of_ofDeclaration h
    have hmoves : (d.subsets.map fun (_, keys) => (⟨d.items.filter (· ∈ keys)⟩ : Family.Choice)) =
        f.subsets.map Family.Subset.choice := by
      rw [hsubsets, List.map_map]
      rfl
    rw [hmoves]
    refine Puzzle.rowsDecode hdeclared.nodup_items ?_ fun c hc => ?_
    · show f.subsets.map Family.Subset.items = _
      rw [List.map_map]
      rfl
    · obtain ⟨t, ht, rfl⟩ := List.mem_map.mp hc
      refine ⟨?_, fun key hkey => hdeclared.mem_items ht hkey,
        fun keys hperm => hdeclared.ofKeys?_perm ht hperm⟩
      show t.items.Nodup
      rw [← hdeclared.ordered t ht]
      exact hdeclared.nodup_items.filter _

/-- Where `b` was covered, node 5 of the first subset is out of its column. The row is read from it
all the same, and its keys come in another order than in the move. -/
theorem rows_decode_rotated :
    (∃ s, Sudoku.ofGrid ⟨[[1, 0, 0, 0], [0, 0, 0, 0], [0, 0, 0, 0], [0, 0, 0, 0]]⟩ = .ok s ∧
      Puzzle.RowsDecode s (Sudoku.candidates .four)) ∧
    ∃ f, Family.ofDeclaration ⟨["a", "b", "c"], [("x", ["c", "b"]), ("y", ["a", "b"])], []⟩ =
        .ok f ∧
      ∃ m m', Puzzle.matrix f = .ok m ∧ m.coverAll [2] = .ok m' ∧ m'.rowKeys 5 = .ok ["c", "b"] ∧
        Puzzle.ofRow? f m' 5 = .ok (some ⟨["b", "c"]⟩) := by
  obtain ⟨hboard, hfamily⟩ := rows_decode
  refine ⟨?_, ?_⟩
  · obtain ⟨s, hs⟩ : ∃ s, Sudoku.ofGrid
        ⟨[[1, 0, 0, 0], [0, 0, 0, 0], [0, 0, 0, 0], [0, 0, 0, 0]]⟩ = .ok s := ⟨_, rfl⟩
    have hread := hboard hs
    cases hs
    exact ⟨_, rfl, hread⟩
  · obtain ⟨f, hf⟩ : ∃ f, Family.ofDeclaration
        ⟨["a", "b", "c"], [("x", ["c", "b"]), ("y", ["a", "b"])], []⟩ = .ok f := ⟨_, rfl⟩
    obtain ⟨m, hmatrix, hall⟩ := hfamily hf
    obtain ⟨hcoverable, node, hnode, hheader⟩ : m.Coverable [2] ∧
        ∃ node, m.mesh.node 5 = .ok node ∧ node.isHeader = false := by
      cases hf
      cases hmatrix
      exact ⟨by decide +kernel, _, rfl, rfl⟩
    obtain ⟨m', hcover, hrows⟩ := hall [2] hcoverable
    obtain ⟨i, move, keys, hmade, hunique, hmove, hread, hkeys, -⟩ := hrows 5 node hnode hheader
    obtain rfl : keys = ["c", "b"] := by
      cases hf
      cases hmatrix
      cases hcover
      cases hkeys
      rfl
    have hi : Matrix.MadeFor (Puzzle.constraints f) (Puzzle.rows f) 0 5 := by
      cases hf
      exact ⟨by decide, _, _, rfl, rfl, by decide, by decide⟩
    obtain rfl := hunique 0 hi
    cases hmove
    exact ⟨f, hf, m, m', hmatrix, hcover, hkeys, hread⟩

end ExactCover
