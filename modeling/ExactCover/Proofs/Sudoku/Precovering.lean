import ExactCover.Proofs.Sudoku.Legality

/-!
# Covering the givens leaves the legal moves

Before a search the columns of the givens are covered, key by key, and a key that comes a second
time is passed over. What is left of the matrix then is the legal moves of the board: a row leaves
the columns that are left when one of its own is covered, and that is when its placement has a key
in common with a given. So covering and the rules of the game exclude the same placements, also
where the givens contradict each other.

* **`Sudoku.mem_covered_iff`**: which columns are covered.
* **`Sudoku.left_table`**: which rows are left, and **`Sudoku.through_covered`**: in one column.
* **`Sudoku.precover_legal`**: what is read off the matrix once the givens are covered.
-/

namespace ExactCover

namespace Sudoku

variable {s : Sudoku}

/-! ## The rows that are left -/

/-- The rows of the table of a board are those of its candidates, in order. -/
theorem rows_table : (Puzzle.table s).rows = (candidates s.size).map s.row := by
  have hfilled : ∀ r ∈ (candidates s.size).map s.row, decide (r ≠ []) = true := by
    intro r hr
    obtain ⟨p, hp, rfl⟩ := List.mem_map.mp hr
    obtain ⟨hsize, hvalid⟩ := mem_candidates.mp hp
    exact decide_eq_true (row_mem_rows hvalid hsize).1
  have hrows : (Puzzle.table s).rows =
      (((candidates s.size).map Placement.keys).map (Puzzle.table s).meets).filter (· ≠ []) :=
    Table.rows_ofRows _ _
  rw [hrows, List.map_map]
  exact List.filter_eq_self.mpr hfilled

/-- A column is covered before the search if a given has its key. -/
theorem mem_covered_iff {c : ColumnId} (hc : c ∈ (Puzzle.table s).columns) :
    c ∈ s.covered ↔ (Puzzle.table s).key c ∈ s.initial.flatMap Placement.keys := by
  rw [covered, AlgorithmX.mem_precover nodup_keys hc]
  simp

/-- **The rows that meet no covered column are those of the legal moves.** -/
theorem left_table (hrange : ∀ q, s.valueAt q ≤ s.size.side) :
    (Puzzle.table s).left s.covered = s.legalMoves.map s.row := by
  rw [Table.left, rows_table, List.filter_map, legalMoves]
  congr 1
  refine List.filter_congr fun p hp => ?_
  obtain ⟨hsize, hvalid⟩ := mem_candidates.mp hp
  have hperm := map_key_row hvalid hsize
  rw [Function.comp_apply, Bool.eq_iff_iff, decide_eq_true_iff, isLegal_iff_disjoint hrange,
    and_iff_right hp]
  constructor
  · intro hfree given hgiven key hkey hshared
    obtain ⟨c, hc, rfl⟩ := List.mem_map.mp (hperm.mem_iff.mpr hkey)
    have hcolumn := Table.meets_sublist.subset hc
    exact hfree c hc ((mem_covered_iff hcolumn).mpr (List.mem_flatMap_of_mem hgiven hshared))
  · intro hapart c hc hcovered
    have hcolumn := Table.meets_sublist.subset hc
    obtain ⟨given, hgiven, hshared⟩ := List.mem_flatMap.mp ((mem_covered_iff hcolumn).mp hcovered)
    exact hapart given hgiven _ (hperm.mem_iff.mp (List.mem_map_of_mem hc)) hshared

theorem mem_legalMoves {p : Placement} :
    p ∈ s.legalMoves ↔ p ∈ candidates s.size ∧ s.isLegal p = true := List.mem_filter

/-- Below a column that is left are the rows of the legal moves that have its key. -/
theorem through_covered (hrange : ∀ q, s.valueAt q ≤ s.size.side) {c : ColumnId}
    (hc : c ∈ (Puzzle.table s).columns) :
    (Puzzle.table s).through s.covered c =
      (s.legalMoves.filter ((Puzzle.table s).key c ∈ ·.keys)).map s.row := by
  rw [Table.through_eq_filter_left, left_table hrange, List.filter_map]
  congr 1
  refine List.filter_congr fun p _ => ?_
  have hmeets : c ∈ s.row p ↔ (Puzzle.table s).key c ∈ p.keys := by
    rw [row, Table.mem_meets nodup_keys, and_iff_right hc]
  simp [hmeets]

/-- A legal move has four ones. -/
theorem length_row {p : Placement} (hp : p ∈ candidates s.size) : (s.row p).length = 4 := by
  obtain ⟨hsize, hvalid⟩ := mem_candidates.mp hp
  have hlength := (map_key_row hvalid hsize).length_eq
  rwa [List.length_map] at hlength

theorem extent_covered (hrange : ∀ q, s.valueAt q ≤ s.size.side) :
    (Puzzle.table s).extent s.covered =
      (((Puzzle.table s).live s.covered).length, 4 * s.legalMoves.length) := by
  have hrows : ∀ r ∈ (Puzzle.table s).rows, r.Nodup ∧ ∀ c ∈ r, c ∈ (Puzzle.table s).columns := by
    intro r hr
    rw [rows_table] at hr
    obtain ⟨p, -, rfl⟩ := List.mem_map.mp hr
    exact ⟨Table.nodup_columns.filter _, fun c hc => Table.meets_sublist.subset hc⟩
  have hfour : s.legalMoves.map (List.length ∘ s.row) = s.legalMoves.map fun _ => 4 :=
    List.map_congr_left fun p hp => length_row (mem_legalMoves.mp hp).1
  rw [Table.extent_eq hrows, left_table hrange, List.length_flatten, List.map_map, hfour]
  simp [Nat.mul_comm]

/-- The keys of the columns that are left are those of no given. -/
theorem keys_live : ((Puzzle.table s).live s.covered).map (Puzzle.table s).key =
    ((constraints s.size).map Constraint.key).filter fun key =>
      ∀ given ∈ s.initial, key ∉ given.keys := by
  rw [Table.map_key_live fun c hc => mem_covered_iff hc, keys_table]
  refine List.filter_congr fun key _ => ?_
  simp

/-! ## On the matrix -/

/-- **Covering the givens leaves the legal moves.** On every board that a grid shows, the columns
that are left once the givens are covered are those of the keys that no given has, in the order of
the constraints. The rows below each of them read, from top to bottom, as the legal moves with its
key. The matrix has four ones for each legal move. And what the rules call legal is what a scan of
the board accepts, and is every candidate that has no key in common with a given. -/
theorem precover_legal {g : Grid} {s : Sudoku} (h : ofGrid g = .ok s) :
    ∃ m pre live, Puzzle.matrix s = .ok m ∧
      Search.precover ((Puzzle.initial s).flatMap Move.keys) m = .ok pre ∧
      pre.matrix.live = .ok live ∧
      live.mapM (fun c => return (← pre.matrix.column c).key) =
        .ok (((constraints s.size).map Constraint.key).filter fun key =>
          ∀ given ∈ s.initial, key ∉ given.keys) ∧
      (∀ c ∈ live, ∃ col nodes, pre.matrix.column c = .ok col ∧
        pre.matrix.columnNodes c = .ok nodes ∧
        nodes.mapM (Puzzle.ofRow? s pre.matrix) =
          .ok ((s.legalMoves.filter (col.key ∈ ·.keys)).map some)) ∧
      pre.matrix.extent = .ok (live.length, 4 * s.legalMoves.length) ∧
      ∀ p, s.isLegal p = s.isLegalByScan p ∧ (s.isLegal p = true ↔
        p ∈ candidates s.size ∧ ∀ given ∈ s.initial, ∀ key ∈ p.keys, key ∉ given.keys) := by
  have hrange := valueAt_le_of_ofGrid h
  obtain ⟨L, m, hmatrix, hm, htable⟩ :=
    Represents.ofRows (Puzzle.constraints s) (Puzzle.rows s)
  obtain ⟨m', new, skipped, hprecover, href, hm', -⟩ :=
    precover_eq hm ((Puzzle.initial s).flatMap Move.keys)
  have hL : L.table = Puzzle.table s := htable
  have hcovered : s.covered = new := by
    rw [hL, List.append_nil] at href
    exact congrArg Prod.fst href
  rw [List.append_nil, ← hcovered] at hm'
  refine ⟨m, _, (Puzzle.table s).live s.covered, hmatrix, hprecover, ?_, ?_, ?_, ?_, fun p => ?_⟩
  · rw [Layout.Shows.live hm', hL]
  · rw [← keys_live]
    refine mapM_eq_ok fun c hc => ?_
    rw [← hL] at hc ⊢
    simp [hm'.column_ok hc]
  · intro c hc
    have hcolumn := (Table.mem_live.mp hc).1
    rw [← hL] at hc
    obtain ⟨nodes, hnodes, hread⟩ := mapM_ofRow? (p := s) hm' hc
    refine ⟨_, nodes, hm'.column_ok hc, hnodes, ?_⟩
    rw [hread, hL, through_covered hrange hcolumn, List.map_map]
    refine congrArg Except.ok (List.map_congr_left fun p hp => ?_)
    obtain ⟨hlegal, hkey⟩ := List.mem_filter.mp hp
    obtain ⟨hsize, hvalid⟩ := mem_candidates.mp (mem_legalMoves.mp hlegal).1
    -- the row is read from this column on
    refine ofKeys?_row hvalid hsize ?_
    rw [row, Table.mem_meets nodup_keys]
    exact ⟨hcolumn, of_decide_eq_true hkey⟩
  · rw [hm'.extent, hL, extent_covered hrange]
  · exact ⟨isLegal_eq_scan s p, isLegal_iff_disjoint hrange⟩

/-- Two ones in the first row: the sixteen keys of the givens name fourteen of the 64 columns, and
26 moves are legal. -/
theorem precover_legal_conflict :
    ∃ s, ofGrid ⟨[[1, 1, 0, 0], [0, 0, 0, 2], [0, 0, 0, 0], [0, 0, 3, 0]]⟩ = .ok s ∧
      ∃ m pre live keys, Puzzle.matrix s = .ok m ∧
        Search.precover ((Puzzle.initial s).flatMap Move.keys) m = .ok pre ∧
        pre.matrix.live = .ok live ∧
        live.mapM (fun c => return (← pre.matrix.column c).key) = .ok keys ∧ keys.length = 50 ∧
        pre.matrix.extent = .ok (live.length, 4 * 26) := by
  obtain ⟨s, hs⟩ : ∃ s, ofGrid ⟨[[1, 1, 0, 0], [0, 0, 0, 2], [0, 0, 0, 0], [0, 0, 3, 0]]⟩ = .ok s :=
    ⟨_, rfl⟩
  obtain ⟨m, pre, live, hm, hpre, hlive, hkeys, -, hextent, -⟩ := precover_legal hs
  have hlegal : s.legalMoves.length = 26 := by
    cases hs
    decide +kernel
  rw [hlegal] at hextent
  refine ⟨s, hs, m, pre, live, _, hm, hpre, hlive, hkeys, ?_, hextent⟩
  cases hs
  decide +kernel

end Sudoku

end ExactCover
