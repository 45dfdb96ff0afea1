import ExactCover.Proofs.Sudoku.Encoding

/-!
# What makes a placement legal

Whether a placement can be played is said in three ways. The rules look for its digit among the
digits of its row, its column and its box. A scan over the board, with the block of the cell marked
off by its top and its left, looks at the same cells one by one. And the exact cover problem knows
nothing of cells: there a placement is out of the question if one of its keys is a key of a given.

* **`Sudoku.isLegalByScan`**: the scan, and **`isLegal_eq_scan`**.
* **`Sudoku.shares_iff`**: which constraints a placement has in common with a given.
* **`Sudoku.isLegal_iff_disjoint`**: the legal placements are the candidates that have no key in
  common with any given.
-/

namespace ExactCover

namespace Sudoku

variable {s : Sudoku} {p : Placement}

/-! ## Scanning the board -/

/-- The cells of the block around a cell, row by row. -/
def blockAround (size : Size) (row column : Nat) : List Nat :=
  (List.range' (row - row % size.block) size.block).flatMap fun r =>
    (List.range' (column - column % size.block) size.block).map fun c => r * size.side + c

/-- Whether a placement can be played, as a scan of the board finds out: first its size and its
ranges, then its cell, and then the row, the column and the block of the cell, each cell by cell. -/
def isLegalByScan (s : Sudoku) (p : Placement) : Bool :=
  let n := s.size.side
  let holds (q : Nat) : Bool := s.valueAt q == p.value
  if p.size ≠ s.size || !p.isValid then false
  else if s.valueAt (p.row * n + p.column) ≠ 0 then false
  else
    let inRow := (List.range n).any fun c => holds (p.row * n + c)
    let inColumn := (List.range n).any fun r => holds (r * n + p.column)
    let inBlock := (blockAround s.size p.row p.column).any holds
    !(inRow || inColumn || inBlock)

/-- The numbers with the same quotient are those between two multiples. -/
theorem div_eq_iff_mem_range {b i j : Nat} (hb : 0 < b) :
    i / b = j / b ↔ i ∈ List.range' (j - j % b) b := by
  have hstart : j - j % b = j / b * b := by
    have hj := Nat.div_add_mod' j b
    omega
  rw [hstart, List.mem_range'_1, Nat.div_eq_iff hb]
  omega

/-- Two cells are in one box if they agree in the row and in the column of their blocks. -/
theorem boxOf_eq_iff {size : Size} {row column row' column' : Nat} (hcolumn : column < size.side)
    (hcolumn' : column' < size.side) :
    size.boxOf row column = size.boxOf row' column' ↔
      row / size.block = row' / size.block ∧ column / size.block = column' / size.block := by
  have hb := size.block_pos
  have hc : column / size.block < size.block := Nat.div_lt_of_lt_mul hcolumn
  have hc' : column' / size.block < size.block := Nat.div_lt_of_lt_mul hcolumn'
  unfold Size.boxOf
  constructor
  · intro heq
    have hdiv := congrArg (· / size.block) heq
    simp only [Nat.add_comm (_ * size.block), Nat.add_mul_div_right _ _ hb, Nat.div_eq_of_lt hc,
      Nat.div_eq_of_lt hc', Nat.zero_add] at hdiv
    refine ⟨hdiv, ?_⟩
    rw [hdiv] at heq
    omega
  · rintro ⟨hrow, hcolumn⟩
    rw [hrow, hcolumn]

theorem position_div_mod (size : Size) (q : Nat) :
    q / size.side * size.side + q % size.side = q := Nat.div_add_mod' q size.side

/-- **The block around a cell is its box.** -/
theorem mem_blockAround {size : Size} {row column q : Nat} (hrow : row < size.side)
    (hcolumn : column < size.side) :
    q ∈ blockAround size row column ↔ q ∈ boxCells size (size.boxOf row column) := by
  have hb := size.block_pos
  have hn := size.side_pos
  have hside : size.side = size.block * size.block := rfl
  rw [mem_boxCells, boxOf_eq_iff (Nat.mod_lt _ hn) hcolumn, div_eq_iff_mem_range hb,
    div_eq_iff_mem_range hb]
  simp only [blockAround, List.mem_flatMap, List.mem_map]
  constructor
  · rintro ⟨r, hr, c, hc, rfl⟩
    -- a block does not reach over the edge of the board
    have hr' : r < size.side := by
      have hlt := (div_eq_iff_mem_range hb).mpr hr ▸ Nat.div_lt_of_lt_mul hrow
      exact Nat.lt_mul_of_div_lt hlt hb
    have hc' : c < size.side := by
      have hlt := (div_eq_iff_mem_range hb).mpr hc ▸ Nat.div_lt_of_lt_mul hcolumn
      exact Nat.lt_mul_of_div_lt hlt hb
    obtain ⟨hlt, hdiv, hmod⟩ := Size.div_mod_position hr' hc'
    rw [hdiv, hmod]
    exact ⟨hlt, hr, hc⟩
  · rintro ⟨-, hr, hc⟩
    exact ⟨_, hr, _, hc, position_div_mod size q⟩

theorem mem_digitsIn_rowCells {row v : Nat} (hrow : row < s.size.side) :
    v ∈ s.digitsIn (rowCells s.size row) ↔
      v ≠ 0 ∧ ∃ c < s.size.side, s.valueAt (row * s.size.side + c) = v := by
  rw [mem_digitsIn]
  refine and_congr_right fun _ => ?_
  constructor
  · rintro ⟨q, hq, rfl⟩
    obtain ⟨-, rfl⟩ := mem_rowCells.mp hq
    exact ⟨q % s.size.side, Nat.mod_lt _ s.size.side_pos, by rw [position_div_mod]⟩
  · rintro ⟨c, hc, rfl⟩
    obtain ⟨hlt, hdiv, -⟩ := Size.div_mod_position hrow hc
    exact ⟨_, mem_rowCells.mpr ⟨hlt, hdiv⟩, rfl⟩

theorem mem_digitsIn_columnCells {column v : Nat} (hcolumn : column < s.size.side) :
    v ∈ s.digitsIn (columnCells s.size column) ↔
      v ≠ 0 ∧ ∃ r < s.size.side, s.valueAt (r * s.size.side + column) = v := by
  rw [mem_digitsIn]
  refine and_congr_right fun _ => ?_
  constructor
  · rintro ⟨q, hq, rfl⟩
    obtain ⟨hlt, rfl⟩ := mem_columnCells.mp hq
    exact ⟨q / s.size.side, Nat.div_lt_of_lt_mul hlt, by rw [position_div_mod]⟩
  · rintro ⟨r, hr, rfl⟩
    obtain ⟨hlt, -, hmod⟩ := Size.div_mod_position hr hcolumn
    exact ⟨_, mem_columnCells.mpr ⟨hlt, hmod⟩, rfl⟩

/-- What the scan finds out. -/
theorem isLegalByScan_iff : s.isLegalByScan p = true ↔
    p.size = s.size ∧ p.isValid = true ∧ s.valueAt (p.row * s.size.side + p.column) = 0 ∧
      (¬ ∃ c < s.size.side, s.valueAt (p.row * s.size.side + c) = p.value) ∧
      (¬ ∃ r < s.size.side, s.valueAt (r * s.size.side + p.column) = p.value) ∧
      ¬ ∃ q ∈ blockAround s.size p.row p.column, s.valueAt q = p.value := by
  simp only [isLegalByScan]
  split_ifs with hready hfilled
  · rcases Bool.or_eq_true_iff.mp hready with hsize | hvalid
    · simp [of_decide_eq_true hsize]
    · simp [Bool.not_eq_true' _ ▸ hvalid]
  · simp [hfilled]
  · obtain ⟨hsize, hvalid⟩ : p.size = s.size ∧ p.isValid = true := by simpa using hready
    simp [hsize, hvalid, not_not.mp hfilled, and_assoc]

/-- **The rules accept what the scan accepts.** -/
theorem isLegal_eq_scan (s : Sudoku) (p : Placement) : s.isLegal p = s.isLegalByScan p := by
  rw [Bool.eq_iff_iff, isLegal_iff, isLegalByScan_iff]
  refine and_congr_right fun hsize => and_congr_right fun hvalid => ?_
  have hne : p.value ≠ 0 := Nat.ne_of_gt (Placement.valid_iff.mp hvalid).2.1
  have hrow := Placement.row_lt hvalid
  have hcolumn := Placement.column_lt (p := p)
  have hposition : p.row * s.size.side + p.column = p.position := by
    rw [← hsize]
    exact position_div_mod p.size p.position
  have hbox : p.box = s.size.boxOf p.row p.column := by
    rw [← hsize]
    rfl
  rw [hsize] at hrow hcolumn
  rw [hposition, hbox, mem_digitsIn_rowCells hrow, mem_digitsIn_columnCells hcolumn, mem_digitsIn]
  simp only [mem_blockAround hrow hcolumn, ne_eq, hne, not_false_eq_true, true_and]

/-! ## Constraints in common -/

theorem isValid_placement (hrange : ∀ q, s.valueAt q ≤ s.size.side) {q : Nat}
    (hq : s.valueAt q ≠ 0) : (placement s.size s q).isValid = true :=
  Placement.valid_iff.mpr ⟨lt_of_valueAt hq, Nat.pos_of_ne_zero hq, hrange q⟩

/-- **What a placement has in common with a given:** the cell, or else the digit together with the
row, the column or the box. -/
theorem shares_iff (hsize : p.size = s.size) {q : Nat} :
    (∃ k ∈ p.constraints, k ∈ (placement s.size s q).constraints) ↔
      q = p.position ∨ s.valueAt q = p.value ∧
        (q / s.size.side = p.row ∨ q % s.size.side = p.column ∨
          s.size.boxOf (q / s.size.side) (q % s.size.side) = p.box) := by
  have hposition : q = p.position ↔ q / s.size.side = p.row ∧ q % s.size.side = p.column := by
    constructor
    · rintro rfl
      rw [← hsize]
      exact ⟨rfl, rfl⟩
    · rintro ⟨hrow, hcolumn⟩
      rw [← position_div_mod s.size q, hrow, hcolumn, ← hsize]
      exact position_div_mod p.size p.position
  -- each of the four constraints of a given is of another kind
  have hgiven : (placement s.size s q).constraints =
      [.cell (q / s.size.side + 1) (q % s.size.side + 1), .inRow (q / s.size.side + 1) (s.valueAt q),
        .inColumn (q % s.size.side + 1) (s.valueAt q),
        .inBox (s.size.boxOf (q / s.size.side) (q % s.size.side) + 1) (s.valueAt q)] := rfl
  rw [hposition, hgiven]
  simp only [Placement.constraints, List.mem_cons, List.not_mem_nil, or_false, exists_eq_or_imp,
    exists_eq_left, Constraint.cell.injEq, Constraint.inRow.injEq, Constraint.inColumn.injEq,
    Constraint.inBox.injEq, reduceCtorEq, false_or, Nat.add_right_cancel_iff]
  rw [← or_and_right, ← or_and_right, and_comm (b := p.value = _), @eq_comm _ p.row,
    @eq_comm _ p.column, @eq_comm _ p.box, @eq_comm _ p.value]

/-- On a board with digits in range, keys tell as much as constraints. -/
theorem disjoint_keys_iff (hrange : ∀ q, s.valueAt q ≤ s.size.side) (hvalid : p.isValid = true) :
    (∀ given ∈ s.initial, ∀ key ∈ p.keys, key ∉ given.keys) ↔
      ∀ q, s.valueAt q ≠ 0 → ¬ ∃ k ∈ p.constraints, k ∈ (placement s.size s q).constraints := by
  constructor
  · rintro hdisjoint q hq ⟨k, hk, hkgiven⟩
    exact hdisjoint _ (mem_initial.mpr ⟨q, hq, rfl⟩) k.key (List.mem_map_of_mem hk)
      (List.mem_map_of_mem hkgiven)
  · intro happart given hgiven key hkey hkeygiven
    obtain ⟨q, hq, rfl⟩ := mem_initial.mp hgiven
    obtain ⟨k, hk, rfl⟩ := List.mem_map.mp hkey
    exact happart q hq ⟨k, hk, (key_mem_keys (isValid_placement hrange hq)
      (Placement.fits_of_mem hvalid hk)).mp hkeygiven⟩

/-- **The legal placements are the candidates that have no key in common with a given.** -/
theorem isLegal_iff_disjoint (hrange : ∀ q, s.valueAt q ≤ s.size.side) :
    s.isLegal p = true ↔
      p ∈ candidates s.size ∧ ∀ given ∈ s.initial, ∀ key ∈ p.keys, key ∉ given.keys := by
  rw [isLegal_iff, mem_candidates, and_assoc]
  refine and_congr_right fun hsize => and_congr_right fun hvalid => ?_
  rw [disjoint_keys_iff hrange hvalid]
  have hne : p.value ≠ 0 := Nat.ne_of_gt (Placement.valid_iff.mp hvalid).2.1
  simp only [shares_iff hsize, mem_digitsIn, mem_rowCells, mem_columnCells, mem_boxCells]
  constructor
  · rintro ⟨hempty, hrow, hcolumn, hbox⟩ q hq (rfl | ⟨hvalue, hsame⟩)
    · exact hq hempty
    · have hlt := lt_of_valueAt hq
      rcases hsame with heq | heq | heq
      · exact hrow ⟨hne, q, ⟨hlt, heq⟩, hvalue⟩
      · exact hcolumn ⟨hne, q, ⟨hlt, heq⟩, hvalue⟩
      · exact hbox ⟨hne, q, ⟨hlt, heq⟩, hvalue⟩
  · intro happart
    refine ⟨?_, ?_, ?_, ?_⟩
    · by_contra hfilled
      exact happart p.position hfilled (Or.inl rfl)
    · rintro ⟨-, q, ⟨-, heq⟩, hvalue⟩
      exact happart q (hvalue ▸ hne) (Or.inr ⟨hvalue, Or.inl heq⟩)
    · rintro ⟨-, q, ⟨-, heq⟩, hvalue⟩
      exact happart q (hvalue ▸ hne) (Or.inr ⟨hvalue, Or.inr (Or.inl heq)⟩)
    · rintro ⟨-, q, ⟨-, heq⟩, hvalue⟩
      exact happart q (hvalue ▸ hne) (Or.inr ⟨hvalue, Or.inr (Or.inr heq)⟩)

end Sudoku

end ExactCover
