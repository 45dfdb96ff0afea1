import ExactCover.Proofs.Sudoku.Keys
import Mathlib.Data.List.Perm.Subperm

/-!
# Completing a board

A completion of a board keeps what is filled and has every digit once in every row, column and
box. The rules of the game lead to completions and to nothing else: a list of moves that is
accepted and ends in a solved board ends in a completion, and every completion is reached by
filling in its digits in any order.

* **`Sudoku.Completion`**: what it is to complete a board.
* **`Sudoku.Played`**: what accepted moves do to a board, and **`played_of_replay`**.
* **`completion_of_solved`**: a solved board that was played to is a completion.
* **`Completion.replay`**: filling in a completion, in any order, is accepted and solves the board.
-/

namespace ExactCover

namespace Sudoku

variable {s t : Sudoku}

/-! ## Cells and houses -/

theorem mem_positions {size : Size} {q : Nat} : q ∈ positions size ↔ q < size.cells := by
  simp [positions]

/-- The houses are listed cell by cell; what is used of them is when a cell is in one. -/
theorem mem_rowCells {size : Size} {row q : Nat} :
    q ∈ rowCells size row ↔ q < size.cells ∧ q / size.side = row := by
  simp [rowCells, mem_positions]

theorem mem_columnCells {size : Size} {column q : Nat} :
    q ∈ columnCells size column ↔ q < size.cells ∧ q % size.side = column := by
  simp [columnCells, mem_positions]

theorem mem_boxCells {size : Size} {box q : Nat} :
    q ∈ boxCells size box ↔
      q < size.cells ∧ size.boxOf (q / size.side) (q % size.side) = box := by
  simp [boxCells, mem_positions]

theorem rowCells_mem {size : Size} {row : Nat} (h : row < size.side) :
    rowCells size row ∈ houses size := by
  simp only [houses, List.mem_append, List.mem_map, List.mem_range]
  exact Or.inl (Or.inl ⟨row, h, rfl⟩)

theorem columnCells_mem {size : Size} {column : Nat} (h : column < size.side) :
    columnCells size column ∈ houses size := by
  simp only [houses, List.mem_append, List.mem_map, List.mem_range]
  exact Or.inl (Or.inr ⟨column, h, rfl⟩)

theorem boxCells_mem {size : Size} {box : Nat} (h : box < size.side) :
    boxCells size box ∈ houses size := by
  simp only [houses, List.mem_append, List.mem_map, List.mem_range]
  exact Or.inr ⟨box, h, rfl⟩

theorem lt_of_mem_house {size : Size} {house : List Nat} (hhouse : house ∈ houses size) {q : Nat}
    (hq : q ∈ house) : q < size.cells := by
  simp only [houses, List.mem_append, List.mem_map] at hhouse
  rcases hhouse with (⟨_, -, rfl⟩ | ⟨_, -, rfl⟩) | ⟨_, -, rfl⟩
  · exact (mem_rowCells.mp hq).1
  · exact (mem_columnCells.mp hq).1
  · exact (mem_boxCells.mp hq).1

/-- A house has as many cells as there are digits. There are four sizes of boards, so this is
checked on each of them. -/
theorem length_house {size : Size} {house : List Nat} (hhouse : house ∈ houses size) :
    house.length = size.side := by
  have hall : (houses size).all (fun house => house.length = size.side) = true := by
    cases size <;> decide +kernel
  simpa using List.all_eq_true.mp hall house hhouse

/-! ## Writing -/

/-- Writing changes one cell. A cell that is not on the board cannot be written. -/
theorem valueAt_write {q q' v : Nat} (hq : q < s.size.cells) :
    (s.write q v).valueAt q' = if q' = q then v else s.valueAt q' := by
  show (s.cells.setIfInBounds q v)[q']?.getD 0 = _
  rw [Vector.getElem?_setIfInBounds]
  by_cases heq : q' = q
  · rw [if_pos heq.symm, if_pos hq, if_pos heq]
    rfl
  · rw [if_neg (Ne.symm heq), if_neg heq]
    rfl

/-- Only cells of the board have a digit, as all others read as empty. -/
theorem lt_of_valueAt {q : Nat} (hq : s.valueAt q ≠ 0) : q < s.size.cells := by
  by_contra hge
  exact hq (by simp [valueAt, Vector.getElem?_eq_none (Nat.le_of_not_lt hge)])

def empties (s : Sudoku) : List Nat := (positions s.size).filter (s.valueAt · = 0)

/-- The empty cells are those of the board that read as zero. -/
theorem mem_empties {q : Nat} : q ∈ s.empties ↔ q < s.size.cells ∧ s.valueAt q = 0 := by
  simp [empties, mem_positions]

theorem nodup_empties (s : Sudoku) : s.empties.Nodup := List.nodup_range.filter _

/-- Every cell is given or empty. -/
theorem givens_add_empties (s : Sudoku) : s.givens + s.empties.length = s.size.cells := by
  have hsplit : (positions s.size).length = s.givens + _ :=
    List.length_eq_countP_add_countP fun q => decide (s.valueAt q ≠ 0)
  simpa [empties, List.countP_eq_length_filter, positions] using hsplit.symm

/-- A board is full if it has as many numbers as cells. -/
theorem isFull_iff : s.isFull = true ↔ s.givens = s.size.cells := by
  rw [isFull, List.all_eq_true, ← List.countP_eq_length (l := positions s.size), givens]
  simp [positions]

/-- Writing into an empty cell leaves the other empty cells. -/
theorem empties_write {q v : Nat} (hq : q < s.size.cells) (hempty : s.valueAt q = 0) (hv : v ≠ 0) :
    s.empties.Perm (q :: (s.write q v).empties) := by
  have herase : s.empties.erase q = (s.write q v).empties := by
    rw [s.nodup_empties.erase_eq_filter, empties, List.filter_filter]
    refine List.filter_congr fun q' _ => ?_
    rw [valueAt_write hq]
    by_cases heq : q' = q
    · simp [heq, hv]
    · simp [heq]
  rw [← herase]
  exact List.perm_cons_erase (mem_empties.mpr ⟨hq, hempty⟩)

/-- A digit in an empty cell makes one more given. -/
theorem givens_write {q v : Nat} (hq : q < s.size.cells) (hempty : s.valueAt q = 0) (hv : v ≠ 0) :
    (s.write q v).givens = s.givens + 1 := by
  have hlength := (empties_write hq hempty hv).length_eq
  have hbefore := s.givens_add_empties
  have hafter := (s.write q v).givens_add_empties
  rw [List.length_cons] at hlength
  have hsize : (s.write q v).size = s.size := rfl
  rw [hsize] at hafter
  omega

/-- The digits in some cells, where an empty cell adds none. -/
theorem mem_digitsIn {cells : List Nat} {v : Nat} :
    v ∈ s.digitsIn cells ↔ v ≠ 0 ∧ ∃ q ∈ cells, s.valueAt q = v := by
  simp [digitsIn, and_comm]

/-- A placement is legal if its cell is empty and its digit is not in the row, the column or the
box. -/
theorem isLegal_iff {p : Placement} :
    s.isLegal p = true ↔ p.size = s.size ∧ p.isValid = true ∧ s.valueAt p.position = 0 ∧
      p.value ∉ s.digitsIn (rowCells s.size p.row) ∧
      p.value ∉ s.digitsIn (columnCells s.size p.column) ∧
      p.value ∉ s.digitsIn (boxCells s.size p.box) := by
  simp [isLegal, and_assoc]

theorem mem_cells_of_valueAt {g : Grid} {row column : Nat} (h : g.valueAt row column ≠ 0) :
    (row, column, g.valueAt row column) ∈ g.cells := by
  unfold Grid.valueAt at h ⊢
  cases hrow : g.rows[row]? with
  | none => simp [hrow] at h
  | some cells =>
    cases hvalue : cells[column]? with
    | none => simp [hrow, hvalue] at h
    | some value =>
      simp only [Grid.cells, List.mem_flatMap, List.mem_map]
      exact ⟨(cells, row), List.mem_zipIdx_iff_getElem?.mpr hrow, (value, column),
        List.mem_zipIdx_iff_getElem?.mpr hvalue, by simp [hvalue]⟩

/-- A grid that is read as a board has no number larger than the largest digit. -/
theorem valueAt_le_of_ofGrid {g : Grid} (h : ofGrid g = .ok s) (q : Nat) :
    s.valueAt q ≤ s.size.side := by
  unfold ofGrid at h
  split at h
  · cases h
  case h_2 size hsize =>
    split at h
    · cases h
    · split at h
      · cases h
      case h_2 hfind =>
        cases h
        by_cases hq : q < size.cells
        · have hvalue : valueAt ⟨size, .ofFn fun i => g.valueAt (i / size.side) (i % size.side)⟩ q =
              g.valueAt (q / size.side) (q % size.side) := by
            simp [valueAt, hq]
          rw [hvalue]
          by_cases hzero : g.valueAt (q / size.side) (q % size.side) = 0
          · omega
          · have hsmall := List.find?_eq_none.mp hfind _ (mem_cells_of_valueAt hzero)
            simpa using hsmall
        · exact Nat.le_trans (Nat.le_of_eq (by simp [valueAt, hq])) (Nat.zero_le _)

/-! ## Playing -/

/-- What a list of moves does that leads from `s` to `t`. -/
structure Played (s : Sudoku) (moves : List Placement) (t : Sudoku) : Prop where
  size : t.size = s.size
  keeps : ∀ q, s.valueAt q ≠ 0 → t.valueAt q = s.valueAt q
  range : (∀ q, s.valueAt q ≤ s.size.side) → ∀ q, t.valueAt q ≤ t.size.side
  /-- Every move is one for boards of this size, and fills a cell that was empty from the start. -/
  fills : ∀ move ∈ moves, move.size = s.size ∧ move.position < s.size.cells ∧
    s.valueAt move.position = 0
  nodup : (moves.map Placement.position).Nodup
  givens : t.givens = s.givens + moves.length

/-- What an accepted move has checked, and what it writes. -/
theorem play?_eq_some {move : Placement} {s' : Sudoku} (h : s.play? move = some s') :
    s' = s.write move.position move.value ∧ move.size = s.size ∧ move.position < s.size.cells ∧
      s.valueAt move.position = 0 ∧ move.value ≠ 0 ∧ move.value ≤ s.size.side := by
  unfold play? at h
  split_ifs at h with hlegal
  obtain ⟨hsize, hvalid, hempty, -⟩ := isLegal_iff.mp hlegal
  obtain ⟨hposition, hpos, hle⟩ := Placement.valid_iff.mp hvalid
  rw [hsize] at hposition hle
  exact ⟨(Option.some.inj h).symm, hsize, hposition, hempty, Nat.ne_of_gt hpos, hle⟩

/-- **One move more, before the others.** -/
theorem Played.cons {move : Placement} {moves : List Placement} {s' : Sudoku}
    (hplay : s.play? move = some s') (h : Played s' moves t) : Played s (move :: moves) t := by
  obtain ⟨rfl, hsize, hposition, hempty, hne, hle⟩ := play?_eq_some hplay
  have hwrite : ∀ q, (s.write move.position move.value).valueAt q =
      if q = move.position then move.value else s.valueAt q := fun q => valueAt_write hposition
  have hother : ∀ q, (s.write move.position move.value).valueAt q = 0 →
      q ≠ move.position ∧ s.valueAt q = 0 := fun q hq => by
    rw [hwrite] at hq
    split_ifs at hq with heq
    · exact absurd hq hne
    · exact ⟨heq, hq⟩
  refine ⟨h.size, fun q hq => ?_, fun hrange => h.range fun q => ?_, fun move' hmove' => ?_, ?_, ?_⟩
  · have hkept : (s.write move.position move.value).valueAt q = s.valueAt q := by
      rw [hwrite, if_neg fun heq : q = move.position => hq (heq ▸ hempty)]
    rw [h.keeps q (hkept ▸ hq), hkept]
  · rw [hwrite]
    split_ifs
    · exact hle
    · exact hrange q
  · rcases List.mem_cons.mp hmove' with rfl | hmove'
    · exact ⟨hsize, hposition, hempty⟩
    · obtain ⟨hsize', hposition', hempty'⟩ := h.fills move' hmove'
      exact ⟨hsize', hposition', (hother _ hempty').2⟩
  · -- the others fill cells that were still empty after this one
    rw [List.map_cons, List.nodup_cons]
    refine ⟨fun hmem => ?_, h.nodup⟩
    obtain ⟨move', hmove', heq⟩ := List.mem_map.mp hmem
    exact (hother _ (h.fills move' hmove').2.2).1 heq
  · rw [h.givens, givens_write hposition hempty hne, List.length_cons]
    omega

/-- **Accepted moves fill empty cells, each another one, and change nothing else.** Induction on the
moves. -/
theorem played_of_replay {moves : List Placement} (h : Puzzle.replay? s moves = some t) :
    Played s moves t := by
  induction moves generalizing s with
  | nil =>
    obtain rfl : s = t := by simpa [Puzzle.replay?] using h
    exact ⟨rfl, fun _ _ => rfl, id, by simp, by simp, by simp⟩
  | cons move moves ih =>
    rw [Puzzle.replay?, List.foldlM_cons] at h
    obtain ⟨s', hplay, hrest⟩ := Option.bind_eq_some_iff.mp h
    exact Played.cons hplay (ih hrest)

/-! ## Completions -/

/-- The board `t` completes `s`: it keeps what is filled, and every row, column and box holds
every digit once. -/
structure Completion (s t : Sudoku) : Prop where
  size : t.size = s.size
  keeps : ∀ q, s.valueAt q ≠ 0 → t.valueAt q = s.valueAt q
  houses : ∀ house ∈ houses s.size, (house.map t.valueAt).Perm (List.range' 1 s.size.side)

/-- **A solved board that was played to is a completion.** In a house there are as many cells as
digits, none is empty and no digit is there twice. -/
theorem completion_of_solved {moves : List Placement} (h : Played s moves t)
    (hrange : ∀ q, s.valueAt q ≤ s.size.side) (hsolved : t.isSolved = true) : Completion s t := by
  simp only [isSolved, isFull, isConsistent, Bool.and_eq_true, List.all_eq_true, decide_eq_true_eq]
    at hsolved
  obtain ⟨hfull, hconsistent⟩ := hsolved
  rw [h.size] at hfull hconsistent
  refine ⟨h.size, h.keeps, fun house hhouse => ?_⟩
  have hfilled : ∀ q ∈ house, t.valueAt q ≠ 0 := fun q hq =>
    hfull q (mem_positions.mpr (lt_of_mem_house hhouse hq))
  have hdigits : t.digitsIn house = house.map t.valueAt :=
    List.filter_eq_self.mpr fun v hv => by
      obtain ⟨q, hq, rfl⟩ := List.mem_map.mp hv
      simpa using hfilled q hq
  -- as many different digits as there are can only be all of them
  have hnodup : (house.map t.valueAt).Nodup := hdigits ▸ hconsistent house hhouse
  have hsub : house.map t.valueAt ⊆ List.range' 1 s.size.side := fun v hv => by
    obtain ⟨q, hq, rfl⟩ := List.mem_map.mp hv
    have hpos := hfilled q hq
    have hle := h.range hrange q
    rw [h.size] at hle
    rw [List.mem_range'_1]
    omega
  refine (List.subperm_of_subset hnodup hsub).perm_of_length_le (Nat.le_of_eq ?_)
  rw [List.length_map, List.length_range', length_house hhouse]

/-- The placement of what a board has in a cell. -/
def placement (size : Size) (t : Sudoku) (q : Nat) : Placement :=
  { position := q, value := t.valueAt q, size }

/-- The placements that are still missing. -/
def fills (s t : Sudoku) : List Placement := s.empties.map (placement s.size t)

/-- The moves that lead to a completion are one for each empty cell, with its digit there. -/
theorem mem_fills {p : Placement} : p ∈ s.fills t ↔
    p.position < s.size.cells ∧ s.valueAt p.position = 0 ∧ p.value = t.valueAt p.position ∧
      p.size = s.size := by
  simp only [fills, List.mem_map, mem_empties]
  constructor
  · rintro ⟨q, ⟨hq, hempty⟩, rfl⟩
    exact ⟨hq, hempty, rfl, rfl⟩
  · rintro ⟨hq, hempty, hvalue, hsize⟩
    exact ⟨p.position, ⟨hq, hempty⟩, by simp only [placement, ← hvalue, ← hsize]⟩

namespace Completion

variable {q q' : Nat} {house : List Nat}

/-- No digit is in two cells of a house. -/
theorem value_injective (h : Completion s t) (hhouse : house ∈ Sudoku.houses s.size)
    (hq : q ∈ house) (hq' : q' ∈ house) (heq : t.valueAt q = t.valueAt q') : q = q' := by
  have hnodup : (house.map t.valueAt).Nodup :=
    (h.houses house hhouse).nodup_iff.mpr List.nodup_range'
  exact List.inj_on_of_nodup_map hnodup hq hq' heq

/-- In every house there is a cell for every digit. -/
theorem exists_cell (h : Completion s t) (hhouse : house ∈ Sudoku.houses s.size) {d : Nat}
    (hd : 1 ≤ d) (hd' : d ≤ s.size.side) : ∃ q ∈ house, t.valueAt q = d := by
  refine List.mem_map.mp ((h.houses house hhouse).mem_iff.mpr ?_)
  rw [List.mem_range'_1]
  omega

/-- A completion has no empty cell and no digit that is too large. -/
theorem value_range (h : Completion s t) (hq : q < s.size.cells) :
    1 ≤ t.valueAt q ∧ t.valueAt q ≤ s.size.side := by
  have hhouse : rowCells s.size (q / s.size.side) ∈ Sudoku.houses s.size :=
    rowCells_mem (Nat.div_lt_of_lt_mul hq)
  have hmem := (h.houses _ hhouse).mem_iff.mp (List.mem_map_of_mem (mem_rowCells.mpr ⟨hq, rfl⟩))
  rw [List.mem_range'_1] at hmem
  omega

/-- The digit that a completion has in an empty cell is in no other cell of a house yet. -/
theorem notMem_digitsIn (h : Completion s t) (hhouse : house ∈ Sudoku.houses s.size)
    (hq : q ∈ house) (hempty : s.valueAt q = 0) : t.valueAt q ∉ s.digitsIn house := by
  intro hmem
  obtain ⟨hne, q', hq', hvalue⟩ := mem_digitsIn.mp hmem
  -- a given cell with this digit would be the same cell
  have hkept := h.keeps q' (hvalue ▸ hne)
  obtain rfl := h.value_injective hhouse hq' hq (hkept.trans hvalue)
  exact hne (hvalue ▸ hempty)

/-- **A missing placement is legal, and leaves the others missing.** -/
theorem play (h : Completion s t) {p : Placement} (hp : p ∈ s.fills t) :
    ∃ s', s.play? p = some s' ∧ Completion s' t ∧ (s.fills t).Perm (p :: s'.fills t) := by
  obtain ⟨hposition, hempty, hvalue, hsize⟩ := mem_fills.mp hp
  obtain ⟨hpos, hle⟩ := h.value_range hposition
  have hvalid : p.isValid = true := by
    rw [Placement.valid_iff, hsize, hvalue]
    exact ⟨hposition, hpos, hle⟩
  have hrow := Placement.row_lt hvalid
  have hcolumn := Placement.column_lt (p := p)
  have hbox := Placement.box_lt hvalid
  rw [hsize] at hrow hcolumn hbox
  have hlegal : s.isLegal p = true := by
    rw [isLegal_iff, hvalue]
    refine ⟨hsize, hvalid, hempty, h.notMem_digitsIn (rowCells_mem hrow) ?_ hempty,
      h.notMem_digitsIn (columnCells_mem hcolumn) ?_ hempty,
      h.notMem_digitsIn (boxCells_mem hbox) ?_ hempty⟩
    · exact mem_rowCells.mpr ⟨hposition, by rw [Placement.row, hsize]⟩
    · exact mem_columnCells.mpr ⟨hposition, by rw [Placement.column, hsize]⟩
    · refine mem_boxCells.mpr ⟨hposition, ?_⟩
      rw [Placement.box, Placement.row, Placement.column, hsize]
  have hwrite : ∀ q, (s.write p.position p.value).valueAt q =
      if q = p.position then p.value else s.valueAt q := fun q => valueAt_write hposition
  refine ⟨s.write p.position p.value, by rw [play?, if_pos hlegal], ⟨h.size, ?_, h.houses⟩, ?_⟩
  · intro q hq
    rw [hwrite] at hq ⊢
    split_ifs at hq ⊢ with heq
    · rw [heq, hvalue]
    · exact h.keeps q hq
  · have hne : p.value ≠ 0 := by omega
    have hp' : placement s.size t p.position = p := by
      simp only [placement, ← hvalue, ← hsize]
    have hmap := (empties_write hposition hempty hne).map (placement s.size t)
    rw [List.map_cons, hp'] at hmap
    exact hmap

/-- A board that nothing is missing from is solved. -/
theorem isSolved (h : Completion s t) (hfills : s.fills t = []) : s.isSolved = true := by
  have hfull : ∀ q < s.size.cells, s.valueAt q ≠ 0 := fun q hq hempty => by
    have hmem : (⟨q, t.valueAt q, s.size⟩ : Placement) ∈ s.fills t :=
      mem_fills.mpr ⟨hq, hempty, rfl, rfl⟩
    simp [hfills] at hmem
  simp only [Sudoku.isSolved, isFull, isConsistent, Bool.and_eq_true, List.all_eq_true,
    decide_eq_true_eq]
  refine ⟨fun q hq => hfull q (mem_positions.mp hq), fun house hhouse => ?_⟩
  have hvalues : house.map s.valueAt = house.map t.valueAt :=
    List.map_congr_left fun q hq => (h.keeps q (hfull q (lt_of_mem_house hhouse hq))).symm
  rw [digitsIn, hvalues]
  exact ((h.houses house hhouse).nodup_iff.mpr List.nodup_range').filter _

/-- **A completion can be filled in in any order.** Induction on the placements: each one is
legal, and the others are what is missing then. -/
theorem replay (h : Completion s t) {moves : List Placement} (hmoves : moves.Perm (s.fills t)) :
    Puzzle.isSolvedBy s moves = true := by
  induction moves generalizing s with
  | nil =>
    have hsolved := h.isSolved hmoves.symm.eq_nil
    exact hsolved
  | cons p moves ih =>
    obtain ⟨s', hplay, hs', hperm⟩ := h.play (hmoves.mem_iff.mp List.mem_cons_self)
    have hrest := ih hs' (hmoves.trans hperm).cons_inv
    have hplay' : Puzzle.play? s p = some s' := hplay
    rw [Puzzle.isSolvedBy, Puzzle.replay?, List.foldlM_cons, hplay']
    exact hrest

end Completion

end Sudoku

end ExactCover
